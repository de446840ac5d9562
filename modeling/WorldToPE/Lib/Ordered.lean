import Mathlib.Tactic
import Mathlib.Data.List.TakeWhile
import Std.Data.ExtTreeMap

/-!
# WorldToPE.Lib.Ordered — sorted lists under a comparator

A list that ascends strictly under `cmp`, with the two operations of an ordered container: `insert`
puts an element in its place, `seek` drops what lies before a target.
-/

namespace Ordered

variable {α : Type} (cmp : α → α → Ordering)

def Ascending (l : List α) : Prop := l.Pairwise fun a b => cmp a b = .lt

/-- What is at or after the target. -/
def seek (target : α) (l : List α) : List α := l.dropWhile fun a => cmp a target = .lt

/-- What is before the target. -/
def before (target : α) (l : List α) : List α := l.takeWhile fun a => cmp a target = .lt

def insert (a : α) (l : List α) : List α := before cmp a l ++ a :: seek cmp a l

variable {cmp} {l : List α} {a b target : α}

theorem before_append_seek (cmp : α → α → Ordering) (target : α) (l : List α) :
    before cmp target l ++ seek cmp target l = l :=
  List.takeWhile_append_dropWhile

theorem lt_of_mem_before (h : a ∈ before cmp target l) : cmp a target = .lt := by
  have := List.mem_takeWhile_imp h
  simpa using this

theorem mem_insert : b ∈ insert cmp a l ↔ b = a ∨ b ∈ l := by
  conv_rhs => rw [← before_append_seek cmp a l]
  unfold insert
  simp only [List.mem_append, List.mem_cons]
  tauto

theorem seek_suffix (target : α) (l : List α) : seek cmp target l <:+ l := List.dropWhile_suffix _

theorem Ascending.seek (h : Ascending cmp l) (target : α) : Ascending cmp (seek cmp target l) :=
  h.sublist (seek_suffix target l).sublist

section Trans

variable [Std.TransCmp cmp]

theorem not_lt_of_mem_seek (h : Ascending cmp l) (ha : a ∈ Ordered.seek cmp target l) :
    cmp a target ≠ .lt := by
  induction l with
  | nil => exact absurd ha List.not_mem_nil
  | cons b l ih =>
    obtain ⟨hb, hl⟩ := List.pairwise_cons.mp h
    unfold Ordered.seek at ha
    by_cases hlt : cmp b target = .lt
    · rw [List.dropWhile_cons_of_pos (by simpa using hlt)] at ha
      exact ih hl ha
    · rw [List.dropWhile_cons_of_neg (by simpa using hlt)] at ha
      rcases List.mem_cons.mp ha with rfl | ha
      · exact hlt
      · exact fun hat => hlt (Std.TransCmp.lt_trans (hb a ha) hat)

theorem mem_seek (h : Ascending cmp l) : a ∈ Ordered.seek cmp target l ↔ a ∈ l ∧ cmp a target ≠ .lt := by
  constructor
  · exact fun ha => ⟨(seek_suffix target l).subset ha, not_lt_of_mem_seek h ha⟩
  · rintro ⟨ha, hlt⟩
    rw [← before_append_seek cmp target l] at ha
    rcases List.mem_append.mp ha with ha | ha
    · exact absurd (lt_of_mem_before ha) hlt
    · exact ha

/-- The first element at or after the target. -/
theorem seek_eq_cons {rest : List α} (h : Ascending cmp l) (hs : Ordered.seek cmp target l = a :: rest) :
    a ∈ l ∧ cmp a target ≠ .lt ∧ ∀ b ∈ l, cmp b target ≠ .lt → b = a ∨ cmp a b = .lt := by
  have ha : a ∈ Ordered.seek cmp target l := by
    rw [hs]
    exact List.mem_cons_self
  refine ⟨((mem_seek h).mp ha).1, ((mem_seek h).mp ha).2, ?_⟩
  intro b hb hbt
  have hb' := (mem_seek h).mpr ⟨hb, hbt⟩
  rw [hs] at hb'
  have hasc := h.seek target
  rw [hs] at hasc
  rcases List.mem_cons.mp hb' with rfl | hb'
  · exact Or.inl rfl
  · exact Or.inr ((List.pairwise_cons.mp hasc).1 b hb')

theorem seek_eq_nil (h : Ascending cmp l) :
    Ordered.seek cmp target l = [] ↔ ∀ b ∈ l, cmp b target = .lt := by
  rw [List.eq_nil_iff_forall_not_mem]
  simp only [mem_seek h, not_and, not_not]

theorem Ascending.insert (h : Ascending cmp l) (hne : ∀ b ∈ l, cmp b a ≠ .eq) :
    Ascending cmp (insert cmp a l) := by
  have hl := h
  rw [← before_append_seek cmp a l] at hl
  obtain ⟨h1, h2, h3⟩ := List.pairwise_append.mp hl
  have hseek : ∀ b ∈ Ordered.seek cmp a l, cmp a b = .lt := by
    intro b hb
    obtain ⟨hbl, hlt⟩ := (mem_seek h).mp hb
    have hgt : cmp b a = .gt := by
      rcases hc : cmp b a with _ | _ | _
      · exact absurd hc hlt
      · exact absurd hc (hne b hbl)
      · rfl
    exact Std.OrientedCmp.gt_iff_lt.mp hgt
  refine List.pairwise_append.mpr ⟨h1, List.pairwise_cons.mpr ⟨hseek, h2⟩, ?_⟩
  intro b hb c hc
  rcases List.mem_cons.mp hc with rfl | hc
  · exact lt_of_mem_before hb
  · exact h3 b hb c hc

end Trans

end Ordered
