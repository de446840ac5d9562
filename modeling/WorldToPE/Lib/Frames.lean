import Mathlib.Tactic

/-!
# WorldToPE.Lib.Frames — a byte string cut in the middle of its frames

A list of items is written one after the other.  Wherever such a string is cut, what is left is the
items before the cut and a part of the item at the cut (`exists_cut`).  The item `i` begins at `off i`.
-/

namespace Frames

variable {α β : Type} {f : α → List β}

/-- A cut of two strings lies before the end of the first, or somewhere in the second. -/
theorem cut_append {as bs p q : List β} (h : as ++ bs = p ++ q) :
    (∃ t, as = p ++ t ∧ t ≠ []) ∨ ∃ t, p = as ++ t ∧ bs = t ++ q := by
  rcases List.append_eq_append_iff.mp h with ⟨t, hp, hbs⟩ | ⟨t, has, hq⟩
  · exact Or.inr ⟨t, hp, hbs⟩
  · by_cases hnil : t = []
    · subst hnil
      rw [List.append_nil] at has
      exact Or.inr ⟨[], by rw [List.append_nil, has], hq.symm⟩
    · exact Or.inl ⟨t, has, hnil⟩

/-- The item at the cut, when something is missing. -/
theorem exists_cut {p q : List β} : ∀ {items : List α}, items.flatMap f = p ++ q → q ≠ [] →
    ∃ before a after p' q', items = before ++ a :: after ∧ p = before.flatMap f ++ p' ∧
      f a = p' ++ q' ∧ q' ≠ []
  | [], h, hq => by
    rw [List.flatMap_nil] at h
    exact absurd (List.append_eq_nil_iff.mp h.symm).2 hq
  | a :: items, h, hq => by
    rw [List.flatMap_cons] at h
    rcases cut_append h with ⟨t, ht, hne⟩ | ⟨t, rfl, ht⟩
    · exact ⟨[], a, items, p, t, rfl, rfl, ht, hne⟩
    · obtain ⟨before, b, after, p', q', rfl, rfl, hb, hq'⟩ := exists_cut ht hq
      exact ⟨a :: before, b, after, p', q', rfl, by rw [List.flatMap_cons, List.append_assoc], hb, hq'⟩

/-! ## Offsets -/

/-- Where the item `i` begins. -/
def off (f : α → List β) (items : List α) (i : ℕ) : ℕ := ((items.take i).flatMap f).length

section Offsets

variable {items : List α} {a : α} {i j : ℕ}

@[simp] theorem off_zero (f : α → List β) (items : List α) : off f items 0 = 0 := by
  rw [off, List.take_zero, List.flatMap_nil, List.length_nil]

theorem off_succ (h : items[i]? = some a) : off f items (i + 1) = off f items i + (f a).length := by
  rw [off, off, List.take_add_one, h, Option.toList_some, List.flatMap_append, List.length_append,
    List.flatMap_singleton]

theorem off_length (f : α → List β) (items : List α) : off f items items.length = (items.flatMap f).length := by
  rw [off, List.take_length]

theorem off_le (f : α → List β) (items : List α) (i : ℕ) : off f items i ≤ (items.flatMap f).length := by
  have hsplit : items.flatMap f = (items.take i).flatMap f ++ (items.drop i).flatMap f := by
    rw [← List.flatMap_append, List.take_append_drop]
  rw [hsplit, List.length_append]
  exact Nat.le_add_right _ _

theorem off_append (h : i ≤ items.length) (more : List α) : off f (items ++ more) i = off f items i := by
  rw [off, off, List.take_append_of_le_length h]

theorem off_lt_succ (hf : ∀ a, f a ≠ []) (h : i < items.length) : off f items i < off f items (i + 1) := by
  have hpos : 0 < (f items[i]).length := List.length_pos_iff.mpr (hf _)
  rw [off_succ (List.getElem?_eq_getElem h)]
  omega

theorem off_lt (hf : ∀ a, f a ≠ []) (hij : i < j) (hj : j ≤ items.length) : off f items i < off f items j := by
  induction j, Nat.succ_le_of_lt hij using Nat.le_induction with
  | base => exact off_lt_succ hf hj
  | succ j _ ih => exact (ih (by omega) (by omega)).trans (off_lt_succ hf hj)

theorem off_lt_iff (hf : ∀ a, f a ≠ []) (hi : i ≤ items.length) (hj : j ≤ items.length) :
    off f items i < off f items j ↔ i < j := by
  constructor
  · intro hlt
    rcases lt_trichotomy i j with h | rfl | h
    · exact h
    · exact absurd hlt (lt_irrefl _)
    · exact absurd (off_lt hf h hi) hlt.asymm
  · exact fun hij => off_lt hf hij hj

theorem flatMap_split (f : α → List β) (h : items[i]? = some a) :
    items.flatMap f = (items.take i).flatMap f ++ (f a ++ (items.drop (i + 1)).flatMap f) := by
  obtain ⟨hi, rfl⟩ := List.getElem?_eq_some_iff.mp h
  rw [← List.flatMap_cons, ← List.drop_eq_getElem_cons hi, ← List.flatMap_append, List.take_append_drop]

/-- What is left from the item `i` on. -/
theorem drop_off (h : items[i]? = some a) :
    (items.flatMap f).drop (off f items i) = f a ++ (items.drop (i + 1)).flatMap f := by
  rw [flatMap_split f h, off, List.drop_left]

/-- Items of one size. -/
theorem off_eq_mul {w : ℕ} (hf : ∀ a, (f a).length = w) : ∀ {i : ℕ}, i ≤ items.length → off f items i = i * w
  | 0, _ => by rw [off_zero, Nat.zero_mul]
  | i + 1, h => by
    rw [off_succ (List.getElem?_eq_getElem h), hf, off_eq_mul hf (by omega), Nat.succ_mul]

end Offsets

end Frames
