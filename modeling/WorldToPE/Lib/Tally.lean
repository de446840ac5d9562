import Mathlib.Algebra.BigOperators.Group.List.Lemmas
import Mathlib.Tactic
import Std.Data.HashMap

/-!
# WorldToPE.Lib.Tally — counting into a hash map

A loop that counts the kinds of the things it meets keeps a map from kinds to counters.  `Counts` relates
such a map to the list of the kinds met so far; the counters are values of any type, read by `val`.

* `counts_empty`, `Counts.insert`: the start of the loop and its step.
* `Counts.occurrences_eq`: what a lookup tells.
* `Counts.sum_filter`: the counters of the kinds with a property sum up to the number of such things.
* `countP_eq_of_count_eq`: numbers of things with a property, from those without it.
* `count_replaced_to`, `count_replaced_other`: the numbers after some kinds were replaced by one.
-/

namespace Tally

section Counts

variable {κ ν : Type} [DecidableEq κ] [Hashable κ] {val : ν → ℤ}

/-- The map holds, for each key of the list, how often it occurs there. -/
def Counts (val : ν → ℤ) (counts : Std.HashMap κ ν) (l : List κ) : Prop :=
  ∀ k, counts[k]?.map val = if k ∈ l then some (l.count k : ℤ) else none

/-- What the map tells about a key, `0` without an entry. -/
def occurrences (val : ν → ℤ) (counts : Std.HashMap κ ν) (k : κ) : ℤ := (counts[k]?.map val).getD 0

variable {counts : Std.HashMap κ ν} {l : List κ}

theorem counts_empty : Counts val (∅ : Std.HashMap κ ν) [] := fun k => by simp

theorem Counts.occurrences_eq (h : Counts val counts l) (k : κ) :
    occurrences val counts k = l.count k := by
  unfold occurrences
  rw [h k]
  by_cases hk : k ∈ l
  · rw [if_pos hk]
    rfl
  · rw [if_neg hk, List.count_eq_zero_of_not_mem hk]
    rfl

/-- **One more `k`**, whose new counter says so. -/
theorem Counts.insert (h : Counts val counts l) {k : κ} {v : ν} (hv : val v = l.count k + 1) :
    Counts val (counts.insert k v) (l ++ [k]) := by
  intro k'
  rw [Std.HashMap.getElem?_insert]
  by_cases hk : k = k'
  · subst hk
    rw [if_pos (beq_self_eq_true k), Option.map_some, if_pos (by simp), hv, List.count_append,
      List.count_singleton_self]
    rfl
  · have hb : ¬ (k == k') = true := by simpa using hk
    have hcount : (l ++ [k]).count k' = l.count k' := by
      rw [List.count_append, List.count_eq_zero_of_not_mem (l := [k]) (by simpa using Ne.symm hk),
        Nat.add_zero]
    have hmem : k' ∈ l ++ [k] ↔ k' ∈ l := by simp [Ne.symm hk]
    rw [if_neg hb, h k', hcount]
    simp only [hmem]

theorem Counts.val_of_mem (h : Counts val counts l) {e : κ × ν} (he : e ∈ counts.toList) :
    e.1 ∈ l ∧ val e.2 = l.count e.1 := by
  have hget := Std.HashMap.mem_toList_iff_getElem?_eq_some.mp he
  have hk := h e.1
  rw [hget, Option.map_some] at hk
  by_cases hmem : e.1 ∈ l
  · rw [if_pos hmem] at hk
    exact ⟨hmem, Option.some.inj hk⟩
  · rw [if_neg hmem] at hk
    cases hk

/-- The keys of the map are the elements of the list, each once. -/
theorem Counts.perm_dedup (h : Counts val counts l) : (counts.toList.map Prod.fst).Perm l.dedup := by
  have hnodup : (counts.toList.map Prod.fst).Nodup := by
    rw [Std.HashMap.map_fst_toList_eq_keys]
    exact Std.HashMap.nodup_keys
  refine (List.perm_ext_iff_of_nodup hnodup l.nodup_dedup).mpr fun k => ?_
  rw [List.mem_dedup, List.mem_map]
  constructor
  · rintro ⟨e, he, rfl⟩
    exact (h.val_of_mem he).1
  · intro hk
    have hget := h k
    rw [if_pos hk] at hget
    obtain ⟨v, hv, -⟩ := Option.map_eq_some_iff.mp hget
    exact ⟨(k, v), Std.HashMap.mem_toList_iff_getElem?_eq_some.mpr hv, rfl⟩

/-- **The counters with a property** sum up to the number of elements with the property. -/
theorem Counts.sum_filter (h : Counts val counts l) (p : κ → Bool) :
    ((counts.toList.filter fun e => p e.1).map fun e => val e.2).sum = l.countP p := by
  have hval : ((counts.toList.filter fun e => p e.1).map fun e => val e.2) =
      ((counts.toList.map Prod.fst).filter p).map fun k => (l.count k : ℤ) := by
    rw [List.filter_map, List.map_map]
    refine List.map_congr_left fun e he => ?_
    exact (h.val_of_mem (List.mem_filter.mp he).1).2
  have hsum := List.sum_map_count_dedup_filter_eq_countP p l
  rw [hval, ((h.perm_dedup.filter p).map _).sum_eq, ← hsum, Nat.cast_list_sum, List.map_map]
  rfl

end Counts

/-- Lists of one length with the same things outside a property have as many things with it. -/
theorem countP_eq_of_count_eq {κ : Type} [DecidableEq κ] {l l' : List κ} {p : κ → Bool}
    (hlen : l.length = l'.length) (h : ∀ k, p k = false → l.count k = l'.count k) :
    l.countP p = l'.countP p := by
  have hperm : (l.filter fun k => ! p k).Perm (l'.filter fun k => ! p k) := by
    refine List.perm_iff_count.mpr fun k => ?_
    cases hk : p k with
    | false => rw [List.count_filter (by simp [hk]), List.count_filter (by simp [hk]), h k hk]
    | true =>
      have hnot : ∀ m : List κ, (m.filter fun k => ! p k).count k = 0 := fun m =>
        List.count_eq_zero_of_not_mem fun hmem => by simp [hk] at hmem
      rw [hnot, hnot]
  have hrest := hperm.length_eq
  rw [← List.countP_eq_length_filter, ← List.countP_eq_length_filter] at hrest
  have h1 := List.length_eq_countP_add_countP p (l := l)
  have h2 := List.length_eq_countP_add_countP p (l := l')
  have hneg : ∀ m : List κ, (m.countP fun k => decide (¬ p k = true)) = m.countP fun k => ! p k := fun m =>
    List.countP_congr fun k _ => by simp
  rw [hneg] at h1 h2
  omega

/-! ## Replacing some kinds by one -/

section Replace

variable {κ : Type} (m : κ → Prop) [DecidablePred m] (to' : κ)

/-- What replacing the kinds `m` by `to'` makes of a kind. -/
def replaced (k : κ) : κ := if m k then to' else k

variable {m to'}

theorem not_replaced (hto : ¬ m to') (k : κ) : ¬ m (replaced m to' k) := by
  unfold replaced
  by_cases hk : m k
  · rw [if_pos hk]
    exact hto
  · rw [if_neg hk]
    exact hk

variable [DecidableEq κ] (l : List κ)

theorem count_replaced_of (hto : ¬ m to') {k : κ} (hk : m k) : (l.map (replaced m to')).count k = 0 := by
  refine List.count_eq_zero_of_not_mem fun hmem => ?_
  obtain ⟨k', -, rfl⟩ := List.mem_map.mp hmem
  exact not_replaced hto k' hk

theorem count_replaced_to (hto : ¬ m to') :
    (l.map (replaced m to')).count to' = l.count to' + l.countP (fun k => m k) := by
  induction l with
  | nil => rfl
  | cons k l ih =>
    by_cases hk : m k
    · have hne : k ≠ to' := by
        rintro rfl
        exact hto hk
      simp [replaced, hk, hne, ih]
      omega
    · simp [replaced, hk, ih, List.count_cons]
      omega

theorem count_replaced_other {k : κ} (hk : ¬ m k) (hne : k ≠ to') :
    (l.map (replaced m to')).count k = l.count k := by
  induction l with
  | nil => rfl
  | cons k' l ih =>
    by_cases hk' : m k'
    · have hne' : k' ≠ k := by
        rintro rfl
        exact hk hk'
      simp [replaced, hk', hne', Ne.symm hne, ih]
    · simp [replaced, hk', ih, List.count_cons]

end Replace

end Tally
