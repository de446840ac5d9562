import Mathlib.Tactic
import Mathlib.Data.List.TakeWhile

/-!
# WorldToPE.Lib.Cursor — iterators over a sorted list

What an iterator is for: a place in a sorted list, or the place behind its end when it is not valid.
`At` says that no run of moves can tell an iterator from such a cursor; `Simulates.at` is the rule to
show it, a relation between states and places that every move keeps.

A place is often given by a cut: a property that holds of a first part of the list.  `cut` is the first
place without the property, `back` the last place with it.
-/

namespace Cursor

variable {σ α K : Type}

inductive Move (K : Type)
  | seekToFirst
  | seekToLast
  | seek (target : K)
  | next
  | prev

/-- An iterator: `current` is `none` when it is not valid, `ok` is its status. -/
structure Iter (σ α K : Type) where
  move : σ → Move K → σ
  current : σ → Option α
  ok : σ → Bool

/-! ## Cuts -/

def cut (D : α → Bool) (l : List α) : ℕ := (l.takeWhile D).length

def back (D : α → Bool) (l : List α) : ℕ := if cut D l = 0 then l.length else cut D l - 1

section Cuts

variable {D D' : α → Bool} {l : List α} {a : α}

theorem cut_le (D : α → Bool) (l : List α) : cut D l ≤ l.length := by
  have h : l.takeWhile D <+: l := List.takeWhile_prefix D
  exact h.length_le

theorem back_le (D : α → Bool) (l : List α) : back D l ≤ l.length := by
  have := cut_le D l
  unfold back
  split_ifs <;> omega

theorem take_cut (D : α → Bool) (l : List α) : l.take (cut D l) = l.takeWhile D := by
  have h : l.takeWhile D <+: l := List.takeWhile_prefix D
  exact (List.prefix_iff_eq_take.mp h).symm

theorem drop_cut (D : α → Bool) (l : List α) : l.drop (cut D l) = l.dropWhile D := by
  have h : l.takeWhile D ++ l.drop (cut D l) = l := by rw [← take_cut, List.take_append_drop]
  exact List.append_cancel_left (h.trans List.takeWhile_append_dropWhile.symm)

theorem cut_congr (h : ∀ a ∈ l, D a = D' a) : cut D l = cut D' l := by
  unfold cut
  induction l with
  | nil => rfl
  | cons b l ih =>
    have hb := h b List.mem_cons_self
    have ih := ih fun a ha => h a (List.mem_cons_of_mem _ ha)
    rw [List.takeWhile_cons, List.takeWhile_cons, hb]
    cases D' b
    · rfl
    · simpa using ih

theorem back_congr (h : ∀ a ∈ l, D a = D' a) : back D l = back D' l := by
  unfold back
  rw [cut_congr h]

/-- The property holds of a first part of the list. -/
def Initial (D : α → Bool) (l : List α) : Prop := ∀ a ∈ l.dropWhile D, D a = false

variable {lt : α → α → Prop}

/-- What is downward closed holds of a first part of a sorted list. -/
theorem initial_of_sorted (h : l.Pairwise lt) (hD : ∀ a b, lt a b → D b = true → D a = true) :
    Initial D l := by
  induction h with
  | nil => exact fun a ha => absurd ha List.not_mem_nil
  | @cons b l hb _ ih =>
    intro a ha
    rw [List.dropWhile_cons] at ha
    cases hDb : D b with
    | true =>
      rw [hDb, if_pos rfl] at ha
      exact ih a ha
    | false =>
      rw [hDb, if_neg Bool.false_ne_true] at ha
      rcases List.mem_cons.mp ha with rfl | ha
      · exact hDb
      · by_contra hDa
        have := hD b a (hb a ha) (Bool.eq_true_of_not_eq_false hDa)
        rw [hDb] at this
        cases this

theorem getElem?_lt_cut {i : ℕ} (h : i < cut D l) (ha : l[i]? = some a) : D a = true := by
  have hmem : a ∈ l.takeWhile D := by
    rw [← take_cut]
    refine List.mem_iff_getElem?.mpr ⟨i, ?_⟩
    rw [List.getElem?_take_of_lt h]
    exact ha
  exact List.mem_takeWhile_imp hmem

theorem getElem?_cut_le (hD : Initial D l) {i : ℕ} (h : cut D l ≤ i) (ha : l[i]? = some a) : D a = false := by
  refine hD a ?_
  rw [← drop_cut]
  refine List.mem_iff_getElem?.mpr ⟨i - cut D l, ?_⟩
  rw [List.getElem?_drop, Nat.add_sub_cancel' h]
  exact ha

/-- A cut says which entries have the property. -/
theorem eq_of_cut_eq (hD : Initial D l) (hD' : Initial D' l) (h : cut D l = cut D' l) (ha : a ∈ l) :
    D a = D' a := by
  obtain ⟨i, hi⟩ := List.mem_iff_getElem?.mp ha
  rcases lt_or_ge i (cut D l) with hlt | hge
  · exact (getElem?_lt_cut hlt hi).trans (getElem?_lt_cut (h ▸ hlt) hi).symm
  · exact (getElem?_cut_le hD hge hi).trans (getElem?_cut_le hD' (h ▸ hge) hi).symm

/-- The place of the cut, by what is before it and what is not. -/
theorem cut_eq (hD : Initial D l) {i : ℕ} (hi : i ≤ l.length) (hlt : ∀ j a, j < i → l[j]? = some a → D a = true)
    (hge : ∀ a, l[i]? = some a → D a = false) : cut D l = i := by
  have hle := cut_le D l
  rcases lt_trichotomy (cut D l) i with h | h | h
  · have hj : cut D l < l.length := h.trans_le hi
    have ht := hlt _ _ h (List.getElem?_eq_getElem hj)
    rw [getElem?_cut_le hD le_rfl (List.getElem?_eq_getElem hj)] at ht
    cases ht
  · exact h
  · have hj : i < l.length := h.trans_le hle
    have hf := hge _ (List.getElem?_eq_getElem hj)
    rw [getElem?_lt_cut h (List.getElem?_eq_getElem hj)] at hf
    cases hf

theorem cut_append {l₁ l₂ : List α} (h₁ : ∀ a ∈ l₁, D a = true) (h₂ : ∀ a ∈ l₂, D a = false) :
    cut D (l₁ ++ l₂) = l₁.length := by
  have hnil : l₂.takeWhile D = [] := by
    cases l₂ with
    | nil => rfl
    | cons a l₂ => rw [List.takeWhile_cons, h₂ a List.mem_cons_self, if_neg Bool.false_ne_true]
  rw [cut, List.takeWhile_append_of_pos h₁, hnil, List.append_nil]

end Cuts

/-! ## Filtered lists -/

section Filter

/-- How many entries before the place `p` have the property. -/
def rank (P : α → Bool) (l : List α) (p : ℕ) : ℕ := ((l.take p).filter P).length

variable {P : α → Bool} {l : List α} {a : α} {p q : ℕ}

theorem rank_length (P : α → Bool) (l : List α) : rank P l l.length = (l.filter P).length := by
  rw [rank, List.take_length]

theorem rank_succ (ha : l[p]? = some a) (hP : P a = true) : rank P l (p + 1) = rank P l p + 1 := by
  rw [rank, rank, List.take_add_one, ha, List.filter_append, Option.toList_some,
    List.filter_cons_of_pos hP, List.length_append]
  rfl

theorem rank_le (P : α → Bool) (l : List α) (p : ℕ) : rank P l p ≤ (l.filter P).length :=
  ((List.take_sublist p l).filter P).length_le

/-- Between two places without the property in between, the rank stays. -/
theorem rank_eq (h : p ≤ q) (hP : ∀ r a, p ≤ r → r < q → l[r]? = some a → P a = false) :
    rank P l p = rank P l q := by
  induction q, h using Nat.le_induction with
  | base => rfl
  | succ q hpq ih =>
    rw [ih fun r a hr hq => hP r a hr (Nat.lt_succ_of_lt hq), rank, rank, List.take_add_one, List.filter_append]
    cases ha : l[q]? with
    | none => simp
    | some a =>
      rw [Option.toList_some, List.filter_cons_of_neg (by simp [hP q a hpq (Nat.lt_succ_self q) ha])]
      simp

theorem getElem?_rank (ha : l[p]? = some a) (hP : P a = true) : (l.filter P)[rank P l p]? = some a := by
  obtain ⟨hp, rfl⟩ := List.getElem?_eq_some_iff.mp ha
  have hsplit : l.filter P = (l.take p).filter P ++ l[p] :: (l.drop (p + 1)).filter P := by
    rw [← List.filter_cons_of_pos hP, ← List.drop_eq_getElem_cons hp, ← List.filter_append,
      List.take_append_drop]
  rw [hsplit, rank, List.getElem?_append_right le_rfl, Nat.sub_self, List.getElem?_cons_zero]

end Filter

/-! ## Sorted lists -/

section Sorted

variable (cmp : K → K → Ordering) (key : α → K)

/-- The keys ascend strictly. -/
def Sorted (l : List α) : Prop := l.Pairwise fun a b => cmp (key a) (key b) = .lt

instance (l : List α) : Decidable (Sorted cmp key l) := inferInstanceAs (Decidable (l.Pairwise _))

def below (k : K) (a : α) : Bool := cmp (key a) k = .lt

def upto (k : K) (a : α) : Bool := (cmp (key a) k).isLE

variable {cmp key} {D : α → Bool} {l : List α} {a e : α} {k : K} {p q : ℕ}

theorem Sorted.lt_of_getElem? (h : Sorted cmp key l) (hpq : p < q) (hp : l[p]? = some a) (hq : l[q]? = some e) :
    cmp (key a) (key e) = .lt := by
  obtain ⟨hp', rfl⟩ := List.getElem?_eq_some_iff.mp hp
  obtain ⟨hq', rfl⟩ := List.getElem?_eq_some_iff.mp hq
  exact List.pairwise_iff_getElem.mp h p q hp' hq' hpq

theorem Sorted.initial (h : Sorted cmp key l)
    (hD : ∀ a b, cmp (key a) (key b) = .lt → D b = true → D a = true) : Initial D l :=
  initial_of_sorted h hD

variable [Std.TransCmp cmp]

omit [Std.TransCmp cmp] in
theorem isLE_of_ne_gt {a b : K} (h : cmp a b ≠ .gt) : (cmp a b).isLE := by
  cases hab : cmp a b with
  | lt => rfl
  | eq => rfl
  | gt => exact absurd hab h

theorem isLE_of_not_lt {a b : K} (h : cmp b a ≠ .lt) : (cmp a b).isLE :=
  isLE_of_ne_gt fun hgt => h (Std.OrientedCmp.lt_of_gt hgt)

theorem initial_below (h : Sorted cmp key l) (k : K) : Initial (below cmp key k) l := by
  refine h.initial fun a b hab hb => ?_
  simp only [below, decide_eq_true_eq] at hb ⊢
  exact Std.TransCmp.lt_trans hab hb

theorem initial_upto (h : Sorted cmp key l) (k : K) : Initial (upto cmp key k) l := by
  refine h.initial fun a b hab hb => ?_
  unfold upto at hb ⊢
  exact Std.TransCmp.isLE_trans (Ordering.isLE_of_eq_lt hab) hb

/-- What is below the entry at `p` ends there. -/
theorem cut_below (h : Sorted cmp key l) (hp : l[p]? = some e) : cut (below cmp key (key e)) l = p := by
  refine cut_eq (initial_below h _) (List.getElem?_eq_some_iff.mp hp).1.le ?_ ?_
  · intro j a hj ha
    exact decide_eq_true (h.lt_of_getElem? hj ha hp)
  · intro a ha
    obtain rfl := Option.some.inj (ha.symm.trans hp)
    have hself : cmp (key a) (key a) = .eq := Std.ReflCmp.compare_self
    refine decide_eq_false ?_
    rw [hself]
    simp

theorem cut_upto (h : Sorted cmp key l) (hp : l[p]? = some e) : cut (upto cmp key (key e)) l = p + 1 := by
  refine cut_eq (initial_upto h _) (List.getElem?_eq_some_iff.mp hp).1 ?_ ?_
  · intro j a hj ha
    rcases Nat.lt_succ_iff_lt_or_eq.mp hj with hj | rfl
    · exact Ordering.isLE_of_eq_lt (h.lt_of_getElem? hj ha hp)
    · obtain rfl := Option.some.inj (ha.symm.trans hp)
      exact Std.ReflCmp.isLE_rfl
  · intro a ha
    have hlt := h.lt_of_getElem? (Nat.lt_succ_self p) hp ha
    rw [upto, Std.OrientedCmp.gt_of_lt hlt]
    rfl

theorem back_upto (h : Sorted cmp key l) (hp : l[p]? = some e) : back (upto cmp key (key e)) l = p := by
  rw [back, cut_upto h hp, if_neg (Nat.succ_ne_zero p), Nat.add_sub_cancel]

/-- The entry at a cut is the least of those behind it. -/
theorem getElem?_cut (h : Sorted cmp key l) (hD : Initial D l) : l[cut D l]? = some e ↔
    e ∈ l ∧ D e = false ∧ ∀ b ∈ l, D b = false → (cmp (key e) (key b)).isLE := by
  constructor
  · intro he
    refine ⟨List.mem_of_getElem? he, getElem?_cut_le hD le_rfl he, ?_⟩
    intro b hb hDb
    obtain ⟨r, hr⟩ := List.mem_iff_getElem?.mp hb
    rcases lt_trichotomy (cut D l) r with hlt | rfl | hlt
    · exact Ordering.isLE_of_eq_lt (h.lt_of_getElem? hlt he hr)
    · obtain rfl := Option.some.inj (he.symm.trans hr)
      exact Std.ReflCmp.isLE_rfl
    · rw [getElem?_lt_cut hlt hr] at hDb
      cases hDb
  · rintro ⟨he, hDe, hmin⟩
    obtain ⟨q, hq⟩ := List.mem_iff_getElem?.mp he
    have hle : cut D l ≤ q := by
      by_contra hlt
      rw [getElem?_lt_cut (not_le.mp hlt) hq] at hDe
      cases hDe
    rcases hle.lt_or_eq with hlt | heq
    · -- the entry at the cut would be smaller
      have hlen : cut D l < l.length := hlt.trans (List.getElem?_eq_some_iff.mp hq).1
      have hb := List.getElem?_eq_getElem hlen
      have hgt := Std.OrientedCmp.gt_of_lt (h.lt_of_getElem? hlt hb hq)
      have hle := hmin _ (List.getElem_mem hlen) (getElem?_cut_le hD le_rfl hb)
      rw [hgt] at hle
      cases hle
    · rw [heq]
      exact hq

theorem getElem?_cut_eq_none : l[cut D l]? = none ↔ ∀ b ∈ l, D b = true := by
  rw [List.getElem?_eq_none_iff]
  constructor
  · intro hle b hb
    obtain ⟨r, hr⟩ := List.mem_iff_getElem?.mp hb
    exact getElem?_lt_cut ((List.getElem?_eq_some_iff.mp hr).1.trans_le hle) hr
  · intro hall
    unfold cut
    rw [List.takeWhile_eq_self_iff.mpr hall]

/-- The entry before a cut is the greatest of those within it. -/
theorem getElem?_back (h : Sorted cmp key l) (hD : Initial D l) : l[back D l]? = some e ↔
    e ∈ l ∧ D e = true ∧ ∀ b ∈ l, D b = true → (cmp (key b) (key e)).isLE := by
  have hcut := cut_le D l
  constructor
  · intro he
    have hlen := (List.getElem?_eq_some_iff.mp he).1
    have hback : back D l < cut D l := by
      unfold back at hlen ⊢
      split_ifs at hlen ⊢ <;> omega
    refine ⟨List.mem_of_getElem? he, getElem?_lt_cut hback he, ?_⟩
    intro b hb hDb
    obtain ⟨r, hr⟩ := List.mem_iff_getElem?.mp hb
    have hrc : r < cut D l := by
      by_contra hge
      rw [getElem?_cut_le hD (not_lt.mp hge) hr] at hDb
      cases hDb
    rcases lt_trichotomy r (back D l) with hlt | rfl | hlt
    · exact Ordering.isLE_of_eq_lt (h.lt_of_getElem? hlt hr he)
    · obtain rfl := Option.some.inj (he.symm.trans hr)
      exact Std.ReflCmp.isLE_rfl
    · unfold back at hlt
      split_ifs at hlt <;> omega
  · rintro ⟨he, hDe, hmax⟩
    obtain ⟨q, hq⟩ := List.mem_iff_getElem?.mp he
    have hlt : q < cut D l := by
      by_contra hge
      rw [getElem?_cut_le hD (not_lt.mp hge) hq] at hDe
      cases hDe
    have hbe : back D l = cut D l - 1 := if_neg (by omega)
    rcases (show q ≤ back D l by omega).lt_or_eq with hlt' | heq
    · have hlen : back D l < l.length := by omega
      have hb := List.getElem?_eq_getElem hlen
      have hgt := Std.OrientedCmp.gt_of_lt (h.lt_of_getElem? hlt' hq hb)
      have hle := hmax _ (List.getElem_mem hlen) (getElem?_lt_cut (by omega) hb)
      rw [hgt] at hle
      cases hle
    · rw [← heq]
      exact hq

theorem getElem?_back_eq_none (hD : Initial D l) : l[back D l]? = none ↔ ∀ b ∈ l, D b = false := by
  have hcut := cut_le D l
  rw [List.getElem?_eq_none_iff]
  constructor
  · intro hle b hb
    obtain ⟨r, hr⟩ := List.mem_iff_getElem?.mp hb
    have hr' := (List.getElem?_eq_some_iff.mp hr).1
    refine getElem?_cut_le hD ?_ hr
    unfold back at hle
    split_ifs at hle <;> omega
  · intro hall
    have hzero : cut D l = 0 := by
      cases hl : cut D l with
      | zero => rfl
      | succ n =>
        have hlen : 0 < l.length := by omega
        have hb := List.getElem?_eq_getElem hlen
        have ht := getElem?_lt_cut (show 0 < cut D l by omega) hb
        rw [hall _ (List.getElem_mem hlen)] at ht
        cases ht
    rw [back, if_pos hzero]

end Sorted

/-! ## The cursor -/

variable (lt : α → K → Bool) (l : List α)

/-- Where a move leads from the place `i`. -/
def place (i : ℕ) : Move K → ℕ
  | .seekToFirst => 0
  | .seekToLast => l.length - 1
  | .seek target => cut (fun a => lt a target) l
  | .next => i + 1
  | .prev => if i = 0 then l.length else i - 1

/-- `Next` and `Prev` require that the iterator is valid. -/
def Legal (i : ℕ) : Move K → Prop
  | .next => i < l.length
  | .prev => i < l.length
  | _ => True

def LegalRun : ℕ → List (Move K) → Prop
  | _, [] => True
  | i, m :: ms => Legal l i m ∧ LegalRun (place lt l i m) ms

/-- No run of moves can tell the iterator in state `s` from the cursor at `i`. -/
def At (it : Iter σ α K) (s : σ) (i : ℕ) : Prop :=
  i ≤ l.length ∧ ∀ ms, LegalRun lt l i ms →
    it.ok (ms.foldl it.move s) = true ∧ it.current (ms.foldl it.move s) = l[ms.foldl (place lt l) i]?

/-- A relation that the moves keep. -/
structure Simulates (it : Iter σ α K) (R : σ → ℕ → Prop) : Prop where
  le : ∀ s i, R s i → i ≤ l.length
  ok : ∀ s i, R s i → it.ok s = true
  current : ∀ s i, R s i → it.current s = l[i]?
  move : ∀ s i m, R s i → Legal l i m → R (it.move s m) (place lt l i m)

variable {lt l} {it : Iter σ α K} {R : σ → ℕ → Prop} {s : σ} {i : ℕ}

theorem place_le {m : Move K} (h : i ≤ l.length) (hm : Legal l i m) : place lt l i m ≤ l.length := by
  cases m with
  | seekToFirst => exact Nat.zero_le _
  | seekToLast => exact Nat.sub_le _ _
  | seek target => exact cut_le _ _
  | next => exact hm
  | prev =>
    simp only [place]
    split_ifs <;> omega

theorem Simulates.at (h : Simulates lt l it R) (hR : R s i) : At lt l it s i := by
  refine ⟨h.le s i hR, fun ms hms => ?_⟩
  induction ms generalizing s i with
  | nil => exact ⟨h.ok s i hR, h.current s i hR⟩
  | cons m ms ih => exact ih (h.move s i m hR hms.1) hms.2

theorem At.le (h : At lt l it s i) : i ≤ l.length := h.1

theorem At.ok (h : At lt l it s i) : it.ok s = true := (h.2 [] trivial).1

theorem At.current (h : At lt l it s i) : it.current s = l[i]? := (h.2 [] trivial).2

theorem At.move (h : At lt l it s i) {m : Move K} (hm : Legal l i m) :
    At lt l it (it.move s m) (place lt l i m) :=
  ⟨place_le h.1 hm, fun ms hms => h.2 (m :: ms) ⟨hm, hms⟩⟩

theorem At.getElem? (h : At lt l it s i) {a : α} (ha : it.current s = some a) : l[i]? = some a := by
  rw [← h.current, ha]

theorem At.lt_of_current (h : At lt l it s i) {a : α} (ha : it.current s = some a) : i < l.length :=
  (List.getElem?_eq_some_iff.mp (h.getElem? ha)).1

theorem At.eq_length (h : At lt l it s i) (ha : it.current s = none) : i = l.length :=
  le_antisymm h.1 (List.getElem?_eq_none_iff.mp (h.current.symm.trans ha))

/-- An iterator that wraps another is where the other is. -/
theorem At.map {τ : Type} {it' : Iter τ α K} {f : σ → τ} (h : At lt l it s i)
    (hmove : ∀ s m, it'.move (f s) m = f (it.move s m)) (hcurrent : ∀ s, it'.current (f s) = it.current s)
    (hok : ∀ s, it'.ok (f s) = it.ok s) : At lt l it' (f s) i := by
  have hrun (ms : List (Move K)) (s : σ) : ms.foldl it'.move (f s) = f (ms.foldl it.move s) := by
    induction ms generalizing s with
    | nil => rfl
    | cons m ms ih => rw [List.foldl_cons, List.foldl_cons, hmove, ih]
  refine ⟨h.1, fun ms hms => ?_⟩
  rw [hrun, hok, hcurrent]
  exact h.2 ms hms

/-! ## The cursor as an iterator -/

/-- A list and a place in it. -/
def ofList (lt : α → K → Bool) : Iter (List α × ℕ) α K where
  move s m := (s.1, place lt s.1 s.2 m)
  current s := s.1[s.2]?
  ok _ := true

theorem at_ofList (hi : i ≤ l.length) : At lt l (ofList lt) (l, i) i := by
  have h : Simulates lt l (ofList lt) fun s i => s.1 = l ∧ s.2 = i ∧ i ≤ l.length :=
    { le := fun _ _ h => h.2.2
      ok := fun _ _ _ => rfl
      current := by
        rintro s i ⟨rfl, rfl, -⟩
        rfl
      move := by
        rintro s i m ⟨rfl, rfl, hi⟩ hm
        exact ⟨rfl, rfl, place_le hi hm⟩ }
  exact h.at ⟨rfl, rfl, hi⟩

end Cursor
