import WorldToPE.Engine.DbFormat
import WorldToPE.Lib.Cursor

/-!
# WorldToPE.Engine.Merger — one iterator over several

`table/merger.cc`: the children stand, going forward, at their first entries from the current key
on, and going backward, at their last entries up to it; the current child is the one with the smallest
or the largest key.  Where the direction turns, the other children are moved past the current key.
`NewMergingIterator` makes no such iterator over no child or over one.

`at_newMergingIterator`: what it returns is a cursor in the sorted union of what the children have.
-/

namespace Leveldb

open Cursor

/-- A key and its value. -/
abbrev Entry := Slice × Slice

/-- An entry comes before a key. -/
abbrev entryLt (comparator : Comparator) (e : Entry) (target : Slice) : Bool :=
  below comparator.compare Prod.fst target e

inductive Direction
  | kForward
  | kReverse
deriving DecidableEq

variable {σ : Type}

/-- The state of a `MergingIterator`. -/
structure Merging (σ : Type) where
  children : List σ
  /-- The index of the current child. -/
  current : Option ℕ
  direction : Direction

namespace Merging

variable (comparator : Comparator) (it : Iter σ Entry Slice)

/-- The key of the child `i`, if it is valid. -/
def childKey (children : List σ) (i : ℕ) : Option Slice := (children[i]?.bind it.current).map Prod.fst

/-- One round of the loops that look for the child with the best key. -/
def better (ord : Ordering) (children : List σ) (best : Option ℕ) (i : ℕ) : Option ℕ :=
  match childKey it children i with
  | none => best
  | some k =>
    match best with
    | none => some i
    | some j =>
      match childKey it children j with
      | none => best
      | some kj => if comparator.compare k kj = ord then some i else best

def findSmallest (children : List σ) : Option ℕ :=
  (List.range children.length).foldl (better comparator it .lt children) none

def findLargest (children : List σ) : Option ℕ :=
  (List.range children.length).reverse.foldl (better comparator it .gt children) none

def current? (m : Merging σ) : Option Entry := (m.current.bind fun i => m.children[i]?).bind it.current

def seekToFirst (m : Merging σ) : Merging σ :=
  let children := m.children.map fun c => it.move c .seekToFirst
  ⟨children, findSmallest comparator it children, .kForward⟩

def seekToLast (m : Merging σ) : Merging σ :=
  let children := m.children.map fun c => it.move c .seekToLast
  ⟨children, findLargest comparator it children, .kReverse⟩

def seek (m : Merging σ) (target : Slice) : Merging σ :=
  let children := m.children.map fun c => it.move c (.seek target)
  ⟨children, findSmallest comparator it children, .kForward⟩

/-- The child is moved to its first entry after `key`. -/
def positionAfter (key : Slice) (c : σ) : σ :=
  let c := it.move c (.seek key)
  match it.current c with
  | some e => if comparator.compare key e.1 = .eq then it.move c .next else c
  | none => c

/-- The child is moved to its last entry before `key`. -/
def positionBefore (key : Slice) (c : σ) : σ :=
  let c := it.move c (.seek key)
  match it.current c with
  -- Child is at first entry >= key().  Step back one to be < key()
  | some _ => it.move c .prev
  -- Child has no entries >= key().  Position at last entry.
  | none => it.move c .seekToLast

/-- Change the children other than the current one. -/
def mapOthers (f : σ → σ) (current : ℕ) (children : List σ) : List σ :=
  children.mapIdx fun j c => if j = current then c else f c

def next (m : Merging σ) : Merging σ :=
  match m.current, m.current? it with
  | some i, some e =>
    let children := if m.direction ≠ .kForward then
      mapOthers (positionAfter comparator it e.1) i m.children else m.children
    let children := children.modify i fun c => it.move c .next
    ⟨children, findSmallest comparator it children, .kForward⟩
  | _, _ => m

def prev (m : Merging σ) : Merging σ :=
  match m.current, m.current? it with
  | some i, some e =>
    let children := if m.direction ≠ .kReverse then
      mapOthers (positionBefore it e.1) i m.children else m.children
    let children := children.modify i fun c => it.move c .prev
    ⟨children, findLargest comparator it children, .kReverse⟩
  | _, _ => m

/-- The constructor. -/
def new (children : List σ) : Merging σ := ⟨children, none, .kForward⟩

/-- The merging iterator as an iterator. -/
def iter : Iter (Merging σ) Entry Slice where
  move m
    | .seekToFirst => m.seekToFirst comparator it
    | .seekToLast => m.seekToLast comparator it
    | .seek target => m.seek comparator it target
    | .next => m.next comparator it
    | .prev => m.prev comparator it
  current m := m.current? it
  ok m := m.children.all it.ok

/-! ## The best child -/

section Best

variable {comparator it} {ord : Ordering} {children : List σ} {is : List ℕ} {best : Option ℕ}

/-- `best` is the best of the children `is`. -/
def IsBest (comparator : Comparator) (it : Iter σ Entry Slice) (ord : Ordering) (children : List σ)
    (is : List ℕ) : Option ℕ → Prop
  | none => ∀ j ∈ is, childKey it children j = none
  | some i => ∃ k, childKey it children i = some k ∧
      ∀ j ∈ is, ∀ k', childKey it children j = some k' → comparator.compare k' k ≠ ord

theorem isBest_foldl (htrans : ∀ a b c, comparator.compare a b ≠ ord → comparator.compare c b = ord →
    comparator.compare a c ≠ ord) (hself : ∀ a, comparator.compare a a ≠ ord) (is : List ℕ) :
    IsBest comparator it ord children is (is.foldl (better comparator it ord children) none) := by
  induction is using List.reverseRecOn with
  | nil => exact fun j hj => absurd hj List.not_mem_nil
  | append_singleton is i ih =>
    rw [List.foldl_append, List.foldl_cons, List.foldl_nil]
    generalize is.foldl (better comparator it ord children) none = best at ih ⊢
    unfold better
    cases hi : childKey it children i with
    | none =>
      cases best with
      | none =>
        intro j hj
        rcases List.mem_append.mp hj with hj | hj
        · exact ih j hj
        · rw [List.mem_singleton.mp hj]
          exact hi
      | some b =>
        obtain ⟨k, hk, hbest⟩ := ih
        refine ⟨k, hk, fun j hj k' hk' => ?_⟩
        rcases List.mem_append.mp hj with hj | hj
        · exact hbest j hj k' hk'
        · rw [List.mem_singleton.mp hj, hi] at hk'
          cases hk'
    | some ki =>
      cases best with
      | none =>
        refine ⟨ki, hi, fun j hj k' hk' => ?_⟩
        rcases List.mem_append.mp hj with hj | hj
        · rw [ih j hj] at hk'
          cases hk'
        · rw [List.mem_singleton.mp hj, hi] at hk'
          obtain rfl := Option.some.inj hk'
          exact hself _
      | some b =>
        obtain ⟨k, hk, hbest⟩ := ih
        simp only [hk]
        split_ifs with hlt
        · refine ⟨ki, hi, fun j hj k' hk' => ?_⟩
          rcases List.mem_append.mp hj with hj | hj
          · exact htrans _ _ _ (hbest j hj k' hk') hlt
          · rw [List.mem_singleton.mp hj, hi] at hk'
            obtain rfl := Option.some.inj hk'
            exact hself _
        · refine ⟨k, hk, fun j hj k' hk' => ?_⟩
          rcases List.mem_append.mp hj with hj | hj
          · exact hbest j hj k' hk'
          · rw [List.mem_singleton.mp hj, hi] at hk'
            obtain rfl := Option.some.inj hk'
            exact hlt

end Best

/-! ## What the children have together -/

/-- `l` is the sorted union of the lists of the children, which have no key in common. -/
structure Merged (comparator : Comparator) (ls : List (List Entry)) (l : List Entry) : Prop where
  sorted : Sorted comparator.compare Prod.fst l
  children : ∀ lj ∈ ls, Sorted comparator.compare Prod.fst lj
  perm : l.Perm ls.flatten

section Union

variable {comparator} {ls : List (List Entry)} {l lj : List Entry} {a b e : Entry} {i j k : ℕ}

theorem Merged.child (h : Merged comparator ls l) (hj : ls[j]? = some lj) :
    Sorted comparator.compare Prod.fst lj := h.children lj (List.mem_of_getElem? hj)

theorem Merged.mem (h : Merged comparator ls l) (hj : ls[j]? = some lj) (ha : a ∈ lj) : a ∈ l :=
  h.perm.mem_iff.mpr (List.mem_flatten.mpr ⟨lj, List.mem_of_getElem? hj, ha⟩)

theorem Merged.exists_child (h : Merged comparator ls l) (ha : a ∈ l) :
    ∃ (j : ℕ) (lj : List Entry), ls[j]? = some lj ∧ a ∈ lj := by
  obtain ⟨lj, hlj, ha⟩ := List.mem_flatten.mp (h.perm.mem_iff.mp ha)
  obtain ⟨j, hj⟩ := List.mem_iff_getElem?.mp hlj
  exact ⟨j, lj, hj, ha⟩

variable [Std.TransCmp comparator.compare]

/-- A key is in one child only. -/
theorem Merged.index_eq (h : Merged comparator ls l) {lk : List Entry} (hj : ls[j]? = some lj)
    (hk : ls[k]? = some lk) (ha : a ∈ lj) (hb : b ∈ lk) (heq : comparator.compare a.1 b.1 = .eq) : j = k := by
  have hne : l.Pairwise fun a b => comparator.compare a.1 b.1 ≠ .eq :=
    h.sorted.imp fun hlt he => by
      rw [hlt] at he
      cases he
  have hsymm : ∀ {a b : Entry}, comparator.compare a.1 b.1 ≠ .eq → comparator.compare b.1 a.1 ≠ .eq :=
    fun hab hba => hab (Std.OrientedCmp.eq_symm hba)
  obtain ⟨-, hacross⟩ := List.pairwise_flatten.mp ((h.perm.pairwise_iff hsymm).mp hne)
  obtain ⟨hj', rfl⟩ := List.getElem?_eq_some_iff.mp hj
  obtain ⟨hk', rfl⟩ := List.getElem?_eq_some_iff.mp hk
  have hpair := List.pairwise_iff_getElem.mp hacross
  rcases lt_trichotomy j k with hlt | heq' | hlt
  · exact absurd heq (hpair j k hj' hk' hlt a ha b hb)
  · exact heq'
  · exact absurd (Std.OrientedCmp.eq_symm heq) (hpair k j hk' hj' hlt b hb a ha)

end Union

/-! ## Where the children stand -/

/-- Every child stands at the place in its list that `pos` gives. -/
def ChildrenAt (comparator : Comparator) (it : Iter σ Entry Slice) (ls : List (List Entry))
    (pos : List Entry → ℕ → Prop) (children : List σ) : Prop :=
  children.length = ls.length ∧ ∀ (j : ℕ) (c : σ) (lj : List Entry), children[j]? = some c → ls[j]? = some lj →
    ∃ p, pos lj p ∧ At (entryLt comparator) lj it c p

/-- The merging iterator is at the place `i` of `l`: the current child is the one with the entry that is
there, and the others stand around its key as the direction says. -/
structure Stands (comparator : Comparator) (it : Iter σ Entry Slice) (ls : List (List Entry)) (l : List Entry)
    (m : Merging σ) (i : ℕ) : Prop where
  le : i ≤ l.length
  children : ChildrenAt comparator it ls (fun _ _ => True) m.children
  invalid : l[i]? = none → m.current = none
  valid : ∀ e, l[i]? = some e → ∃ (k : ℕ) (lk : List Entry), m.current = some k ∧ ls[k]? = some lk ∧ e ∈ lk
  forward : m.direction = .kForward → ∀ e, l[i]? = some e →
    ChildrenAt comparator it ls (fun lj p => p = cut (below comparator.compare Prod.fst e.1) lj) m.children
  reverse : m.direction = .kReverse → ∀ e, l[i]? = some e →
    ChildrenAt comparator it ls (fun lj p => p = back (upto comparator.compare Prod.fst e.1) lj) m.children

section Standing

variable {comparator it} {ls : List (List Entry)} {l lj : List Entry} {children : List σ} {m : Merging σ}
  {D : Entry → Bool} {i j : ℕ} {c : σ} {pos pos' : List Entry → ℕ → Prop}

theorem childKey_eq (hc : children[j]? = some c) :
    childKey it children j = (it.current c).map Prod.fst := by
  rw [childKey, hc]
  rfl

theorem ChildrenAt.imp (h : ChildrenAt comparator it ls pos children)
    (himp : ∀ lj ∈ ls, ∀ p, pos lj p → pos' lj p) : ChildrenAt comparator it ls pos' children := by
  refine ⟨h.1, fun j c lj hc hj => ?_⟩
  obtain ⟨p, hp, hat⟩ := h.2 j c lj hc hj
  exact ⟨p, himp lj (List.mem_of_getElem? hj) p hp, hat⟩

/-- The child of a list. -/
theorem ChildrenAt.child (h : ChildrenAt comparator it ls pos children) (hj : ls[j]? = some lj) :
    ∃ c p, children[j]? = some c ∧ pos lj p ∧ At (entryLt comparator) lj it c p := by
  have hlt : j < children.length := by
    rw [h.1]
    exact (List.getElem?_eq_some_iff.mp hj).1
  have hc := List.getElem?_eq_getElem hlt
  obtain ⟨p, hp, hat⟩ := h.2 j _ lj hc hj
  exact ⟨_, p, hc, hp, hat⟩

/-- What the index of a valid child says. -/
theorem ChildrenAt.of_childKey (h : ChildrenAt comparator it ls pos children) {k : Slice}
    (hk : childKey it children j = some k) :
    ∃ lj p e, ls[j]? = some lj ∧ pos lj p ∧ lj[p]? = some e ∧ e.1 = k := by
  unfold childKey at hk
  obtain ⟨e, he, rfl⟩ := Option.map_eq_some_iff.mp hk
  obtain ⟨c, hc, hce⟩ := Option.bind_eq_some_iff.mp he
  have hlt : j < ls.length := by
    rw [← h.1]
    exact (List.getElem?_eq_some_iff.mp hc).1
  have hj := List.getElem?_eq_getElem hlt
  obtain ⟨p, hp, hat⟩ := h.2 j c _ hc hj
  exact ⟨_, p, e, hj, hp, hat.getElem? hce, rfl⟩

theorem ChildrenAt.childKey (h : ChildrenAt comparator it ls pos children) (hj : ls[j]? = some lj) :
    ∃ p, pos lj p ∧ Merging.childKey it children j = lj[p]?.map Prod.fst := by
  obtain ⟨c, p, hc, hp, hat⟩ := h.child hj
  exact ⟨p, hp, by rw [childKey_eq hc, hat.current]⟩

variable [Std.TransCmp comparator.compare]

theorem isBest_findSmallest (children : List σ) :
    IsBest comparator it .lt children (List.range children.length) (findSmallest comparator it children) := by
  refine isBest_foldl ?_ ?_ _
  · intro a b c hab hcb hac
    exact hab (Std.TransCmp.lt_trans hac hcb)
  · intro a
    have hself : comparator.compare a a = .eq := Std.ReflCmp.compare_self
    rw [hself]
    simp

theorem isBest_findLargest (children : List σ) :
    IsBest comparator it .gt children (List.range children.length).reverse
      (findLargest comparator it children) := by
  refine isBest_foldl ?_ ?_ _
  · intro a b c hab hcb hac
    exact hab (Std.TransCmp.gt_trans hac hcb)
  · intro a
    have hself : comparator.compare a a = .eq := Std.ReflCmp.compare_self
    rw [hself]
    simp

/-- With the children at a cut, the smallest of them is at the cut of the union. -/
theorem stands_findSmallest (h : Merged comparator ls l)
    (hD : ∀ a b : Entry, comparator.compare a.1 b.1 = .lt → D b = true → D a = true)
    (hat : ChildrenAt comparator it ls (fun lj p => p = cut D lj) children) :
    Stands comparator it ls l ⟨children, findSmallest comparator it children, .kForward⟩ (cut D l) := by
  have hDl : Initial D l := h.sorted.initial hD
  have hbest : IsBest comparator it .lt children (List.range children.length)
      (findSmallest comparator it children) := isBest_findSmallest children
  have hrange {j : ℕ} {lj : List Entry} (hj : ls[j]? = some lj) : j ∈ List.range children.length := by
    rw [List.mem_range, hat.1]
    exact (List.getElem?_eq_some_iff.mp hj).1
  cases hfind : findSmallest comparator it children with
  | none =>
    rw [hfind] at hbest
    have hnone : l[cut D l]? = none := by
      rw [getElem?_cut_eq_none]
      intro b hb
      obtain ⟨j, lj, hj, hbj⟩ := h.exists_child hb
      obtain ⟨p, rfl, hkey⟩ := hat.childKey hj
      rw [hbest j (hrange hj), eq_comm, Option.map_eq_none_iff] at hkey
      exact getElem?_cut_eq_none.mp hkey b hbj
    exact ⟨cut_le D l, hat.imp fun _ _ _ _ => trivial, fun _ => rfl,
      fun e he => absurd (hnone.symm.trans he) (by simp), fun _ e he => absurd (hnone.symm.trans he) (by simp),
      fun hdir => by cases hdir⟩
  | some k =>
    rw [hfind] at hbest
    obtain ⟨key, hkey, hmin⟩ := hbest
    obtain ⟨lk, p, e, hk, rfl, he, rfl⟩ := hat.of_childKey hkey
    obtain ⟨hek, hDe, -⟩ := (getElem?_cut (h.child hk) ((h.child hk).initial hD)).mp he
    -- the entry of the best child is the least behind the cut
    have hleast : l[cut D l]? = some e := by
      rw [getElem?_cut h.sorted hDl]
      refine ⟨h.mem hk hek, hDe, fun b hb hDb => ?_⟩
      obtain ⟨j, lj, hj, hbj⟩ := h.exists_child hb
      obtain ⟨p, rfl, hkeyj⟩ := hat.childKey hj
      cases hej : lj[cut D lj]? with
      | none =>
        rw [getElem?_cut_eq_none.mp hej b hbj] at hDb
        cases hDb
      | some ej =>
        rw [hej] at hkeyj
        have hnlt := hmin j (hrange hj) ej.1 hkeyj
        have hle := ((getElem?_cut (h.child hj) ((h.child hj).initial hD)).mp hej).2.2 b hbj hDb
        exact Std.TransCmp.isLE_trans (isLE_of_not_lt hnlt) hle
    have hbelow : ∀ lj ∈ ls, cut D lj = cut (below comparator.compare Prod.fst e.1) lj := by
      intro lj hlj
      obtain ⟨j, hj⟩ := List.mem_iff_getElem?.mp hlj
      refine cut_congr fun a ha => ?_
      exact eq_of_cut_eq hDl (initial_below h.sorted e.1) (cut_below h.sorted hleast).symm (h.mem hj ha)
    refine ⟨cut_le D l, hat.imp fun _ _ _ _ => trivial, fun hnone => ?_, fun e' he' => ?_, fun _ e' he' => ?_,
      fun hdir => by cases hdir⟩
    · rw [hleast] at hnone
      cases hnone
    · obtain rfl := Option.some.inj (hleast.symm.trans he')
      exact ⟨k, lk, rfl, hk, hek⟩
    · obtain rfl := Option.some.inj (hleast.symm.trans he')
      exact hat.imp fun lj hlj p hp => hp.trans (hbelow lj hlj)

/-- With the children before a cut, the largest of them is before the cut of the union. -/
theorem stands_findLargest (h : Merged comparator ls l)
    (hD : ∀ a b : Entry, comparator.compare a.1 b.1 = .lt → D b = true → D a = true)
    (hat : ChildrenAt comparator it ls (fun lj p => p = back D lj) children) :
    Stands comparator it ls l ⟨children, findLargest comparator it children, .kReverse⟩ (back D l) := by
  have hDl : Initial D l := h.sorted.initial hD
  have hbest : IsBest comparator it .gt children (List.range children.length).reverse
      (findLargest comparator it children) := isBest_findLargest children
  have hrange {j : ℕ} {lj : List Entry} (hj : ls[j]? = some lj) :
      j ∈ (List.range children.length).reverse := by
    rw [List.mem_reverse, List.mem_range, hat.1]
    exact (List.getElem?_eq_some_iff.mp hj).1
  cases hfind : findLargest comparator it children with
  | none =>
    rw [hfind] at hbest
    have hnone : l[back D l]? = none := by
      rw [getElem?_back_eq_none hDl]
      intro b hb
      obtain ⟨j, lj, hj, hbj⟩ := h.exists_child hb
      obtain ⟨p, rfl, hkey⟩ := hat.childKey hj
      rw [hbest j (hrange hj), eq_comm, Option.map_eq_none_iff] at hkey
      exact (getElem?_back_eq_none ((h.child hj).initial hD)).mp hkey b hbj
    exact ⟨back_le D l, hat.imp fun _ _ _ _ => trivial, fun _ => rfl,
      fun e he => absurd (hnone.symm.trans he) (by simp), (fun hdir => by cases hdir),
      fun _ e he => absurd (hnone.symm.trans he) (by simp)⟩
  | some k =>
    rw [hfind] at hbest
    obtain ⟨key, hkey, hmax⟩ := hbest
    obtain ⟨lk, p, e, hk, rfl, he, rfl⟩ := hat.of_childKey hkey
    obtain ⟨hek, hDe, -⟩ := (getElem?_back (h.child hk) ((h.child hk).initial hD)).mp he
    have hgreatest : l[back D l]? = some e := by
      rw [getElem?_back h.sorted hDl]
      refine ⟨h.mem hk hek, hDe, fun b hb hDb => ?_⟩
      obtain ⟨j, lj, hj, hbj⟩ := h.exists_child hb
      obtain ⟨p, rfl, hkeyj⟩ := hat.childKey hj
      cases hej : lj[back D lj]? with
      | none =>
        rw [(getElem?_back_eq_none ((h.child hj).initial hD)).mp hej b hbj] at hDb
        cases hDb
      | some ej =>
        rw [hej] at hkeyj
        have hngt := hmax j (hrange hj) ej.1 hkeyj
        have hle := ((getElem?_back (h.child hj) ((h.child hj).initial hD)).mp hej).2.2 b hbj hDb
        exact Std.TransCmp.isLE_trans hle (isLE_of_ne_gt hngt)
    have hcut : cut D l = cut (upto comparator.compare Prod.fst e.1) l := by
      have hlt := (List.getElem?_eq_some_iff.mp hgreatest).1
      have hle := cut_le D l
      rw [cut_upto h.sorted hgreatest]
      unfold back at hlt ⊢
      split_ifs at hlt ⊢ <;> omega
    have hupto : ∀ lj ∈ ls, back D lj = back (upto comparator.compare Prod.fst e.1) lj := by
      intro lj hlj
      obtain ⟨j, hj⟩ := List.mem_iff_getElem?.mp hlj
      refine back_congr fun a ha => ?_
      exact eq_of_cut_eq hDl (initial_upto h.sorted e.1) hcut (h.mem hj ha)
    refine ⟨back_le D l, hat.imp fun _ _ _ _ => trivial, fun hnone => ?_, fun e' he' => ?_,
      (fun hdir => by cases hdir), fun _ e' he' => ?_⟩
    · rw [hgreatest] at hnone
      cases hnone
    · obtain rfl := Option.some.inj (hgreatest.symm.trans he')
      exact ⟨k, lk, rfl, hk, hek⟩
    · obtain rfl := Option.some.inj (hgreatest.symm.trans he')
      exact hat.imp fun lj hlj p hp => hp.trans (hupto lj hlj)

/-! ## The moves -/

omit [Std.TransCmp comparator.compare] in
theorem ChildrenAt.map (h : ChildrenAt comparator it ls pos children) {f : σ → σ}
    (hf : ∀ lj ∈ ls, ∀ c p, pos lj p → At (entryLt comparator) lj it c p →
      ∃ p', pos' lj p' ∧ At (entryLt comparator) lj it (f c) p') :
    ChildrenAt comparator it ls pos' (children.map f) := by
  refine ⟨by rw [List.length_map]; exact h.1, fun j c' lj hc' hj => ?_⟩
  rw [List.getElem?_map] at hc'
  obtain ⟨c, hc, rfl⟩ := Option.map_eq_some_iff.mp hc'
  obtain ⟨p, hp, hat⟩ := h.2 j c lj hc hj
  exact hf lj (List.mem_of_getElem? hj) c p hp hat

omit [Std.TransCmp comparator.compare] in
/-- The children are moved, the current one in its own way. -/
theorem ChildrenAt.step (h : ChildrenAt comparator it ls pos children) {k : ℕ} {f g : σ → σ}
    (hf : ∀ (j : ℕ) c lj p, j ≠ k → ls[j]? = some lj → pos lj p → At (entryLt comparator) lj it c p →
      ∃ p', pos' lj p' ∧ At (entryLt comparator) lj it (f c) p')
    (hg : ∀ c lk p, ls[k]? = some lk → pos lk p → At (entryLt comparator) lk it c p →
      ∃ p', pos' lk p' ∧ At (entryLt comparator) lk it (g c) p') :
    ChildrenAt comparator it ls pos' ((mapOthers f k children).modify k g) := by
  refine ⟨by rw [List.length_modify, mapOthers, List.length_mapIdx]; exact h.1, fun j c' lj hc' hj => ?_⟩
  rw [List.getElem?_modify, mapOthers, List.getElem?_mapIdx] at hc'
  obtain ⟨c₁, hc₁, rfl⟩ := Option.map_eq_some_iff.mp hc'
  obtain ⟨c, hc, rfl⟩ := Option.map_eq_some_iff.mp hc₁
  obtain ⟨p, hp, hat⟩ := h.2 j c lj hc hj
  by_cases hjk : j = k
  · subst hjk
    simpa using hg c lj p hj hp hat
  · have hkj : ¬ k = j := fun he => hjk he.symm
    simpa [hjk, hkj] using hf j c lj p hjk hj hp hat

theorem mapOthers_id (k : ℕ) (children : List σ) : mapOthers id k children = children := by
  refine List.ext_getElem? fun j => ?_
  simp [mapOthers]

omit [Std.TransCmp comparator.compare] in
theorem childrenAt_of_forall₂
    (h : List.Forall₂ (fun c lj => ∃ p, At (entryLt comparator) lj it c p) children ls) :
    ChildrenAt comparator it ls (fun _ _ => True) children := by
  refine ⟨h.length_eq, fun j c lj hc hj => ?_⟩
  obtain ⟨hj', rfl⟩ := List.getElem?_eq_some_iff.mp hj
  obtain ⟨hc', rfl⟩ := List.getElem?_eq_some_iff.mp hc
  obtain ⟨p, hat⟩ := h.get hc' hj'
  exact ⟨p, trivial, hat⟩

omit [Std.TransCmp comparator.compare] in
theorem stands_new (h : ChildrenAt comparator it ls (fun _ _ => True) children) :
    Stands comparator it ls l (new children) l.length := by
  have hnone : l[l.length]? = none := List.getElem?_eq_none le_rfl
  exact ⟨le_rfl, h, fun _ => rfl, fun e he => absurd (hnone.symm.trans he) (by simp),
    fun _ e he => absurd (hnone.symm.trans he) (by simp), fun _ e he => absurd (hnone.symm.trans he) (by simp)⟩

/-- The current entry is the one at the place. -/
theorem Stands.current_eq (h : Merged comparator ls l) (hm : Stands comparator it ls l m i) :
    m.current? it = l[i]? := by
  cases he : l[i]? with
  | none =>
    rw [current?, hm.invalid he]
    rfl
  | some e =>
    obtain ⟨k, lk, hcur, hk, hek⟩ := hm.valid e he
    obtain ⟨q, hq⟩ := List.mem_iff_getElem?.mp hek
    have hc : ∃ c, m.children[k]? = some c ∧ At (entryLt comparator) lk it c q := by
      cases hdir : m.direction with
      | kForward =>
        obtain ⟨c, p, hc, rfl, hat⟩ := (hm.forward hdir e he).child hk
        rw [cut_below (h.child hk) hq] at hat
        exact ⟨c, hc, hat⟩
      | kReverse =>
        obtain ⟨c, p, hc, rfl, hat⟩ := (hm.reverse hdir e he).child hk
        rw [back_upto (h.child hk) hq] at hat
        exact ⟨c, hc, hat⟩
    obtain ⟨c, hc, hat⟩ := hc
    rw [current?, hcur, Option.bind_some, hc, Option.bind_some, hat.current, hq]

theorem Stands.seekToFirst (h : Merged comparator ls l) (hm : Stands comparator it ls l m i) :
    Stands comparator it ls l (m.seekToFirst comparator it) 0 := by
  have hzero (l : List Entry) : cut (fun _ => false) l = 0 := by cases l <;> rfl
  rw [← hzero l]
  refine stands_findSmallest h (fun _ _ _ hf => hf) (hm.children.map fun lj _ c p _ hat => ?_)
  exact ⟨_, rfl, by rw [hzero]; exact hat.move (m := .seekToFirst) trivial⟩

theorem Stands.seekToLast (h : Merged comparator ls l) (hm : Stands comparator it ls l m i) :
    Stands comparator it ls l (m.seekToLast comparator it) (l.length - 1) := by
  have hlast (l : List Entry) : back (fun _ => true) l = l.length - 1 := by
    have hcut : cut (fun _ : Entry => true) l = l.length := by
      rw [cut, List.takeWhile_eq_self_iff.mpr fun _ _ => rfl]
    rw [back, hcut]
    split_ifs <;> omega
  rw [← hlast l]
  refine stands_findLargest h (fun _ _ _ _ => rfl) (hm.children.map fun lj _ c p _ hat => ?_)
  exact ⟨_, rfl, by rw [hlast]; exact hat.move (m := .seekToLast) trivial⟩

theorem below_mono (k : Slice) (a b : Entry) (hab : comparator.compare a.1 b.1 = .lt)
    (hb : below comparator.compare Prod.fst k b = true) : below comparator.compare Prod.fst k a = true := by
  unfold below at hb ⊢
  rw [decide_eq_true_eq] at hb ⊢
  exact Std.TransCmp.lt_trans hab hb

theorem upto_mono (k : Slice) (a b : Entry) (hab : comparator.compare a.1 b.1 = .lt)
    (hb : upto comparator.compare Prod.fst k b = true) : upto comparator.compare Prod.fst k a = true :=
  Std.TransCmp.isLE_trans (Ordering.isLE_of_eq_lt hab) hb

theorem Stands.seek (h : Merged comparator ls l) (hm : Stands comparator it ls l m i) (target : Slice) :
    Stands comparator it ls l (m.seek comparator it target)
      (cut (below comparator.compare Prod.fst target) l) := by
  refine stands_findSmallest h (below_mono target) (hm.children.map fun lj _ c p _ hat => ?_)
  exact ⟨_, rfl, hat.move (m := .seek target) trivial⟩

/-- `positionAfter` leads a child behind the key. -/
theorem at_positionAfter (hl : Sorted comparator.compare Prod.fst lj) {p : ℕ}
    (hat : At (entryLt comparator) lj it c p) (key : Slice) :
    At (entryLt comparator) lj it (positionAfter comparator it key c)
      (cut (upto comparator.compare Prod.fst key) lj) := by
  have hseek := hat.move (m := .seek key) trivial
  have hplace : place (entryLt comparator) lj p (.seek key) = cut (below comparator.compare Prod.fst key) lj := rfl
  rw [hplace] at hseek
  -- what is below the key is not above it
  have hbelow (j : ℕ) (a : Entry) (hj : j < cut (below comparator.compare Prod.fst key) lj)
      (ha : lj[j]? = some a) : upto comparator.compare Prod.fst key a = true := by
    have hlt : below comparator.compare Prod.fst key a = true := getElem?_lt_cut hj ha
    exact Ordering.isLE_of_eq_lt (of_decide_eq_true hlt)
  unfold positionAfter
  simp only
  cases hcur : it.current (it.move c (.seek key)) with
  | none =>
    have hlen := hseek.eq_length hcur
    have hcut : cut (upto comparator.compare Prod.fst key) lj =
        cut (below comparator.compare Prod.fst key) lj := by
      refine cut_eq (initial_upto hl key) (cut_le _ _) hbelow fun a ha => ?_
      rw [hlen, List.getElem?_eq_none le_rfl] at ha
      cases ha
    rw [hcut]
    exact hseek
  | some e =>
    have he := hseek.getElem? hcur
    have hge : comparator.compare e.1 key ≠ .lt := by
      have hf := getElem?_cut_le (initial_below hl key) le_rfl he
      exact of_decide_eq_false hf
    simp only
    by_cases heq : comparator.compare key e.1 = .eq
    · rw [if_pos heq]
      have hlt := (List.getElem?_eq_some_iff.mp he).1
      have hcut : cut (upto comparator.compare Prod.fst key) lj =
          cut (below comparator.compare Prod.fst key) lj + 1 := by
        refine cut_eq (initial_upto hl key) hlt ?_ ?_
        · intro j a hj ha
          rcases Nat.lt_succ_iff_lt_or_eq.mp hj with hj | rfl
          · exact hbelow j a hj ha
          · obtain rfl := Option.some.inj (ha.symm.trans he)
            rw [upto, Std.OrientedCmp.eq_symm heq]
            rfl
        · intro a ha
          have hgt := Std.OrientedCmp.gt_of_lt (hl.lt_of_getElem? (Nat.lt_succ_self _) he ha)
          rw [upto, Std.TransCmp.gt_of_gt_of_eq hgt (Std.OrientedCmp.eq_symm heq)]
          rfl
      rw [hcut]
      exact hseek.move (m := .next) hlt
    · rw [if_neg heq]
      have hcut : cut (upto comparator.compare Prod.fst key) lj =
          cut (below comparator.compare Prod.fst key) lj := by
        refine cut_eq (initial_upto hl key) (cut_le _ _) hbelow fun a ha => ?_
        obtain rfl := Option.some.inj (ha.symm.trans he)
        cases hc : comparator.compare a.1 key with
        | lt => exact absurd hc hge
        | eq => exact absurd (Std.OrientedCmp.eq_symm hc) heq
        | gt =>
          rw [upto, hc]
          rfl
      rw [hcut]
      exact hseek

omit [Std.TransCmp comparator.compare] in
/-- `positionBefore` leads a child before the key. -/
theorem at_positionBefore {p : ℕ} (hat : At (entryLt comparator) lj it c p) (key : Slice) :
    At (entryLt comparator) lj it (positionBefore it key c)
      (back (below comparator.compare Prod.fst key) lj) := by
  have hseek := hat.move (m := .seek key) trivial
  unfold positionBefore
  simp only
  cases hcur : it.current (it.move c (.seek key)) with
  | none =>
    have hlen := hseek.eq_length hcur
    have hback : back (below comparator.compare Prod.fst key) lj = lj.length - 1 := by
      have hcut : cut (below comparator.compare Prod.fst key) lj = lj.length := hlen
      rw [back, hcut]
      split_ifs <;> omega
    rw [hback]
    exact hseek.move (m := .seekToLast) trivial
  | some e => exact hseek.move (m := .prev) (hseek.lt_of_current hcur)

theorem Stands.next (h : Merged comparator ls l) (hm : Stands comparator it ls l m i) (hi : i < l.length) :
    Stands comparator it ls l (m.next comparator it) (i + 1) := by
  have he := List.getElem?_eq_getElem hi
  generalize l[i] = e at he
  obtain ⟨k, lk, hcur, hk, hek⟩ := hm.valid e he
  obtain ⟨q, hq⟩ := List.mem_iff_getElem?.mp hek
  have hcurrent : m.current? it = some e := (hm.current_eq h).trans he
  unfold Merging.next
  rw [hcurrent, hcur]
  simp only
  rw [← cut_upto h.sorted he]
  refine stands_findSmallest h (upto_mono e.1) ?_
  have hnext {c : σ} (hat : At (entryLt comparator) lk it c q) :
      At (entryLt comparator) lk it (it.move c .next) (cut (upto comparator.compare Prod.fst e.1) lk) := by
    rw [cut_upto (h.child hk) hq]
    exact hat.move (m := .next) (List.getElem?_eq_some_iff.mp hq).1
  cases hdir : m.direction with
  | kForward =>
    rw [if_neg (by simp), ← mapOthers_id k m.children]
    refine (hm.forward hdir e he).step ?_ ?_
    · rintro j c lj p hjk hj rfl hat
      refine ⟨_, rfl, ?_⟩
      -- no other child has the key
      have hcut : cut (upto comparator.compare Prod.fst e.1) lj =
          cut (below comparator.compare Prod.fst e.1) lj := by
        refine cut_congr fun a ha => ?_
        unfold upto below
        cases hc : comparator.compare a.1 e.1 with
        | lt => rfl
        | eq => exact absurd (h.index_eq hj hk ha hek hc) hjk
        | gt => rfl
      rw [hcut]
      exact hat
    · rintro c lk' p hk' rfl hat
      obtain rfl := Option.some.inj (hk'.symm.trans hk)
      rw [cut_below (h.child hk) hq] at hat
      exact ⟨_, rfl, hnext hat⟩
  | kReverse =>
    rw [if_pos (by simp)]
    refine (hm.reverse hdir e he).step ?_ ?_
    · rintro j c lj p hjk hj rfl hat
      exact ⟨_, rfl, at_positionAfter (h.child hj) hat e.1⟩
    · rintro c lk' p hk' rfl hat
      obtain rfl := Option.some.inj (hk'.symm.trans hk)
      rw [back_upto (h.child hk) hq] at hat
      exact ⟨_, rfl, hnext hat⟩

theorem Stands.prev (h : Merged comparator ls l) (hm : Stands comparator it ls l m i) (hi : i < l.length) :
    Stands comparator it ls l (m.prev comparator it) (if i = 0 then l.length else i - 1) := by
  have he := List.getElem?_eq_getElem hi
  generalize l[i] = e at he
  obtain ⟨k, lk, hcur, hk, hek⟩ := hm.valid e he
  obtain ⟨q, hq⟩ := List.mem_iff_getElem?.mp hek
  have hcurrent : m.current? it = some e := (hm.current_eq h).trans he
  have hplace {l : List Entry} {i : ℕ} (hl : Sorted comparator.compare Prod.fst l) (he : l[i]? = some e) :
      (if i = 0 then l.length else i - 1) = back (below comparator.compare Prod.fst e.1) l := by
    rw [back, cut_below hl he]
  unfold Merging.prev
  rw [hcurrent, hcur]
  simp only
  rw [hplace h.sorted he]
  refine stands_findLargest h (below_mono e.1) ?_
  have hprev {c : σ} (hat : At (entryLt comparator) lk it c q) :
      At (entryLt comparator) lk it (it.move c .prev) (back (below comparator.compare Prod.fst e.1) lk) := by
    rw [← hplace (h.child hk) hq]
    exact hat.move (m := .prev) (List.getElem?_eq_some_iff.mp hq).1
  cases hdir : m.direction with
  | kForward =>
    rw [if_pos (by simp)]
    refine (hm.forward hdir e he).step ?_ ?_
    · rintro j c lj p hjk hj rfl hat
      exact ⟨_, rfl, at_positionBefore hat e.1⟩
    · rintro c lk' p hk' rfl hat
      obtain rfl := Option.some.inj (hk'.symm.trans hk)
      rw [cut_below (h.child hk) hq] at hat
      exact ⟨_, rfl, hprev hat⟩
  | kReverse =>
    rw [if_neg (by simp), ← mapOthers_id k m.children]
    refine (hm.reverse hdir e he).step ?_ ?_
    · rintro j c lj p hjk hj rfl hat
      refine ⟨_, rfl, ?_⟩
      have hback : back (below comparator.compare Prod.fst e.1) lj =
          back (upto comparator.compare Prod.fst e.1) lj := by
        refine back_congr fun a ha => ?_
        unfold upto below
        cases hc : comparator.compare a.1 e.1 with
        | lt => rfl
        | eq => exact absurd (h.index_eq hj hk ha hek hc) hjk
        | gt => rfl
      rw [hback]
      exact hat
    · rintro c lk' p hk' rfl hat
      obtain rfl := Option.some.inj (hk'.symm.trans hk)
      rw [back_upto (h.child hk) hq] at hat
      exact ⟨_, rfl, hprev hat⟩

omit [Std.TransCmp comparator.compare] in
theorem Stands.ok (hm : Stands comparator it ls l m i) : m.children.all it.ok = true := by
  rw [List.all_eq_true]
  intro c hc
  obtain ⟨j, hj⟩ := List.mem_iff_getElem?.mp hc
  have hlt : j < ls.length := by
    rw [← hm.children.1]
    exact (List.getElem?_eq_some_iff.mp hj).1
  obtain ⟨p, -, hat⟩ := hm.children.2 j c _ hj (List.getElem?_eq_getElem hlt)
  exact hat.ok

theorem simulates (h : Merged comparator ls l) :
    Simulates (entryLt comparator) l (iter comparator it) (Stands comparator it ls l) where
  le _ _ hm := hm.le
  ok _ _ hm := hm.ok
  current _ _ hm := hm.current_eq h
  move := by
    intro m i mv hm hlegal
    cases mv with
    | seekToFirst => exact hm.seekToFirst h
    | seekToLast => exact hm.seekToLast h
    | seek target => exact hm.seek h target
    | next => exact hm.next h hlegal
    | prev => exact hm.prev h hlegal

end Standing

theorem at_new {comparator : Comparator} [Std.TransCmp comparator.compare] {it : Iter σ Entry Slice}
    {ls : List (List Entry)} {l : List Entry} {children : List σ} (h : Merged comparator ls l)
    (hchildren : List.Forall₂ (fun c lj => ∃ p, At (entryLt comparator) lj it c p) children ls) :
    At (entryLt comparator) l (iter comparator it) (new children) l.length :=
  (simulates h).at (stands_new (childrenAt_of_forall₂ hchildren))

/-- The union of one list is this list. -/
theorem Merged.eq_of_single {comparator : Comparator} [Std.TransCmp comparator.compare] {l lj : List Entry}
    (h : Merged comparator [lj] l) : l = lj := by
  have hperm : l.Perm lj := by simpa using h.perm
  refine hperm.eq_of_pairwise (fun a b _ _ hab hba => ?_) h.sorted (h.children lj List.mem_cons_self)
  rw [Std.OrientedCmp.gt_of_lt hab] at hba
  cases hba

end Merging

/-! ## Any number of children -/

/-- What `NewMergingIterator` returns: an `EmptyIterator`, the only child, or a `MergingIterator`. -/
inductive Merger (σ : Type)
  | empty
  | child (c : σ)
  | merging (m : Merging σ)

def newMergingIterator : List σ → Merger σ
  | [] => .empty
  | [c] => .child c
  | children => .merging (.new children)

namespace Merger

section Iterator

variable (comparator : Comparator) (it : Iter σ Entry Slice)

def move : Merger σ → Move Slice → Merger σ
  | .empty, _ => .empty
  | .child c, mv => .child (it.move c mv)
  | .merging m, mv => .merging ((Merging.iter comparator it).move m mv)

def current? : Merger σ → Option Entry
  | .empty => none
  | .child c => it.current c
  | .merging m => (Merging.iter comparator it).current m

def ok : Merger σ → Bool
  | .empty => true
  | .child c => it.ok c
  | .merging m => (Merging.iter comparator it).ok m

def iter : Iter (Merger σ) Entry Slice where
  move := move comparator it
  current := current? comparator it
  ok := ok comparator it

end Iterator

variable {comparator : Comparator} {it : Iter σ Entry Slice} {l : List Entry}

theorem at_empty : At (entryLt comparator) [] (iter comparator it) .empty 0 := by
  refine Simulates.at (R := fun m i => m = .empty ∧ i = 0) ⟨?_, ?_, ?_, ?_⟩ ⟨rfl, rfl⟩
  · rintro _ _ ⟨rfl, rfl⟩
    exact le_rfl
  · rintro _ _ ⟨rfl, rfl⟩
    rfl
  · rintro _ _ ⟨rfl, rfl⟩
    rfl
  · rintro _ _ mv ⟨rfl, rfl⟩ hlegal
    refine ⟨rfl, ?_⟩
    cases mv with
    | seekToFirst => rfl
    | seekToLast => rfl
    | seek target => rfl
    | next => cases hlegal
    | prev => cases hlegal

/-- A child is an iterator over its list, wherever it stands. -/
theorem at_child {c : σ} {p : ℕ} (h : At (entryLt comparator) l it c p) :
    At (entryLt comparator) l (iter comparator it) (.child c) p :=
  h.map (fun _ _ => rfl) (fun _ => rfl) fun _ => rfl

theorem at_merging {m : Merging σ} {p : ℕ} (h : At (entryLt comparator) l (Merging.iter comparator it) m p) :
    At (entryLt comparator) l (iter comparator it) (.merging m) p :=
  h.map (fun _ _ => rfl) (fun _ => rfl) fun _ => rfl

variable [Std.TransCmp comparator.compare] {ls : List (List Entry)} {children : List σ}

theorem at_new (h : Merging.Merged comparator ls l)
    (hchildren : List.Forall₂ (fun c lj => ∃ p, At (entryLt comparator) lj it c p) children ls) :
    ∃ i, At (entryLt comparator) l (iter comparator it) (newMergingIterator children) i := by
  match children, ls, hchildren with
  | [], [], _ =>
    obtain rfl : l = [] := by simpa using h.perm
    exact ⟨0, at_empty⟩
  | [c], [lj], .cons ⟨p, hat⟩ .nil =>
    obtain rfl := h.eq_of_single
    exact ⟨p, at_child hat⟩
  | _ :: _ :: _, _, hchildren => exact ⟨l.length, at_merging (Merging.at_new h hchildren)⟩

end Merger

/-- **One iterator over any number**: over children that are cursors in lists without a common key,
`NewMergingIterator` returns a cursor in the sorted union of these lists, whatever moves are made in which
order.  It is not valid before the first move, unless it is the only child itself. -/
theorem at_newMergingIterator {comparator : Comparator} [Std.TransCmp comparator.compare]
    {it : Iter σ Entry Slice} {ls : List (List Entry)} {l : List Entry} {children : List σ}
    (h : Merging.Merged comparator ls l)
    (hchildren : List.Forall₂ (fun c lj => ∃ p, At (entryLt comparator) lj it c p) children ls) :
    (∃ i, At (entryLt comparator) l (Merger.iter comparator it) (newMergingIterator children) i) ∧
      (children.length ≠ 1 → (Merger.iter comparator it).current (newMergingIterator children) = none) := by
  refine ⟨Merger.at_new h hchildren, fun hone => ?_⟩
  match children with
  | [] => rfl
  | [c] => exact absurd rfl hone
  | _ :: _ :: _ => rfl

/-- Two children, with two keys and with one. -/
theorem at_newMergingIterator_two :
    (∃ i, At (entryLt bytewiseComparator) [([1], [10]), ([2], [20]), ([3], [30])]
      (Merger.iter bytewiseComparator (ofList (entryLt bytewiseComparator)))
      (newMergingIterator [([([1], [10]), ([3], [30])], 2), ([([2], [20])], 1)]) i) ∧
    (2 ≠ 1 → (Merger.iter bytewiseComparator (ofList (entryLt bytewiseComparator))).current
      (newMergingIterator [([([1], [10]), ([3], [30])], 2), ([([2], [20])], 1)]) = none) := by
  have h : Merging.Merged bytewiseComparator [[([1], [10]), ([3], [30])], [([2], [20])]]
      [([1], [10]), ([2], [20]), ([3], [30])] := ⟨by decide, by decide, by decide⟩
  exact at_newMergingIterator h
    (List.Forall₂.cons ⟨2, at_ofList le_rfl⟩ (List.Forall₂.cons ⟨1, at_ofList le_rfl⟩ List.Forall₂.nil))

end Leveldb
