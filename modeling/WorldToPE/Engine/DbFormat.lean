import Mathlib.Tactic
import Std.Data.ExtTreeMap
import WorldToPE.Engine.Coding

/-!
# WorldToPE.Engine.DbFormat — comparators and internal keys

`util/comparator.cc` and `db/dbformat.cc`.  The engine orders its entries by internal keys: a user
key followed by eight bytes that pack a sequence number and a type.  User keys ascend, and for one
user key the newest entry comes first.

A comparator also shortens keys for index blocks.  `Separates` is the contract of these two
functions; `separates_bytewise` and `separates_internal` are the two comparators of the engine.
-/

namespace Leveldb

/-! ## Comparators -/

structure Comparator where
  compare : Slice → Slice → Ordering
  findShortestSeparator : Slice → Slice → Slice
  findShortSuccessor : Slice → Slice

/-- `memcmp` on the bytes that both have. -/
def memcmp : Slice → Slice → Ordering
  | a :: as, b :: bs => (compare a b).then (memcmp as bs)
  | _, _ => .eq

/-- `Slice::compare`. -/
def sliceCompare (a b : Slice) : Ordering := (memcmp a b).then (compare a.length b.length)

/-- The length of the common prefix. -/
def sharedLength : Slice → Slice → ℕ
  | a :: as, b :: bs => if a = b then sharedLength as bs + 1 else 0
  | _, _ => 0

/-- `BytewiseComparatorImpl::FindShortestSeparator`. -/
def bytewiseSeparator (start limit : Slice) : Slice :=
  let diff_index := sharedLength start limit
  match start[diff_index]?, limit[diff_index]? with
  | some diff_byte, some limit_byte =>
    if diff_byte < 0xff ∧ diff_byte.toNat + 1 < limit_byte.toNat then
      start.take diff_index ++ [diff_byte + 1]
    else start
  | _, _ => start  -- one is a prefix of the other

/-- `BytewiseComparatorImpl::FindShortSuccessor`. -/
def bytewiseSuccessor : Slice → Slice
  | [] => []
  | b :: key => if b ≠ 0xff then [b + 1] else b :: bytewiseSuccessor key

def bytewiseComparator : Comparator := ⟨sliceCompare, bytewiseSeparator, bytewiseSuccessor⟩

/-! ## Internal keys -/

def kMaxSequenceNumber : UInt64 := ((1 : UInt64) <<< 56) - 1

/-- The type that the keys made for seeking carry: the higher of the two. -/
def kValueTypeForSeek : UInt8 := 1

structure ParsedInternalKey where
  user_key : Slice
  sequence : UInt64
  type : UInt8
deriving DecidableEq

def packSequenceAndType (seq : UInt64) (t : UInt8) : UInt64 := (seq <<< 8) ||| t.toUInt64

def appendInternalKey (result : Slice) (key : ParsedInternalKey) : Slice :=
  result ++ key.user_key ++ encodeFixed64 (packSequenceAndType key.sequence key.type)

def extractUserKey (internal_key : Slice) : Slice := internal_key.take (internal_key.length - 8)

/-- The packed number at the end of an internal key. -/
def extractNum (internal_key : Slice) : UInt64 :=
  decodeFixed64 (internal_key.drop (internal_key.length - 8))

def parseInternalKey (internal_key : Slice) : Option ParsedInternalKey :=
  let n := internal_key.length
  if n < 8 then none
  else
    let num := decodeFixed64 (internal_key.drop (n - 8))
    let c := (num &&& 0xff).toUInt8
    if c ≤ 1 then some ⟨internal_key.take (n - 8), num >>> 8, c⟩ else none

/-- `InternalKeyComparator::Compare`. -/
def internalCompare (user : Comparator) (akey bkey : Slice) : Ordering :=
  match user.compare (extractUserKey akey) (extractUserKey bkey) with
  | .eq =>
    let anum := extractNum akey
    let bnum := extractNum bkey
    if anum > bnum then .lt else if anum < bnum then .gt else .eq
  | r => r

/-- `InternalKeyComparator::FindShortestSeparator`. -/
def internalSeparator (user : Comparator) (start limit : Slice) : Slice :=
  let user_start := extractUserKey start
  let user_limit := extractUserKey limit
  let tmp := user.findShortestSeparator user_start user_limit
  if tmp.length < user_start.length ∧ user.compare user_start tmp = .lt then
    tmp ++ encodeFixed64 (packSequenceAndType kMaxSequenceNumber kValueTypeForSeek)
  else start

/-- `InternalKeyComparator::FindShortSuccessor`. -/
def internalSuccessor (user : Comparator) (key : Slice) : Slice :=
  let user_key := extractUserKey key
  let tmp := user.findShortSuccessor user_key
  if tmp.length < user_key.length ∧ user.compare user_key tmp = .lt then
    tmp ++ encodeFixed64 (packSequenceAndType kMaxSequenceNumber kValueTypeForSeek)
  else key

def internalKeyComparator (user : Comparator) : Comparator :=
  ⟨internalCompare user, internalSeparator user, internalSuccessor user⟩

/-! ## The bytewise order -/

/-- The order of byte strings is the lexicographic one. -/
theorem sliceCompare_eq (a b : Slice) : sliceCompare a b = compare a b := by
  rw [List.compare_eq_compareLex]
  unfold sliceCompare
  induction a generalizing b with
  | nil =>
    cases b with
    | nil => rfl
    | cons b bs =>
      show compare 0 (b :: bs).length = _
      rw [List.compareLex_nil_cons, Nat.compare_eq_lt]
      simp
  | cons a as ih =>
    cases b with
    | nil =>
      show compare (a :: as).length 0 = _
      rw [List.compareLex_cons_nil, Nat.compare_eq_gt]
      simp
    | cons b bs =>
      rw [List.compareLex_cons_cons, ← ih bs, memcmp, Ordering.then_assoc]
      congr 2
      simp only [List.length_cons, Nat.compare_eq_ite_lt]
      simp

instance : Std.TransCmp bytewiseComparator.compare := by
  have h : bytewiseComparator.compare = compare := by
    funext a b
    exact sliceCompare_eq a b
  rw [h]
  infer_instance

instance : Std.LawfulEqCmp bytewiseComparator.compare := by
  have h : bytewiseComparator.compare = compare := by
    funext a b
    exact sliceCompare_eq a b
  rw [h]
  infer_instance

theorem compare_cons (a b : UInt8) (as bs : Slice) :
    bytewiseComparator.compare (a :: as) (b :: bs) =
      (compare a b).then (bytewiseComparator.compare as bs) := by
  show sliceCompare _ _ = (compare a b).then (sliceCompare as bs)
  rw [sliceCompare_eq, sliceCompare_eq, List.compare_eq_compareLex, List.compareLex_cons_cons]

theorem compare_self (c : Comparator) [Std.ReflCmp c.compare] (a : Slice) : c.compare a a = .eq :=
  Std.ReflCmp.compare_self

/-- A key whose first byte is smaller comes first. -/
theorem compare_cons_of_lt {a b : UInt8} (h : a < b) (as bs : Slice) :
    bytewiseComparator.compare (a :: as) (b :: bs) = .lt := by
  rw [compare_cons, Std.compare_eq_lt.mpr h]
  rfl

/-! ## Shortened keys -/

/-- The contract of the two functions that shorten keys, on the keys that `P` admits: what lies
below the limit becomes a key of `[start, limit)` that is no longer, anything else stays. -/
structure Separates (c : Comparator) (P : Slice → Prop) : Prop where
  separator {start limit : Slice} : P start → P limit → c.compare start limit = .lt →
    P (c.findShortestSeparator start limit) ∧
    (c.findShortestSeparator start limit).length ≤ start.length ∧
    (c.compare start (c.findShortestSeparator start limit)).isLE ∧
    c.compare (c.findShortestSeparator start limit) limit = .lt
  unchanged {start limit : Slice} : P start → P limit → c.compare start limit ≠ .lt →
    c.findShortestSeparator start limit = start
  successor {key : Slice} : P key →
    P (c.findShortSuccessor key) ∧ (c.findShortSuccessor key).length ≤ key.length ∧
    (c.compare key (c.findShortSuccessor key)).isLE

theorem toNat_add_one {b c : UInt8} (h : b < c) : (b + 1).toNat = b.toNat + 1 := by
  have hb : b.toNat < c.toNat := UInt8.lt_iff_toNat_lt.mp h
  have hc := c.toNat_lt
  rw [UInt8.toNat_add, show (1 : UInt8).toNat = 1 from rfl, Nat.mod_eq_of_lt (by omega)]

theorem lt_add_one {b c : UInt8} (h : b < c) : b < b + 1 := by
  rw [UInt8.lt_iff_toNat_lt, toNat_add_one h]
  omega

theorem bytewiseSeparator_cons (a b : UInt8) (as bs : Slice) :
    bytewiseSeparator (a :: as) (b :: bs) =
      if a = b then a :: bytewiseSeparator as bs
      else if a < 0xff ∧ a.toNat + 1 < b.toNat then [a + 1] else a :: as := by
  unfold bytewiseSeparator
  by_cases h : a = b
  · subst h
    simp only [sharedLength, if_true, List.getElem?_cons_succ, List.take_succ_cons]
    rcases as[sharedLength as bs]? with _ | d
    · rfl
    · rcases bs[sharedLength as bs]? with _ | l
      · rfl
      · simp only
        split_ifs <;> rfl
  · simp [sharedLength, h]

theorem bytewiseSeparator_spec : ∀ {start limit : Slice},
    bytewiseComparator.compare start limit = .lt →
    (bytewiseSeparator start limit).length ≤ start.length ∧
    (bytewiseComparator.compare start (bytewiseSeparator start limit)).isLE ∧
    bytewiseComparator.compare (bytewiseSeparator start limit) limit = .lt
  | [], limit, hlt => by
    have h : bytewiseSeparator [] limit = [] := by cases limit <;> rfl
    rw [h, compare_self]
    exact ⟨le_rfl, rfl, hlt⟩
  | a :: as, [], hlt => by
    show (a :: as).length ≤ _ ∧ (bytewiseComparator.compare _ (a :: as)).isLE ∧ _
    rw [compare_self]
    exact ⟨le_rfl, rfl, hlt⟩
  | a :: as, b :: bs, hlt => by
    rw [bytewiseSeparator_cons]
    split_ifs with h1 h2
    · -- the first byte is shared
      subst h1
      rw [compare_cons, Std.ReflOrd.compare_self, Ordering.eq_then] at hlt
      obtain ⟨ih1, ih2, ih3⟩ := bytewiseSeparator_spec hlt
      simp only [compare_cons, Std.ReflOrd.compare_self, Ordering.eq_then]
      exact ⟨Nat.succ_le_succ ih1, ih2, ih3⟩
    · -- the byte after the first difference goes up and stays below the limit
      have hab : a < b := by
        rw [UInt8.lt_iff_toNat_lt]
        omega
      have hb : a + 1 < b := by
        rw [UInt8.lt_iff_toNat_lt, toNat_add_one hab]
        exact h2.2
      rw [compare_cons_of_lt (lt_add_one hab)]
      exact ⟨by simp, rfl, compare_cons_of_lt hb _ _⟩
    · rw [compare_self]
      exact ⟨le_rfl, rfl, hlt⟩

theorem bytewiseSeparator_unchanged : ∀ {start limit : Slice},
    bytewiseComparator.compare start limit ≠ .lt → bytewiseSeparator start limit = start
  | [], limit, _ => by cases limit <;> rfl
  | _ :: _, [], _ => rfl
  | a :: as, b :: bs, h => by
    rw [bytewiseSeparator_cons]
    split_ifs with h1 h2
    · subst h1
      rw [compare_cons, Std.ReflOrd.compare_self, Ordering.eq_then] at h
      rw [bytewiseSeparator_unchanged h]
    · have hab : a < b := by
        rw [UInt8.lt_iff_toNat_lt]
        omega
      exact absurd (compare_cons_of_lt hab as bs) h
    · rfl

theorem bytewiseSuccessor_spec : ∀ key : Slice, (bytewiseSuccessor key).length ≤ key.length ∧
    (bytewiseComparator.compare key (bytewiseSuccessor key)).isLE
  | [] => ⟨le_rfl, rfl⟩
  | b :: key => by
    unfold bytewiseSuccessor
    split_ifs with h
    · have hb : b < b + 1 := by
        have hlt := b.toNat_lt
        have hne : b.toNat ≠ 255 := fun he => h (UInt8.toNat_inj.mp he)
        have h255 : b < 255 := UInt8.lt_iff_toNat_lt.mpr (show b.toNat < 255 by omega)
        exact lt_add_one h255
      rw [compare_cons_of_lt hb]
      exact ⟨by simp, rfl⟩
    · obtain ⟨ih1, ih2⟩ := bytewiseSuccessor_spec key
      rw [compare_cons, Std.ReflOrd.compare_self, Ordering.eq_then]
      exact ⟨Nat.succ_le_succ ih1, ih2⟩

theorem separates_bytewise : Separates bytewiseComparator fun _ => True where
  separator := fun _ _ h => ⟨trivial, bytewiseSeparator_spec h⟩
  unchanged := fun _ _ h => bytewiseSeparator_unchanged h
  successor := fun {key} _ => ⟨trivial, bytewiseSuccessor_spec key⟩

/-! ## The order of internal keys -/

theorem toNat_packSequenceAndType {seq : UInt64} (h : seq ≤ kMaxSequenceNumber) (t : UInt8) :
    (packSequenceAndType seq t).toNat = seq.toNat * 256 + t.toNat := by
  have hs : seq.toNat ≤ 2 ^ 56 - 1 := UInt64.le_iff_toNat_le.mp h
  have ht := t.toNat_lt
  have hor := Nat.two_pow_add_eq_or_of_lt (by omega : t.toNat < 2 ^ 8) seq.toNat
  rw [packSequenceAndType, UInt64.toNat_or, UInt64.toNat_shiftLeft, UInt8.toNat_toUInt64,
    show (8 : UInt64).toNat % 64 = 8 from rfl, Nat.shiftLeft_eq, Nat.mod_eq_of_lt (by omega),
    mul_comm, ← hor]

theorem extractUserKey_append (u : Slice) {tag : Slice} (h : tag.length = 8) :
    extractUserKey (u ++ tag) = u := by
  unfold extractUserKey
  rw [List.length_append, h, Nat.add_sub_cancel, List.take_left]

theorem extractNum_append (u : Slice) (n : UInt64) : extractNum (u ++ encodeFixed64 n) = n := by
  unfold extractNum
  rw [List.length_append, length_encodeFixed64, Nat.add_sub_cancel, List.drop_left,
    decodeFixed64_encodeFixed64_self]

/-- User keys ascend, and the numbers of one user key descend. -/
theorem internalCompare_eq (user : Comparator) :
    internalCompare user = compareLex (fun a b => user.compare (extractUserKey a) (extractUserKey b))
      fun a b => compare (extractNum b) (extractNum a) := by
  funext a b
  show internalCompare user a b = (user.compare (extractUserKey a) (extractUserKey b)).then
    (compare (extractNum b) (extractNum a))
  unfold internalCompare
  rcases user.compare (extractUserKey a) (extractUserKey b) with _ | _ | _
  · rfl
  · simp only [Ordering.eq_then]
    split_ifs with h1 h2
    · exact (Std.compare_eq_lt.mpr h1).symm
    · exact (Std.compare_eq_gt.mpr h2).symm
    · have he : extractNum b = extractNum a := UInt64.le_antisymm (UInt64.not_lt.mp h2) (UInt64.not_lt.mp h1)
      rw [he]
      exact Std.ReflOrd.compare_self.symm
  · rfl

instance (user : Comparator) [Std.TransCmp user.compare] : Std.TransCmp (internalCompare user) := by
  rw [internalCompare_eq]
  have h1 : Std.TransCmp fun a b => user.compare (extractUserKey a) (extractUserKey b) :=
    { eq_swap := Std.OrientedCmp.eq_swap, isLE_trans := Std.TransCmp.isLE_trans }
  have h2 : Std.TransCmp fun a b => compare (extractNum b) (extractNum a) :=
    { eq_swap := Std.OrientedCmp.eq_swap, isLE_trans := fun h h' => Std.TransCmp.isLE_trans h' h }
  infer_instance

/-- A user key with the earliest possible number comes before every internal key of that user key. -/
theorem internalCompare_of_lt {user : Comparator} {a b : Slice}
    (h : user.compare (extractUserKey a) (extractUserKey b) = .lt) : internalCompare user a b = .lt := by
  rw [internalCompare_eq]
  show (user.compare _ _).then _ = .lt
  rw [h]
  rfl

section Order

variable {u u' : Slice} {n n' : UInt64}

theorem internalCompare_append (user : Comparator) (u u' : Slice) (n n' : UInt64) :
    internalCompare user (u ++ encodeFixed64 n) (u' ++ encodeFixed64 n') =
      (user.compare u u').then (compare n' n) := by
  rw [internalCompare_eq]
  show (user.compare (extractUserKey _) (extractUserKey _)).then
    (compare (extractNum _) (extractNum _)) = _
  rw [extractUserKey_append _ (length_encodeFixed64 _), extractUserKey_append _ (length_encodeFixed64 _),
    extractNum_append, extractNum_append]

/-- The order of the entries: by user key, and the newest first. -/
theorem internalCompare_lt_iff :
    internalCompare bytewiseComparator (u ++ encodeFixed64 n) (u' ++ encodeFixed64 n') = .lt ↔
      bytewiseComparator.compare u u' = .lt ∨ u = u' ∧ n'.toNat < n.toNat := by
  rw [internalCompare_append, Ordering.then_eq_lt, Std.LawfulEqCmp.compare_eq_iff_eq,
    Std.compare_eq_lt, UInt64.lt_iff_toNat_lt]

theorem internalCompare_eq_iff :
    internalCompare bytewiseComparator (u ++ encodeFixed64 n) (u' ++ encodeFixed64 n') = .eq ↔
      u = u' ∧ n = n' := by
  rw [internalCompare_append, Ordering.then_eq_eq, Std.LawfulEqCmp.compare_eq_iff_eq,
    Std.LawfulEqCmp.compare_eq_iff_eq, eq_comm (a := n)]

end Order

/-- Shortened internal keys keep the order: with a user comparator that keeps its contract, the
separator of two internal keys lies between them and the successor of a key not below it, and both
are internal keys again. -/
theorem separates_internal {user : Comparator} [Std.TransCmp user.compare]
    (h : Separates user fun _ => True) :
    Separates (internalKeyComparator user) fun k => 8 ≤ k.length where
  separator := by
    intro start limit hs hl hlt
    show 8 ≤ (internalSeparator user start limit).length ∧
      (internalSeparator user start limit).length ≤ start.length ∧
      (internalCompare user start (internalSeparator user start limit)).isLE ∧
      internalCompare user (internalSeparator user start limit) limit = .lt
    have hlt' : internalCompare user start limit = .lt := hlt
    unfold internalSeparator
    simp only
    split_ifs with hc
    · have hus : user.compare (extractUserKey start) (extractUserKey limit) = .lt := by
        by_contra hne
        rw [h.unchanged trivial trivial hne] at hc
        omega
      obtain ⟨-, -, -, hsep⟩ := h.separator trivial trivial hus
      have hlen : (extractUserKey start).length = start.length - 8 := by
        unfold extractUserKey
        rw [List.length_take]
        omega
      have hstart : internalCompare user start (user.findShortestSeparator (extractUserKey start)
          (extractUserKey limit) ++ encodeFixed64 (packSequenceAndType kMaxSequenceNumber
            kValueTypeForSeek)) = .lt := by
        apply internalCompare_of_lt
        rw [extractUserKey_append _ (length_encodeFixed64 _)]
        exact hc.2
      refine ⟨by simp, ?_, by rw [hstart]; rfl, ?_⟩
      · rw [List.length_append, length_encodeFixed64]
        omega
      · apply internalCompare_of_lt
        rw [extractUserKey_append _ (length_encodeFixed64 _)]
        exact hsep
    · refine ⟨hs, le_rfl, ?_, hlt'⟩
      exact Std.ReflCmp.isLE_rfl
  unchanged := by
    intro start limit hs hl hne
    show internalSeparator user start limit = start
    unfold internalSeparator
    simp only
    rw [if_neg]
    intro hc
    have hus : user.compare (extractUserKey start) (extractUserKey limit) ≠ .lt :=
      fun hlt => hne (internalCompare_of_lt hlt)
    rw [h.unchanged trivial trivial hus] at hc
    omega
  successor := by
    intro key hk
    show 8 ≤ (internalSuccessor user key).length ∧ (internalSuccessor user key).length ≤ key.length ∧
      (internalCompare user key (internalSuccessor user key)).isLE
    unfold internalSuccessor
    simp only
    split_ifs with hc
    · have hlen : (extractUserKey key).length = key.length - 8 := by
        unfold extractUserKey
        rw [List.length_take]
        omega
      have hlt : internalCompare user key (user.findShortSuccessor (extractUserKey key) ++
          encodeFixed64 (packSequenceAndType kMaxSequenceNumber kValueTypeForSeek)) = .lt := by
        apply internalCompare_of_lt
        rw [extractUserKey_append _ (length_encodeFixed64 _)]
        exact hc.2
      refine ⟨by simp, ?_, by rw [hlt]; rfl⟩
      rw [List.length_append, length_encodeFixed64]
      omega
    · refine ⟨hk, le_rfl, ?_⟩
      exact Std.ReflCmp.isLE_rfl

/-- **Shortened keys keep the order**: the two comparators of the engine keep the contract. -/
theorem separates_engine :
    Separates bytewiseComparator (fun _ => True) ∧
    Separates (internalKeyComparator bytewiseComparator) fun k => 8 ≤ k.length :=
  ⟨separates_bytewise, separates_internal separates_bytewise⟩

end Leveldb
