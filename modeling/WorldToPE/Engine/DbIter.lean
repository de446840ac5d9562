import WorldToPE.Engine.MemTable
import WorldToPE.Engine.Merger

/-!
# WorldToPE.Engine.DbIter — the iterator that callers see

`db/db_iter.cc`: over an iterator of internal keys, the user keys with their values at a sequence
number.  Going forward it stands at the entry it shows; going backward it stands before the entries
of the key that it shows, which it has saved.

`DBIter.at_live`: it is a cursor in the list of the live entries, those that `Get` would find.  The
loops of the source are given fuel here; what is asked for is more than there are entries.
-/

namespace Leveldb

open Cursor Versions

variable {σ : Type}

/-- The state of a `DBIter`. -/
structure DBIter (σ : Type) where
  iter : σ
  status : Status
  saved_key : Slice
  saved_value : Slice
  direction : Direction
  valid : Bool

namespace DBIter

variable (it : Iter σ Entry Slice) (sequence : UInt64)

/-- `NewDBIterator`. -/
def new (iter : σ) : DBIter σ := ⟨iter, .ok, [], [], .kForward, false⟩

def corrupted : Status := .corruption "corrupted internal key in DBIter"

/-- Let the internal iterator make a move. -/
def moveIter (d : DBIter σ) (m : Move Slice) : DBIter σ := { d with iter := it.move d.iter m }

/-- The loop of `FindNextUserEntry`, which keeps the key to skip in `saved_key`. -/
def findNextUserEntry : ℕ → Bool → DBIter σ → Option (DBIter σ)
  | 0, _, _ => none
  | fuel + 1, skipping, d =>
    match it.current d.iter with
    | none => some { d with saved_key := [], valid := false }
    | some e =>
      match parseInternalKey e.1 with
      | none => findNextUserEntry fuel skipping (moveIter it { d with status := corrupted } .next)
      | some ikey =>
        if ikey.sequence ≤ sequence then
          if ikey.type = kTypeDeletion then
            -- Arrange to skip all upcoming entries for this key since they are hidden by this deletion.
            findNextUserEntry fuel true (moveIter it { d with saved_key := ikey.user_key } .next)
          else if skipping ∧ (bytewiseComparator.compare ikey.user_key d.saved_key).isLE then
            findNextUserEntry fuel skipping (moveIter it d .next)  -- Entry hidden
          else some { d with valid := true, saved_key := [] }
        else findNextUserEntry fuel skipping (moveIter it d .next)

/-- The loop of `FindPrevUserEntry`, with the `value_type` that it ends with. -/
def prevLoop : ℕ → UInt8 → DBIter σ → Option (UInt8 × DBIter σ)
  | 0, _, _ => none
  | fuel + 1, value_type, d =>
    match it.current d.iter with
    | none => some (value_type, d)
    | some e =>
      match parseInternalKey e.1 with
      | none => prevLoop fuel value_type (moveIter it { d with status := corrupted } .prev)
      | some ikey =>
        if ikey.sequence ≤ sequence then
          if value_type ≠ kTypeDeletion ∧ bytewiseComparator.compare ikey.user_key d.saved_key = .lt then
            -- We encountered a non-deleted value in entries for previous keys
            some (value_type, d)
          else if ikey.type = kTypeDeletion then
            prevLoop fuel ikey.type (moveIter it { d with saved_key := [], saved_value := [] } .prev)
          else
            prevLoop fuel ikey.type
              (moveIter it { d with saved_key := extractUserKey e.1, saved_value := e.2 } .prev)
        else prevLoop fuel value_type (moveIter it d .prev)

def findPrevUserEntry (fuel : ℕ) (d : DBIter σ) : Option (DBIter σ) :=
  (prevLoop it sequence fuel kTypeDeletion d).map fun r =>
    if r.1 = kTypeDeletion then
      { r.2 with valid := false, saved_key := [], saved_value := [], direction := .kForward }
    else { r.2 with valid := true }

/-- The loop of `Prev` that leaves the entries of the current key; `false` says that there is nothing
before them. -/
def leaveKey : ℕ → DBIter σ → Option (Bool × DBIter σ)
  | 0, _ => none
  | fuel + 1, d =>
    match it.current (moveIter it d .prev).iter with
    | none => some (false, { moveIter it d .prev with valid := false, saved_key := [], saved_value := [] })
    | some e =>
      if bytewiseComparator.compare (extractUserKey e.1) d.saved_key = .lt then some (true, moveIter it d .prev)
      else leaveKey fuel (moveIter it d .prev)

def seekToFirst (fuel : ℕ) (d : DBIter σ) : Option (DBIter σ) :=
  let d := moveIter it { d with direction := .kForward, saved_value := [] } .seekToFirst
  if (it.current d.iter).isSome then findNextUserEntry it sequence fuel false d
  else some { d with valid := false }

def seekToLast (fuel : ℕ) (d : DBIter σ) : Option (DBIter σ) :=
  findPrevUserEntry it sequence fuel (moveIter it { d with direction := .kReverse, saved_value := [] } .seekToLast)

def seek (fuel : ℕ) (target : Slice) (d : DBIter σ) : Option (DBIter σ) :=
  let key := appendInternalKey [] ⟨target, sequence, kValueTypeForSeek⟩
  let d := moveIter it { d with direction := .kForward, saved_value := [], saved_key := key } (.seek key)
  if (it.current d.iter).isSome then findNextUserEntry it sequence fuel false d
  else some { d with valid := false }

def next (fuel : ℕ) (d : DBIter σ) : Option (DBIter σ) :=
  match d.direction with
  | .kReverse =>
    -- iter_ is pointing just before the entries for this->key(), so advance into the range of entries
    -- for this->key() and then use the normal skipping code below.
    let d := moveIter it { d with direction := .kForward }
      (if (it.current d.iter).isSome then .next else .seekToFirst)
    if (it.current d.iter).isSome then findNextUserEntry it sequence fuel true d
    else some { d with valid := false, saved_key := [] }
  | .kForward =>
    -- Store in saved_key_ the current key so we skip it below.
    let key := ((it.current d.iter).map fun e => extractUserKey e.1).getD []
    findNextUserEntry it sequence fuel true { d with saved_key := key }

def prev (fuel : ℕ) (d : DBIter σ) : Option (DBIter σ) :=
  match d.direction with
  | .kForward =>
    -- iter_ is pointing at the current entry.  Scan backwards until the key changes so we can use the
    -- normal reverse scanning code.
    let key := ((it.current d.iter).map fun e => extractUserKey e.1).getD []
    match leaveKey it fuel { d with saved_key := key } with
    | none => none
    | some (false, d) => some d
    | some (true, d) => findPrevUserEntry it sequence fuel { d with direction := .kReverse }
  | .kReverse => findPrevUserEntry it sequence fuel d

/-- `Valid`, `key` and `value`. -/
def current (d : DBIter σ) : Option Entry :=
  if d.valid then
    match d.direction with
    | .kForward => (it.current d.iter).map fun e => (extractUserKey e.1, e.2)
    | .kReverse => some (d.saved_key, d.saved_value)
  else none

/-- The `DBIter` as an iterator; a loop that runs out of fuel leaves no state. -/
def iterator (fuel : ℕ) : Iter (Option (DBIter σ)) Entry Slice where
  move d m := d.bind fun d =>
    match m with
    | .seekToFirst => d.seekToFirst it sequence fuel
    | .seekToLast => d.seekToLast it sequence fuel
    | .seek target => d.seek it sequence fuel target
    | .next => d.next it sequence fuel
    | .prev => d.prev it sequence fuel
  current d := d.bind fun d => d.current it
  ok d := d.any fun d => it.ok d.iter && d.status = .ok

/-! ## Internal entries -/

/-- The entry of a version. -/
def internalEntry (v : Version Slice Slice) : Entry :=
  (v.key ++ encodeFixed64 (MemTable.tagOf v), v.val.getD [])

/-- The versions in the order of their internal keys. -/
def InternalOrder (vs : List (Version Slice Slice)) : Prop :=
  vs.Pairwise fun v w => bytewiseComparator.compare v.key w.key = .lt ∨ v.key = w.key ∧ w.seq < v.seq

instance (vs : List (Version Slice Slice)) : Decidable (InternalOrder vs) :=
  inferInstanceAs (Decidable (vs.Pairwise _))

/-- The versions that a reader at `s` may see. -/
def Vis (s : ℕ) (v : Version Slice Slice) : Prop := v.seq ≤ s

instance (s : ℕ) (v : Version Slice Slice) : Decidable (Vis s v) := inferInstanceAs (Decidable (_ ≤ _))

/-- The newest version of its key that a reader at `s` may see, and not a deletion. -/
def Live (vs : List (Version Slice Slice)) (s : ℕ) (v : Version Slice Slice) : Bool :=
  Vis s v ∧ v.val.isSome ∧ ∀ w ∈ vs, w.key = v.key → Vis s w → w.seq ≤ v.seq

/-- What a reader at `s` sees, in order. -/
def live (vs : List (Version Slice Slice)) (s : ℕ) : List Entry :=
  (vs.filter (Live vs s)).map fun v => (v.key, v.val.getD [])

theorem parse_internalEntry {v : Version Slice Slice} (h : v.seq < 2 ^ 56) :
    parseInternalKey (internalEntry v).1 = some ⟨v.key, UInt64.ofNat v.seq, MemTable.typeOf v⟩ := by
  have hlen : (internalEntry v).1.length = v.key.length + 8 := by
    rw [internalEntry, List.length_append, length_encodeFixed64]
  have hnum := extractNum_append v.key (MemTable.tagOf v)
  have huser := extractUserKey_append v.key (length_encodeFixed64 (MemTable.tagOf v))
  unfold extractNum at hnum
  unfold extractUserKey at huser
  have htype := MemTable.typeOf_le v
  have hseq : MemTable.tagOf v >>> 8 = UInt64.ofNat v.seq := by
    apply UInt64.toNat_inj.mp
    rw [UInt64.toNat_shiftRight, MemTable.toNat_tagOf h, show (8 : UInt64).toNat % 64 = 8 from rfl,
      Nat.shiftRight_eq_div_pow, UInt64.toNat_ofNat_of_lt' (lt_trans h (by norm_num))]
    omega
  unfold parseInternalKey
  rw [if_neg (by rw [hlen]; omega)]
  show (if ((decodeFixed64 _) &&& 0xff).toUInt8 ≤ 1 then _ else _) = _
  unfold internalEntry
  simp only [hnum, huser, hseq, MemTable.toUInt8_tagOf h]
  rw [if_pos (UInt8.le_iff_toNat_le.mpr htype)]

section Order

variable {vs : List (Version Slice Slice)} {v w : Version Slice Slice} {s p q : ℕ}

theorem InternalOrder.lt (h : InternalOrder vs) (hpq : p < q) (hv : vs[p]? = some v) (hw : vs[q]? = some w) :
    bytewiseComparator.compare v.key w.key = .lt ∨ v.key = w.key ∧ w.seq < v.seq := by
  obtain ⟨hp, rfl⟩ := List.getElem?_eq_some_iff.mp hv
  obtain ⟨hq, rfl⟩ := List.getElem?_eq_some_iff.mp hw
  exact List.pairwise_iff_getElem.mp h p q hp hq hpq

/-- The user keys ascend. -/
theorem InternalOrder.key_le (h : InternalOrder vs) (hpq : p ≤ q) (hv : vs[p]? = some v) (hw : vs[q]? = some w) :
    (bytewiseComparator.compare v.key w.key).isLE := by
  rcases hpq.lt_or_eq with hlt | rfl
  · rcases h.lt hlt hv hw with hlt | ⟨heq, -⟩
    · exact Ordering.isLE_of_eq_lt hlt
    · rw [heq]
      exact Std.ReflCmp.isLE_rfl
  · obtain rfl := Option.some.inj (hv.symm.trans hw)
    exact Std.ReflCmp.isLE_rfl

theorem live_iff : Live vs s v = true ↔
    Vis s v ∧ v.val.isSome ∧ ∀ w ∈ vs, w.key = v.key → Vis s w → w.seq ≤ v.seq := decide_eq_true_iff

/-- A version is live when nothing before it has its key and can be seen. -/
theorem InternalOrder.live_iff (h : InternalOrder vs) (hv : vs[p]? = some v) : Live vs s v = true ↔
    Vis s v ∧ v.val.isSome ∧ ∀ (q : ℕ) w, q < p → vs[q]? = some w → w.key = v.key → ¬ Vis s w := by
  rw [DBIter.live_iff]
  refine and_congr_right fun hvis => and_congr_right fun _ => ⟨fun hall q w hq hw hkey hvw => ?_, fun hall => ?_⟩
  · have hle := hall w (List.mem_of_getElem? hw) hkey hvw
    rcases h.lt hq hw hv with hlt | ⟨-, hlt⟩
    · rw [hkey, compare_self] at hlt
      cases hlt
    · omega
  · intro w hw hkey hvw
    obtain ⟨q, hq⟩ := List.mem_iff_getElem?.mp hw
    rcases lt_trichotomy q p with hlt | rfl | hlt
    · exact absurd hvw (hall q w hlt hq hkey)
    · obtain rfl := Option.some.inj (hq.symm.trans hv)
      exact le_rfl
    · rcases h.lt hlt hv hq with hlt | ⟨-, hlt⟩
      · rw [hkey, compare_self] at hlt
        cases hlt
      · exact hlt.le

end Order

/-! ## The internal iterator -/

/-- The internal iterator is at the version `p`. -/
abbrev Inner (it : Iter σ Entry Slice) (vs : List (Version Slice Slice)) (c : σ) (p : ℕ) : Prop :=
  At (entryLt (internalKeyComparator bytewiseComparator)) (vs.map internalEntry) it c p

/-- Where an iterator stands that has `m` versions left to go back over. -/
def backTo (vs : List (Version Slice Slice)) (m : ℕ) : ℕ := if m = 0 then vs.length else m - 1

section Inner

variable {it} {sequence} {vs : List (Version Slice Slice)} {c : σ} {v : Version Slice Slice} {p m : ℕ}

theorem Inner.current (h : Inner it vs c p) : it.current c = vs[p]?.map internalEntry := by
  rw [At.current h, List.getElem?_map]

theorem Inner.le (h : Inner it vs c p) : p ≤ vs.length := by
  have := At.le h
  rwa [List.length_map] at this

theorem Inner.next (h : Inner it vs c p) (hv : vs[p]? = some v) : Inner it vs (it.move c .next) (p + 1) := by
  refine At.move (m := .next) h ?_
  show p < (vs.map internalEntry).length
  rw [List.length_map]
  exact (List.getElem?_eq_some_iff.mp hv).1

theorem backTo_succ (m : ℕ) : backTo vs (m + 1) = m := rfl

theorem Inner.prev (h : Inner it vs c m) (hv : vs[m]? = some v) : Inner it vs (it.move c .prev) (backTo vs m) := by
  have hlt : m < (vs.map internalEntry).length := by
    rw [List.length_map]
    exact (List.getElem?_eq_some_iff.mp hv).1
  have hm := At.move (m := .prev) h hlt
  have hplace : place (entryLt (internalKeyComparator bytewiseComparator)) (vs.map internalEntry) m .prev =
      backTo vs m := by
    rw [place, List.length_map, backTo]
  rwa [hplace] at hm

theorem sequence_le_iff (h : v.seq < 2 ^ 56) :
    UInt64.ofNat v.seq ≤ sequence ↔ Vis sequence.toNat v := by
  rw [UInt64.le_iff_toNat_le, UInt64.toNat_ofNat_of_lt' (lt_trans h (by norm_num))]
  rfl

theorem typeOf_eq_deletion_iff : MemTable.typeOf v = kTypeDeletion ↔ v.val.isSome = false := by
  unfold MemTable.typeOf
  cases v.val.isSome <;> decide

end Inner

/-! ## The loops -/

/-- What the iterator goes over. -/
structure Source (vs : List (Version Slice Slice)) : Prop where
  order : InternalOrder vs
  small : ∀ v ∈ vs, v.seq < 2 ^ 56

section Loops

variable {it} {sequence} {vs : List (Version Slice Slice)}

/-- What `FindNextUserEntry` looks for: a live entry, beyond the key that the caller has seen. -/
def Target (vs : List (Version Slice Slice)) (s : ℕ) (floor : Option Slice) (v : Version Slice Slice) : Prop :=
  Live vs s v = true ∧ ∀ k ∈ floor, bytewiseComparator.compare k v.key = .lt

/-- What the variables of `FindNextUserEntry` say about the versions from `p` on: the key to skip covers
those whose key has been seen before. -/
def Skips (vs : List (Version Slice Slice)) (s p : ℕ) (skipping : Bool) (skip : Slice) (floor : Option Slice) :
    Prop :=
  ∀ (r : ℕ) v, p ≤ r → vs[r]? = some v → Vis s v →
    ((skipping = true ∧ (bytewiseComparator.compare v.key skip).isLE) ↔
      ((∃ (q : ℕ) (w : Version Slice Slice), q < p ∧ vs[q]? = some w ∧ w.key = v.key ∧ Vis s w) ∨
        ∃ k ∈ floor, (bytewiseComparator.compare v.key k).isLE)) ∧
    ∀ k ∈ floor, (bytewiseComparator.compare k v.key).isLE

theorem Skips.of_not_vis {s p : ℕ} {skipping : Bool} {skip : Slice} {floor : Option Slice}
    {v : Version Slice Slice} (h : Skips vs s p skipping skip floor) (hv : vs[p]? = some v) (hvis : ¬ Vis s v) :
    Skips vs s (p + 1) skipping skip floor := by
  intro r w hr hw hvw
  obtain ⟨hiff, hfloor⟩ := h r w (Nat.le_of_succ_le hr) hw hvw
  refine ⟨hiff.trans (or_congr_left ⟨?_, ?_⟩), hfloor⟩
  · rintro ⟨q, u, hq, hu⟩
    exact ⟨q, u, Nat.lt_succ_of_lt hq, hu⟩
  · rintro ⟨q, u, hq, hu, hkey, hvu⟩
    rcases Nat.lt_succ_iff_lt_or_eq.mp hq with hq | rfl
    · exact ⟨q, u, hq, hu, hkey, hvu⟩
    · obtain rfl := Option.some.inj (hu.symm.trans hv)
      exact absurd hvu hvis

theorem Skips.of_deletion {s p : ℕ} {skipping : Bool} {skip : Slice} {floor : Option Slice}
    {v : Version Slice Slice} (hsrc : Source vs) (h : Skips vs s p skipping skip floor) (hv : vs[p]? = some v)
    (hvis : Vis s v) : Skips vs s (p + 1) true v.key floor := by
  intro r w hr hw hvw
  obtain ⟨-, hfloor⟩ := h r w (Nat.le_of_succ_le hr) hw hvw
  have hvw' := hsrc.order.key_le (Nat.le_of_succ_le hr) hv hw
  refine ⟨⟨?_, ?_⟩, hfloor⟩
  · rintro ⟨-, hle⟩
    exact Or.inl ⟨p, v, Nat.lt_succ_self p, hv,
      Std.LawfulEqCmp.eq_of_compare (Std.OrientedCmp.isLE_antisymm hvw' hle), hvis⟩
  · rintro (⟨q, u, hq, hu, hkey, -⟩ | ⟨k, hk, hle⟩)
    · rw [← hkey]
      exact ⟨rfl, hsrc.order.key_le (Nat.le_of_lt_succ hq) hu hv⟩
    · -- nothing that can be seen is below the floor
      exact ⟨rfl, Std.TransCmp.isLE_trans hle ((h p v le_rfl hv hvis).2 k hk)⟩

theorem Skips.of_hidden {s p : ℕ} {skipping : Bool} {skip : Slice} {floor : Option Slice}
    {v : Version Slice Slice} (h : Skips vs s p skipping skip floor) (hv : vs[p]? = some v)
    (hvis : Vis s v) (hskip : skipping = true ∧ (bytewiseComparator.compare v.key skip).isLE) :
    Skips vs s (p + 1) skipping skip floor := by
  intro r w hr hw hvw
  obtain ⟨hiff, hfloor⟩ := h r w (Nat.le_of_succ_le hr) hw hvw
  refine ⟨⟨fun hw' => ?_, ?_⟩, hfloor⟩
  · rcases hiff.mp hw' with ⟨q, u, hq, hu⟩ | hle
    · exact Or.inl ⟨q, u, Nat.lt_succ_of_lt hq, hu⟩
    · exact Or.inr hle
  · rintro (⟨q, u, hq, hu, hkey, hvu⟩ | hle)
    · rcases Nat.lt_succ_iff_lt_or_eq.mp hq with hq | rfl
      · exact hiff.mpr (Or.inl ⟨q, u, hq, hu, hkey, hvu⟩)
      · obtain rfl := Option.some.inj (hu.symm.trans hv)
        rw [← hkey]
        exact hskip
    · exact hiff.mpr (Or.inr hle)

/-- What `FindNextUserEntry` is to find from the version `p` on. -/
structure Found (it : Iter σ Entry Slice) (vs : List (Version Slice Slice)) (s : ℕ) (floor : Option Slice)
    (p : ℕ) (d : DBIter σ) (d' : DBIter σ) (p' : ℕ) : Prop where
  le : p ≤ p'
  at_iter : Inner it vs d'.iter p'
  direction : d'.direction = d.direction
  status : d'.status = .ok
  passed : ∀ (r : ℕ) v, p ≤ r → r < p' → vs[r]? = some v → ¬ Target vs s floor v
  found : (vs[p']? = none ∧ d'.valid = false) ∨ ∃ v, vs[p']? = some v ∧ Target vs s floor v ∧ d'.valid = true

theorem findNextUserEntry_spec (hsrc : Source vs) {floor : Option Slice} : ∀ (fuel : ℕ) {p : ℕ} {skipping : Bool}
    {d : DBIter σ}, vs.length < fuel + p → Inner it vs d.iter p → d.status = .ok →
    Skips vs sequence.toNat p skipping d.saved_key floor →
    ∃ d' p', findNextUserEntry it sequence fuel skipping d = some d' ∧
      Found it vs sequence.toNat floor p d d' p'
  | 0, p, _, _, hfuel, hat, _, _ => by
    have := Inner.le hat
    omega
  | fuel + 1, p, skipping, d, hfuel, hat, hok, hskips => by
    have hcur := Inner.current hat
    unfold findNextUserEntry
    cases hv : vs[p]? with
    | none =>
      rw [hv] at hcur
      rw [hcur]
      exact ⟨_, p, rfl, le_rfl, hat, rfl, hok, fun r v hr hr' => absurd hr' (not_lt.mpr hr), Or.inl ⟨hv, rfl⟩⟩
    | some v =>
      rw [hv, Option.map_some] at hcur
      have hsmall := hsrc.small v (List.mem_of_getElem? hv)
      simp only [hcur, parse_internalEntry hsmall, sequence_le_iff hsmall, typeOf_eq_deletion_iff]
      have hnext : Inner it vs (it.move d.iter .next) (p + 1) := Inner.next hat hv
      -- going on after a version that is not what is looked for
      have hgo {skipping' : Bool} {d₁ : DBIter σ} (hd₁ : d₁.iter = it.move d.iter .next ∧
          d₁.direction = d.direction ∧ d₁.status = .ok) (hnot : ¬ Target vs sequence.toNat floor v)
          (hskips' : Skips vs sequence.toNat (p + 1) skipping' d₁.saved_key floor) :
          ∃ d' p', findNextUserEntry it sequence fuel skipping' d₁ = some d' ∧
            Found it vs sequence.toNat floor p d d' p' := by
        obtain ⟨d', p', hd', hf⟩ := findNextUserEntry_spec hsrc fuel (by omega) (by rw [hd₁.1]; exact hnext)
          hd₁.2.2 hskips'
        refine ⟨d', p', hd', (Nat.le_succ p).trans hf.le, hf.at_iter, hf.direction.trans hd₁.2.1, hf.status,
          fun r w hr hr' hw => ?_, hf.found⟩
        rcases hr.lt_or_eq with hlt | rfl
        · exact hf.passed r w hlt hr' hw
        · obtain rfl := Option.some.inj (hw.symm.trans hv)
          exact hnot
      by_cases hvis : Vis sequence.toNat v
      · rw [if_pos hvis]
        by_cases hdel : v.val.isSome = false
        · rw [if_pos hdel]
          refine hgo ⟨rfl, rfl, hok⟩ ?_ (hskips.of_deletion hsrc hv hvis)
          rintro ⟨hlive, -⟩
          have := (live_iff.mp hlive).2.1
          rw [hdel] at this
          cases this
        · rw [if_neg hdel]
          obtain ⟨hiff, hfloor⟩ := hskips p v le_rfl hv hvis
          by_cases hskip : skipping = true ∧ (bytewiseComparator.compare v.key d.saved_key).isLE
          · rw [if_pos hskip]
            refine hgo ⟨rfl, rfl, hok⟩ ?_ (hskips.of_hidden hv hvis hskip)
            rintro ⟨hlive, hbeyond⟩
            rcases hiff.mp hskip with ⟨q, w, hq, hw, hkey, hvw⟩ | ⟨k, hk, hle⟩
            · exact ((hsrc.order.live_iff hv).mp hlive).2.2 q w hq hw hkey hvw
            · have hgt := Std.OrientedCmp.gt_of_lt (hbeyond k hk)
              rw [hgt] at hle
              cases hle
          · rw [if_neg hskip]
            have hnone := (not_congr hiff).mp hskip
            rw [not_or] at hnone
            refine ⟨_, p, rfl, le_rfl, hat, rfl, hok, fun r v hr hr' => absurd hr' (not_lt.mpr hr),
              Or.inr ⟨v, hv, ⟨(hsrc.order.live_iff hv).mpr ⟨hvis, ?_, ?_⟩, ?_⟩, rfl⟩⟩
            · exact Bool.eq_true_of_not_eq_false hdel
            · exact fun q w hq hw hkey hvw => hnone.1 ⟨q, w, hq, hw, hkey, hvw⟩
            · intro k hk
              have hgt : ¬ (bytewiseComparator.compare v.key k).isLE := fun hle => hnone.2 ⟨k, hk, hle⟩
              have hle := hfloor k hk
              cases hc : bytewiseComparator.compare k v.key with
              | lt => rfl
              | eq => exact absurd (by rw [Std.OrientedCmp.eq_symm hc]; rfl) hgt
              | gt =>
                rw [hc] at hle
                cases hle
      · rw [if_neg hvis]
        refine hgo ⟨rfl, rfl, hok⟩ ?_ (hskips.of_not_vis hv hvis)
        rintro ⟨hlive, -⟩
        exact hvis (live_iff.mp hlive).1

/-- What the variables of `FindPrevUserEntry` say when the versions from `m` up to `top` are done: either none
of them is live, or the one at `x` is saved, which nothing between has replaced. -/
def Saved (vs : List (Version Slice Slice)) (s top m : ℕ) (value_type : UInt8) (d : DBIter σ) : Prop :=
  (value_type = kTypeDeletion ∧ ∀ (r : ℕ) v, m ≤ r → r < top → vs[r]? = some v → ¬ Live vs s v = true) ∨
  value_type ≠ kTypeDeletion ∧ ∃ (x : ℕ) (v : Version Slice Slice), m ≤ x ∧ x < top ∧ vs[x]? = some v ∧
    Vis s v ∧ v.val.isSome ∧ d.saved_key = v.key ∧ d.saved_value = v.val.getD [] ∧
    (∀ (r : ℕ) w, m ≤ r → r < x → vs[r]? = some w → ¬ Vis s w) ∧
    ∀ (r : ℕ) w, x < r → r < top → vs[r]? = some w → ¬ Live vs s w = true

/-- The iterator shows the live version `x`, and stands before the entries of its key. -/
structure ShowsBack (it : Iter σ Entry Slice) (vs : List (Version Slice Slice)) (s : ℕ) (d : DBIter σ)
    (x m : ℕ) (v : Version Slice Slice) : Prop where
  at_iter : Inner it vs d.iter (backTo vs m)
  le : m ≤ x
  get : vs[x]? = some v
  live : Live vs s v = true
  key : d.saved_key = v.key
  value : d.saved_value = v.val.getD []
  between : ∀ (r : ℕ) w, m ≤ r → r < x → vs[r]? = some w → ¬ Vis s w
  before : m = 0 ∨ ∃ u, vs[m - 1]? = some u ∧ bytewiseComparator.compare u.key v.key = .lt

theorem Saved.of_not_vis {s top m : ℕ} {value_type : UInt8} {d d' : DBIter σ} {w : Version Slice Slice}
    (h : Saved vs s top (m + 1) value_type d) (hw : vs[m]? = some w) (hvis : ¬ Vis s w)
    (hk : d'.saved_key = d.saved_key) (hv : d'.saved_value = d.saved_value) :
    Saved vs s top m value_type d' := by
  have hm {r : ℕ} {u : Version Slice Slice} (hr : m ≤ r) (hu : vs[r]? = some u) : m + 1 ≤ r ∨ ¬ Vis s u := by
    rcases hr.lt_or_eq with hlt | rfl
    · exact Or.inl hlt
    · obtain rfl := Option.some.inj (hu.symm.trans hw)
      exact Or.inr hvis
  rcases h with ⟨ht, hnone⟩ | ⟨ht, x, v, hmx, hx, hvx, hvv, hsome, hkey, hvalue, hbetween, habove⟩
  · refine Or.inl ⟨ht, fun r u hr hr' hu => ?_⟩
    rcases hm hr hu with hr | hnv
    · exact hnone r u hr hr' hu
    · exact fun hl => hnv (live_iff.mp hl).1
  · refine Or.inr ⟨ht, x, v, Nat.le_of_succ_le hmx, hx, hvx, hvv, hsome, hk.trans hkey, hv.trans hvalue,
      fun r u hr hr' hu => ?_, habove⟩
    rcases hm hr hu with hr | hnv
    · exact hbetween r u hr hr' hu
    · exact hnv

/-- Another version of the saved key, or one before a deletion, is taken instead. -/
theorem Saved.of_vis {s top m : ℕ} {value_type : UInt8} {d d' : DBIter σ} {w : Version Slice Slice}
    (hsrc : Source vs) (h : Saved vs s top (m + 1) value_type d) (htop : m < top) (hw : vs[m]? = some w)
    (hvis : Vis s w)
    (hgo : ¬ (value_type ≠ kTypeDeletion ∧ bytewiseComparator.compare w.key d.saved_key = .lt))
    (hd' : w.val.isSome → d'.saved_key = w.key ∧ d'.saved_value = w.val.getD []) :
    Saved vs s top m (MemTable.typeOf w) d' := by
  -- no later version that was seen is live
  have habove : ∀ (r : ℕ) u, m < r → r < top → vs[r]? = some u → ¬ Live vs s u = true := by
    intro r u hr hr' hu
    rcases h with ⟨-, hnone⟩ | ⟨ht, x, v, hmx, -, hvx, -, -, hkey, -, hbetween, habove⟩
    · exact hnone r u hr hr' hu
    · rcases lt_trichotomy r x with hlt | rfl | hlt
      · exact fun hl => hbetween r u hr hlt hu (live_iff.mp hl).1
      · obtain rfl := Option.some.inj (hu.symm.trans hvx)
        have hsame : w.key = u.key := by
          rcases hsrc.order.lt hr hw hu with hlt | ⟨heq, -⟩
          · rw [← hkey] at hlt
            exact absurd ⟨ht, hlt⟩ hgo
          · exact heq
        exact fun hl => ((hsrc.order.live_iff hu).mp hl).2.2 m w hr hw hsame hvis
      · exact habove r u hlt hr' hu
  cases hsome : w.val.isSome with
  | false =>
    refine Or.inl ⟨typeOf_eq_deletion_iff.mpr hsome, fun r u hr hr' hu => ?_⟩
    rcases hr.lt_or_eq with hlt | rfl
    · exact habove r u hlt hr' hu
    · obtain rfl := Option.some.inj (hu.symm.trans hw)
      intro hl
      have := (live_iff.mp hl).2.1
      rw [hsome] at this
      cases this
  | true =>
    have ht : MemTable.typeOf w ≠ kTypeDeletion := by
      rw [ne_eq, typeOf_eq_deletion_iff, hsome]
      simp
    exact Or.inr ⟨ht, m, w, le_rfl, htop, hw, hvis, hsome, (hd' hsome).1, (hd' hsome).2,
      fun r u hr hr' => absurd hr' (not_lt.mpr hr), habove⟩

theorem prevLoop_spec (hsrc : Source vs) {top : ℕ} (htop : top ≤ vs.length) : ∀ (fuel : ℕ) {m : ℕ}
    {value_type : UInt8} {d : DBIter σ}, m < fuel → m ≤ top → Inner it vs d.iter (backTo vs m) →
    d.status = .ok → Saved vs sequence.toNat top m value_type d →
    ∃ value_type' d', prevLoop it sequence fuel value_type d = some (value_type', d') ∧
      d'.status = .ok ∧ d'.direction = d.direction ∧ (∃ p, Inner it vs d'.iter p) ∧
      ((value_type' = kTypeDeletion ∧ ∀ (r : ℕ) v, r < top → vs[r]? = some v →
          ¬ Live vs sequence.toNat v = true) ∨
        value_type' ≠ kTypeDeletion ∧ ∃ (x m' : ℕ) (v : Version Slice Slice), x < top ∧
          ShowsBack it vs sequence.toNat d' x m' v ∧
          ∀ (r : ℕ) w, x < r → r < top → vs[r]? = some w → ¬ Live vs sequence.toNat w = true)
  | 0, _, _, _, hfuel, _, _, _, _ => absurd hfuel (Nat.not_lt_zero _)
  | fuel + 1, 0, value_type, d, _, _, hat, hok, hsaved => by
    have hcur := Inner.current hat
    rw [backTo, if_pos rfl, List.getElem?_eq_none le_rfl, Option.map_none] at hcur
    unfold prevLoop
    rw [hcur]
    refine ⟨value_type, d, rfl, hok, rfl, ⟨_, hat⟩, ?_⟩
    rcases hsaved with ⟨ht, hnone⟩ | ⟨ht, x, v, hmx, hx, hvx, hvv, hsome, hkey, hvalue, hbetween, habove⟩
    · exact Or.inl ⟨ht, fun r v hr hv => hnone r v (Nat.zero_le r) hr hv⟩
    · have hlive : Live vs sequence.toNat v = true := by
        rw [hsrc.order.live_iff hvx]
        exact ⟨hvv, hsome, fun q w hq hw _ => hbetween q w (Nat.zero_le q) hq hw⟩
      exact Or.inr ⟨ht, x, 0, v, hx,
        ⟨hat, hmx, hvx, hlive, hkey, hvalue, hbetween, Or.inl rfl⟩, habove⟩
  | fuel + 1, m + 1, value_type, d, hfuel, hm, hat, hok, hsaved => by
    rw [backTo_succ] at hat
    have hlt : m < vs.length := Nat.lt_of_succ_le (hm.trans htop)
    have hw := List.getElem?_eq_getElem hlt
    generalize vs[m] = w at hw
    have hcur := Inner.current hat
    rw [hw, Option.map_some] at hcur
    have hsmall := hsrc.small w (List.mem_of_getElem? hw)
    have huser : extractUserKey (internalEntry w).1 = w.key :=
      extractUserKey_append w.key (length_encodeFixed64 _)
    have hprev : Inner it vs (it.move d.iter .prev) (backTo vs m) := Inner.prev hat hw
    have hgo {value_type' : UInt8} {d₁ : DBIter σ} (hd₁ : d₁.iter = it.move d.iter .prev ∧
        d₁.direction = d.direction ∧ d₁.status = .ok)
        (hsaved' : Saved vs sequence.toNat top m value_type' d₁) :
        ∃ value_type'' d', prevLoop it sequence fuel value_type' d₁ = some (value_type'', d') ∧
          d'.status = .ok ∧ d'.direction = d.direction ∧ (∃ p, Inner it vs d'.iter p) ∧
          ((value_type'' = kTypeDeletion ∧ ∀ (r : ℕ) v, r < top → vs[r]? = some v →
              ¬ Live vs sequence.toNat v = true) ∨
            value_type'' ≠ kTypeDeletion ∧ ∃ (x m' : ℕ) (v : Version Slice Slice), x < top ∧
              ShowsBack it vs sequence.toNat d' x m' v ∧
              ∀ (r : ℕ) w, x < r → r < top → vs[r]? = some w → ¬ Live vs sequence.toNat w = true) := by
      obtain ⟨vt, d', hd', hok', hdir, hrest⟩ := prevLoop_spec hsrc htop fuel (by omega) (by omega)
        (by rw [hd₁.1]; exact hprev) hd₁.2.2 hsaved'
      exact ⟨vt, d', hd', hok', hdir.trans hd₁.2.1, hrest⟩
    unfold prevLoop
    simp only [hcur, parse_internalEntry hsmall, sequence_le_iff hsmall, typeOf_eq_deletion_iff, huser]
    by_cases hvis : Vis sequence.toNat w
    · rw [if_pos hvis]
      by_cases hbreak : value_type ≠ kTypeDeletion ∧ bytewiseComparator.compare w.key d.saved_key = .lt
      · rw [if_pos hbreak]
        refine ⟨value_type, d, rfl, hok, rfl, ⟨_, hat⟩, Or.inr ⟨hbreak.1, ?_⟩⟩
        rcases hsaved with ⟨ht, -⟩ | ⟨-, x, v, hmx, hx, hvx, hvv, hsome, hkey, hvalue, hbetween, habove⟩
        · exact absurd ht hbreak.1
        · have hbefore := hbreak.2
          rw [hkey] at hbefore
          have hlive : Live vs sequence.toNat v = true := by
            rw [hsrc.order.live_iff hvx]
            refine ⟨hvv, hsome, fun q u hq hu hsame => ?_⟩
            rcases lt_or_ge q (m + 1) with hlt' | hge
            · -- what is not behind the break has a smaller key
              have hle := hsrc.order.key_le (Nat.le_of_lt_succ hlt') hu hw
              rw [hsame] at hle
              rw [Std.OrientedCmp.gt_of_lt hbefore] at hle
              cases hle
            · exact hbetween q u hge hq hu
          exact ⟨x, m + 1, v, hx, ⟨hat, hmx, hvx, hlive, hkey, hvalue, hbetween, Or.inr ⟨w, hw, hbefore⟩⟩, habove⟩
      · rw [if_neg hbreak]
        by_cases hdel : w.val.isSome = false
        · rw [if_pos hdel]
          refine hgo ⟨rfl, rfl, hok⟩ (hsaved.of_vis hsrc hm hw hvis hbreak ?_)
          intro hsome
          rw [hdel] at hsome
          cases hsome
        · rw [if_neg hdel]
          exact hgo ⟨rfl, rfl, hok⟩ (hsaved.of_vis hsrc hm hw hvis hbreak fun _ => ⟨rfl, rfl⟩)
    · rw [if_neg hvis]
      exact hgo ⟨rfl, rfl, hok⟩ (hsaved.of_not_vis hw hvis rfl rfl)

theorem findPrevUserEntry_spec (hsrc : Source vs) {fuel m : ℕ} {d : DBIter σ} (hm : m ≤ vs.length)
    (hfuel : vs.length < fuel) (hat : Inner it vs d.iter (backTo vs m)) (hok : d.status = .ok) :
    ∃ d', findPrevUserEntry it sequence fuel d = some d' ∧ d'.status = .ok ∧ (∃ p, Inner it vs d'.iter p) ∧
      ((d'.valid = false ∧ ∀ (r : ℕ) v, r < m → vs[r]? = some v → ¬ Live vs sequence.toNat v = true) ∨
        d'.valid = true ∧ d'.direction = d.direction ∧ ∃ (x m' : ℕ) (v : Version Slice Slice), x < m ∧
          ShowsBack it vs sequence.toNat d' x m' v ∧
          ∀ (r : ℕ) w, x < r → r < m → vs[r]? = some w → ¬ Live vs sequence.toNat w = true) := by
  have hsaved : Saved vs sequence.toNat m m kTypeDeletion d :=
    Or.inl ⟨rfl, fun r _ hr hr' => absurd hr' (not_lt.mpr hr)⟩
  obtain ⟨vt, d', hd', hok', hdir, hp, hcase⟩ := prevLoop_spec hsrc hm fuel (by omega) le_rfl hat hok hsaved
  unfold findPrevUserEntry
  rw [hd', Option.map_some]
  refine ⟨_, rfl, ?_⟩
  rcases hcase with ⟨ht, hnone⟩ | ⟨ht, x, m', v, hx, hshows, habove⟩
  · rw [if_pos ht]
    exact ⟨hok', hp, Or.inl ⟨rfl, hnone⟩⟩
  · rw [if_neg ht]
    refine ⟨hok', hp, Or.inr ⟨rfl, hdir, x, m', v, hx, ?_, habove⟩⟩
    exact ⟨hshows.at_iter, hshows.le, hshows.get, hshows.live, hshows.key, hshows.value, hshows.between,
      hshows.before⟩

/-- The loop of `Prev` stops before the entries of the current key. -/
theorem leaveKey_spec : ∀ (fuel : ℕ) {p : ℕ} {d : DBIter σ} {w : Version Slice Slice}, p < fuel →
    Inner it vs d.iter p → vs[p]? = some w → d.status = .ok →
    ∃ b d' m, leaveKey it fuel d = some (b, d') ∧ m ≤ p ∧ Inner it vs d'.iter (backTo vs m) ∧
      d'.status = .ok ∧ d'.direction = d.direction ∧
      (∀ (r : ℕ) u, m ≤ r → r < p → vs[r]? = some u → bytewiseComparator.compare u.key d.saved_key ≠ .lt) ∧
      ((b = false ∧ m = 0 ∧ d'.valid = false) ∨ b = true)
  | 0, _, _, _, hfuel, _, _, _ => absurd hfuel (Nat.not_lt_zero _)
  | fuel + 1, 0, d, w, _, hat, hw, hok => by
    have hprev : Inner it vs (moveIter it d .prev).iter (backTo vs 0) := Inner.prev hat hw
    have hcur := Inner.current hprev
    rw [backTo, if_pos rfl, List.getElem?_eq_none le_rfl, Option.map_none] at hcur
    unfold leaveKey
    rw [hcur]
    exact ⟨false, _, 0, rfl, le_rfl, hprev, hok, rfl, fun r _ _ hr => absurd hr (Nat.not_lt_zero r),
      Or.inl ⟨rfl, rfl, rfl⟩⟩
  | fuel + 1, q + 1, d, w, hfuel, hat, hw, hok => by
    have hprev : Inner it vs (moveIter it d .prev).iter (backTo vs (q + 1)) := Inner.prev hat hw
    have hprev' := hprev
    rw [backTo_succ] at hprev'
    have hlt : q < vs.length := (Nat.lt_succ_self q).trans (List.getElem?_eq_some_iff.mp hw).1
    have hu := List.getElem?_eq_getElem hlt
    generalize vs[q] = u at hu
    have hcur := Inner.current hprev'
    rw [hu, Option.map_some] at hcur
    have huser : extractUserKey (internalEntry u).1 = u.key :=
      extractUserKey_append u.key (length_encodeFixed64 _)
    unfold leaveKey
    simp only [hcur, huser]
    by_cases hkey : bytewiseComparator.compare u.key d.saved_key = .lt
    · rw [if_pos hkey]
      exact ⟨true, _, q + 1, rfl, le_rfl, hprev, hok, rfl, fun r _ hr hr' => absurd hr' (not_lt.mpr hr),
        Or.inr rfl⟩
    · rw [if_neg hkey]
      obtain ⟨b, d', m, hd', hm, hat', hok', hdir, hsame, hcase⟩ :=
        leaveKey_spec fuel (by omega) hprev' hu (show (moveIter it d .prev).status = .ok from hok)
      refine ⟨b, d', m, hd', hm.trans (Nat.le_succ q), hat', hok', hdir, fun r x hr hr' hx => ?_, hcase⟩
      rcases Nat.lt_succ_iff_lt_or_eq.mp hr' with hr' | rfl
      · exact hsame r x hr hr' hx
      · obtain rfl := Option.some.inj (hx.symm.trans hu)
        exact hkey

/-! ## The moves -/

/-- The iterator shows the live entry `i`. -/
def Shows (it : Iter σ Entry Slice) (vs : List (Version Slice Slice)) (s : ℕ) (d : DBIter σ) (i : ℕ) : Prop :=
  d.status = .ok ∧ (∃ p, Inner it vs d.iter p) ∧
    ((d.valid = false ∧ i = (live vs s).length) ∨
      (d.valid = true ∧ d.direction = .kForward ∧ ∃ p v, Inner it vs d.iter p ∧ vs[p]? = some v ∧
        Live vs s v = true ∧ i = rank (Live vs s) vs p) ∨
      d.valid = true ∧ d.direction = .kReverse ∧ ∃ x m v, ShowsBack it vs s d x m v ∧
        i = rank (Live vs s) vs x)

theorem length_live (s : ℕ) : (live vs s).length = rank (Live vs s) vs vs.length := by
  rw [live, List.length_map, rank_length]

theorem getElem?_live {s x : ℕ} {v : Version Slice Slice} (hv : vs[x]? = some v) (hl : Live vs s v = true) :
    (live vs s)[rank (Live vs s) vs x]? = some (v.key, v.val.getD []) := by
  rw [live, List.getElem?_map, getElem?_rank hv hl]
  rfl

theorem Shows.current {s i : ℕ} {d : DBIter σ} (h : Shows it vs s d i) : d.current it = (live vs s)[i]? := by
  obtain ⟨-, -, ⟨hvalid, rfl⟩ | ⟨hvalid, hdir, p, v, hat, hv, hl, rfl⟩ | ⟨hvalid, hdir, x, m, v, hs, rfl⟩⟩ := h
  · rw [DBIter.current, hvalid, List.getElem?_eq_none le_rfl]
    rfl
  · rw [getElem?_live hv hl, DBIter.current, hvalid, hdir]
    simp only [if_true]
    rw [Inner.current hat, hv, Option.map_some, Option.map_some]
    exact congrArg some (Prod.ext (extractUserKey_append v.key (length_encodeFixed64 _)) rfl)
  · rw [getElem?_live hs.get hs.live, DBIter.current, hvalid, hdir, hs.key, hs.value]
    rfl

theorem Shows.le {s i : ℕ} {d : DBIter σ} (h : Shows it vs s d i) : i ≤ (live vs s).length := by
  obtain ⟨-, -, ⟨-, rfl⟩ | ⟨-, -, p, v, -, -, -, rfl⟩ | ⟨-, -, x, m, v, -, rfl⟩⟩ := h
  · exact le_rfl
  · rw [live, List.length_map]
    exact rank_le _ _ _
  · rw [live, List.length_map]
    exact rank_le _ _ _

theorem Found.shows {s p p' : ℕ} {floor : Option Slice} {d d' : DBIter σ} (h : Found it vs s floor p d d' p')
    (hdir : d.direction = .kForward) : Shows it vs s d' (rank (Live vs s) vs p') := by
  refine ⟨h.status, ⟨p', h.at_iter⟩, ?_⟩
  rcases h.found with ⟨hnone, hvalid⟩ | ⟨v, hv, ⟨hl, -⟩, hvalid⟩
  · left
    rw [length_live, le_antisymm (Inner.le h.at_iter) (List.getElem?_eq_none_iff.mp hnone)]
    exact ⟨hvalid, rfl⟩
  · exact Or.inr (Or.inl ⟨hvalid, h.direction.trans hdir, p', v, h.at_iter, hv, hl, rfl⟩)

/-- Without a floor, the place that was found has the rank of the place from which it was looked for. -/
theorem Found.rank_eq {s p p' : ℕ} {d d' : DBIter σ} (h : Found it vs s none p d d' p') :
    rank (Live vs s) vs p = rank (Live vs s) vs p' := by
  refine Cursor.rank_eq h.le fun r a hr hr' ha => ?_
  by_contra hl
  exact h.passed r a hr hr' ha ⟨Bool.eq_true_of_not_eq_false hl, by simp⟩

/-- With the key of the live version `x` as the floor, the next live version is found. -/
theorem Found.rank_succ {s p p' x : ℕ} {v : Version Slice Slice} {d d' : DBIter σ} (hsrc : Source vs)
    (h : Found it vs s (some v.key) p d d' p') (hp : p ≤ x) (hv : vs[x]? = some v) (hl : Live vs s v = true) :
    rank (Live vs s) vs x + 1 = rank (Live vs s) vs p' := by
  have hx : x < p' := by
    by_contra hle
    rcases h.found with ⟨hnone, -⟩ | ⟨u, hu, ⟨-, hbeyond⟩, -⟩
    · have hlen := List.getElem?_eq_none_iff.mp hnone
      have hlt := (List.getElem?_eq_some_iff.mp hv).1
      omega
    · have hle' := hsrc.order.key_le (not_lt.mp hle) hu hv
      rw [Std.OrientedCmp.gt_of_lt (hbeyond _ rfl)] at hle'
      cases hle'
  rw [← Cursor.rank_succ hv hl]
  refine Cursor.rank_eq hx fun r w hr hr' hw => ?_
  by_contra hlw
  have hlw : Live vs s w = true := Bool.eq_true_of_not_eq_false hlw
  refine h.passed r w (hp.trans (Nat.le_of_succ_le hr)) hr' hw ⟨hlw, ?_⟩
  intro k hk
  rw [← Option.mem_some_iff.mp hk]
  rcases hsrc.order.lt hr hv hw with hlt | ⟨heq, -⟩
  · exact hlt
  · exact absurd (live_iff.mp hl).1 (((hsrc.order.live_iff hw).mp hlw).2.2 x v hr hv heq)

theorem shows_findPrevUserEntry (hsrc : Source vs) {fuel m i : ℕ} {d : DBIter σ} (hm : m ≤ vs.length)
    (hfuel : vs.length < fuel) (hat : Inner it vs d.iter (backTo vs m)) (hok : d.status = .ok)
    (hdir : d.direction = .kReverse) (hi : i = rank (Live vs sequence.toNat) vs m) :
    ∃ d', findPrevUserEntry it sequence fuel d = some d' ∧
      Shows it vs sequence.toNat d' (if i = 0 then (live vs sequence.toNat).length else i - 1) := by
  obtain ⟨d', hd', hok', hp, ⟨hvalid, hnone⟩ | ⟨hvalid, hdir', x, m', v, hx, hshows, habove⟩⟩ :=
    findPrevUserEntry_spec hsrc hm hfuel hat hok
  · refine ⟨d', hd', hok', hp, Or.inl ⟨hvalid, if_pos ?_⟩⟩
    have hzero : rank (Live vs sequence.toNat) vs 0 = rank (Live vs sequence.toNat) vs m :=
      Cursor.rank_eq (Nat.zero_le m) fun r a _ hr ha => Bool.eq_false_of_not_eq_true (hnone r a hr ha)
    rw [hi, ← hzero]
    rfl
  · refine ⟨d', hd', hok', hp, Or.inr (Or.inr ⟨hvalid, hdir'.trans hdir, x, m', v, hshows, ?_⟩)⟩
    have hsucc : rank (Live vs sequence.toNat) vs (x + 1) = rank (Live vs sequence.toNat) vs m :=
      Cursor.rank_eq hx fun r a hr hr' ha => Bool.eq_false_of_not_eq_true (habove r a hr hr' ha)
    rw [Cursor.rank_succ hshows.get hshows.live] at hsucc
    rw [hi, ← hsucc, if_neg (Nat.succ_ne_zero _), Nat.add_sub_cancel]

theorem skips_none {s p : ℕ} {skip : Slice}
    (h : ∀ (r q : ℕ) v w, p ≤ r → q < p → vs[r]? = some v → vs[q]? = some w → w.key = v.key → ¬ Vis s w) :
    Skips vs s p false skip none := by
  intro r v hr hv _
  refine ⟨⟨fun hf => absurd hf.1 Bool.false_ne_true, ?_⟩, by simp⟩
  rintro (⟨q, w, hq, hw, hkey, hvw⟩ | ⟨k, hk, -⟩)
  · exact absurd hvw (h r q v w hr hq hv hw hkey)
  · cases hk

/-- From a place that has only smaller keys and the key itself before it, with the key to skip. -/
theorem skips_some {s p : ℕ} {k : Slice}
    (hbefore : ∀ (q : ℕ) w, q < p → vs[q]? = some w → (bytewiseComparator.compare w.key k).isLE)
    (hafter : ∀ (r : ℕ) v, p ≤ r → vs[r]? = some v → Vis s v → (bytewiseComparator.compare k v.key).isLE) :
    Skips vs s p true k (some k) := by
  intro r v hr hv hvis
  refine ⟨⟨fun hle => Or.inr ⟨k, rfl, hle.2⟩, ?_⟩, ?_⟩
  · rintro (⟨q, w, hq, hw, hkey, -⟩ | ⟨k', hk', hle⟩)
    · rw [← hkey]
      exact ⟨rfl, hbefore q w hq hw⟩
    · rw [Option.mem_some_iff.mp hk']
      exact ⟨rfl, hle⟩
  · intro k' hk'
    rw [← Option.mem_some_iff.mp hk']
    exact hafter r v hr hv hvis

/-- Where the internal iterator is not valid, there is nothing live from there on. -/
theorem shows_invalid {s p : ℕ} {d : DBIter σ} (hat : Inner it vs d.iter p) (hok : d.status = .ok)
    (hcur : (it.current d.iter).isSome = false) (hvalid : d.valid = false) :
    Shows it vs s d (rank (Live vs s) vs p) := by
  have hp : p = vs.length := by
    rw [Inner.current hat, Option.isSome_map, Option.isSome_eq_false_iff, Option.isNone_iff_eq_none] at hcur
    exact le_antisymm (Inner.le hat) (List.getElem?_eq_none_iff.mp hcur)
  refine ⟨hok, ⟨p, hat⟩, Or.inl ⟨hvalid, ?_⟩⟩
  rw [length_live, hp]

theorem Shows.seekToFirst (hsrc : Source vs) {fuel i : ℕ} (hfuel : vs.length < fuel) {d : DBIter σ}
    (h : Shows it vs sequence.toNat d i) :
    ∃ d', d.seekToFirst it sequence fuel = some d' ∧ Shows it vs sequence.toNat d' 0 := by
  obtain ⟨hok, ⟨p, hat⟩, -⟩ := h
  have hat₀ : Inner it vs (it.move d.iter .seekToFirst) 0 := At.move (m := .seekToFirst) hat trivial
  have hrank : rank (Live vs sequence.toNat) vs 0 = 0 := rfl
  unfold DBIter.seekToFirst
  simp only
  cases hcur : (it.current (moveIter it { d with direction := .kForward, saved_value := [] } .seekToFirst).iter).isSome with
  | true =>
    rw [if_pos rfl]
    obtain ⟨d', p', hd', hf⟩ := findNextUserEntry_spec hsrc fuel
      (d := moveIter it { d with direction := .kForward, saved_value := [] } .seekToFirst) (by omega) hat₀ hok
      (skips_none fun r q v w _ hq => absurd hq (Nat.not_lt_zero q))
    refine ⟨d', hd', ?_⟩
    rw [← hrank, hf.rank_eq]
    exact hf.shows rfl
  | false =>
    rw [if_neg Bool.false_ne_true]
    refine ⟨_, rfl, ?_⟩
    rw [← hrank]
    exact shows_invalid hat₀ hok hcur rfl

theorem Shows.seekToLast (hsrc : Source vs) {fuel i : ℕ} (hfuel : vs.length < fuel) {d : DBIter σ}
    (h : Shows it vs sequence.toNat d i) :
    ∃ d', d.seekToLast it sequence fuel = some d' ∧
      Shows it vs sequence.toNat d' ((live vs sequence.toNat).length - 1) := by
  obtain ⟨hok, ⟨p, hat⟩, -⟩ := h
  have hat₁ := At.move (m := .seekToLast) hat trivial
  have hplace : place (entryLt (internalKeyComparator bytewiseComparator)) (vs.map internalEntry) p .seekToLast =
      backTo vs vs.length := by
    rw [place, List.length_map, backTo]
    split_ifs <;> omega
  rw [hplace] at hat₁
  obtain ⟨d', hd', hs⟩ := shows_findPrevUserEntry hsrc le_rfl hfuel
    (d := moveIter it { d with direction := .kReverse, saved_value := [] } .seekToLast) hat₁ hok rfl
    (length_live sequence.toNat)
  refine ⟨d', hd', ?_⟩
  have hi : (if (live vs sequence.toNat).length = 0 then (live vs sequence.toNat).length
      else (live vs sequence.toNat).length - 1) = (live vs sequence.toNat).length - 1 := by
    split_ifs <;> omega
  rwa [hi] at hs

/-- The versions before the internal key of `target` at the reader's number. -/
theorem below_seekKey {target : Slice} {v : Version Slice Slice} (hv : v.seq < 2 ^ 56)
    (hs : sequence ≤ kMaxSequenceNumber) :
    entryLt (internalKeyComparator bytewiseComparator) (internalEntry v)
        (appendInternalKey [] ⟨target, sequence, kValueTypeForSeek⟩) = true ↔
      bytewiseComparator.compare v.key target = .lt ∨ v.key = target ∧ ¬ Vis sequence.toNat v := by
  have htype := MemTable.typeOf_le v
  unfold entryLt below
  rw [decide_eq_true_iff]
  show internalCompare bytewiseComparator (v.key ++ encodeFixed64 (MemTable.tagOf v))
    ([] ++ target ++ encodeFixed64 (packSequenceAndType sequence kValueTypeForSeek)) = .lt ↔ _
  rw [List.nil_append, internalCompare_lt_iff, MemTable.toNat_tagOf hv, toNat_packSequenceAndType hs,
    show kValueTypeForSeek.toNat = 1 from rfl]
  refine or_congr_right (and_congr_right fun _ => ?_)
  unfold Vis
  omega

/-- The internal keys ascend. -/
theorem sorted_internal (hsrc : Source vs) :
    Sorted (internalKeyComparator bytewiseComparator).compare Prod.fst (vs.map internalEntry) := by
  unfold Sorted
  rw [List.pairwise_map]
  refine hsrc.order.imp_of_mem fun {v w} hv hw hvw => ?_
  have htv := MemTable.typeOf_le v
  have htw := MemTable.typeOf_le w
  refine internalCompare_lt_iff.mpr (hvw.imp_right fun ⟨hkey, hlt⟩ => ⟨hkey, ?_⟩)
  rw [MemTable.toNat_tagOf (hsrc.small v hv), MemTable.toNat_tagOf (hsrc.small w hw)]
  omega

instance : Std.TransCmp (internalKeyComparator bytewiseComparator).compare :=
  inferInstanceAs (Std.TransCmp (internalCompare bytewiseComparator))

theorem Shows.seek (hsrc : Source vs) (hs : sequence ≤ kMaxSequenceNumber) {fuel i : ℕ} (hfuel : vs.length < fuel)
    {d : DBIter σ} (h : Shows it vs sequence.toNat d i) (target : Slice) :
    ∃ d', d.seek it sequence fuel target = some d' ∧ Shows it vs sequence.toNat d'
      (cut (fun e => entryLt bytewiseComparator e target) (live vs sequence.toNat)) := by
  obtain ⟨hok, ⟨p, hat⟩, -⟩ := h
  obtain ⟨key, hkey⟩ : ∃ key, key = appendInternalKey [] ⟨target, sequence, kValueTypeForSeek⟩ := ⟨_, rfl⟩
  obtain ⟨p₀, hp₀⟩ : ∃ p₀, p₀ = cut (fun e => entryLt (internalKeyComparator bytewiseComparator) e key)
    (vs.map internalEntry) := ⟨_, rfl⟩
  have hat₀ : Inner it vs (it.move d.iter (.seek key)) p₀ := by
    rw [hp₀]
    exact At.move (m := .seek key) hat trivial
  have hinit := initial_below (sorted_internal hsrc) key
  -- what is before the place, and what is not
  have hbefore {q : ℕ} {w : Version Slice Slice} (hq : q < p₀) (hw : vs[q]? = some w) :
      bytewiseComparator.compare w.key target = .lt ∨ w.key = target ∧ ¬ Vis sequence.toNat w := by
    have hwe : (vs.map internalEntry)[q]? = some (internalEntry w) := by rw [List.getElem?_map, hw]; rfl
    rw [hp₀] at hq
    have hlt := getElem?_lt_cut hq hwe
    rw [hkey] at hlt
    exact (below_seekKey (hsrc.small w (List.mem_of_getElem? hw)) hs).mp hlt
  have hafter {r : ℕ} {v : Version Slice Slice} (hr : p₀ ≤ r) (hv : vs[r]? = some v) :
      ¬ (bytewiseComparator.compare v.key target = .lt ∨ v.key = target ∧ ¬ Vis sequence.toNat v) := by
    have hve : (vs.map internalEntry)[r]? = some (internalEntry v) := by rw [List.getElem?_map, hv]; rfl
    rw [hp₀] at hr
    have hge := getElem?_cut_le hinit hr hve
    rw [hkey] at hge
    rw [← below_seekKey (hsrc.small v (List.mem_of_getElem? hv)) hs, Bool.not_eq_true]
    exact hge
  have hplace : cut (fun e => entryLt bytewiseComparator e target) (live vs sequence.toNat) =
      rank (Live vs sequence.toNat) vs p₀ := by
    have hsplit : live vs sequence.toNat =
        ((vs.take p₀).filter (Live vs sequence.toNat)).map (fun v => (v.key, v.val.getD [])) ++
        ((vs.drop p₀).filter (Live vs sequence.toNat)).map fun v => (v.key, v.val.getD []) := by
      rw [← List.map_append, ← List.filter_append, List.take_append_drop]
      rfl
    rw [hsplit, cut_append]
    · rw [List.length_map]
      rfl
    · intro e he
      obtain ⟨v, hv, rfl⟩ := List.mem_map.mp he
      obtain ⟨hv, hl⟩ := List.mem_filter.mp hv
      obtain ⟨q, hq⟩ := List.mem_iff_getElem?.mp hv
      have hlt : q < p₀ := by
        by_contra hge
        rw [List.getElem?_take_eq_none (not_lt.mp hge)] at hq
        cases hq
      rw [List.getElem?_take_of_lt hlt] at hq
      refine decide_eq_true ((hbefore hlt hq).resolve_right fun hn => hn.2 (live_iff.mp hl).1)
    · intro e he
      obtain ⟨v, hv, rfl⟩ := List.mem_map.mp he
      obtain ⟨hv, -⟩ := List.mem_filter.mp hv
      obtain ⟨q, hq⟩ := List.mem_iff_getElem?.mp hv
      rw [List.getElem?_drop] at hq
      exact decide_eq_false fun hlt => hafter (Nat.le_add_right _ _) hq (Or.inl hlt)
  rw [hplace]
  unfold DBIter.seek
  simp only
  rw [← hkey]
  cases hcur : (it.current (moveIter it { d with
      direction := .kForward, saved_value := [], saved_key := key } (.seek key)).iter).isSome with
  | true =>
    rw [if_pos rfl]
    obtain ⟨d', p', hd', hf⟩ := findNextUserEntry_spec hsrc fuel
      (d := moveIter it { d with direction := .kForward, saved_value := [], saved_key := key } (.seek key))
      (by omega) hat₀ hok (skips_none fun r q v w hr hq hv hw hsame hvw => by
        rcases hbefore hq hw with hlt | ⟨-, hnv⟩
        · rw [hsame] at hlt
          exact hafter hr hv (Or.inl hlt)
        · exact hnv hvw)
    refine ⟨d', hd', ?_⟩
    rw [hf.rank_eq]
    exact hf.shows rfl
  | false =>
    rw [if_neg Bool.false_ne_true]
    exact ⟨_, rfl, shows_invalid hat₀ hok hcur rfl⟩

theorem Shows.next (hsrc : Source vs) {fuel i : ℕ} (hfuel : vs.length < fuel) {d : DBIter σ}
    (h : Shows it vs sequence.toNat d i) (hi : i < (live vs sequence.toNat).length) :
    ∃ d', d.next it sequence fuel = some d' ∧ Shows it vs sequence.toNat d' (i + 1) := by
  obtain ⟨hok, -, ⟨-, rfl⟩ | ⟨-, hdir, p, v, hat, hv, hl, rfl⟩ | ⟨-, hdir, x, m, v, hs, rfl⟩⟩ := h
  · exact absurd hi (lt_irrefl _)
  · -- forward: the entries of the current key are skipped
    have hkey : ((it.current d.iter).map fun e => extractUserKey e.1).getD [] = v.key := by
      rw [Inner.current hat, hv, Option.map_some, Option.map_some, Option.getD_some]
      exact extractUserKey_append v.key (length_encodeFixed64 _)
    obtain ⟨d', p', hd', hf⟩ := findNextUserEntry_spec hsrc fuel (d := { d with saved_key := v.key }) (by omega)
      hat hok (skips_some (fun q w hq hw => hsrc.order.key_le hq.le hw hv)
        fun r w hr hw _ => hsrc.order.key_le hr hv hw)
    refine ⟨d', ?_, ?_⟩
    · unfold DBIter.next
      rw [hdir] at hd' ⊢
      simp only [hkey]
      exact hd'
    · rw [hf.rank_succ hsrc le_rfl hv hl]
      exact hf.shows hdir
  · -- backward: into the entries of the saved key, and behind them
    obtain ⟨d₁, hd₁⟩ : ∃ d₁, d₁ = moveIter it { d with direction := .kForward }
      (if (it.current d.iter).isSome then .next else .seekToFirst) := ⟨_, rfl⟩
    have hat₁ : Inner it vs d₁.iter m := by
      have hcur := Inner.current hs.at_iter
      rw [hd₁]
      rcases Nat.eq_zero_or_pos m with rfl | hm
      · rw [backTo, if_pos rfl, List.getElem?_eq_none le_rfl, Option.map_none] at hcur
        rw [hcur]
        exact At.move (m := .seekToFirst) hs.at_iter trivial
      · obtain ⟨n, rfl⟩ := Nat.exists_eq_succ_of_ne_zero hm.ne'
        have hn : n < vs.length := (Nat.lt_of_succ_le hs.le).trans (List.getElem?_eq_some_iff.mp hs.get).1
        rw [Nat.succ_eq_add_one, backTo_succ, List.getElem?_eq_getElem hn] at hcur
        rw [hcur]
        have hat := hs.at_iter
        rw [Nat.succ_eq_add_one, backTo_succ] at hat
        exact Inner.next hat (List.getElem?_eq_getElem hn)
    have hvalid : (it.current d₁.iter).isSome = true := by
      rw [Inner.current hat₁, Option.isSome_map, isSome_getElem?]
      exact hs.le.trans_lt (List.getElem?_eq_some_iff.mp hs.get).1
    have hd₁' : d₁.saved_key = v.key ∧ d₁.status = .ok ∧ d₁.direction = .kForward := by
      rw [hd₁]
      exact ⟨hs.key, hok, rfl⟩
    obtain ⟨d', p', hd', hf⟩ := findNextUserEntry_spec hsrc fuel (d := d₁) (by omega) hat₁ hd₁'.2.1
      (by
        rw [hd₁'.1]
        refine skips_some (fun q w hq hw => ?_) fun r w hr hw hvis => ?_
        · rcases hs.before with rfl | ⟨u, hu, hlt⟩
          · exact absurd hq (Nat.not_lt_zero q)
          · exact Std.TransCmp.isLE_trans (hsrc.order.key_le (by omega) hw hu) (Ordering.isLE_of_eq_lt hlt)
        · have hge : x ≤ r := by
            by_contra hlt
            exact hs.between r w hr (not_le.mp hlt) hw hvis
          exact hsrc.order.key_le hge hs.get hw)
    refine ⟨d', ?_, ?_⟩
    · unfold DBIter.next
      rw [hdir]
      simp only
      rw [← hd₁, if_pos hvalid]
      exact hd'
    · rw [hf.rank_succ hsrc hs.le hs.get hs.live]
      exact hf.shows hd₁'.2.2

theorem Shows.prev (hsrc : Source vs) {fuel i : ℕ} (hfuel : vs.length < fuel) {d : DBIter σ}
    (h : Shows it vs sequence.toNat d i) (hi : i < (live vs sequence.toNat).length) :
    ∃ d', d.prev it sequence fuel = some d' ∧
      Shows it vs sequence.toNat d' (if i = 0 then (live vs sequence.toNat).length else i - 1) := by
  obtain ⟨hok, -, ⟨-, rfl⟩ | ⟨-, hdir, p, v, hat, hv, hl, rfl⟩ | ⟨-, hdir, x, m, v, hs, rfl⟩⟩ := h
  · exact absurd hi (lt_irrefl _)
  · have hp := (List.getElem?_eq_some_iff.mp hv).1
    have hkey : ((it.current d.iter).map fun e => extractUserKey e.1).getD [] = v.key := by
      rw [Inner.current hat, hv, Option.map_some, Option.map_some, Option.getD_some]
      exact extractUserKey_append v.key (length_encodeFixed64 _)
    obtain ⟨b, d₁, m, hd₁, hm, hat₁, hok₁, -, hsame, hcase⟩ :=
      leaveKey_spec fuel (d := { d with saved_key := v.key }) (by omega) hat hv hok
    -- the entries that were left are newer versions of the key
    have hrank : rank (Live vs sequence.toNat) vs m = rank (Live vs sequence.toNat) vs p := by
      refine Cursor.rank_eq hm fun r w hr hr' hw => ?_
      by_contra hlw
      have hlw : Live vs sequence.toNat w = true := Bool.eq_true_of_not_eq_false hlw
      rcases hsrc.order.lt hr' hw hv with hlt | ⟨heq, hlt⟩
      · exact hsame r w hr hr' hw hlt
      · exact ((hsrc.order.live_iff hv).mp hl).2.2 r w hr' hw heq (live_iff.mp hlw).1
    unfold DBIter.prev
    rw [hdir] at hd₁ ⊢
    simp only [hkey]
    rw [hd₁]
    rcases hcase with ⟨rfl, rfl, hvalid⟩ | rfl
    · refine ⟨d₁, rfl, hok₁, ⟨_, hat₁⟩, Or.inl ⟨hvalid, if_pos ?_⟩⟩
      rw [← hrank]
      rfl
    · exact shows_findPrevUserEntry hsrc (hm.trans hp.le) hfuel (d := { d₁ with direction := .kReverse }) hat₁ hok₁
        rfl hrank.symm
  · have hx := (List.getElem?_eq_some_iff.mp hs.get).1
    have hrank : rank (Live vs sequence.toNat) vs m = rank (Live vs sequence.toNat) vs x := by
      refine Cursor.rank_eq hs.le fun r w hr hr' hw => ?_
      exact Bool.eq_false_of_not_eq_true fun hlw => hs.between r w hr hr' hw (live_iff.mp hlw).1
    unfold DBIter.prev
    rw [hdir]
    exact shows_findPrevUserEntry hsrc (hs.le.trans hx.le) hfuel hs.at_iter hok hdir hrank.symm

theorem simulates (hsrc : Source vs) (hs : sequence ≤ kMaxSequenceNumber) {fuel : ℕ} (hfuel : vs.length < fuel) :
    Simulates (entryLt bytewiseComparator) (live vs sequence.toNat) (iterator it sequence fuel)
      fun o i => ∃ d, o = some d ∧ Shows it vs sequence.toNat d i where
  le := by
    rintro o i ⟨d, -, h⟩
    exact h.le
  ok := by
    rintro o i ⟨d, rfl, hok, ⟨p, hat⟩, -⟩
    show (it.ok d.iter && decide (d.status = .ok)) = true
    rw [At.ok hat, hok]
    rfl
  current := by
    rintro o i ⟨d, rfl, h⟩
    exact h.current
  move := by
    rintro o i m ⟨d, rfl, h⟩ hlegal
    cases m with
    | seekToFirst => exact h.seekToFirst hsrc hfuel
    | seekToLast => exact h.seekToLast hsrc hfuel
    | seek target => exact h.seek hsrc hs hfuel target
    | next => exact h.next hsrc hfuel hlegal
    | prev => exact h.prev hsrc hfuel hlegal

end Loops

/-! ## What callers see -/

section Live

variable {vs : List (Version Slice Slice)} {s : ℕ}

theorem InternalOrder.distinct (h : InternalOrder vs) : Distinct vs := by
  intro v hv w hw hkey hseq
  obtain ⟨p, hp⟩ := List.mem_iff_getElem?.mp hv
  obtain ⟨q, hq⟩ := List.mem_iff_getElem?.mp hw
  have hne {v w : Version Slice Slice} {p q : ℕ} (hlt : p < q) (hp : vs[p]? = some v) (hq : vs[q]? = some w)
      (hkey : v.key = w.key) (hseq : v.seq = w.seq) : False := by
    rcases h.lt hlt hp hq with hlt' | ⟨-, hlt'⟩
    · rw [hkey, compare_self] at hlt'
      cases hlt'
    · omega
  rcases lt_trichotomy p q with hlt | rfl | hlt
  · exact (hne hlt hp hq hkey hseq).elim
  · exact Option.some.inj (hp.symm.trans hq)
  · exact (hne hlt hq hp hkey.symm hseq.symm).elim

/-- The live entries are what a reader at `s` reads. -/
theorem mem_live_iff (hd : Distinct vs) {k x : Slice} : (k, x) ∈ live vs s ↔ Versions.read vs k s = some x := by
  unfold live Versions.read
  rw [List.mem_map]
  constructor
  · rintro ⟨v, hv, heq⟩
    obtain ⟨rfl, rfl⟩ := Prod.mk.inj heq
    obtain ⟨hmem, hl⟩ := List.mem_filter.mp hv
    obtain ⟨hvis, hsome, hmax⟩ := live_iff.mp hl
    obtain ⟨y, hy⟩ := Option.isSome_iff_exists.mp hsome
    rw [(newest_eq_some hd).mpr ⟨hmem, rfl, hvis, hmax⟩, Option.bind_some, hy]
    rfl
  · intro h
    obtain ⟨v, hv, hval⟩ := Option.bind_eq_some_iff.mp h
    obtain ⟨hmem, rfl, hvis, hmax⟩ := newest_some hv
    refine ⟨v, List.mem_filter.mpr ⟨hmem, live_iff.mpr ⟨hvis, by rw [hval]; rfl, hmax⟩⟩, ?_⟩
    rw [hval]
    rfl

/-- The live entries ascend. -/
theorem sorted_live (h : InternalOrder vs) : Sorted bytewiseComparator.compare Prod.fst (live vs s) := by
  unfold Sorted live
  rw [List.pairwise_map]
  refine (h.sublist List.filter_sublist).imp_of_mem fun {v w} hv hw hvw => ?_
  rcases hvw with hlt | ⟨hkey, hlt⟩
  · exact hlt
  · -- of two versions of a key only the newer is live
    obtain ⟨hv, hlv⟩ := List.mem_filter.mp hv
    obtain ⟨-, hlw⟩ := List.mem_filter.mp hw
    have := (live_iff.mp hlw).2.2 v hv hkey (live_iff.mp hlv).1
    omega

end Live

/-- **The iterator of the database**: over an iterator that is a cursor in the internal keys of some versions, it
is a cursor in the entries that a reader at the sequence number sees, forward and backward, whatever
moves are made in which order. -/
theorem iterator_at_live {it : Iter σ Entry Slice} {sequence : UInt64} {vs : List (Version Slice Slice)} {c : σ}
    {p fuel : ℕ} (horder : InternalOrder vs) (hsmall : ∀ v ∈ vs, v.seq < 2 ^ 56)
    (hs : sequence ≤ kMaxSequenceNumber) (hfuel : vs.length < fuel) (hat : Inner it vs c p) :
    At (entryLt bytewiseComparator) (live vs sequence.toNat) (iterator it sequence fuel) (some (new c))
        (live vs sequence.toNat).length ∧
      Sorted bytewiseComparator.compare Prod.fst (live vs sequence.toNat) ∧
      ∀ k x, (k, x) ∈ live vs sequence.toNat ↔ Versions.read vs k sequence.toNat = some x := by
  have hsrc : Source vs := ⟨horder, hsmall⟩
  refine ⟨(simulates hsrc hs hfuel).at ⟨new c, rfl, rfl, ⟨p, hat⟩, Or.inl ⟨rfl, rfl⟩⟩, sorted_live horder,
    fun k x => mem_live_iff horder.distinct⟩

/-- Over a key that was deleted after a snapshot, and another one. -/
theorem iterator_at_live_two : ∃ vs : List (Version Slice Slice),
    vs = [⟨[1], 3, none⟩, ⟨[1], 1, some [10]⟩, ⟨[2], 2, some [20]⟩] ∧
    At (entryLt bytewiseComparator) (live vs (2 : UInt64).toNat)
        (iterator (ofList (entryLt (internalKeyComparator bytewiseComparator))) 2 4)
        (some (new (vs.map internalEntry, 3))) (live vs (2 : UInt64).toNat).length ∧
      Sorted bytewiseComparator.compare Prod.fst (live vs (2 : UInt64).toNat) ∧
      ∀ k x, (k, x) ∈ live vs (2 : UInt64).toNat ↔ Versions.read vs k (2 : UInt64).toNat = some x :=
  ⟨_, rfl, iterator_at_live (by decide) (by decide) (by decide) (by decide) (at_ofList (by decide))⟩

end DBIter

end Leveldb
