import WorldToPE.Lib.Ordered
import WorldToPE.Lib.Versions
import WorldToPE.Engine.DbFormat
import WorldToPE.Engine.WriteBatch

/-!
# WorldToPE.Engine.MemTable — the table in memory

`db/memtable.cc`: an entry is one byte string that holds the internal key and the value, each with
its length in front; the table keeps the entries in the order of their internal keys.  A lookup seeks
the first entry that is not before the user key at the snapshot's number.

`Represents` says which versions a table holds.  `Represents.get` is the meaning of a lookup: the
newest version that the snapshot may see.
-/

namespace Leveldb

open Versions

/-- `LookupKey::memtable_key`. -/
def memtableKey (user_key : Slice) (s : UInt64) : Slice :=
  encodeVarint32 (UInt32.ofNat (user_key.length + 8)) ++ user_key ++
    encodeFixed64 (packSequenceAndType s kValueTypeForSeek)

/-- The slice at the front of an entry, and what follows it: the static `GetLengthPrefixedSlice`,
which takes the entry to be well formed. -/
def entrySlice (data : Slice) : Slice × Slice :=
  match getVarint32Ptr data with
  | some (len, p) => (p.take len.toNat, p.drop len.toNat)
  | none => ([], [])

/-- `MemTable::KeyComparator`. -/
def keyCompare (aptr bptr : Slice) : Ordering :=
  internalCompare bytewiseComparator (entrySlice aptr).1 (entrySlice bptr).1

/-- The entries, in the order of the skip list. -/
structure MemTable where
  table : List Slice

namespace MemTable

def empty : MemTable := ⟨[]⟩

/-- The entry that `Add` builds. -/
def encodeEntry (s : UInt64) (type : UInt8) (key value : Slice) : Slice :=
  encodeVarint32 (UInt32.ofNat (key.length + 8)) ++ key ++ encodeFixed64 ((s <<< 8) ||| type.toUInt64) ++
    encodeVarint32 (UInt32.ofNat value.length) ++ value

def add (m : MemTable) (s : UInt64) (type : UInt8) (key value : Slice) : MemTable :=
  ⟨Ordered.insert keyCompare (encodeEntry s type key value) m.table⟩

/-- `none` where the source returns `false`. -/
def get (m : MemTable) (user_key : Slice) (s : UInt64) : Option (Except Status Slice) :=
  match Ordered.seek keyCompare (memtableKey user_key s) m.table with
  | [] => none
  | entry :: _ =>
    let key := (entrySlice entry).1
    if bytewiseComparator.compare (key.take (key.length - 8)) user_key = .eq then
      let tag := decodeFixed64 (key.drop (key.length - 8))
      if (tag &&& 0xff).toUInt8 = kTypeValue then some (.ok (entrySlice (entrySlice entry).2).1)
      else if (tag &&& 0xff).toUInt8 = kTypeDeletion then some (.error (.notFound ""))
      else none
    else none

/-- `MemTableInserter`: the table and the number of the next operation. -/
def handle (st : MemTable × UInt64) : Op → MemTable × UInt64
  | .put key value => (st.1.add st.2 kTypeValue key value, st.2 + 1)
  | .delete key => (st.1.add st.2 kTypeDeletion key [], st.2 + 1)

/-- `WriteBatchInternal::InsertInto`. -/
def insertInto (b : WriteBatch) (m : MemTable) : MemTable × Status :=
  ((b.iterate.1.foldl handle (m, b.sequence)).1, b.iterate.2)

/-! ## Entries and versions -/

def typeOf (v : Version Slice Slice) : UInt8 := if v.val.isSome then kTypeValue else kTypeDeletion

/-- The number that the internal key of a version packs. -/
def tagOf (v : Version Slice Slice) : UInt64 := packSequenceAndType (UInt64.ofNat v.seq) (typeOf v)

/-- The entry of a version. -/
def entryOf (v : Version Slice Slice) : Slice :=
  encodeEntry (UInt64.ofNat v.seq) (typeOf v) v.key (v.val.getD [])

/-- The sizes and the number of a version fit their fields. -/
def VersionFits (v : Version Slice Slice) : Prop :=
  v.key.length + 8 < 2 ^ 32 ∧ (∀ value ∈ v.val, Fits value) ∧ v.seq < 2 ^ 56

theorem entrySlice_append {key : Slice} (rest : Slice) (h : Fits key) :
    entrySlice (encodeVarint32 (UInt32.ofNat key.length) ++ key ++ rest) = (key, rest) := by
  have hlen : (UInt32.ofNat key.length).toNat = key.length := by
    rw [UInt32.toNat_ofNat', Nat.mod_eq_of_lt h]
  have hget := getVarint32_put (UInt32.ofNat key.length) (key ++ rest)
  unfold getVarint32 at hget
  unfold entrySlice
  rw [List.append_assoc, hget]
  simp only [hlen, List.take_left, List.drop_left]

theorem entrySlice_encodeEntry {s : UInt64} {type : UInt8} {key value : Slice}
    (h : key.length + 8 < 2 ^ 32) :
    entrySlice (encodeEntry s type key value) =
      (key ++ encodeFixed64 ((s <<< 8) ||| type.toUInt64),
        encodeVarint32 (UInt32.ofNat value.length) ++ value) := by
  have hlen : (key ++ encodeFixed64 ((s <<< 8) ||| type.toUInt64)).length = key.length + 8 := by
    rw [List.length_append, length_encodeFixed64]
  have hfits : Fits (key ++ encodeFixed64 ((s <<< 8) ||| type.toUInt64)) := by
    unfold Fits
    rw [hlen]
    exact h
  have := entrySlice_append (encodeVarint32 (UInt32.ofNat value.length) ++ value) hfits
  rw [hlen] at this
  rw [← this]
  simp only [encodeEntry, List.append_assoc]

theorem entrySlice_memtableKey {user_key : Slice} (s : UInt64) (h : user_key.length + 8 < 2 ^ 32) :
    (entrySlice (memtableKey user_key s)).1 =
      user_key ++ encodeFixed64 (packSequenceAndType s kValueTypeForSeek) := by
  have hlen : (user_key ++ encodeFixed64 (packSequenceAndType s kValueTypeForSeek)).length =
      user_key.length + 8 := by
    rw [List.length_append, length_encodeFixed64]
  have hfits : Fits (user_key ++ encodeFixed64 (packSequenceAndType s kValueTypeForSeek)) := by
    unfold Fits
    rw [hlen]
    exact h
  have := entrySlice_append [] hfits
  rw [hlen] at this
  have he : memtableKey user_key s = encodeVarint32 (UInt32.ofNat (user_key.length + 8)) ++
      (user_key ++ encodeFixed64 (packSequenceAndType s kValueTypeForSeek)) ++ [] := by
    simp only [memtableKey, List.append_assoc, List.append_nil]
  rw [he, this]

variable {v w : Version Slice Slice}

theorem entrySlice_entryOf (h : VersionFits v) :
    entrySlice (entryOf v) = (v.key ++ encodeFixed64 (tagOf v),
      encodeVarint32 (UInt32.ofNat (v.val.getD []).length) ++ v.val.getD []) :=
  entrySlice_encodeEntry h.1

theorem toNat_tagOf (h : v.seq < 2 ^ 56) : (tagOf v).toNat = v.seq * 256 + (typeOf v).toNat := by
  have hs : v.seq < 2 ^ 64 := lt_trans h (by norm_num)
  have hn : (UInt64.ofNat v.seq).toNat = v.seq := UInt64.toNat_ofNat_of_lt' hs
  have hle : UInt64.ofNat v.seq ≤ kMaxSequenceNumber := by
    rw [UInt64.le_iff_toNat_le, hn, show kMaxSequenceNumber.toNat = 2 ^ 56 - 1 from rfl]
    omega
  rw [tagOf, toNat_packSequenceAndType hle, hn]

theorem typeOf_le (v : Version Slice Slice) : (typeOf v).toNat ≤ 1 := by
  unfold typeOf
  split_ifs <;> decide

/-- The low byte of the number is the type. -/
theorem toUInt8_tagOf (h : v.seq < 2 ^ 56) : (tagOf v &&& 0xff).toUInt8 = typeOf v := by
  have h1 := typeOf_le v
  apply UInt8.toNat_inj.mp
  rw [UInt64.toNat_toUInt8, UInt64.toNat_and, toNat_tagOf h, show (0xff : UInt64).toNat = 2 ^ 8 - 1 from rfl,
    Nat.and_two_pow_sub_one_eq_mod]
  omega

theorem value_entryOf (h : VersionFits v) : (entrySlice (entrySlice (entryOf v)).2).1 = v.val.getD [] := by
  have hfits : Fits (v.val.getD []) := by
    cases hval : v.val with
    | none => decide
    | some value => exact h.2.1 value hval
  have := entrySlice_append [] hfits
  rw [List.append_nil] at this
  rw [entrySlice_entryOf h, this]

theorem keyCompare_entryOf (hv : VersionFits v) (hw : VersionFits w) :
    keyCompare (entryOf v) (entryOf w) = .lt ↔
      bytewiseComparator.compare v.key w.key = .lt ∨ v.key = w.key ∧ (tagOf w).toNat < (tagOf v).toNat := by
  unfold keyCompare
  rw [entrySlice_entryOf hv, entrySlice_entryOf hw]
  exact internalCompare_lt_iff

theorem keyCompare_entryOf_eq (hv : VersionFits v) (hw : VersionFits w)
    (h : keyCompare (entryOf v) (entryOf w) = .eq) : v.key = w.key ∧ v.seq = w.seq := by
  unfold keyCompare at h
  rw [entrySlice_entryOf hv, entrySlice_entryOf hw] at h
  obtain ⟨hk, ht⟩ := internalCompare_eq_iff.mp h
  have htn := congrArg UInt64.toNat ht
  rw [toNat_tagOf hv.2.2, toNat_tagOf hw.2.2] at htn
  have h1 := typeOf_le v
  have h2 := typeOf_le w
  exact ⟨hk, by omega⟩

/-- An entry lies before the sought key when its user key does, or when it is too new. -/
theorem keyCompare_memtableKey (hv : VersionFits v) {k : Slice} (hk : k.length + 8 < 2 ^ 32) {s : UInt64}
    (hs : s ≤ kMaxSequenceNumber) :
    keyCompare (entryOf v) (memtableKey k s) = .lt ↔
      bytewiseComparator.compare v.key k = .lt ∨ v.key = k ∧ s.toNat < v.seq := by
  unfold keyCompare
  rw [entrySlice_entryOf hv, entrySlice_memtableKey s hk, internalCompare_lt_iff, toNat_tagOf hv.2.2,
    toNat_packSequenceAndType hs, show kValueTypeForSeek.toNat = 1 from rfl]
  have h1 := typeOf_le v
  constructor
  · rintro (h | ⟨h, hlt⟩)
    · exact Or.inl h
    · exact Or.inr ⟨h, by omega⟩
  · rintro (h | ⟨h, hlt⟩)
    · exact Or.inl h
    · exact Or.inr ⟨h, by omega⟩

/-! ## What a table holds -/

/-- The table holds exactly these versions, in order. -/
structure Represents (m : MemTable) (l : List (Version Slice Slice)) : Prop where
  ascending : Ordered.Ascending keyCompare m.table
  mem_iff : ∀ e, e ∈ m.table ↔ ∃ v ∈ l, e = entryOf v
  fits : ∀ v ∈ l, VersionFits v

variable {m : MemTable} {l : List (Version Slice Slice)}

theorem represents_empty : Represents empty [] where
  ascending := List.Pairwise.nil
  mem_iff := by simp [empty]
  fits := by simp

instance : Std.TransCmp keyCompare :=
  have h : Std.TransCmp (internalCompare bytewiseComparator) := inferInstance
  { eq_swap := h.eq_swap, isLE_trans := h.isLE_trans }

theorem Represents.add (h : Represents m l) (hv : VersionFits v)
    (hnew : ∀ w ∈ l, ¬ (w.key = v.key ∧ w.seq = v.seq)) :
    Represents (m.add (UInt64.ofNat v.seq) (typeOf v) v.key (v.val.getD [])) (l ++ [v]) where
  ascending := by
    refine h.ascending.insert ?_
    intro e he heq
    obtain ⟨w, hw, rfl⟩ := (h.mem_iff e).mp he
    exact hnew w hw (keyCompare_entryOf_eq (h.fits w hw) hv heq)
  mem_iff := by
    intro e
    show e ∈ Ordered.insert keyCompare (entryOf v) m.table ↔ _
    rw [Ordered.mem_insert, h.mem_iff]
    constructor
    · rintro (rfl | ⟨w, hw, rfl⟩)
      · exact ⟨v, by simp, rfl⟩
      · exact ⟨w, List.mem_append_left _ hw, rfl⟩
    · rintro ⟨w, hw, rfl⟩
      rcases List.mem_append.mp hw with hw | hw
      · exact Or.inr ⟨w, hw, rfl⟩
      · rw [List.mem_singleton.mp hw]
        exact Or.inl rfl
  fits := by
    intro w hw
    rcases List.mem_append.mp hw with hw | hw
    · exact h.fits w hw
    · rw [List.mem_singleton.mp hw]
      exact hv

/-! ## Lookups -/

/-- How the table answers with a version: its value, or `NotFound` for a deletion. -/
def answer (v : Version Slice Slice) : Except Status Slice :=
  match v.val with
  | some value => .ok value
  | none => .error (.notFound "")

/-- A lookup looks at the first entry that is not before the sought key. -/
theorem get_of_seek {k : Slice} {s : UInt64} {rest : List Slice} (hv : VersionFits v)
    (hseek : Ordered.seek keyCompare (memtableKey k s) m.table = entryOf v :: rest) :
    m.get k s = if v.key = k then some (answer v) else none := by
  have hkey : (entrySlice (entryOf v)).1 = v.key ++ encodeFixed64 (tagOf v) := by
    rw [entrySlice_entryOf hv]
  have huser : List.take ((entrySlice (entryOf v)).1.length - 8) (entrySlice (entryOf v)).1 = v.key := by
    rw [hkey]
    exact extractUserKey_append v.key (length_encodeFixed64 _)
  have hnum : decodeFixed64 (List.drop ((entrySlice (entryOf v)).1.length - 8)
      (entrySlice (entryOf v)).1) = tagOf v := by
    rw [hkey]
    exact extractNum_append v.key (tagOf v)
  unfold MemTable.get
  rw [hseek]
  simp only [huser, hnum, Std.LawfulEqCmp.compare_eq_iff_eq, toUInt8_tagOf hv.2.2, value_entryOf hv]
  by_cases hvk : v.key = k
  · rw [if_pos hvk, if_pos hvk]
    unfold typeOf
    cases hval : v.val with
    | none => simp [answer, hval, kTypeValue, kTypeDeletion]
    | some value => simp [answer, hval]
  · rw [if_neg hvk, if_neg hvk]

section Seek

variable (h : Represents m l) {k : Slice} (hk : k.length + 8 < 2 ^ 32) {s : UInt64} (hs : s ≤ kMaxSequenceNumber)
include h hk hs

/-- No entry at or after the sought key: the snapshot sees no version of it. -/
theorem Represents.newest_of_seek_nil (hseek : Ordered.seek keyCompare (memtableKey k s) m.table = []) :
    newest l k s.toNat = none := by
  have hall := (Ordered.seek_eq_nil h.ascending).mp hseek
  rw [newest_eq_none]
  intro v hv hvk
  have hlt := hall _ ((h.mem_iff _).mpr ⟨v, hv, rfl⟩)
  rcases (keyCompare_memtableKey (h.fits v hv) hk hs).mp hlt with hc | ⟨-, hc⟩
  · rw [hvk, compare_self] at hc
    cases hc
  · exact hc

/-- The first entry at or after the sought key is of the newest version that the snapshot may see, or of
another key. -/
theorem Represents.newest_of_seek (hd : Distinct l) {rest : List Slice} (hv : v ∈ l)
    (hseek : Ordered.seek keyCompare (memtableKey k s) m.table = entryOf v :: rest) :
    newest l k s.toNat = if v.key = k then some v else none := by
  obtain ⟨-, hge, hmin⟩ := Ordered.seek_eq_cons h.ascending hseek
  have hfv := h.fits v hv
  rw [ne_eq, keyCompare_memtableKey hfv hk hs, not_or, not_and, not_lt] at hge
  -- an entry of `k` that the snapshot may see lies at or after the one that was found
  have hafter (w : Version Slice Slice) (hw : w ∈ l) (hwk : w.key = k) (hws : w.seq ≤ s.toNat) :
      v.key = k ∧ w.seq ≤ v.seq := by
    have hwge : keyCompare (entryOf w) (memtableKey k s) ≠ .lt := by
      rw [ne_eq, keyCompare_memtableKey (h.fits w hw) hk hs, not_or, not_and, not_lt]
      refine ⟨?_, fun _ => hws⟩
      rw [hwk, compare_self]
      simp
    rcases hmin _ ((h.mem_iff _).mpr ⟨w, hw, rfl⟩) hwge with heq | hlt
    · have hc : keyCompare (entryOf w) (entryOf v) = .eq := by
        rw [heq]
        exact Std.ReflCmp.compare_self
      obtain ⟨h1, h2⟩ := keyCompare_entryOf_eq (h.fits w hw) hfv hc
      exact ⟨h1.symm.trans hwk, h2.le⟩
    · rcases (keyCompare_entryOf hfv (h.fits w hw)).mp hlt with hc | ⟨h1, h2⟩
      · rw [hwk] at hc
        exact absurd hc hge.1
      · rw [toNat_tagOf hfv.2.2, toNat_tagOf (h.fits w hw).2.2] at h2
        have h3 := typeOf_le v
        exact ⟨h1.trans hwk, by omega⟩
  split
  next hvk =>
    rw [newest_eq_some hd]
    exact ⟨hv, hvk, hge.2 hvk, fun w hw hwk hws => (hafter w hw hwk hws).2⟩
  next hvk =>
    rw [newest_eq_none]
    intro w hw hwk
    by_contra hws
    exact hvk (hafter w hw hwk (not_lt.mp hws)).1

/-- **A lookup finds the newest version that the snapshot may see**, and says so when the table has
none. -/
theorem Represents.get (hd : Distinct l) : m.get k s = (newest l k s.toNat).map answer := by
  cases hseek : Ordered.seek keyCompare (memtableKey k s) m.table with
  | nil =>
    unfold MemTable.get
    rw [hseek, h.newest_of_seek_nil hk hs hseek]
    rfl
  | cons e rest =>
    obtain ⟨he, -, -⟩ := Ordered.seek_eq_cons h.ascending hseek
    obtain ⟨v, hv, rfl⟩ := (h.mem_iff e).mp he
    rw [get_of_seek (h.fits v hv) hseek, h.newest_of_seek hk hs hd hv hseek]
    split <;> rfl

end Seek

/-! ## Batches -/

/-- The sizes of an operation leave room for the eight bytes of the internal key. -/
def OpSmall (op : Op) : Prop := op.key.length + 8 < 2 ^ 32 ∧ WriteBatch.OpFits op

instance : DecidablePred OpSmall := fun _ => inferInstanceAs (Decidable (_ ∧ _))

theorem versionFits_ofOp {op : Op} (h : OpSmall op) {s : ℕ} (hs : s < 2 ^ 56) : VersionFits (ofOp s op) := by
  refine ⟨by rw [ofOp_key]; exact h.1, ?_, by rw [ofOp_seq]; exact hs⟩
  intro value hv
  cases op with
  | put key x =>
    obtain rfl := Option.some.inj hv
    exact h.2.2
  | delete key => cases hv

theorem handle_eq (m : MemTable) {s : ℕ} (op : Op) :
    handle (m, UInt64.ofNat s) op =
      (m.add (UInt64.ofNat (ofOp s op).seq) (typeOf (ofOp s op)) (ofOp s op).key ((ofOp s op).val.getD []),
        UInt64.ofNat (s + 1)) := by
  have hs : UInt64.ofNat s + 1 = UInt64.ofNat (s + 1) := (UInt64.ofNat_add s 1).symm
  cases op with
  | put key value => rw [← hs]; rfl
  | delete key => rw [← hs]; rfl

/-- The handler numbers the operations one by one. -/
theorem Represents.foldl_handle : ∀ {ops : List Op} {m : MemTable} {l : List (Version Slice Slice)} {s : ℕ},
    Represents m l → (∀ op ∈ ops, OpSmall op) → (∀ v ∈ l, v.seq < s) → s + ops.length ≤ 2 ^ 56 →
    Represents (ops.foldl handle (m, UInt64.ofNat s)).1 (l ++ number s ops)
  | [], _, l, _, h, _, _, _ => by
    rw [number, List.append_nil]
    exact h
  | op :: ops, m, l, s, h, hsmall, hlt, hmax => by
    rw [List.length_cons] at hmax
    rw [List.foldl_cons, handle_eq, number, List.append_cons]
    have hadd : Represents _ (l ++ [ofOp s op]) :=
      h.add (versionFits_ofOp (hsmall op List.mem_cons_self) (by omega)) (by
        intro w hw hws
        have := hlt w hw
        rw [ofOp_seq] at hws
        omega)
    refine Represents.foldl_handle hadd (fun o ho => hsmall o (List.mem_cons_of_mem _ ho)) ?_ (by omega)
    intro v hv
    rcases List.mem_append.mp hv with hv | hv
    · exact (hlt v hv).trans (Nat.lt_succ_self s)
    · rw [List.mem_singleton.mp hv, ofOp_seq]
      exact Nat.lt_succ_self s

theorem Represents.insertInto {b : WriteBatch} {seq : UInt64} {ops : List Op} (h : Represents m l)
    (hb : b.Holds seq ops) (hsmall : ∀ op ∈ ops, OpSmall op)
    (hasc : Versions.Ascending (l ++ number seq.toNat ops)) (hmax : seq.toNat + ops.length ≤ 2 ^ 56) :
    (insertInto b m).2 = .ok ∧ Represents (insertInto b m).1 (l ++ number seq.toNat ops) := by
  have hit : b.iterate = (ops, .ok) := hb.iterate fun op hop => (hsmall op hop).2
  unfold MemTable.insertInto
  rw [hit, hb.sequence_eq]
  refine ⟨rfl, ?_⟩
  cases ops with
  | nil =>
    rw [number, List.append_nil]
    exact h
  | cons op ops =>
    have hlt : ∀ v ∈ l, v.seq < seq.toNat := by
      intro v hv
      have := (List.pairwise_append.mp hasc).2.2 v hv (ofOp seq.toNat op) List.mem_cons_self
      rwa [ofOp_seq] at this
    have hfold := h.foldl_handle hsmall hlt hmax
    rwa [UInt64.ofNat_toNat] at hfold

end MemTable

end Leveldb
