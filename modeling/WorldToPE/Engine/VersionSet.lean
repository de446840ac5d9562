import Mathlib.Data.List.ReduceOption
import WorldToPE.Engine.DbScan
import WorldToPE.Engine.Table

/-!
# WorldToPE.Engine.VersionSet — the tables as files

What `Engine.DbImpl` takes for tables are files: `BuildTable` of `db/builder.cc` writes the entries of a table
in memory into one, `TableCache::Get` looks a key up in it, and `Version::Get` of `db/version_set.cc` asks the
files of level 0 from the newest to the oldest, each only where its range of keys has the key.

`get_of_files`: in every state that a run reaches, the tables can be made files, and the files answer as the tables.
-/

namespace Leveldb

open Cursor Versions

/-- `SanitizeOptions` over the bytewise comparator. -/
def sanitizeOptions (src : Options) : Options :=
  { src with
    comparator := internalKeyComparator bytewiseComparator
    filter_policy := src.filter_policy.map internalFilterPolicy
    block_size := max (1 <<< 10) (min (4 <<< 20) src.block_size) }

/-- `LookupKey::internal_key`. -/
def internalKey (user_key : Slice) (s : UInt64) : Slice :=
  user_key ++ encodeFixed64 (packSequenceAndType s kValueTypeForSeek)

/-- A table file, with the first and the last internal key in it. -/
structure FileMetaData where
  file : Slice
  smallest : Slice
  largest : Slice

inductive SaverState
  | kNotFound
  | kFound (value : Slice)
  | kDeleted
  | kCorrupt

def saveValue (user_key : Slice) (e : Entry) : SaverState :=
  match parseInternalKey e.1 with
  | none => .kCorrupt
  | some parsed_key =>
    if bytewiseComparator.compare parsed_key.user_key user_key = .eq then
      if parsed_key.type = kTypeValue then .kFound e.2 else .kDeleted
    else .kNotFound

/-- What `Version::Get` returns for the state of the saver; `none` where it keeps searching in other files. -/
def SaverState.result (user_key : Slice) : SaverState → Option (Except Status Slice)
  | .kNotFound => none
  | .kFound value => some (.ok value)
  | .kDeleted => some (.error (.notFound ""))
  | .kCorrupt => some (.error (.corruption
      ("corrupted key for : " ++ String.ofList (user_key.map fun b => Char.ofNat b.toNat))))

section Files

variable (options : Options) (snappy : Snappy) (paranoid_checks verify_checksums : Bool)

/-- `BuildTable` over the iterator of a table in memory: no file where it has no entries. -/
def buildTable (m : MemTable) : Except Status (Option FileMetaData) :=
  match m.entries.head?, m.entries.getLast? with
  | some first, some last =>
    let file := TableBuilder.build options snappy m.entries
    -- Verify that the table is usable
    match Table.openFile snappy paranoid_checks options file with
    | .error s => .error s
    | .ok t =>
      if t.index_block.newIterator.status = .ok then .ok (some ⟨file, first.1, last.1⟩)
      else .error t.index_block.newIterator.status
  | _, _ => .ok none

/-- `TableCache::Get` with `SaveValue`. -/
def FileMetaData.get (f : FileMetaData) (user_key : Slice) (s : UInt64) : Except Status SaverState :=
  match Table.openFile snappy paranoid_checks options f.file with
  | .error status => .error status
  | .ok t =>
    let found := t.internalGet snappy verify_checksums (internalKey user_key s)
    if found.2 = .ok then .ok ((found.1.map (saveValue user_key)).getD .kNotFound) else .error found.2

/-- Whether the file may have the key. -/
def FileMetaData.overlaps (f : FileMetaData) (user_key : Slice) : Bool :=
  bytewiseComparator.compare user_key (extractUserKey f.smallest) ≠ .lt ∧
    bytewiseComparator.compare user_key (extractUserKey f.largest) ≠ .gt

/-- `Version::Get` over the files of level 0, the newest first. -/
def versionGet (user_key : Slice) (s : UInt64) : List FileMetaData → Except Status Slice
  | [] => .error (.notFound "")  -- Use an empty error message for speed
  | f :: files =>
    if f.overlaps user_key then
      match f.get options snappy paranoid_checks verify_checksums user_key s with
      | .error status => .error status
      | .ok state => (state.result user_key).getD (versionGet user_key s files)
    else versionGet user_key s files

/-- `DBImpl::Get` with the tables as files. -/
def DbImpl.getFrom (files : List FileMetaData) (db : DbImpl) (user_key : Slice) (s : UInt64) : Except Status Slice :=
  ((db.mem.get user_key s).or (db.imm.bind fun imm => imm.get user_key s)).getD
    (versionGet options snappy paranoid_checks verify_checksums user_key s files)

end Files

/-! ## What the saver sees -/

section Saver

variable {m : MemTable} {l : DbImpl.History} {v : Version Slice Slice} {k : Slice} {s : UInt64} {e : Entry}

theorem extractUserKey_internalKey (k : Slice) (s : UInt64) : extractUserKey (internalKey k s) = k :=
  extractUserKey_append k (length_encodeFixed64 _)

/-- The table in memory and its entries are sought alike. -/
theorem getElem?_cut_entries (m : MemTable) (s : UInt64) (hk : k.length + 8 < 2 ^ 32) :
    m.entries[cut (fun e => entryLt (internalKeyComparator bytewiseComparator) e (internalKey k s)) m.entries]? =
      (Ordered.seek keyCompare (memtableKey k s) m.table).head?.map
        fun e => ((entrySlice e).1, (entrySlice (entrySlice e).2).1) := by
  have hkey : (entrySlice (memtableKey k s)).1 = internalKey k s := MemTable.entrySlice_memtableKey s hk
  rw [← List.head?_drop, drop_cut, ← hkey]
  unfold MemTable.entries
  rw [List.dropWhile_map, List.head?_map]
  rfl

theorem saveValue_internalEntry (hv : v.seq < 2 ^ 56) :
    (saveValue k (DBIter.internalEntry v)).result k = if v.key = k then some (MemTable.answer v) else none := by
  unfold saveValue
  rw [DBIter.parse_internalEntry hv]
  simp only [Std.LawfulEqCmp.compare_eq_iff_eq]
  by_cases hvk : v.key = k
  · rw [if_pos hvk, if_pos hvk]
    unfold MemTable.typeOf DBIter.internalEntry
    cases hval : v.val with
    | none => simp [MemTable.answer, SaverState.result, hval, kTypeValue, kTypeDeletion]
    | some value => simp [MemTable.answer, SaverState.result, hval]
  · rw [if_neg hvk, if_neg hvk]
    rfl

/-- A table in memory answers with its first entry that is not before the sought key. -/
theorem get_eq_saveValue (hm : m.Represents l) (hk : k.length + 8 < 2 ^ 32) :
    m.get k s = (m.entries[cut (fun e => entryLt (internalKeyComparator bytewiseComparator) e
      (internalKey k s)) m.entries]?).bind fun e => (saveValue k e).result k := by
  rw [getElem?_cut_entries m s hk]
  cases hseek : Ordered.seek keyCompare (memtableKey k s) m.table with
  | nil =>
    unfold MemTable.get
    rw [hseek]
    rfl
  | cons b rest =>
    obtain ⟨v, hv, rfl⟩ := (hm.mem_iff b).mp (Ordered.seek_eq_cons hm.ascending hseek).1
    have hfits := hm.fits v hv
    have hentry : ((entrySlice (MemTable.entryOf v)).1,
        (entrySlice (entrySlice (MemTable.entryOf v)).2).1) = DBIter.internalEntry v := by
      rw [MemTable.value_entryOf hfits, MemTable.entrySlice_entryOf hfits]
      rfl
    rw [MemTable.get_of_seek hfits hseek, List.head?_cons, Option.map_some, Option.bind_some, hentry,
      saveValue_internalEntry hfits.2.2]

theorem saveValue_of_ne (hm : m.Represents l) (he : e ∈ m.entries) (hne : extractUserKey e.1 ≠ k) :
    (saveValue k e).result k = none := by
  obtain ⟨v, hv, rfl⟩ := List.mem_map.mp ((DbImpl.mem_entries_iff hm e).mp he)
  rw [saveValue_internalEntry (hm.fits v hv).2.2, if_neg]
  rintro rfl
  exact hne (extractUserKey_append v.key (length_encodeFixed64 _))

/-- Internal keys in order have their user keys in order. -/
theorem isLE_extractUserKey {user : Comparator} {a b : Slice} (h : (internalCompare user a b).isLE) :
    (user.compare (extractUserKey a) (extractUserKey b)).isLE := by
  unfold internalCompare at h
  cases hc : user.compare (extractUserKey a) (extractUserKey b) with
  | lt => rfl
  | eq => rfl
  | gt =>
    rw [hc] at h
    cases h

/-- A separator of a key and one with the sought user key does not get past the sought key. -/
theorem separator_lt_internalKey {last limit : Slice} (hlimit : extractUserKey limit = k)
    (hlt : internalCompare bytewiseComparator last (internalKey k s) = .lt) :
    internalCompare bytewiseComparator (internalSeparator bytewiseComparator last limit) (internalKey k s) = .lt := by
  unfold internalSeparator
  simp only [hlimit]
  split_ifs with hc
  · have huser : bytewiseComparator.compare (extractUserKey last) k = .lt := by
      by_contra hne
      rw [separates_bytewise.unchanged trivial trivial hne] at hc
      exact lt_irrefl _ hc.1
    apply internalCompare_of_lt
    rw [extractUserKey_append _ (length_encodeFixed64 _), extractUserKey_internalKey]
    exact (separates_bytewise.separator trivial trivial huser).2.2.2
  · exact hlt

end Saver

/-! ## The files of the tables -/

section Built

variable {src : Options} {snappy : Snappy} {paranoid verify : Bool} {m : MemTable} {l : DbImpl.History}
  {k : Slice} {s : UInt64} {e : Entry}

instance : Std.TransCmp (sanitizeOptions src).comparator.compare :=
  inferInstanceAs (Std.TransCmp (internalCompare bytewiseComparator))

theorem separates_sanitized : Separates (sanitizeOptions src).comparator fun k => 8 ≤ k.length :=
  separates_internal separates_bytewise

theorem le_length_key (hm : m.Represents l) (he : e ∈ m.entries) : 8 ≤ e.1.length := by
  obtain ⟨v, -, rfl⟩ := List.mem_map.mp ((DbImpl.mem_entries_iff hm e).mp he)
  rw [DBIter.internalEntry, List.length_append, length_encodeFixed64]
  exact Nat.le_add_left _ _

/-- The filters do not deny an entry with the sought user key. -/
theorem keyMayMatch_sanitized (hsound : ∀ p, src.filter_policy = some p → p.Sound) {policy : FilterPolicy}
    (hpolicy : (sanitizeOptions src).filter_policy = some policy) (hek : extractUserKey e.1 = k)
    {keys : List Slice} (hkeys : e.1 ∈ keys) :
    policy.keyMayMatch (internalKey k s) (policy.createFilter keys) = true := by
  obtain ⟨p, hp, rfl⟩ := Option.map_eq_some_iff.mp hpolicy
  show p.keyMayMatch (extractUserKey (internalKey k s)) _ = true
  rw [extractUserKey_internalKey, ← hek]
  exact (hsound p hp).internal keys e.1 hkeys

/-- A table that was built from a table in memory hands the saver what that table answers with. -/
theorem internalGet_built (hsnappy : snappy.Lossless) (hsound : ∀ p, src.filter_policy = some p → p.Sound)
    (hm : m.Represents l) {bs : List (List Entry)} (hflat : bs.flatten = m.entries)
    (h : Table.Admits (sanitizeOptions src).comparator (fun k => 8 ≤ k.length) bs)
    (hsmall : Table.Small (sanitizeOptions src) snappy bs) (hk : k.length + 8 < 2 ^ 32) :
    ∃ found, (Table.built (sanitizeOptions src) snappy bs).internalGet snappy verify (internalKey k s) = (found, .ok) ∧
      ((found.map (saveValue k)).getD .kNotFound).result k = m.get k s := by
  obtain ⟨hstatus, hfound⟩ := @Table.internalGet_sound snappy (sanitizeOptions src) bs verify _ _ hsnappy
    separates_sanitized h hsmall (internalKey k s)
  generalize hfile : (Table.built (sanitizeOptions src) snappy bs).internalGet snappy verify (internalKey k s) = r
    at hstatus hfound
  obtain ⟨found, status⟩ := r
  obtain rfl : status = .ok := hstatus
  refine ⟨found, rfl, ?_⟩
  rw [hflat] at hfound
  rw [get_eq_saveValue hm hk]
  -- the answer is that of the first entry from the sought key on, where the file hands it out
  cases hfirst : m.entries[cut (fun e => entryLt (internalKeyComparator bytewiseComparator) e
    (internalKey k s)) m.entries]? with
  | none =>
    cases found with
    | none => rfl
    | some e => exact absurd (hfirst.symm.trans (hfound e rfl)) (by simp)
  | some e =>
    have he := List.mem_of_getElem? hfirst
    by_cases hek : extractUserKey e.1 = k
    · have hcomplete := @Table.internalGet_complete snappy (sanitizeOptions src) bs verify _ _ hsnappy
        separates_sanitized h hsmall (internalKey k s) e (by rw [hflat]; exact hfirst)
        (fun last _ hlt _ => separator_lt_internalKey hek hlt)
        (fun policy hpolicy keys hkeys => keyMayMatch_sanitized hsound hpolicy hek hkeys)
      rw [hfile] at hcomplete
      obtain rfl := congrArg Prod.fst hcomplete
      rfl
    · rw [Option.bind_some, saveValue_of_ne hm he hek]
      cases found with
      | none => rfl
      | some e' =>
        obtain rfl := Option.some.inj (hfirst.symm.trans (hfound e' rfl))
        exact saveValue_of_ne hm he hek

/-- Outside the range of its keys a table has no answer. -/
theorem get_eq_none_of_overlaps (hm : m.Represents l) (hk : k.length + 8 < 2 ^ 32) {f : FileMetaData}
    (hsmallest : f.smallest = TableBuilder.firstKey m.entries) (hlargest : f.largest = TableBuilder.lastKey m.entries)
    (hf : f.overlaps k = false) : m.get k s = none := by
  rw [get_eq_saveValue hm hk]
  cases hfirst : m.entries[cut (fun e => entryLt (internalKeyComparator bytewiseComparator) e
    (internalKey k s)) m.entries]? with
  | none => rfl
  | some e =>
    have he := List.mem_of_getElem? hfirst
    refine saveValue_of_ne hm he fun hek => ?_
    have hlow := isLE_extractUserKey (Table.firstKey_le (DbImpl.sorted_entries hm) he)
    have hhigh := isLE_extractUserKey (Table.le_lastKey (DbImpl.sorted_entries hm) he)
    rw [hek, ← hsmallest] at hlow
    rw [hek, ← hlargest] at hhigh
    refine absurd ?_ (of_decide_eq_false hf)
    refine ⟨fun hlt => ?_, fun hgt => ?_⟩
    · rw [Std.OrientedCmp.gt_of_lt hlt] at hlow
      cases hlow
    · rw [hgt] at hhigh
      cases hhigh

/-- A file answers as the table it was made of; where there is none, the table has no answers. -/
def Answers (options : Options) (snappy : Snappy) (paranoid verify : Bool) (m : MemTable) :
    Option FileMetaData → Prop
  | none => ∀ k s, k.length + 8 < 2 ^ 32 → m.get k s = none
  | some f => ∀ k s, k.length + 8 < 2 ^ 32 → (f.overlaps k = false → m.get k s = none) ∧
      ∃ state, f.get options snappy paranoid verify k s = .ok state ∧ state.result k = m.get k s

/-- **A table that is flushed answers as it did in memory.** -/
theorem exists_buildTable (hsnappy : snappy.Lossless) (hsound : ∀ p, src.filter_policy = some p → p.Sound)
    (hm : m.Represents l) (hb : Table.Bounded (sanitizeOptions src) snappy m.entries) (paranoid verify : Bool) :
    ∃ f, buildTable (sanitizeOptions src) snappy paranoid m = .ok f ∧
      Answers (sanitizeOptions src) snappy paranoid verify m f := by
  obtain ⟨bs, hflat, h, hsmall, hopen⟩ := Table.exists_built hsnappy separates_sanitized (DbImpl.sorted_entries hm)
    (fun e he => le_length_key hm he) hb paranoid
  have hindex : (Table.built (sanitizeOptions src) snappy bs).index_block.newIterator.status = .ok :=
    Table.status_of_ok (Table.at_index separates_sanitized h hsmall).ok
  unfold buildTable
  simp only [hopen, if_pos hindex]
  cases hentries : m.entries with
  | nil =>
    refine ⟨none, rfl, fun k s hk => ?_⟩
    rw [get_eq_saveValue hm hk, hentries]
    rfl
  | cons first rest =>
    obtain ⟨last, hlast⟩ : ∃ last, (first :: rest).getLast? = some last := ⟨_, List.getLast?_cons⟩
    rw [List.head?_cons, hlast]
    refine ⟨some _, rfl, fun k s hk => ⟨fun hf => get_eq_none_of_overlaps hm hk ?_ ?_ hf, ?_⟩⟩
    · rw [hentries]
      rfl
    · rw [hentries, TableBuilder.lastKey, hlast]
      rfl
    · obtain ⟨found, hget, hresult⟩ := @internalGet_built src snappy verify m l k s hsnappy hsound hm bs hflat h hsmall hk
      refine ⟨_, ?_, hresult⟩
      unfold FileMetaData.get
      rw [← hentries, hopen]
      simp only [hget, if_pos]

/-- `Version::Get` over the files answers as the lookup in the tables. -/
theorem versionGet_eq {options : Options} {tables : List MemTable} {files : List (Option FileMetaData)}
    (h : List.Forall₂ (Answers options snappy paranoid verify) tables files) (hk : k.length + 8 < 2 ^ 32) :
    versionGet options snappy paranoid verify k s files.reduceOption =
      (DbImpl.lookup k s tables).getD (.error (.notFound "")) := by
  induction h with
  | nil => rfl
  | @cons m f tables files hf _ ih =>
    rw [DbImpl.lookup]
    cases f with
    | none =>
      rw [hf k s hk, Option.none_or, ← ih]
      rfl
    | some f =>
      obtain ⟨hmiss, state, hget, hresult⟩ := hf k s hk
      rw [List.reduceOption_cons_of_some, versionGet]
      cases hover : f.overlaps k with
      | false =>
        rw [hmiss hover, Option.none_or, if_neg Bool.false_ne_true, ih]
      | true =>
        rw [if_pos rfl, hget]
        simp only [hresult, ih]
        cases m.get k s with
        | none => rfl
        | some answer => rfl

/-- Every table can be made a file. -/
theorem exists_files (hsnappy : snappy.Lossless) (hsound : ∀ p, src.filter_policy = some p → p.Sound)
    {tables : List MemTable} {ls : List DbImpl.History} (h : List.Forall₂ MemTable.Represents tables ls)
    (hb : ∀ m ∈ tables, Table.Bounded (sanitizeOptions src) snappy m.entries) : ∃ files : List (Option FileMetaData),
      List.Forall₂ (fun m f => buildTable (sanitizeOptions src) snappy paranoid m = .ok f) tables files ∧
      List.Forall₂ (Answers (sanitizeOptions src) snappy paranoid verify) tables files := by
  induction h with
  | nil => exact ⟨[], List.Forall₂.nil, List.Forall₂.nil⟩
  | cons hm _ ih =>
    obtain ⟨f, hf, hanswers⟩ := exists_buildTable hsnappy hsound hm (hb _ List.mem_cons_self) paranoid verify
    obtain ⟨files, hfiles, hall⟩ := ih fun m hm => hb m (List.mem_cons_of_mem _ hm)
    exact ⟨f :: files, List.Forall₂.cons hf hfiles, List.Forall₂.cons hanswers hall⟩

/-- **The files answer as the tables**: in every state that a run reaches, each table can be made a file, whatever the
sizes of blocks, the compression and the filter are, and with these files every lookup finds the same. -/
theorem get_of_files (hsnappy : snappy.Lossless) (hsound : ∀ p, src.filter_policy = some p → p.Sound)
    {es : List DbImpl.Event} {db : DbImpl} (hvalid : ∀ e ∈ es, e.Valid)
    (hcount : (es.map DbImpl.Event.ops).sum < 2 ^ 56) (hrun : DbImpl.new.run es = some db)
    (hb : ∀ m ∈ db.tables, Table.Bounded (sanitizeOptions src) snappy m.entries) (paranoid verify : Bool) :
    ∃ files : List (Option FileMetaData),
      List.Forall₂ (fun m f => buildTable (sanitizeOptions src) snappy paranoid m = .ok f) db.tables files ∧
      ∀ k s, k.length + 8 < 2 ^ 32 →
        db.getFrom (sanitizeOptions src) snappy paranoid verify files.reduceOption k s = db.get k s := by
  have hnew : DbImpl.Matches ((es.map DbImpl.Event.ops).sum + 0) DbImpl.new Abs.new := DbImpl.matches_new hcount
  obtain ⟨a, -, h⟩ := hnew.run hvalid hrun
  obtain ⟨ls, hls, -⟩ := h.tables
  obtain ⟨files, hfiles, hall⟩ := exists_files hsnappy hsound hls hb
  refine ⟨files, hfiles, fun k s hk => ?_⟩
  have htables := versionGet_eq (s := s) hall hk
  unfold DbImpl.getFrom DbImpl.get
  rw [htables, List.cons_append, DbImpl.lookup]
  cases db.mem.get k s with
  | some answer => rfl
  | none =>
    cases db.imm with
    | none => rfl
    | some imm =>
      rw [Option.none_or, Option.none_or, Option.bind_some, Option.toList_some, List.singleton_append, DbImpl.lookup]
      cases imm.get k s with
      | none => rfl
      | some answer => rfl

/-- The iterator of a table that is flushed goes over its entries. -/
theorem at_buildTable (hsnappy : snappy.Lossless) (hm : m.Represents l)
    (hb : Table.Bounded (sanitizeOptions src) snappy m.entries) {f : FileMetaData}
    (hf : buildTable (sanitizeOptions src) snappy paranoid m = .ok (some f)) {fuel : ℕ}
    (hfuel : m.entries.length + 1 < fuel) :
    ∃ t, Table.openFile snappy paranoid (sanitizeOptions src) f.file = .ok t ∧
      At (entryLt (internalKeyComparator bytewiseComparator)) m.entries (t.iterator snappy verify fuel)
        (some t.newIterator) m.entries.length := by
  obtain ⟨bs, hflat, h, hsmall, hopen⟩ := Table.exists_built hsnappy separates_sanitized (DbImpl.sorted_entries hm)
    (fun e he => le_length_key hm he) hb paranoid
  have hfile : f.file = TableBuilder.build (sanitizeOptions src) snappy m.entries := by
    unfold buildTable at hf
    simp only [hopen] at hf
    split at hf
    · split_ifs at hf
      obtain rfl := Option.some.inj (Except.ok.inj hf)
      rfl
    · cases hf
  have hle := Table.length_le_length_flatten h.nonempty
  rw [hfile]
  refine ⟨_, hopen, ?_⟩
  rw [← hflat] at hfuel ⊢
  exact Table.iterator_at hsnappy separates_sanitized h hsmall (by omega)

end Built

end Leveldb
