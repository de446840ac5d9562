import WorldToPE.Engine.TableBuilder
import WorldToPE.Engine.TwoLevel

/-!
# WorldToPE.Engine.Table — reading a table

`table/table.cc`: the footer leads to the index, and its entries to the blocks.  `newIterator_built` and
`get_built` say that a table that was built has exactly its entries, in their order, whatever the sizes
of blocks, the compression and the filter are.
-/

namespace Leveldb

open Cursor

/-- A `Table`; its filter keeps the policy. -/
structure Table where
  options : Options
  file : Slice
  metaindex_handle : BlockHandle
  index_block : Block
  filter : Option (FilterPolicy × FilterBlockReader)

def BlockIterator.status : BlockIterator → Status
  | .empty status => status
  | .iter it => it.status

namespace Table

variable (snappy : Snappy)

def readFilter (verify_checksums : Bool) (policy : FilterPolicy) (file filter_handle_value : Slice) :
    Option (FilterPolicy × FilterBlockReader) :=
  match BlockHandle.decodeFrom filter_handle_value with
  | .error _ => none
  | .ok (filter_handle, _) =>
    match readBlock snappy verify_checksums file filter_handle with
    | .error _ => none
    | .ok block => some (policy, FilterBlockReader.new block)

/-- Errors are not propagated since meta info is not needed for operation. -/
def readMeta (verify_checksums : Bool) (options : Options) (file : Slice) (footer : Footer) :
    Option (FilterPolicy × FilterBlockReader) :=
  match options.filter_policy with
  | none => none  -- Do not need any metadata
  | some policy =>
    match readBlock snappy verify_checksums file footer.metaindex_handle with
    | .error _ => none
    | .ok contents =>
      let it := Block.iterator bytewiseComparator
      let key := TableBuilder.filterKey policy
      match it.current (it.move (Block.new contents).newIterator (.seek key)) with
      | some e => if e.1 = key then readFilter snappy verify_checksums policy file e.2 else none
      | none => none

/-- `Table::Open`. -/
def openFile (paranoid_checks : Bool) (options : Options) (file : Slice) : Except Status Table :=
  if file.length < Footer.kEncodedLength then .error (.corruption "file is too short to be an sstable")
  else do
    let footer ← Footer.decodeFrom (file.drop (file.length - Footer.kEncodedLength))
    let contents ← readBlock snappy paranoid_checks file footer.index_handle
    return {
      options := options
      file := file
      metaindex_handle := footer.metaindex_handle
      index_block := Block.new contents
      filter := readMeta snappy paranoid_checks options file footer }

/-- Convert an index iterator value (i.e., an encoded BlockHandle) into an iterator over the contents
of the corresponding block. -/
def blockReader (verify_checksums : Bool) (t : Table) (index_value : Slice) : BlockIterator :=
  match BlockHandle.decodeFrom index_value with
  | .error s => .empty s
  | .ok (handle, _) =>
    match readBlock snappy verify_checksums t.file handle with
    | .error s => .empty s
    | .ok contents => (Block.new contents).newIterator

def newIterator (t : Table) : TwoLevel BlockIterator BlockIterator := TwoLevel.new t.index_block.newIterator

/-- The iterators that `NewIterator` makes. -/
def iterator (verify_checksums : Bool) (t : Table) (fuel : ℕ) :
    Iter (Option (TwoLevel BlockIterator BlockIterator)) Entry Slice :=
  TwoLevel.iterator (Block.iterator t.options.comparator) (Block.iterator t.options.comparator)
    (t.blockReader snappy verify_checksums) fuel

/-- Whether the filter says that the key is not in the block. -/
def filtered (t : Table) (handle_value k : Slice) : Bool :=
  match t.filter, BlockHandle.decodeFrom handle_value with
  | some (policy, filter), .ok (handle, _) => ¬ filter.keyMayMatch policy handle.offset.toNat k
  | _, _ => false

/-- What `InternalGet` hands to the saver, and the status. -/
def internalGet (verify_checksums : Bool) (t : Table) (k : Slice) : Option Entry × Status :=
  let it := Block.iterator t.options.comparator
  let iiter := it.move t.index_block.newIterator (.seek k)
  match it.current iiter with
  | none => (none, iiter.status)
  | some e =>
    if t.filtered e.2 k then (none, iiter.status)  -- Not found
    else
      let block_iter := it.move (t.blockReader snappy verify_checksums e.2) (.seek k)
      (it.current block_iter, if block_iter.status = .ok then iiter.status else block_iter.status)

/-! ## The blocks of a table that was built -/

open TableBuilder

variable {snappy} {options : Options} {bs : List (List Entry)} {i : ℕ} {verify : Bool}

/-- The blocks of the table are small enough for their offsets, and so is the file. -/
structure Small (options : Options) (snappy : Snappy) (bs : List (List Entry)) : Prop where
  data : ∀ blk ∈ bs, Fits (rawBlock options blk)
  metaindex : Fits (metaRaw options snappy bs)
  index : Fits (indexRaw options snappy bs)
  file : Fits (tableBytes options snappy bs)

theorem expand_blockContents (hsnappy : snappy.Lossless) (raw : Slice) :
    (blockContents options snappy raw).2.expand snappy (blockContents options snappy raw).1 = some raw := by
  unfold blockContents
  cases options.compression with
  | kNoCompression => rfl
  | kSnappyCompression =>
    simp only
    split_ifs
    · exact hsnappy raw
    · rfl

theorem toNat_ofNat_of_le {m n : ℕ} (h : m ≤ n) (hn : n < 2 ^ 32) : (UInt64.ofNat m).toNat = m :=
  UInt64.toNat_ofNat_of_lt' (show m < 2 ^ 64 by omega)

theorem readBlock_after (hsnappy : snappy.Lossless) {file front raw : Slice} (rest : Slice) (hfits : Fits file)
    (hfile : file = front ++ (storedBlock options snappy raw ++ rest)) :
    readBlock snappy verify file (handleAfter options snappy front raw) = .ok raw := by
  have hlt : file.length < 2 ^ 32 := hfits
  have hlen := congrArg List.length hfile
  rw [storedBlock, List.length_append, List.length_append, List.length_append] at hlen
  refine readBlock_stored hfile ?_ ?_ (expand_blockContents hsnappy raw)
  · exact toNat_ofNat_of_le (show front.length ≤ file.length by omega) hlt
  · exact toNat_ofNat_of_le (show (blockContents options snappy raw).1.length ≤ file.length by omega) hlt

theorem handleAt_eq (options : Options) (snappy : Snappy) (bs : List (List Entry)) (i : ℕ) :
    handleAt options snappy bs i =
      handleAfter options snappy (dataBytes options snappy (bs.take i)) (rawBlock options (bs[i]?.getD [])) := rfl

theorem readBlock_data (hsnappy : snappy.Lossless) (h : Small options snappy bs) {blk : List Entry}
    (hblk : bs[i]? = some blk) :
    readBlock snappy verify (tableBytes options snappy bs) (handleAt options snappy bs i) =
      .ok (rawBlock options blk) := by
  have hsplit : dataBytes options snappy bs = dataBytes options snappy (bs.take i) ++
      (storedBlock options snappy (rawBlock options blk) ++ dataBytes options snappy (bs.drop (i + 1))) :=
    Frames.flatMap_split _ hblk
  rw [handleAt_eq, hblk]
  refine readBlock_after hsnappy (dataBytes options snappy (bs.drop (i + 1)) ++
    (storedFilter options snappy bs ++ (storedBlock options snappy (metaRaw options snappy bs) ++
      (storedBlock options snappy (indexRaw options snappy bs) ++ (footer options snappy bs).encodeTo)))) h.file ?_
  rw [tableBytes, beforeIndex, beforeMeta, hsplit]
  simp only [List.append_assoc]
  rfl

theorem readBlock_metaindex (hsnappy : snappy.Lossless) (h : Small options snappy bs) :
    readBlock snappy verify (tableBytes options snappy bs) (footer options snappy bs).metaindex_handle =
      .ok (metaRaw options snappy bs) := by
  refine readBlock_after hsnappy (storedBlock options snappy (indexRaw options snappy bs) ++
    (footer options snappy bs).encodeTo) h.file ?_
  rw [tableBytes, beforeIndex]
  simp only [List.append_assoc]

theorem readBlock_index (hsnappy : snappy.Lossless) (h : Small options snappy bs) :
    readBlock snappy verify (tableBytes options snappy bs) (footer options snappy bs).index_handle =
      .ok (indexRaw options snappy bs) := by
  refine readBlock_after hsnappy (footer options snappy bs).encodeTo h.file ?_
  rw [tableBytes, List.append_assoc]

/-- An iterator over a block of ascending entries. -/
theorem at_build {comparator : Comparator} [Std.TransCmp comparator.compare] {interval : ℕ} {entries : List Entry}
    (hsorted : Sorted comparator.compare Prod.fst entries) (hfits : Fits (BlockBuilder.build interval entries)) :
    At (entryLt comparator) entries (Block.iterator comparator)
      (Block.new (BlockBuilder.build interval entries)).newIterator entries.length := by
  obtain ⟨cs, rs, rfl, hl, hbuild⟩ := BlockBuilder.build_eq interval entries
  rw [hbuild] at hfits ⊢
  exact Block.at_blockBytes hl hfits hsorted

/-- The filter of the table. -/
def builtFilter (options : Options) (snappy : Snappy) (bs : List (List Entry)) :
    Option (FilterPolicy × FilterBlockReader) :=
  options.filter_policy.map fun p => (p, FilterBlockReader.new (FilterBlock.build p (filterBlocks options snappy bs [])))

theorem readMeta_built (hsnappy : snappy.Lossless) (h : Small options snappy bs) :
    readMeta snappy verify options (tableBytes options snappy bs) (footer options snappy bs) =
      builtFilter options snappy bs := by
  unfold readMeta builtFilter
  cases hp : options.filter_policy with
  | none => rfl
  | some p =>
    obtain ⟨contents, hcontents⟩ : ∃ contents, contents = FilterBlock.build p (filterBlocks options snappy bs []) :=
      ⟨_, rfl⟩
    obtain ⟨handle, hhandle⟩ : ∃ handle : BlockHandle, handle = ⟨UInt64.ofNat (dataBytes options snappy bs).length,
      UInt64.ofNat contents.length⟩ := ⟨_, rfl⟩
    have hmeta : metaEntries options snappy bs = [(filterKey p, handle.encodeTo [])] := by
      rw [metaEntries, hp, hhandle, hcontents]
    have hfits := h.metaindex
    rw [metaRaw, rawBlock, hmeta] at hfits
    have hat := @at_build bytewiseComparator _ _ _ (List.pairwise_singleton _ _) hfits
    have hcut : place (entryLt bytewiseComparator) [(filterKey p, handle.encodeTo [])]
        [(filterKey p, handle.encodeTo [])].length (.seek (filterKey p)) = 0 := by
      have hnot : entryLt bytewiseComparator (filterKey p, handle.encodeTo []) (filterKey p) = false := by
        refine decide_eq_false ?_
        rw [compare_self]
        exact fun h => by cases h
      rw [place, cut, List.takeWhile_cons, hnot]
      rfl
    have hcurrent := (hat.move (m := .seek (filterKey p)) trivial).current
    rw [hcut, List.getElem?_cons_zero] at hcurrent
    have hfile : tableBytes options snappy bs = dataBytes options snappy bs ++
        (contents ++ blockTrailer contents .kNoCompression ++ (storedBlock options snappy (metaRaw options snappy bs) ++
          (storedBlock options snappy (indexRaw options snappy bs) ++ (footer options snappy bs).encodeTo))) := by
      rw [tableBytes, beforeIndex, beforeMeta, storedFilter, hp, hcontents]
      simp only [List.append_assoc]
    have hlt : (tableBytes options snappy bs).length < 2 ^ 32 := h.file
    have hlen := congrArg List.length hfile
    rw [List.length_append, List.length_append, List.length_append] at hlen
    have hread : readBlock snappy verify (tableBytes options snappy bs) handle = .ok contents := by
      rw [hhandle]
      refine readBlock_stored hfile ?_ ?_ rfl
      · exact toNat_ofNat_of_le (show (dataBytes options snappy bs).length ≤ _ by omega) hlt
      · exact toNat_ofNat_of_le (show contents.length ≤ _ by omega) hlt
    simp only [readBlock_metaindex hsnappy h, metaRaw, rawBlock, hmeta, hcurrent, if_true, readFilter,
      BlockHandle.decodeFrom_encodeTo_self, hread, Option.map_some, hcontents]

/-- The table that `Open` makes of a file that was built. -/
def built (options : Options) (snappy : Snappy) (bs : List (List Entry)) : Table where
  options := options
  file := tableBytes options snappy bs
  metaindex_handle := (footer options snappy bs).metaindex_handle
  index_block := Block.new (indexRaw options snappy bs)
  filter := builtFilter options snappy bs

theorem openFile_built (hsnappy : snappy.Lossless) (h : Small options snappy bs) (paranoid : Bool) :
    openFile snappy paranoid options (tableBytes options snappy bs) = .ok (built options snappy bs) := by
  have hlen : Footer.kEncodedLength ≤ (tableBytes options snappy bs).length := by
    rw [tableBytes, List.length_append, Footer.length_encodeTo]
    exact Nat.le_add_left _ _
  have hfooter : (tableBytes options snappy bs).drop ((tableBytes options snappy bs).length - Footer.kEncodedLength) =
      (footer options snappy bs).encodeTo := by
    conv_lhs => arg 2; rw [tableBytes]
    refine List.drop_left' ?_
    simp only [tableBytes, List.length_append, Footer.length_encodeTo, Nat.add_sub_cancel]
  unfold openFile
  rw [if_neg (not_lt.mpr hlen), hfooter, Footer.decodeFrom_encodeTo]
  show (readBlock _ _ _ _).bind _ = _
  rw [readBlock_index hsnappy h]
  show Except.ok _ = _
  rw [readMeta_built hsnappy h]
  rfl

/-! ## The index separates the blocks -/

/-- The entries of the block with this handle. -/
def blockFor (options : Options) (snappy : Snappy) (bs : List (List Entry)) (handle : Slice) : List Entry :=
  (((List.range bs.length).find? fun i => (handleAt options snappy bs i).encodeTo [] = handle).bind
    fun i => bs[i]?).getD []

theorem storedBlock_ne_nil (options : Options) (snappy : Snappy) (raw : Slice) : storedBlock options snappy raw ≠ [] := by
  intro h
  have hlen := congrArg List.length h
  rw [storedBlock, List.length_append, length_blockTrailer, kBlockTrailerSize, List.length_nil] at hlen
  omega

theorem blockPos_lt (h : Small options snappy bs) (i : ℕ) : blockPos options snappy bs i < 2 ^ 32 := by
  have hle : blockPos options snappy bs i ≤ (dataBytes options snappy bs).length := Frames.off_le _ _ _
  have hlt : (tableBytes options snappy bs).length < 2 ^ 32 := h.file
  rw [tableBytes, beforeIndex, beforeMeta] at hlt
  simp only [List.length_append] at hlt
  omega

theorem handleAt_injective (h : Small options snappy bs) {j : ℕ} (hi : i < bs.length) (hj : j < bs.length)
    (heq : handleAt options snappy bs i = handleAt options snappy bs j) : i = j := by
  have hoffset := congrArg (fun handle => handle.offset.toNat) heq
  simp only [handleAt, toNat_ofNat_of_le le_rfl (blockPos_lt h _)] at hoffset
  have hmono {i j : ℕ} (hij : i < j) (hj : j < bs.length) : blockPos options snappy bs i < blockPos options snappy bs j :=
    Frames.off_lt (fun _ => storedBlock_ne_nil _ _ _) hij hj.le
  rcases lt_trichotomy i j with hlt | rfl | hlt
  · exact absurd hoffset (hmono hlt hj).ne
  · rfl
  · exact absurd hoffset (hmono hlt hi).ne'

theorem blockFor_handle (h : Small options snappy bs) {blk : List Entry} (hblk : bs[i]? = some blk) :
    blockFor options snappy bs ((handleAt options snappy bs i).encodeTo []) = blk := by
  have hi := (List.getElem?_eq_some_iff.mp hblk).1
  unfold blockFor
  cases hfind : (List.range bs.length).find? fun j =>
      (handleAt options snappy bs j).encodeTo [] = (handleAt options snappy bs i).encodeTo [] with
  | none =>
    have hnot := List.find?_eq_none.mp hfind i (List.mem_range.mpr hi)
    simp at hnot
  | some j =>
    have hj := List.mem_range.mp (List.mem_of_find?_eq_some hfind)
    have heq : (handleAt options snappy bs j).encodeTo [] = (handleAt options snappy bs i).encodeTo [] := by
      simpa using List.find?_some hfind
    rw [handleAt_injective h hj hi (BlockHandle.encodeTo_injective heq), Option.bind_some, hblk]
    rfl

theorem getElem?_indexEntries {e : Entry} (he : (indexEntries options snappy bs bs.length)[i]? = some e) :
    ∃ blk, bs[i]? = some blk ∧ e = indexEntry options snappy bs i := by
  rw [indexEntries, List.getElem?_map] at he
  obtain ⟨j, hj, rfl⟩ := Option.map_eq_some_iff.mp he
  obtain ⟨hi, rfl⟩ := List.getElem?_eq_some_iff.mp hj
  rw [List.getElem_range]
  rw [List.length_range] at hi
  exact ⟨bs[i], List.getElem?_eq_getElem hi, rfl⟩

theorem getElem?_indexEntries_of_lt (hi : i < bs.length) :
    (indexEntries options snappy bs bs.length)[i]? = some (indexEntry options snappy bs i) := by
  rw [indexEntries, List.getElem?_map, List.getElem?_range hi]
  rfl

theorem flatMap_blockFor (h : Small options snappy bs) :
    (indexEntries options snappy bs bs.length).flatMap (fun e => blockFor options snappy bs e.2) = bs.flatten := by
  rw [indexEntries, List.flatMap_map, List.flatMap_def]
  congr 1
  refine List.ext_getElem (by simp) fun i h₁ h₂ => ?_
  rw [List.getElem_map, List.getElem_range]
  exact blockFor_handle h (List.getElem?_eq_getElem h₂)

section Order

variable {comparator : Comparator} {blk : List Entry} {x : Entry}

theorem exists_lastKey (h : blk ≠ []) : ∃ e ∈ blk, lastKey blk = e.1 := by
  refine ⟨blk.getLast h, List.getLast_mem h, ?_⟩
  rw [lastKey, List.getLast?_eq_getLast_of_ne_nil h]
  rfl

theorem exists_firstKey (h : blk ≠ []) : ∃ e ∈ blk, firstKey blk = e.1 := by
  obtain ⟨e, rest, rfl⟩ := List.exists_cons_of_ne_nil h
  exact ⟨e, List.mem_cons_self, rfl⟩

theorem le_lastKey [Std.TransCmp comparator.compare] (h : Sorted comparator.compare Prod.fst blk) (hx : x ∈ blk) :
    (comparator.compare x.1 (lastKey blk)).isLE := by
  have hne := List.ne_nil_of_mem hx
  rw [← List.dropLast_append_getLast hne] at h hx
  have hlast : lastKey blk = (blk.getLast hne).1 := by
    rw [lastKey, List.getLast?_eq_getLast_of_ne_nil hne]
    rfl
  rw [hlast]
  rcases List.mem_append.mp hx with hx | hx
  · exact Ordering.isLE_of_eq_lt ((List.pairwise_append.mp h).2.2 x hx _ List.mem_cons_self)
  · rw [List.mem_singleton.mp hx]
    exact Std.ReflCmp.isLE_rfl

theorem firstKey_le [Std.TransCmp comparator.compare] (h : Sorted comparator.compare Prod.fst blk) (hx : x ∈ blk) :
    (comparator.compare (firstKey blk) x.1).isLE := by
  obtain ⟨e, rest, rfl⟩ := List.exists_cons_of_ne_nil (List.ne_nil_of_mem hx)
  rcases List.mem_cons.mp hx with rfl | hx
  · exact Std.ReflCmp.isLE_rfl
  · exact Ordering.isLE_of_eq_lt ((List.pairwise_cons.mp h).1 x hx)

end Order

section Separation

variable {P : Slice → Prop}

/-- What a table may be made of: ascending entries whose keys the comparator can shorten. -/
structure Admits (comparator : Comparator) (P : Slice → Prop) (bs : List (List Entry)) : Prop where
  nonempty : ∀ blk ∈ bs, blk ≠ []
  sorted : Sorted comparator.compare Prod.fst bs.flatten
  keys : ∀ e ∈ bs.flatten, P e.1

variable [Std.TransCmp options.comparator.compare] (hsep : Separates options.comparator P)
  (h : Admits options.comparator P bs)

include h

omit [Std.TransCmp options.comparator.compare] in
theorem Admits.block {blk : List Entry} (hblk : blk ∈ bs) : Sorted options.comparator.compare Prod.fst blk :=
  (List.pairwise_flatten.mp h.sorted).1 blk hblk

omit [Std.TransCmp options.comparator.compare] in
theorem Admits.lt {j : ℕ} {a a' : List Entry} (hij : i < j) (ha : bs[i]? = some a) (ha' : bs[j]? = some a')
    {x y : Entry} (hx : x ∈ a) (hy : y ∈ a') : options.comparator.compare x.1 y.1 = .lt := by
  obtain ⟨hi, rfl⟩ := List.getElem?_eq_some_iff.mp ha
  obtain ⟨hj, rfl⟩ := List.getElem?_eq_some_iff.mp ha'
  exact List.pairwise_iff_getElem.mp (List.pairwise_flatten.mp h.sorted).2 i j hi hj hij x hx y hy

omit [Std.TransCmp options.comparator.compare] in
theorem Admits.key {blk : List Entry} (hblk : bs[i]? = some blk) {e : Entry} (he : e ∈ blk) : P e.1 :=
  h.keys e (List.mem_flatten.mpr ⟨blk, List.mem_of_getElem? hblk, he⟩)

include hsep

omit [Std.TransCmp options.comparator.compare] in
/-- The key of the index for a block: its last key, or one that lies above it and below the next block. -/
theorem Admits.indexKey {a : List Entry} (ha : bs[i]? = some a) :
    (options.comparator.compare (lastKey a) (indexKey options bs i)).isLE ∧
      ∀ a', bs[i + 1]? = some a' →
        options.comparator.compare (indexKey options bs i) (firstKey a') = .lt := by
  obtain ⟨x, hx, hlast⟩ := exists_lastKey (h.nonempty a (List.mem_of_getElem? ha))
  unfold TableBuilder.indexKey
  rw [ha, Option.getD_some, hlast]
  cases hnext : bs[i + 1]? with
  | none => exact ⟨(hsep.successor (h.key ha hx)).2.2, fun a' ha' => by cases ha'⟩
  | some a' =>
    obtain ⟨y, hy, hfirst⟩ := exists_firstKey (h.nonempty a' (List.mem_of_getElem? hnext))
    have hlt := h.lt (Nat.lt_succ_self i) ha hnext hx hy
    obtain ⟨-, -, hle, hlt'⟩ := hsep.separator (h.key ha hx) (h.key hnext hy) hlt
    simp only [hfirst]
    refine ⟨hle, fun a'' ha'' => ?_⟩
    obtain rfl := Option.some.inj ha''
    rw [hfirst]
    exact hlt'

theorem Admits.le_indexKey {a : List Entry} (ha : bs[i]? = some a) {x : Entry} (hx : x ∈ a) :
    (options.comparator.compare x.1 (TableBuilder.indexKey options bs i)).isLE :=
  Std.TransCmp.isLE_trans (le_lastKey (h.block (List.mem_of_getElem? ha)) hx) (h.indexKey hsep ha).1

theorem Admits.indexKey_lt {j : ℕ} {a a' : List Entry} (hij : i < j) (ha : bs[i]? = some a) (ha' : bs[j]? = some a')
    {y : Entry} (hy : y ∈ a') : options.comparator.compare (TableBuilder.indexKey options bs i) y.1 = .lt := by
  have hj := (List.getElem?_eq_some_iff.mp ha').1
  obtain ⟨b, hb⟩ : ∃ b, bs[i + 1]? = some b := ⟨_, List.getElem?_eq_getElem (by omega)⟩
  have hlt := (h.indexKey hsep ha).2 b hb
  rcases Nat.lt_or_ge (i + 1) j with hlt' | hge
  · obtain ⟨z, hz, hfirst⟩ := exists_firstKey (h.nonempty b (List.mem_of_getElem? hb))
    rw [hfirst] at hlt
    exact Std.TransCmp.lt_trans hlt (h.lt hlt' hb ha' hz hy)
  · obtain rfl : i + 1 = j := by omega
    obtain rfl := Option.some.inj (hb.symm.trans ha')
    exact Std.TransCmp.lt_of_lt_of_isLE hlt (firstKey_le (h.block (List.mem_of_getElem? hb)) hy)

theorem Admits.indexSorted : Sorted options.comparator.compare Prod.fst (indexEntries options snappy bs bs.length) := by
  unfold Sorted
  rw [List.pairwise_iff_getElem]
  intro i j hi hj hij
  obtain ⟨a, ha, hei⟩ := getElem?_indexEntries (List.getElem?_eq_getElem hi)
  obtain ⟨a', ha', hej⟩ := getElem?_indexEntries (List.getElem?_eq_getElem hj)
  obtain ⟨y, hy, -⟩ := exists_lastKey (h.nonempty a' (List.mem_of_getElem? ha'))
  rw [hei, hej]
  exact Std.TransCmp.lt_of_lt_of_isLE (h.indexKey_lt hsep hij ha ha' hy) (h.le_indexKey hsep ha' hy)

theorem Admits.separated (hsmall : Small options snappy bs) :
    TwoLevel.Separated options.comparator (indexEntries options snappy bs bs.length)
      (blockFor options snappy bs) where
  index := h.indexSorted hsep
  sorted := by
    rw [flatMap_blockFor hsmall]
    exact h.sorted
  upper := by
    intro e he x hx
    obtain ⟨i, hi⟩ := List.mem_iff_getElem?.mp he
    obtain ⟨a, ha, rfl⟩ := getElem?_indexEntries hi
    rw [indexEntry, blockFor_handle hsmall ha] at hx
    exact h.le_indexKey hsep ha hx
  lower := by
    rw [List.pairwise_iff_getElem]
    intro i j hi hj hij x hx
    obtain ⟨a, ha, hei⟩ := getElem?_indexEntries (List.getElem?_eq_getElem hi)
    obtain ⟨a', ha', hej⟩ := getElem?_indexEntries (List.getElem?_eq_getElem hj)
    rw [hej, indexEntry, blockFor_handle hsmall ha'] at hx
    rw [hei]
    exact h.indexKey_lt hsep hij ha ha' hx

end Separation

/-! ## Iterating and looking up -/

section Reads

variable {P : Slice → Prop} [Std.TransCmp options.comparator.compare] (hsnappy : snappy.Lossless)
  (hsep : Separates options.comparator P) (h : Admits options.comparator P bs) (hsmall : Small options snappy bs)

include hsnappy h hsmall

theorem at_blockReader {blk : List Entry} (hblk : bs[i]? = some blk) :
    At (entryLt options.comparator) blk (Block.iterator options.comparator)
      ((built options snappy bs).blockReader snappy verify ((handleAt options snappy bs i).encodeTo [])) blk.length := by
  have hmem := List.mem_of_getElem? hblk
  have hreader : (built options snappy bs).blockReader snappy verify ((handleAt options snappy bs i).encodeTo []) =
      (Block.new (rawBlock options blk)).newIterator := by
    have hread : readBlock snappy verify (built options snappy bs).file (handleAt options snappy bs i) =
      .ok (rawBlock options blk) := readBlock_data hsnappy hsmall hblk
    unfold blockReader
    simp only [BlockHandle.decodeFrom_encodeTo_self, hread]
  rw [hreader]
  exact at_build (h.block hmem) (hsmall.data blk hmem)

include hsep

omit hsnappy in
theorem at_index : At (entryLt options.comparator) (indexEntries options snappy bs bs.length)
    (Block.iterator options.comparator) (built options snappy bs).index_block.newIterator
    (indexEntries options snappy bs bs.length).length :=
  at_build (h.indexSorted hsep) hsmall.index

theorem iterator_at {fuel : ℕ} (hfuel : bs.length + 1 < fuel) :
    At (entryLt options.comparator) bs.flatten ((built options snappy bs).iterator snappy verify fuel)
      (some (built options snappy bs).newIterator) bs.flatten.length := by
  have hlen : (indexEntries options snappy bs bs.length).length = bs.length := by
    rw [indexEntries, List.length_map, List.length_range]
  have hsim := @TwoLevel.simulates _ _ (Block.iterator options.comparator) (Block.iterator options.comparator)
    ((built options snappy bs).blockReader snappy verify) options.comparator _ _ fuel _ (h.separated hsep hsmall)
    (fun e he => by
      obtain ⟨i, hi⟩ := List.mem_iff_getElem?.mp he
      obtain ⟨blk, hblk, rfl⟩ := getElem?_indexEntries hi
      refine ⟨blk.length, ?_⟩
      rw [indexEntry, blockFor_handle hsmall hblk]
      exact at_blockReader hsnappy h hsmall hblk)
    (by rw [hlen]; exact hfuel)
  rw [flatMap_blockFor hsmall] at hsim
  refine hsim.at ⟨_, rfl, (indexEntries options snappy bs bs.length).length, 0, ?_, ?_, ?_⟩
  · exact ⟨⟨at_index hsep h hsmall, (fun d hd => by cases hd), rfl⟩, Or.inl ⟨rfl, rfl, rfl⟩⟩
  · rw [TwoLevel.blockOff_end, flatMap_blockFor hsmall]
    rfl
  · intro e he
    rw [List.getElem?_eq_none le_rfl] at he
    cases he

omit hsep hsnappy h [Std.TransCmp options.comparator.compare] in
/-- The filter does not deny a key that matches one of the block. -/
theorem filtered_built {blk : List Entry} (hblk : bs[i]? = some blk) {e : Entry} (he : e ∈ blk) {k : Slice}
    (hfilter : ∀ policy, options.filter_policy = some policy → ∀ keys, e.1 ∈ keys →
      policy.keyMayMatch k (policy.createFilter keys) = true) :
    (built options snappy bs).filtered ((handleAt options snappy bs i).encodeTo []) k = false := by
  have hfile : (built options snappy bs).filter = builtFilter options snappy bs := rfl
  have hlt : (tableBytes options snappy bs).length < 2 ^ 32 := hsmall.file
  have hi := (List.getElem?_eq_some_iff.mp hblk).1
  unfold filtered
  rw [hfile, BlockHandle.decodeFrom_encodeTo_self, builtFilter]
  cases hp : options.filter_policy with
  | none => rfl
  | some p =>
    have hfits : Fits (FilterBlock.build p (filterBlocks options snappy bs [])) := by
      rw [tableBytes, beforeIndex, beforeMeta, storedFilter, hp] at hlt
      simp only [List.length_append] at hlt
      show _ < 2 ^ 32
      omega
    have hasc : ((filterBlocks options snappy bs []).map Prod.fst).Pairwise (· ≤ ·) := by
      have hmono : ∀ i j, i ≤ j → j ≤ bs.length → blockPos options snappy bs i ≤ blockPos options snappy bs j := by
        intro i j hij hj
        rcases hij.lt_or_eq with hij | rfl
        · exact (Frames.off_lt (fun _ => storedBlock_ne_nil _ _ _) hij hj).le
        · exact le_rfl
      rw [filterBlocks, List.map_append, List.map_map, List.map_singleton, List.pairwise_append]
      refine ⟨?_, List.pairwise_singleton _ _, ?_⟩
      · rw [List.pairwise_map]
        exact List.pairwise_lt_range.imp_of_mem fun {i j} _ hj hij =>
          hmono i j hij.le (List.mem_range.mp hj).le
      · intro o ho o' ho'
        obtain ⟨j, hj, rfl⟩ := List.mem_map.mp ho
        rw [List.mem_singleton.mp ho']
        exact Frames.off_le _ _ _
    have hmem : (blockPos options snappy bs i, blk.map Prod.fst) ∈ filterBlocks options snappy bs [] := by
      refine List.mem_append_left _ (List.mem_map.mpr ⟨i, List.mem_range.mpr hi, ?_⟩)
      rw [hblk]
      rfl
    have hmatch := FilterBlock.keyMayMatch_build (hfilter p hp) hasc hfits hmem (List.mem_map_of_mem he)
    have hoffset : (handleAt options snappy bs i).offset.toNat = blockPos options snappy bs i :=
      toNat_ofNat_of_le le_rfl (blockPos_lt hsmall i)
    simp only [Option.map_some, hoffset, hmatch]
    rfl

omit hsep hsnappy h hsmall [Std.TransCmp options.comparator.compare] in
theorem status_of_ok {comparator : Comparator} {s : BlockIterator} (h : (Block.iterator comparator).ok s = true) :
    s.status = .ok := by
  cases s with
  | empty status => exact of_decide_eq_true h
  | iter it => exact of_decide_eq_true h

/-- Where a lookup ends: `i` is the block that the index leads to, and `j` the place in it. -/
theorem internalGet_eq {k : Slice} {blk : List Entry}
    (hi : i = cut (fun e => entryLt options.comparator e k) (indexEntries options snappy bs bs.length))
    (hblk : bs[i]? = some blk) : (built options snappy bs).internalGet snappy verify k =
      (if (built options snappy bs).filtered ((handleAt options snappy bs i).encodeTo []) k then none
        else blk[cut (fun e => entryLt options.comparator e k) blk]?, .ok) := by
  have hlt := (List.getElem?_eq_some_iff.mp hblk).1
  have hindex := (at_index hsep h hsmall).move (m := .seek k) trivial
  have hblock := (@at_blockReader snappy options bs _ verify P _ hsnappy h hsmall blk hblk).move (m := .seek k) trivial
  have hget : (indexEntries options snappy bs bs.length)[i]? = _ := getElem?_indexEntries_of_lt hlt
  have hplace : place (entryLt options.comparator) (indexEntries options snappy bs bs.length)
      (indexEntries options snappy bs bs.length).length (.seek k) = i := hi.symm
  have hcurrent := hindex.current
  rw [hplace, hget] at hcurrent
  have hcmp : (built options snappy bs).options.comparator = options.comparator := rfl
  unfold internalGet
  simp only [hcmp, hcurrent, indexEntry, status_of_ok hindex.ok]
  split_ifs with hfiltered hstatus
  · rfl
  · rw [hblock.current]
    rfl
  · exact absurd (status_of_ok hblock.ok) hstatus

omit hsnappy in
theorem internalGet_none {k : Slice}
    (hi : i = cut (fun e => entryLt options.comparator e k) (indexEntries options snappy bs bs.length))
    (hblk : bs[i]? = none) : (built options snappy bs).internalGet snappy verify k = (none, .ok) := by
  have hindex := (at_index hsep h hsmall).move (m := .seek k) trivial
  have hcurrent := hindex.current
  have hplace : place (entryLt options.comparator) (indexEntries options snappy bs bs.length)
    (indexEntries options snappy bs bs.length).length (.seek k) = i := hi.symm
  have hnone : (indexEntries options snappy bs bs.length)[i]? = none := by
    rw [List.getElem?_eq_none_iff, indexEntries, List.length_map, List.length_range]
    exact List.getElem?_eq_none_iff.mp hblk
  rw [hplace, hnone] at hcurrent
  have hcmp : (built options snappy bs).options.comparator = options.comparator := rfl
  unfold internalGet
  simp only [hcmp, hcurrent, status_of_ok hindex.ok]

omit hsnappy in
/-- The first entry that is not below the key lies in the block that the index leads to, or it is the first
entry behind it. -/
theorem getElem?_cut_flatten {k : Slice} {blk : List Entry}
    (hi : i = cut (fun e => entryLt options.comparator e k) (indexEntries options snappy bs bs.length))
    (hblk : bs[i]? = some blk) : ∃ rest,
      bs.flatten[cut (fun e => entryLt options.comparator e k) bs.flatten]? =
        (blk ++ rest)[cut (fun e => entryLt options.comparator e k) blk]? ∧
      ∀ e, rest[0]? = some e → ∃ a', bs[i + 1]? = some a' ∧ firstKey a' = e.1 := by
  have hlt := (List.getElem?_eq_some_iff.mp hblk).1
  have hlen : (indexEntries options snappy bs bs.length).length = bs.length := by
    rw [indexEntries, List.length_map, List.length_range]
  have hget {i : ℕ} (hi : i < bs.length) :
    (indexEntries options snappy bs bs.length)[i]? = some (indexEntry options snappy bs i) :=
    getElem?_indexEntries_of_lt hi
  have hcontent {i : ℕ} {blk : List Entry} (hblk : bs[i]? = some blk) :
      blockFor options snappy bs (indexEntry options snappy bs i).2 = blk := blockFor_handle hsmall hblk
  have hcut := (h.separated hsep hsmall).cut_eq k hi (j := cut (fun e => entryLt options.comparator e k) blk)
    (fun e he => by
      obtain rfl := Option.some.inj ((hget hlt).symm.trans he)
      rw [hcontent hblk])
    (fun hnone => by
      rw [hget hlt] at hnone
      cases hnone)
  have hdrop := Frames.drop_off (f := fun e : Entry => blockFor options snappy bs e.2) (hget hlt)
  rw [hcontent hblk] at hdrop
  rw [flatMap_blockFor hsmall] at hcut hdrop
  refine ⟨((indexEntries options snappy bs bs.length).drop (i + 1)).flatMap fun e =>
    blockFor options snappy bs e.2, ?_, ?_⟩
  · rw [hcut, ← hdrop, List.getElem?_drop]
  · intro e he
    rcases Nat.lt_or_ge (i + 1) bs.length with hnext | hend
    · obtain ⟨a', ha'⟩ : ∃ a', bs[i + 1]? = some a' := ⟨_, List.getElem?_eq_getElem hnext⟩
      obtain ⟨x, xs, rfl⟩ := List.exists_cons_of_ne_nil (h.nonempty a' (List.mem_of_getElem? ha'))
      have hcons : (indexEntries options snappy bs bs.length).drop (i + 1) =
          indexEntry options snappy bs (i + 1) :: (indexEntries options snappy bs bs.length).drop (i + 1 + 1) := by
        rw [List.drop_eq_getElem_cons (hlen.symm ▸ hnext)]
        congr 1
        exact (List.getElem?_eq_some_iff.mp (hget hnext)).2
      rw [hcons, List.flatMap_cons, hcontent ha', List.cons_append, List.getElem?_cons_zero] at he
      obtain rfl := Option.some.inj he
      exact ⟨_, ha', rfl⟩
    · rw [List.drop_of_length_le (by rw [hlen]; exact hend)] at he
      cases he

/-- What a lookup finds is the first entry that is not below the key. -/
theorem internalGet_sound (k : Slice) : ((built options snappy bs).internalGet snappy verify k).2 = .ok ∧
    ∀ e, ((built options snappy bs).internalGet snappy verify k).1 = some e →
      bs.flatten[cut (fun e => entryLt options.comparator e k) bs.flatten]? = some e := by
  obtain ⟨i, hi⟩ : ∃ i, i = cut (fun e => entryLt options.comparator e k)
    (indexEntries options snappy bs bs.length) := ⟨_, rfl⟩
  cases hblk : bs[i]? with
  | none =>
    rw [internalGet_none hsep h hsmall hi hblk]
    exact ⟨rfl, fun e he => by cases he⟩
  | some blk =>
    obtain ⟨rest, hcut, -⟩ := getElem?_cut_flatten hsep h hsmall hi hblk
    rw [internalGet_eq hsnappy hsep h hsmall hi hblk]
    refine ⟨rfl, fun e he => ?_⟩
    simp only at he
    split_ifs at he
    rw [hcut, List.getElem?_append_left (List.getElem?_eq_some_iff.mp he).1]
    exact he

/-- The entry is found, if no key of the index can come between it and the key, and no filter denies it. -/
theorem internalGet_complete {k : Slice} {e : Entry}
    (he : bs.flatten[cut (fun e => entryLt options.comparator e k) bs.flatten]? = some e)
    (hbetween : ∀ last, P last → options.comparator.compare last k = .lt → options.comparator.compare last e.1 = .lt →
      options.comparator.compare (options.comparator.findShortestSeparator last e.1) k = .lt)
    (hfilter : ∀ policy, options.filter_policy = some policy → ∀ keys, e.1 ∈ keys →
      policy.keyMayMatch k (policy.createFilter keys) = true) :
    (built options snappy bs).internalGet snappy verify k = (some e, .ok) := by
  obtain ⟨i, hi⟩ : ∃ i, i = cut (fun e => entryLt options.comparator e k)
    (indexEntries options snappy bs bs.length) := ⟨_, rfl⟩
  cases hblk : bs[i]? with
  | none =>
    -- every key of the index is below the key, and so are all entries
    have hall : ∀ x ∈ bs.flatten, entryLt options.comparator x k = true := by
      intro x hx
      obtain ⟨blk, hmem, hx⟩ := List.mem_flatten.mp hx
      obtain ⟨i', hi'⟩ := List.mem_iff_getElem?.mp hmem
      have hlt' := (List.getElem?_eq_some_iff.mp hi').1
      have hcut : i' < cut (fun e => entryLt options.comparator e k) (indexEntries options snappy bs bs.length) := by
        have := List.getElem?_eq_none_iff.mp hblk
        omega
      have hkey : entryLt options.comparator (indexEntry options snappy bs i') k = true :=
        getElem?_lt_cut (D := fun e => entryLt options.comparator e k) hcut (getElem?_indexEntries_of_lt hlt')
      exact decide_eq_true (Std.TransCmp.lt_of_isLE_of_lt (h.le_indexKey hsep hi' hx) (of_decide_eq_true hkey))
    rw [getElem?_cut_eq_none.mpr hall] at he
    cases he
  | some blk =>
    obtain ⟨rest, hcut, hnext⟩ := getElem?_cut_flatten hsep h hsmall hi hblk
    have hle := cut_le (fun e => entryLt options.comparator e k) blk
    rw [hcut] at he
    rcases hle.lt_or_eq with hj | hj
    · rw [List.getElem?_append_left hj] at he
      rw [internalGet_eq hsnappy hsep h hsmall hi hblk,
        filtered_built hsmall hblk (List.mem_of_getElem? he) hfilter, he]
      rfl
    · -- the block ends before the key, and so the index would have led on
      rw [hj, List.getElem?_append_right le_rfl, Nat.sub_self] at he
      obtain ⟨a', ha', hfirst⟩ := hnext e he
      obtain ⟨x, hx, hlast⟩ := exists_lastKey (h.nonempty blk (List.mem_of_getElem? hblk))
      obtain ⟨y, hy, hfirst'⟩ := exists_firstKey (h.nonempty a' (List.mem_of_getElem? ha'))
      have hxk : entryLt options.comparator x k = true := by
        obtain ⟨j, hx⟩ := List.mem_iff_getElem?.mp hx
        exact getElem?_lt_cut (D := fun e => entryLt options.comparator e k)
          (hj ▸ (List.getElem?_eq_some_iff.mp hx).1) hx
      have hxe : options.comparator.compare x.1 e.1 = .lt := by
        rw [← hfirst, hfirst']
        exact h.lt (Nat.lt_succ_self i) hblk ha' hx hy
      have hkey : indexKey options bs i = options.comparator.findShortestSeparator x.1 e.1 := by
        rw [TableBuilder.indexKey, ha', hblk, ← hfirst, ← hlast]
        rfl
      have hget : (indexEntries options snappy bs bs.length)[i]? = _ :=
        getElem?_indexEntries_of_lt (List.getElem?_eq_some_iff.mp hblk).1
      have hnot : entryLt options.comparator (indexEntry options snappy bs i) k = false :=
        getElem?_cut_le (D := fun e => entryLt options.comparator e k) (initial_below (h.indexSorted hsep) k) hi.ge hget
      refine absurd ?_ (of_decide_eq_false hnot)
      show options.comparator.compare (indexKey options bs i) k = .lt
      rw [hkey]
      exact hbetween x.1 (h.key hblk hx) (of_decide_eq_true hxk) hxe

end Reads

/-! ## The whole way from the entries to the table -/

/-- What an entry may take in a block, and its key with a handle in the index. -/
def entrySize (e : Entry) : ℕ := e.1.length + e.2.length + 39

/-- The entries and the file are small enough for offsets of 32 bits. -/
structure Bounded (options : Options) (snappy : Snappy) (entries : List Entry) : Prop where
  total : (entries.map entrySize).sum + 8 < 2 ^ 32
  policy : ∀ p, options.filter_policy = some p → p.name.length + 54 < 2 ^ 32
  file : Fits (build options snappy entries)

theorem length_le_length_flatten (h : ∀ blk ∈ bs, blk ≠ []) : bs.length ≤ bs.flatten.length := by
  induction bs with
  | nil => exact le_rfl
  | cons blk bs ih =>
    have hpos := List.length_pos_iff.mpr (h blk List.mem_cons_self)
    have hrest := ih fun b hb => h b (List.mem_cons_of_mem _ hb)
    rw [List.flatten_cons, List.length_append, List.length_cons]
    omega

theorem length_indexKey_le {P : Slice → Prop} (hsep : Separates options.comparator P)
    (h : Admits options.comparator P bs) {blk : List Entry} (hblk : bs[i]? = some blk) :
    (indexKey options bs i).length ≤ (lastKey blk).length := by
  obtain ⟨x, hx, hlast⟩ := exists_lastKey (h.nonempty blk (List.mem_of_getElem? hblk))
  unfold TableBuilder.indexKey
  rw [hblk, Option.getD_some, hlast]
  cases hnext : bs[i + 1]? with
  | none => exact (hsep.successor (h.key hblk hx)).2.1
  | some a' =>
    obtain ⟨y, hy, hfirst⟩ := exists_firstKey (h.nonempty a' (List.mem_of_getElem? hnext))
    simp only [hfirst]
    exact (hsep.separator (h.key hblk hx) (h.key hnext hy) (h.lt (Nat.lt_succ_self i) hblk hnext hx hy)).2.1

theorem sum_block_le {blk : List Entry} (hblk : blk ∈ bs) :
    (blk.map entrySize).sum ≤ (bs.flatten.map entrySize).sum :=
  ((List.sublist_flatten_of_mem hblk).map entrySize).sum_le_sum fun _ _ => Nat.zero_le _

theorem entrySize_le {blk : List Entry} {x : Entry} (hx : x ∈ blk) : entrySize x ≤ (blk.map entrySize).sum :=
  List.le_sum_of_mem (List.mem_map_of_mem hx)

/-- An entry of the index takes no more than the block that it is for. -/
theorem sum_indexEntries_le {P : Slice → Prop} (hsep : Separates options.comparator P)
    (h : Admits options.comparator P bs) :
    ((indexEntries options snappy bs bs.length).map fun e => e.1.length + e.2.length + 19).sum ≤
      (bs.flatten.map entrySize).sum := by
  have hblocks : bs.map (fun blk => (blk.map entrySize).sum) =
      (List.range bs.length).map fun i => ((bs[i]?.getD []).map entrySize).sum := by
    refine List.ext_getElem (by simp) fun i h₁ h₂ => ?_
    rw [List.getElem_map, List.getElem_map, List.getElem_range,
      List.getElem?_eq_getElem (by simpa using h₁), Option.getD_some]
  have hflat : (bs.flatten.map entrySize).sum = (bs.map fun blk => (blk.map entrySize).sum).sum := by
    rw [List.map_flatten, List.sum_flatten, List.map_map]
    rfl
  rw [hflat, hblocks, indexEntries, List.map_map]
  refine List.sum_le_sum fun i hi => ?_
  have hlt := List.mem_range.mp hi
  have hblk := List.getElem?_eq_getElem hlt
  obtain ⟨x, hx, hlast⟩ := exists_lastKey (h.nonempty _ (List.getElem_mem hlt))
  have hkey := length_indexKey_le hsep h hblk
  have hhandle := (handleAt options snappy bs i).length_encodeTo_le
  have hentry := entrySize_le hx
  rw [hblk, Option.getD_some]
  show (indexKey options bs i).length + ((handleAt options snappy bs i).encodeTo []).length + 19 ≤ _
  rw [hlast] at hkey
  rw [entrySize] at hentry
  rw [BlockHandle.kMaxEncodedLength] at hhandle
  omega

/-- A table that was built from entries of bounded size is small. -/
theorem Bounded.small {P : Slice → Prop} {entries : List Entry} (hb : Bounded options snappy entries)
    (hsep : Separates options.comparator P) (h : Admits options.comparator P bs) (hflat : bs.flatten = entries)
    (hbuild : build options snappy entries = tableBytes options snappy bs) : Small options snappy bs where
  data := by
    intro blk hblk
    have hlen := BlockBuilder.length_build_le options.block_restart_interval blk
    have hsizes : (blk.map fun e => e.1.length + e.2.length + 19).sum ≤ (blk.map entrySize).sum :=
      List.sum_le_sum fun e _ => by
        rw [entrySize]
        omega
    have hblock := sum_block_le hblk
    have htotal := hb.total
    rw [← hflat] at htotal
    show (BlockBuilder.build _ _).length < 2 ^ 32
    omega
  metaindex := by
    have hlen := BlockBuilder.length_build_le options.block_restart_interval (metaEntries options snappy bs)
    have hsum : ((metaEntries options snappy bs).map fun e => e.1.length + e.2.length + 19).sum + 8 < 2 ^ 32 := by
      unfold metaEntries
      cases hp : options.filter_policy with
      | none => simp
      | some p =>
        have hname := hb.policy p hp
        have hhandle := (BlockHandle.mk (UInt64.ofNat (dataBytes options snappy bs).length) (UInt64.ofNat
          (FilterBlock.build p (filterBlocks options snappy bs [])).length)).length_encodeTo_le
        have hfilter : (bytesOf "filter.").length = 7 := by decide
        rw [BlockHandle.kMaxEncodedLength] at hhandle
        simp only [List.map_cons, List.map_nil, List.sum_cons, List.sum_nil, filterKey, List.length_append, hfilter]
        omega
    show (BlockBuilder.build _ _).length < 2 ^ 32
    omega
  index := by
    have hlen := BlockBuilder.length_build_le 1 (indexEntries options snappy bs bs.length)
    have hsum := @sum_indexEntries_le snappy options bs P hsep h
    have htotal := hb.total
    rw [← hflat] at htotal
    show (BlockBuilder.build _ _).length < 2 ^ 32
    omega
  file := by
    rw [← hbuild]
    exact hb.file

section Built

variable {P : Slice → Prop} [Std.TransCmp options.comparator.compare] {entries : List Entry}

omit [Std.TransCmp options.comparator.compare] in
theorem exists_built (hsnappy : snappy.Lossless) (hsep : Separates options.comparator P)
    (hsorted : Sorted options.comparator.compare Prod.fst entries) (hkeys : ∀ e ∈ entries, P e.1)
    (hb : Bounded options snappy entries) (paranoid : Bool) : ∃ bs : List (List Entry), bs.flatten = entries ∧
      Admits options.comparator P bs ∧ Small options snappy bs ∧
      openFile snappy paranoid options (build options snappy entries) = .ok (built options snappy bs) := by
  obtain ⟨bs, hnonempty, hflat, hbuild⟩ := @build_eq options snappy entries
  have h : Admits options.comparator P bs := ⟨hnonempty, hflat ▸ hsorted, fun e he => hkeys e (hflat ▸ he)⟩
  have hsmall := hb.small hsep h hflat hbuild
  exact ⟨bs, hflat, h, hsmall, by rw [hbuild, openFile_built hsnappy hsmall]⟩

/-- **A table has the entries it was built from**: whatever the sizes of blocks, the restart interval, the compression
and the filter are, the file can be opened, and the iterator is a cursor in the entries. -/
theorem newIterator_built (hsnappy : snappy.Lossless) (hsep : Separates options.comparator P)
    (hsorted : Sorted options.comparator.compare Prod.fst entries) (hkeys : ∀ e ∈ entries, P e.1)
    (hb : Bounded options snappy entries) (paranoid verify : Bool) {fuel : ℕ} (hfuel : entries.length + 1 < fuel) :
    ∃ t, openFile snappy paranoid options (build options snappy entries) = .ok t ∧
      At (entryLt options.comparator) entries (t.iterator snappy verify fuel) (some t.newIterator) entries.length := by
  obtain ⟨bs, rfl, h, hsmall, hopen⟩ := exists_built hsnappy hsep hsorted hkeys hb paranoid
  have hle := length_le_length_flatten h.nonempty
  exact ⟨_, hopen, iterator_at hsnappy hsep h hsmall (by omega)⟩

/-- Every entry gets a block of its own. -/
def tiny : Options where
  comparator := bytewiseComparator
  block_size := 1
  block_restart_interval := 16
  compression := .kNoCompression
  filter_policy := some (Bloom.policy 10)

/-- Nothing is compressed. -/
def plain : Snappy where
  compress := id
  uncompress := some

theorem tiny_bounded : Bounded tiny plain [([1], [7]), ([2], [8, 8])] where
  total := by decide
  policy := fun p hp => by
    obtain rfl := Option.some.inj hp
    decide
  file := by decide +kernel

instance : Std.TransCmp tiny.comparator.compare := inferInstanceAs (Std.TransCmp bytewiseComparator.compare)

theorem newIterator_built_two : ∃ t, openFile plain true tiny (build tiny plain [([1], [7]), ([2], [8, 8])]) = .ok t ∧
    At (entryLt bytewiseComparator) [([1], [7]), ([2], [8, 8])] (t.iterator plain true 4) (some t.newIterator) 2 :=
  newIterator_built (fun _ => rfl) separates_bytewise (by decide) (fun _ _ => trivial) tiny_bounded true true (by decide)

/-- **A lookup in a table** finds only the first entry that is not below the key, and with a filter that matches the
keys it was made of, it finds every key that is there. -/
theorem get_built (hsnappy : snappy.Lossless) (hsep : Separates options.comparator P)
    (hsound : ∀ p, options.filter_policy = some p → p.Sound)
    (hsorted : Sorted options.comparator.compare Prod.fst entries) (hkeys : ∀ e ∈ entries, P e.1)
    (hb : Bounded options snappy entries) (paranoid verify : Bool) :
    ∃ t, openFile snappy paranoid options (build options snappy entries) = .ok t ∧
      ∀ k, (t.internalGet snappy verify k).2 = .ok ∧
        (∀ e, (t.internalGet snappy verify k).1 = some e →
          e ∈ entries ∧ (options.comparator.compare k e.1).isLE ∧
            ∀ e' ∈ entries, (options.comparator.compare k e'.1).isLE → (options.comparator.compare e.1 e'.1).isLE) ∧
        ∀ e ∈ entries, e.1 = k → (t.internalGet snappy verify k).1 = some e := by
  obtain ⟨bs, rfl, h, hsmall, hopen⟩ := exists_built hsnappy hsep hsorted hkeys hb paranoid
  refine ⟨_, hopen, fun k => ?_⟩
  obtain ⟨hstatus, hfound⟩ := @internalGet_sound snappy options bs verify P _ hsnappy hsep h hsmall k
  have hinit := initial_below h.sorted k
  have hfalse (e : Entry) : entryLt options.comparator e k = false ↔ (options.comparator.compare k e.1).isLE := by
    constructor
    · exact fun hge => isLE_of_not_lt (of_decide_eq_false hge)
    · intro hle
      refine decide_eq_false fun hlt => ?_
      rw [Std.OrientedCmp.gt_of_lt hlt] at hle
      cases hle
  refine ⟨hstatus, fun e he => ?_, fun e he hek => ?_⟩
  · obtain ⟨hmem, hge, hleast⟩ := (getElem?_cut h.sorted hinit).mp (hfound e he)
    exact ⟨hmem, (hfalse e).mp hge, fun e' he' hk => hleast e' he' ((hfalse e').mpr hk)⟩
  · subst hek
    obtain ⟨p, hp⟩ := List.mem_iff_getElem?.mp he
    have hcut : bs.flatten[cut (fun e' => entryLt options.comparator e' e.1) bs.flatten]? = some e := by
      rw [show cut (fun e' => entryLt options.comparator e' e.1) bs.flatten = p from cut_below h.sorted hp]
      exact hp
    have hcomplete := @internalGet_complete snappy options bs verify P _ hsnappy hsep h hsmall e.1 e hcut
      (fun last hlast hlt _ => (hsep.separator hlast (h.keys e he) hlt).2.2.2)
      (fun policy hpolicy keys hin => hsound policy hpolicy keys e.1 hin)
    rw [hcomplete]

theorem get_built_two : ∃ t, openFile plain true tiny (build tiny plain [([1], [7]), ([2], [8, 8])]) = .ok t ∧
    ∀ k, (t.internalGet plain true k).2 = .ok ∧
      (∀ e, (t.internalGet plain true k).1 = some e → e ∈ [(([1], [7]) : Entry), ([2], [8, 8])] ∧
        (bytewiseComparator.compare k e.1).isLE ∧ ∀ e' ∈ [(([1], [7]) : Entry), ([2], [8, 8])],
          (bytewiseComparator.compare k e'.1).isLE → (bytewiseComparator.compare e.1 e'.1).isLE) ∧
      ∀ e ∈ [(([1], [7]) : Entry), ([2], [8, 8])], e.1 = k → (t.internalGet plain true k).1 = some e :=
  @get_built plain tiny _ _ _ (fun _ => rfl) separates_bytewise
    (fun p hp => by
      obtain rfl := Option.some.inj hp
      exact Bloom.sound 10)
    (by decide) (fun _ _ => trivial) tiny_bounded true true

end Built

end Table

end Leveldb
