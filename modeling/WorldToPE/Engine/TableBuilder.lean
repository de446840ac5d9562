import WorldToPE.Engine.Block
import WorldToPE.Engine.Filter
import WorldToPE.Engine.TableFormat

/-!
# WorldToPE.Engine.TableBuilder — writing a table

`table/table_builder.cc`: ascending entries are cut into blocks.  The index has for each block a key
that is not below its entries and below those behind it, and where the block is stored; the key is
chosen when the first key of the next block is known.  `build_eq` says what the file is in the end.
-/

namespace Leveldb

/-- `Options`, as far as tables depend on them. -/
structure Options where
  comparator : Comparator
  block_size : ℕ
  block_restart_interval : ℕ
  compression : CompressionType
  filter_policy : Option FilterPolicy

/-- The state of a `TableBuilder`; its filter block builder keeps the policy. -/
structure TableBuilder where
  file : Slice
  offset : ℕ
  data_block : BlockBuilder
  index_block : BlockBuilder
  last_key : Slice
  num_entries : ℕ
  filter_block : Option (FilterPolicy × FilterBlockBuilder)
  pending_index_entry : Bool
  pending_handle : BlockHandle

namespace TableBuilder

variable (options : Options) (snappy : Snappy)

def new : TableBuilder where
  file := []
  offset := 0
  data_block := BlockBuilder.new
  index_block := BlockBuilder.new
  last_key := []
  num_entries := 0
  filter_block := options.filter_policy.map fun p => (p, FilterBlockBuilder.new.startBlock p 0)
  pending_index_entry := false
  pending_handle := ⟨0xffffffffffffffff, 0xffffffffffffffff⟩

def writeRawBlock (b : TableBuilder) (block_contents : Slice) (type : CompressionType) : TableBuilder × BlockHandle :=
  ({ b with
      file := b.file ++ (block_contents ++ blockTrailer block_contents type)
      offset := b.offset + (block_contents.length + kBlockTrailerSize) },
    ⟨UInt64.ofNat b.offset, UInt64.ofNat block_contents.length⟩)

/-- The choice that `WriteBlock` makes: what to store, and as what. -/
def blockContents (raw : Slice) : Slice × CompressionType :=
  match options.compression with
  | .kNoCompression => (raw, .kNoCompression)
  | .kSnappyCompression =>
    let compressed := snappy.compress raw
    if compressed.length < raw.length - raw.length / 8 then (compressed, .kSnappyCompression)
    -- Compressed less than 12.5%, so just store uncompressed form
    else (raw, .kNoCompression)

def writeBlock (b : TableBuilder) (raw : Slice) : TableBuilder × BlockHandle :=
  let stored := blockContents options snappy raw
  b.writeRawBlock stored.1 stored.2

def flush (b : TableBuilder) : TableBuilder :=
  if b.data_block.buffer = [] then b
  else
    let (b', handle) := b.writeBlock options snappy b.data_block.finish
    { b' with
      data_block := BlockBuilder.new
      pending_handle := handle
      pending_index_entry := true
      filter_block := b'.filter_block.map fun f => (f.1, f.2.startBlock f.1 b'.offset) }

/-- The entry of the index for the block that was written last. -/
def addIndexEntry (b : TableBuilder) (key : Slice) : TableBuilder :=
  { b with
    last_key := key
    index_block := b.index_block.add 1 key (b.pending_handle.encodeTo [])
    pending_index_entry := false }

def add (b : TableBuilder) (key value : Slice) : TableBuilder :=
  let b := if b.pending_index_entry then
    b.addIndexEntry (options.comparator.findShortestSeparator b.last_key key) else b
  let b := { b with
    filter_block := b.filter_block.map fun f => (f.1, f.2.addKey key)
    last_key := key
    num_entries := b.num_entries + 1
    data_block := b.data_block.add options.block_restart_interval key value }
  if options.block_size ≤ b.data_block.currentSizeEstimate then b.flush options snappy else b

/-- The key of the filter in the metaindex block. -/
def filterKey (policy : FilterPolicy) : Slice := bytesOf "filter." ++ policy.name

def writeFilterBlock (b : TableBuilder) : TableBuilder × List Entry :=
  match b.filter_block with
  | none => (b, [])
  | some (policy, f) =>
    let (b, handle) := b.writeRawBlock (f.finish policy) .kNoCompression
    (b, [(filterKey policy, handle.encodeTo [])])

def finish (b : TableBuilder) : TableBuilder :=
  let b := b.flush options snappy
  let (b, meta_entries) := b.writeFilterBlock
  let (b, metaindex_handle) := b.writeBlock options snappy
    (meta_entries.foldl (fun m e => m.add options.block_restart_interval e.1 e.2) BlockBuilder.new).finish
  let b := if b.pending_index_entry then b.addIndexEntry (options.comparator.findShortSuccessor b.last_key) else b
  let (b, index_handle) := b.writeBlock options snappy b.index_block.finish
  let footer := Footer.encodeTo ⟨metaindex_handle, index_handle⟩
  { b with file := b.file ++ footer, offset := b.offset + footer.length }

/-- The table of a list of entries. -/
def build (entries : List Entry) : Slice :=
  ((entries.foldl (fun b e => b.add options snappy e.1 e.2) (new options)).finish options snappy).file

/-! ## What is written -/

/-- A block as it is stored. -/
def storedBlock (raw : Slice) : Slice :=
  (blockContents options snappy raw).1 ++
    blockTrailer (blockContents options snappy raw).1 (blockContents options snappy raw).2

/-- The contents of the block of these entries. -/
def rawBlock (entries : List Entry) : Slice := BlockBuilder.build options.block_restart_interval entries

def dataBytes (bs : List (List Entry)) : Slice := bs.flatMap fun blk => storedBlock options snappy (rawBlock options blk)

/-- Where the block `i` is stored. -/
def blockPos (bs : List (List Entry)) (i : ℕ) : ℕ :=
  Frames.off (fun blk => storedBlock options snappy (rawBlock options blk)) bs i

def handleAt (bs : List (List Entry)) (i : ℕ) : BlockHandle :=
  ⟨UInt64.ofNat (blockPos options snappy bs i),
    UInt64.ofNat (blockContents options snappy (rawBlock options (bs[i]?.getD []))).1.length⟩

def firstKey (blk : List Entry) : Slice := (blk.head?.map Prod.fst).getD []

def lastKey (blk : List Entry) : Slice := (blk.getLast?.map Prod.fst).getD []

/-- The key of the index for the block `i`. -/
def indexKey (bs : List (List Entry)) (i : ℕ) : Slice :=
  match bs[i + 1]? with
  | some blk => options.comparator.findShortestSeparator (lastKey (bs[i]?.getD [])) (firstKey blk)
  | none => options.comparator.findShortSuccessor (lastKey (bs[i]?.getD []))

def indexEntry (bs : List (List Entry)) (i : ℕ) : Entry :=
  (indexKey options bs i, (handleAt options snappy bs i).encodeTo [])

/-- The first `n` entries of the index. -/
def indexEntries (bs : List (List Entry)) (n : ℕ) : List Entry := (List.range n).map (indexEntry options snappy bs)

/-- The blocks as the filter block builder is told of them. -/
def filterBlocks (bs : List (List Entry)) (current : List Entry) : List (ℕ × List Slice) :=
  ((List.range bs.length).map fun i => (blockPos options snappy bs i, (bs[i]?.getD []).map Prod.fst)) ++
    [((dataBytes options snappy bs).length, current.map Prod.fst)]

/-- The blocks with the one that is being filled. -/
def allBlocks (bs : List (List Entry)) (current : List Entry) : List (List Entry) :=
  if current = [] then bs else bs ++ [current]

/-- The blocks `bs` have been written, and the entries `current` are waiting. -/
structure Wrote (b : TableBuilder) (bs : List (List Entry)) (current : List Entry) : Prop where
  nonempty : ∀ blk ∈ bs, blk ≠ []
  file : b.file = dataBytes options snappy bs
  offset : b.offset = (dataBytes options snappy bs).length
  data_block : b.data_block =
    current.foldl (fun d e => d.add options.block_restart_interval e.1 e.2) BlockBuilder.new
  index_block : b.index_block = (indexEntries options snappy (allBlocks bs current)
    ((allBlocks bs current).length - 1)).foldl (fun d e => d.add 1 e.1 e.2) BlockBuilder.new
  last_key : allBlocks bs current ≠ [] → b.last_key = lastKey ((allBlocks bs current).getLast?.getD [])
  pending : b.pending_index_entry = true ↔ current = [] ∧ bs ≠ []
  pending_handle : current = [] → bs ≠ [] → b.pending_handle = handleAt options snappy bs (bs.length - 1)
  filter_block : b.filter_block = options.filter_policy.map fun p =>
    (p, (filterBlocks options snappy bs current).foldl (FilterBlockBuilder.addBlock p) FilterBlockBuilder.new)

variable {options snappy} {b : TableBuilder} {bs : List (List Entry)} {current : List Entry}

theorem wrote_new : (new options).Wrote options snappy [] [] where
  nonempty := fun blk hblk => absurd hblk List.not_mem_nil
  file := rfl
  offset := rfl
  data_block := rfl
  index_block := rfl
  last_key := fun h => absurd rfl h
  pending := by simp [new]
  pending_handle := fun _ h => absurd rfl h
  filter_block := by
    have hblocks : filterBlocks options snappy [] [] = [(0, [])] := rfl
    rw [hblocks]
    rfl

/-! ## One more entry -/

/-- An entry of the index depends on the blocks up to its own, and on the first key of the next. -/
theorem indexEntry_congr {bs bs' : List (List Entry)} {i : ℕ} (htake : bs'.take (i + 1) = bs.take (i + 1))
    (hnext : bs'[i + 1]?.map firstKey = bs[i + 1]?.map firstKey) :
    indexEntry options snappy bs' i = indexEntry options snappy bs i := by
  have hget : bs'[i]? = bs[i]? := by
    have h := congrArg (fun l => l[i]?) htake
    simpa [List.getElem?_take] using h
  have htake' : bs'.take i = bs.take i := by
    have h := congrArg (List.take i) htake
    simpa [List.take_take] using h
  have hpos : blockPos options snappy bs' i = blockPos options snappy bs i := by
    rw [blockPos, blockPos, Frames.off, Frames.off, htake']
  have hkey : indexKey options bs' i = indexKey options bs i := by
    unfold indexKey
    rw [hget]
    cases h : bs[i + 1]? with
    | none =>
      rw [h, Option.map_none, Option.map_eq_none_iff] at hnext
      rw [hnext]
    | some blk =>
      rw [h, Option.map_some, Option.map_eq_some_iff] at hnext
      obtain ⟨blk', hblk', hfirst⟩ := hnext
      rw [hblk']
      simp only [hfirst]
  rw [indexEntry, indexEntry, hkey, handleAt, handleAt, hpos, hget]

theorem indexEntries_congr {bs bs' : List (List Entry)} {n : ℕ} (htake : bs'.take n = bs.take n)
    (hnext : bs'[n]?.map firstKey = bs[n]?.map firstKey) :
    indexEntries options snappy bs' n = indexEntries options snappy bs n := by
  refine List.map_congr_left fun i hi => ?_
  have hin := List.mem_range.mp hi
  refine indexEntry_congr ?_ ?_
  · have h := congrArg (List.take (i + 1)) htake
    simpa [List.take_take, Nat.min_eq_left (Nat.succ_le_of_lt hin)] using h
  · rcases Nat.lt_or_ge (i + 1) n with h | h
    · have hget := congrArg (fun l => l[i + 1]?) htake
      have hget' : bs'[i + 1]? = bs[i + 1]? := by simpa [List.getElem?_take, h] using hget
      rw [hget']
    · obtain rfl : i + 1 = n := by omega
      exact hnext

theorem indexEntries_succ (bs : List (List Entry)) (n : ℕ) : indexEntries options snappy bs (n + 1) =
    indexEntries options snappy bs n ++ [indexEntry options snappy bs n] := by
  rw [indexEntries, List.range_succ, List.map_append, List.map_singleton]
  rfl

theorem allBlocks_append (bs : List (List Entry)) (current : List Entry) (e : Entry) :
    allBlocks bs (current ++ [e]) = bs ++ [current ++ [e]] := if_neg (by simp)

theorem firstKey_append (h : current ≠ []) (more : List Entry) : firstKey (current ++ more) = firstKey current := by
  obtain ⟨e, rest, rfl⟩ := List.exists_cons_of_ne_nil h
  rfl

/-- The index after an entry that may be the first of a block. -/
theorem Wrote.addIndex (h : b.Wrote options snappy bs current) (e : Entry) :
    (if b.pending_index_entry then
      b.addIndexEntry (options.comparator.findShortestSeparator b.last_key e.1) else b).index_block =
      (indexEntries options snappy (allBlocks bs (current ++ [e])) ((allBlocks bs (current ++ [e])).length - 1)).foldl
        (fun d e => d.add 1 e.1 e.2) BlockBuilder.new := by
  have hlen : (allBlocks bs (current ++ [e])).length - 1 = bs.length := by
    rw [allBlocks_append, List.length_append, List.length_singleton, Nat.add_sub_cancel]
  rw [hlen, allBlocks_append]
  by_cases hcur : current = []
  · subst hcur
    by_cases hbs : bs = []
    · subst hbs
      rw [if_neg (by rw [h.pending]; simp)]
      exact h.index_block
    · -- the index entry of the block before
      obtain ⟨n, hn⟩ : ∃ n, bs.length = n + 1 := ⟨bs.length - 1, by have := List.length_pos_iff.mpr hbs; omega⟩
      have hall : allBlocks bs [] = bs := if_pos rfl
      have hget : (bs ++ [[e]])[n + 1]? = some [e] := by rw [← hn]; exact List.getElem?_concat_length
      have hlast : bs.getLast? = bs[n]? := by rw [List.getLast?_eq_getElem?, hn, Nat.add_sub_cancel]
      have hprev : (bs ++ [[e]])[n]? = bs[n]? := List.getElem?_append_left (by omega)
      have hcongr : indexEntries options snappy (bs ++ [[e]]) n = indexEntries options snappy bs n := by
        refine indexEntries_congr ?_ ?_
        · rw [List.take_append_of_le_length (by omega)]
        · rw [hprev]
      have hkey : b.last_key = lastKey (bs[n]?.getD []) := by
        rw [h.last_key (by rw [hall]; exact hbs), hall, hlast]
      have hhandle : b.pending_handle = handleAt options snappy (bs ++ [[e]]) n := by
        rw [h.pending_handle rfl hbs, hn, Nat.add_sub_cancel, handleAt, handleAt, hprev, blockPos, blockPos,
          Frames.off_append (by omega)]
      have hindex := h.index_block
      rw [hall, hn, Nat.add_sub_cancel] at hindex
      rw [if_pos (h.pending.mpr ⟨rfl, hbs⟩), hn, List.nil_append, indexEntries_succ, hcongr, List.foldl_append,
        ← hindex]
      show b.index_block.add 1 _ _ = b.index_block.add 1 _ _
      rw [hhandle, hkey, indexEntry, indexKey, hget, hprev]
      rfl
  · rw [if_neg (by rw [h.pending]; exact fun hp => hcur hp.1), h.index_block]
    have hall : allBlocks bs current = bs ++ [current] := if_neg hcur
    rw [hall, List.length_append, List.length_singleton, Nat.add_sub_cancel]
    congr 1
    refine (indexEntries_congr ?_ ?_).symm
    · rw [List.take_left, List.take_left]
    · rw [List.getElem?_concat_length, List.getElem?_concat_length, Option.map_some, Option.map_some,
        firstKey_append hcur]

theorem foldl_filterBlocks (p : FilterPolicy) (bs : List (List Entry)) (current : List Entry) (e : Entry)
    (f : FilterBlockBuilder) : (filterBlocks options snappy bs (current ++ [e])).foldl (FilterBlockBuilder.addBlock p) f =
      ((filterBlocks options snappy bs current).foldl (FilterBlockBuilder.addBlock p) f).addKey e.1 := by
  simp only [filterBlocks, List.foldl_append, List.foldl_cons, List.foldl_nil, FilterBlockBuilder.addBlock,
    List.map_append, List.map_cons, List.map_nil]

/-- The state after an entry, before its block may be written. -/
def added (options : Options) (b : TableBuilder) (e : Entry) : TableBuilder :=
  let b := if b.pending_index_entry then
    b.addIndexEntry (options.comparator.findShortestSeparator b.last_key e.1) else b
  { b with
    filter_block := b.filter_block.map fun f => (f.1, f.2.addKey e.1)
    last_key := e.1
    num_entries := b.num_entries + 1
    data_block := b.data_block.add options.block_restart_interval e.1 e.2 }

theorem Wrote.added (h : b.Wrote options snappy bs current) (e : Entry) :
    (b.added options e).Wrote options snappy bs (current ++ [e]) := by
  have hindex := h.addIndex e
  obtain ⟨b', hb'⟩ : ∃ b', b' = if b.pending_index_entry then
    b.addIndexEntry (options.comparator.findShortestSeparator b.last_key e.1) else b := ⟨_, rfl⟩
  rw [← hb'] at hindex
  have hsame : b'.file = b.file ∧ b'.offset = b.offset ∧ b'.data_block = b.data_block ∧
      b'.filter_block = b.filter_block ∧ b'.pending_index_entry = false := by
    rw [hb']
    split_ifs with hp
    · exact ⟨rfl, rfl, rfl, rfl, rfl⟩
    · exact ⟨rfl, rfl, rfl, rfl, Bool.eq_false_of_not_eq_true hp⟩
  obtain ⟨hfile, hoffset, hdata, hfilter, hpending⟩ := hsame
  have hadded : b.added options e = { b' with
      filter_block := b'.filter_block.map fun f => (f.1, f.2.addKey e.1)
      last_key := e.1
      num_entries := b'.num_entries + 1
      data_block := b'.data_block.add options.block_restart_interval e.1 e.2 } := by
    rw [hb']
    rfl
  rw [hadded]
  exact {
    nonempty := h.nonempty
    file := hfile.trans h.file
    offset := hoffset.trans h.offset
    data_block := by
      show b'.data_block.add _ _ _ = _
      rw [hdata, h.data_block, List.foldl_append]
      rfl
    index_block := hindex
    last_key := by
      intro _
      rw [allBlocks_append, List.getLast?_append]
      show e.1 = lastKey (current ++ [e])
      rw [lastKey, List.getLast?_append]
      rfl
    pending := by
      show b'.pending_index_entry = true ↔ _
      rw [hpending]
      simp
    pending_handle := fun hnil => absurd hnil (by simp)
    filter_block := by
      show b'.filter_block.map _ = _
      rw [hfilter, h.filter_block, Option.map_map]
      congr 1
      funext p
      rw [foldl_filterBlocks]
      rfl }

theorem buffer_eq_nil_iff (interval : ℕ) (entries : List Entry) :
    (entries.foldl (fun d e => d.add interval e.1 e.2) BlockBuilder.new).buffer = [] ↔ entries = [] := by
  obtain ⟨cs, rs, hcs, h⟩ := BlockBuilder.wrote_foldl interval entries BlockBuilder.wrote_new
  rw [h.buffer, List.nil_append, ← hcs, List.map_eq_nil_iff, List.flatMap_eq_nil_iff]
  constructor
  · intro hall
    cases cs with
    | nil => rfl
    | cons c cs => exact absurd (hall c List.mem_cons_self) c.bytes_ne_nil
  · rintro rfl c hc
    cases hc

theorem dataBytes_append (bs : List (List Entry)) (blk : List Entry) : dataBytes options snappy (bs ++ [blk]) =
    dataBytes options snappy bs ++ storedBlock options snappy (rawBlock options blk) := by
  rw [dataBytes, List.flatMap_append, List.flatMap_singleton]
  rfl

theorem filterBlocks_flush (bs : List (List Entry)) (current : List Entry) :
    filterBlocks options snappy (bs ++ [current]) [] = filterBlocks options snappy bs current ++
      [((dataBytes options snappy (bs ++ [current])).length, [])] := by
  have hmap : ((List.range bs.length).map fun i => (blockPos options snappy (bs ++ [current]) i,
      ((bs ++ [current])[i]?.getD []).map Prod.fst)) =
      (List.range bs.length).map fun i => (blockPos options snappy bs i, (bs[i]?.getD []).map Prod.fst) := by
    refine List.map_congr_left fun i hi => ?_
    have hlt := List.mem_range.mp hi
    rw [blockPos, blockPos, Frames.off_append hlt.le, List.getElem?_append_left hlt]
  have hlast : blockPos options snappy (bs ++ [current]) bs.length = (dataBytes options snappy bs).length := by
    rw [blockPos, Frames.off_append le_rfl, Frames.off_length]
    rfl
  rw [filterBlocks, filterBlocks, List.length_append, List.length_singleton, List.range_succ, List.map_append, hmap,
    List.map_singleton, hlast, List.getElem?_concat_length]
  rfl

theorem Wrote.flush_of_ne (h : b.Wrote options snappy bs current) (hcur : current ≠ []) :
    (b.flush options snappy).Wrote options snappy (bs ++ [current]) [] := by
  have hraw : b.data_block.finish = rawBlock options current := by rw [h.data_block]; rfl
  have hbuffer : b.data_block.buffer ≠ [] := by
    rw [h.data_block]
    exact mt (buffer_eq_nil_iff _ _).mp hcur
  have hall : allBlocks (bs ++ [current]) [] = allBlocks bs current :=
    (if_pos rfl : allBlocks (bs ++ [current]) [] = _).trans (if_neg hcur : allBlocks bs current = _).symm
  have hlast : (bs ++ [current]).length - 1 = bs.length := by
    rw [List.length_append, List.length_singleton, Nat.add_sub_cancel]
  have hoffset : b.offset + ((blockContents options snappy (rawBlock options current)).1.length + kBlockTrailerSize) =
      (dataBytes options snappy (bs ++ [current])).length := by
    rw [h.offset, dataBytes_append, List.length_append, storedBlock, List.length_append, length_blockTrailer]
  have hflush : b.flush options snappy = { b with
      file := b.file ++ storedBlock options snappy (rawBlock options current)
      offset := (dataBytes options snappy (bs ++ [current])).length
      data_block := BlockBuilder.new
      pending_handle := ⟨UInt64.ofNat b.offset,
        UInt64.ofNat (blockContents options snappy (rawBlock options current)).1.length⟩
      pending_index_entry := true
      filter_block := b.filter_block.map fun f =>
        (f.1, f.2.startBlock f.1 (dataBytes options snappy (bs ++ [current])).length) } := by
    unfold TableBuilder.flush
    rw [if_neg hbuffer, hraw, writeBlock, writeRawBlock, ← hoffset]
    rfl
  rw [hflush]
  exact {
    nonempty := by
      intro blk hblk
      rcases List.mem_append.mp hblk with hblk | hblk
      · exact h.nonempty blk hblk
      · rw [List.mem_singleton.mp hblk]
        exact hcur
    file := by
      show b.file ++ _ = _
      rw [h.file, dataBytes_append]
    offset := rfl
    data_block := rfl
    index_block := by
      rw [hall]
      exact h.index_block
    last_key := by
      rw [hall]
      exact h.last_key
    pending := by simp
    pending_handle := by
      intro _ _
      rw [hlast, handleAt, blockPos, Frames.off_append le_rfl, Frames.off_length, List.getElem?_concat_length, h.offset]
      rfl
    filter_block := by
      show b.filter_block.map _ = _
      rw [h.filter_block, Option.map_map, filterBlocks_flush]
      congr 1
      funext p
      rw [List.foldl_append]
      rfl }

theorem flush_of_nil (h : b.Wrote options snappy bs []) : b.flush options snappy = b := by
  unfold TableBuilder.flush
  rw [if_pos]
  rw [h.data_block, buffer_eq_nil_iff]

theorem Wrote.flush (h : b.Wrote options snappy bs current) :
    ∃ bs', (b.flush options snappy).Wrote options snappy bs' [] ∧ bs'.flatten = bs.flatten ++ current := by
  by_cases hcur : current = []
  · subst hcur
    rw [flush_of_nil h]
    exact ⟨bs, h, (List.append_nil _).symm⟩
  · exact ⟨_, h.flush_of_ne hcur, by rw [List.flatten_append, List.flatten_singleton]⟩

theorem Wrote.add (h : b.Wrote options snappy bs current) (e : Entry) : ∃ bs' current',
    (b.add options snappy e.1 e.2).Wrote options snappy bs' current' ∧
      bs'.flatten ++ current' = bs.flatten ++ current ++ [e] := by
  have hadd : b.add options snappy e.1 e.2 =
      if options.block_size ≤ (b.added options e).data_block.currentSizeEstimate then
        (b.added options e).flush options snappy else b.added options e := rfl
  have hadded := h.added e
  rw [hadd]
  split_ifs
  · obtain ⟨bs', hbs', hflat⟩ := hadded.flush
    exact ⟨bs', [], hbs', by rw [List.append_nil, hflat, List.append_assoc]⟩
  · exact ⟨bs, current ++ [e], hadded, (List.append_assoc _ _ _).symm⟩

theorem wrote_foldl : ∀ (entries : List Entry) {b : TableBuilder} {bs : List (List Entry)} {current : List Entry},
    b.Wrote options snappy bs current → ∃ bs' current',
      (entries.foldl (fun b e => b.add options snappy e.1 e.2) b).Wrote options snappy bs' current' ∧
        bs'.flatten ++ current' = bs.flatten ++ current ++ entries
  | [], _, bs, current, h => ⟨bs, current, h, (List.append_nil _).symm⟩
  | e :: entries, _, _, _, h => by
    obtain ⟨bs', current', h', hflat⟩ := h.add e
    obtain ⟨bs'', current'', h'', hflat'⟩ := wrote_foldl entries h'
    refine ⟨bs'', current'', h'', ?_⟩
    rw [hflat', hflat, List.append_assoc, List.singleton_append]

/-! ## The whole file -/

section File

variable (options snappy) (bs : List (List Entry))

/-- The filter block as it is stored, if there is one. -/
def storedFilter : Slice :=
  match options.filter_policy with
  | none => []
  | some p =>
    let contents := FilterBlock.build p (filterBlocks options snappy bs [])
    contents ++ blockTrailer contents .kNoCompression

def metaEntries : List Entry :=
  match options.filter_policy with
  | none => []
  | some p => [(filterKey p, BlockHandle.encodeTo ⟨UInt64.ofNat (dataBytes options snappy bs).length,
      UInt64.ofNat (FilterBlock.build p (filterBlocks options snappy bs [])).length⟩ [])]

def metaRaw : Slice := rawBlock options (metaEntries options snappy bs)

def indexRaw : Slice := BlockBuilder.build 1 (indexEntries options snappy bs bs.length)

/-- What stands in front of the metaindex block. -/
def beforeMeta : Slice := dataBytes options snappy bs ++ storedFilter options snappy bs

def beforeIndex : Slice := beforeMeta options snappy bs ++ storedBlock options snappy (metaRaw options snappy bs)

/-- The handle of a block that is stored behind these bytes. -/
def handleAfter (front raw : Slice) : BlockHandle :=
  ⟨UInt64.ofNat front.length, UInt64.ofNat (blockContents options snappy raw).1.length⟩

def footer : Footer :=
  ⟨handleAfter options snappy (beforeMeta options snappy bs) (metaRaw options snappy bs),
    handleAfter options snappy (beforeIndex options snappy bs) (indexRaw options snappy bs)⟩

def tableBytes : Slice :=
  beforeIndex options snappy bs ++ storedBlock options snappy (indexRaw options snappy bs) ++
    (footer options snappy bs).encodeTo

end File

theorem writeBlock_eq (b : TableBuilder) (raw : Slice) (hoffset : b.offset = b.file.length) :
    b.writeBlock options snappy raw = ({ b with
      file := b.file ++ storedBlock options snappy raw
      offset := (b.file ++ storedBlock options snappy raw).length }, handleAfter options snappy b.file raw) := by
  rw [writeBlock, writeRawBlock, handleAfter, ← hoffset, List.length_append, ← hoffset, storedBlock, List.length_append,
    length_blockTrailer]

theorem Wrote.writeFilterBlock (h : b.Wrote options snappy bs []) : b.writeFilterBlock =
    ({ b with
      file := beforeMeta options snappy bs
      offset := (beforeMeta options snappy bs).length }, metaEntries options snappy bs) := by
  have hfile := h.file
  have hoffset := h.offset
  have hfilter := h.filter_block
  obtain ⟨file, offset, data_block, index_block, last_key, num_entries, filter_block, pending, handle⟩ := b
  simp only at hfile hoffset hfilter
  subst hfile hoffset hfilter
  unfold TableBuilder.writeFilterBlock beforeMeta storedFilter metaEntries
  cases options.filter_policy with
  | none => simp only [Option.map_none, List.append_nil]
  | some p =>
    simp only [Option.map_some, writeRawBlock, FilterBlock.build, List.length_append, length_blockTrailer]

/-- The entry of the index for the last block. -/
theorem Wrote.lastIndex (h : b.Wrote options snappy bs []) :
    (if b.pending_index_entry then b.addIndexEntry (options.comparator.findShortSuccessor b.last_key)
      else b).index_block.finish = indexRaw options snappy bs := by
  have hall : allBlocks bs [] = bs := if_pos rfl
  have hindex := h.index_block
  rw [hall] at hindex
  by_cases hbs : bs = []
  · subst hbs
    rw [if_neg (by rw [h.pending]; simp), hindex]
    rfl
  · obtain ⟨n, hn⟩ : ∃ n, bs.length = n + 1 := ⟨bs.length - 1, by have := List.length_pos_iff.mpr hbs; omega⟩
    have hlast : bs.getLast? = bs[n]? := by rw [List.getLast?_eq_getElem?, hn, Nat.add_sub_cancel]
    have hkey : b.last_key = lastKey (bs[n]?.getD []) := by
      rw [h.last_key (by rw [hall]; exact hbs), hall, hlast]
    have hnext : bs[n + 1]? = none := List.getElem?_eq_none (by omega)
    rw [hn, Nat.add_sub_cancel] at hindex
    rw [if_pos (h.pending.mpr ⟨rfl, hbs⟩), indexRaw, BlockBuilder.build, hn, indexEntries_succ, List.foldl_append,
      ← hindex]
    show (b.index_block.add 1 _ _).finish = (b.index_block.add 1 _ _).finish
    rw [h.pending_handle rfl hbs, hn, Nat.add_sub_cancel, hkey, indexEntry, indexKey, hnext]

theorem Wrote.finish (h : b.Wrote options snappy bs []) :
    (b.finish options snappy).file = tableBytes options snappy bs := by
  have hmetaRaw : ((metaEntries options snappy bs).foldl
      (fun m e => m.add options.block_restart_interval e.1 e.2) BlockBuilder.new).finish = metaRaw options snappy bs := rfl
  have hmeta : writeBlock options snappy { b with
      file := beforeMeta options snappy bs
      offset := (beforeMeta options snappy bs).length } (metaRaw options snappy bs) = ({ b with
        file := beforeIndex options snappy bs
        offset := (beforeIndex options snappy bs).length },
        handleAfter options snappy (beforeMeta options snappy bs) (metaRaw options snappy bs)) := writeBlock_eq _ _ rfl
  -- the state in which the index block is written
  obtain ⟨b', hb'⟩ : ∃ b' : TableBuilder, b' = if b.pending_index_entry then addIndexEntry { b with
      file := beforeIndex options snappy bs
      offset := (beforeIndex options snappy bs).length } (options.comparator.findShortSuccessor b.last_key)
    else { b with file := beforeIndex options snappy bs, offset := (beforeIndex options snappy bs).length } := ⟨_, rfl⟩
  have hraw : b'.index_block.finish = indexRaw options snappy bs := by
    rw [hb', ← h.lastIndex]
    split_ifs <;> rfl
  have hfile : b'.file = beforeIndex options snappy bs := by
    rw [hb']
    split_ifs <;> rfl
  have hoffset : b'.offset = b'.file.length := by
    rw [hfile, hb']
    split_ifs <;> rfl
  have hwrite := @writeBlock_eq options snappy b' (indexRaw options snappy bs) hoffset
  unfold TableBuilder.finish
  simp only [flush_of_nil h, h.writeFilterBlock, hmetaRaw, hmeta, ← hb', hraw, hwrite, hfile]
  rfl

theorem build_eq (entries : List Entry) : ∃ bs : List (List Entry), (∀ blk ∈ bs, blk ≠ []) ∧ bs.flatten = entries ∧
    build options snappy entries = tableBytes options snappy bs := by
  obtain ⟨bs, current, h, hflat⟩ := @wrote_foldl options snappy entries _ [] [] wrote_new
  obtain ⟨bs', h', hflat'⟩ := h.flush
  refine ⟨bs', h'.nonempty, by rw [hflat', hflat, List.flatten_nil]; rfl, ?_⟩
  have hfinish := h'.finish
  rw [TableBuilder.finish, flush_of_nil h'] at hfinish
  exact hfinish

end TableBuilder

end Leveldb
