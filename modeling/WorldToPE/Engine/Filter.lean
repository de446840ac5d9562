import WorldToPE.Engine.DbFormat

/-!
# WorldToPE.Engine.Filter — filters that spare a read

`util/hash.cc`, `util/bloom.cc`, `table/filter_block.cc` and the filter policy of `db/dbformat.cc`.  A
filter is made of the keys that lie in one piece of 2 KiB of a table.  It may take a key for one of
them that is none, but never the other way round: `FilterBlock.match_of_added`.
-/

namespace Leveldb

/-! ## Hashing -/

/-- The loop of `Hash`, four bytes at a time, and the switch that picks up the remaining bytes. -/
def hashLoop (h : UInt32) : Slice → UInt32
  | b0 :: b1 :: b2 :: b3 :: data =>
    let h := (h + decodeFixed32 [b0, b1, b2, b3]) * 0xc6a4a793
    hashLoop (h ^^^ (h >>> 16)) data
  | [] => h
  | [b0] =>
    let h := (h + b0.toUInt32) * 0xc6a4a793
    h ^^^ (h >>> 24)
  | [b0, b1] =>
    let h := (h + (b1.toUInt32 <<< 8) + b0.toUInt32) * 0xc6a4a793
    h ^^^ (h >>> 24)
  | [b0, b1, b2] =>
    let h := (h + (b2.toUInt32 <<< 16) + (b1.toUInt32 <<< 8) + b0.toUInt32) * 0xc6a4a793
    h ^^^ (h >>> 24)

def hash (data : Slice) (seed : UInt32) : UInt32 := hashLoop (seed ^^^ (UInt32.ofNat data.length * 0xc6a4a793)) data

/-! ## Policies -/

/-- A `FilterPolicy`; what `CreateFilter` appends to `dst` is its result here. -/
structure FilterPolicy where
  name : Slice
  createFilter : List Slice → Slice
  keyMayMatch : Slice → Slice → Bool

/-- A filter matches the keys that it was made of. -/
def FilterPolicy.Sound (policy : FilterPolicy) : Prop :=
  ∀ keys k, k ∈ keys → policy.keyMayMatch k (policy.createFilter keys) = true

/-- `InternalFilterPolicy`: the filter of the user keys. -/
def internalFilterPolicy (user_policy : FilterPolicy) : FilterPolicy where
  name := user_policy.name
  createFilter keys := user_policy.createFilter (keys.map extractUserKey)
  keyMayMatch key f := user_policy.keyMayMatch (extractUserKey key) f

theorem FilterPolicy.Sound.internal {policy : FilterPolicy} (h : policy.Sound) :
    (internalFilterPolicy policy).Sound :=
  fun _ _ hk => h _ _ (List.mem_map_of_mem hk)

namespace Bloom

def bloomHash (key : Slice) : UInt32 := hash key 0xbc9f1d34

/-- The number of probes: `bits_per_key * 0.69`, rounded down, within its bounds. -/
def probes (bits_per_key : ℕ) : ℕ := min 30 (max 1 (bits_per_key * 69 / 100))

/-- The bits of `k` probes of a hash value. -/
def positions (bits : ℕ) (delta : UInt32) : ℕ → UInt32 → List ℕ
  | 0, _ => []
  | k + 1, h => h.toNat % bits :: positions bits delta k (h + delta)

/-- The bits of a key, by double hashing. -/
def keyPositions (bits k : ℕ) (key : Slice) : List ℕ :=
  let h := bloomHash key
  positions bits ((h >>> 17) ||| (h <<< 15)) k h

def mask (bitpos : ℕ) : UInt8 := 1 <<< UInt8.ofNat (bitpos % 8)

def setBit (array : Slice) (bitpos : ℕ) : Slice := array.modify (bitpos / 8) fun b => b ||| mask bitpos

def hasBit (array : Slice) (bitpos : ℕ) : Bool := array[bitpos / 8]?.any fun b => b &&& mask bitpos ≠ 0

/-- `CreateFilter`: the array of bits, and the number of probes. -/
def createFilter (bits_per_key : ℕ) (keys : List Slice) : Slice :=
  let bits := keys.length * bits_per_key
  -- Fix a high false positive rate for small n by enforcing a minimum bloom filter length.
  let bits := if bits < 64 then 64 else bits
  let bytes := (bits + 7) / 8
  let bits := bytes * 8
  keys.foldl (fun array key => (keyPositions bits (probes bits_per_key) key).foldl setBit array)
    (List.replicate bytes 0) ++ [UInt8.ofNat (probes bits_per_key)]

def keyMayMatch (key bloom_filter : Slice) : Bool :=
  let len := bloom_filter.length
  if len < 2 then false
  else
    let bits := (len - 1) * 8
    let k := (bloom_filter[len - 1]?.getD 0).toNat
    -- Reserved for potentially new encodings for short bloom filters.
    if k > 30 then true else (keyPositions bits k key).all (hasBit bloom_filter)

/-- `NewBloomFilterPolicy`. -/
def policy (bits_per_key : ℕ) : FilterPolicy where
  name := bytesOf "leveldb.BuiltinBloomFilter2"
  createFilter := createFilter bits_per_key
  keyMayMatch := keyMayMatch

end Bloom

/-! ## The filter block -/

/-- Generate new filter every 2KB of data. -/
def kFilterBaseLg : ℕ := 11

def kFilterBase : ℕ := 1 <<< kFilterBaseLg

/-- The state of a `FilterBlockBuilder`; the flattened keys are a list. -/
structure FilterBlockBuilder where
  keys : List Slice
  result : Slice
  filter_offsets : List UInt32

namespace FilterBlockBuilder

variable (policy : FilterPolicy)

def new : FilterBlockBuilder := ⟨[], [], []⟩

def generateFilter (b : FilterBlockBuilder) : FilterBlockBuilder :=
  -- Fast path if there are no keys for this filter
  if b.keys = [] then { b with filter_offsets := b.filter_offsets ++ [UInt32.ofNat b.result.length] }
  else
    { keys := []
      result := b.result ++ policy.createFilter b.keys
      filter_offsets := b.filter_offsets ++ [UInt32.ofNat b.result.length] }

/-- The loop of `StartBlock` makes as many filters as are missing. -/
def startBlock (block_offset : ℕ) (b : FilterBlockBuilder) : FilterBlockBuilder :=
  (generateFilter policy)^[block_offset / kFilterBase - b.filter_offsets.length] b

def addKey (key : Slice) (b : FilterBlockBuilder) : FilterBlockBuilder := { b with keys := b.keys ++ [key] }

def finish (b : FilterBlockBuilder) : Slice :=
  let b := if b.keys ≠ [] then b.generateFilter policy else b
  putFixed32 (b.filter_offsets.foldl putFixed32 b.result) (UInt32.ofNat b.result.length) ++
    [UInt8.ofNat kFilterBaseLg]

end FilterBlockBuilder

/-- A `FilterBlockReader`; `data` is empty where the source has a null pointer. -/
structure FilterBlockReader where
  data : Slice
  offset : ℕ
  num : ℕ
  base_lg : ℕ

namespace FilterBlockReader

def new (contents : Slice) : FilterBlockReader :=
  let n := contents.length
  if n < 5 then ⟨[], 0, 0, 0⟩
  else
    let base_lg := (contents[n - 1]?.getD 0).toNat
    let last_word := (decodeFixed32 (contents.drop (n - 5))).toNat
    if last_word > n - 5 then ⟨[], 0, 0, base_lg⟩ else ⟨contents, last_word, (n - 5 - last_word) / 4, base_lg⟩

def keyMayMatch (policy : FilterPolicy) (r : FilterBlockReader) (block_offset : ℕ) (key : Slice) : Bool :=
  let index := block_offset >>> r.base_lg
  if index < r.num then
    let start := (decodeFixed32 (r.data.drop (r.offset + index * 4))).toNat
    let limit := (decodeFixed32 (r.data.drop (r.offset + index * 4 + 4))).toNat
    if start ≤ limit ∧ limit ≤ r.offset then policy.keyMayMatch key ((r.data.drop start).take (limit - start))
    -- Empty filters do not match any keys
    else if start = limit then false
    else true
  else true  -- Errors are treated as potential matches

end FilterBlockReader

/-! ## A bloom filter matches its keys -/

namespace Bloom

section Bits

variable {array : Slice} {i j k bits : ℕ}

theorem mask_ne_zero (i : ℕ) : mask i ≠ 0 := by
  have h : ∀ s < 8, (1 : UInt8) <<< UInt8.ofNat s ≠ 0 := by decide
  exact h _ (Nat.mod_lt i (by decide))

/-- What two words have in common stays when bits are set in the first. -/
theorem and_or_ne_zero {a m : UInt8} (h : a &&& m ≠ 0) (x : UInt8) :
    (a ||| x) &&& m ≠ 0 ∧ (x ||| a) &&& m ≠ 0 := by
  have hle : (a &&& m).toNat ≤ ((a ||| x) &&& m).toNat := by
    rw [UInt8.toNat_and, UInt8.toNat_and, UInt8.toNat_or, Nat.and_or_distrib_right]
    exact Nat.left_le_or
  have hne : (a ||| x) &&& m ≠ 0 := by
    intro hzero
    rw [hzero] at hle
    exact h (UInt8.toNat_inj.mp (Nat.le_zero.mp hle))
  exact ⟨hne, UInt8.or_comm a x ▸ hne⟩

@[simp] theorem length_setBit (array : Slice) (i : ℕ) : (setBit array i).length = array.length := by
  rw [setBit, List.length_modify]

theorem hasBit_iff : hasBit array i = true ↔ ∃ b, array[i / 8]? = some b ∧ b &&& mask i ≠ 0 := by
  unfold hasBit
  cases array[i / 8]? with
  | none => simp
  | some b => simp

theorem hasBit_setBit_self (h : i / 8 < array.length) : hasBit (setBit array i) i = true := by
  rw [hasBit_iff, setBit, List.getElem?_modify_eq, List.getElem?_eq_getElem h]
  have hself : mask i &&& mask i ≠ 0 := by
    rw [UInt8.and_self]
    exact mask_ne_zero i
  exact ⟨_, rfl, (and_or_ne_zero hself _).2⟩

theorem hasBit_setBit (h : hasBit array j = true) (i : ℕ) : hasBit (setBit array i) j = true := by
  obtain ⟨b, hb, hbit⟩ := hasBit_iff.mp h
  rw [hasBit_iff, setBit, List.getElem?_modify, hb]
  by_cases hij : i / 8 = j / 8
  · exact ⟨b ||| mask i, by simp [hij], (and_or_ne_zero hbit _).1⟩
  · exact ⟨b, by simp [hij], hbit⟩

theorem length_foldl_setBit (is : List ℕ) (array : Slice) : (is.foldl setBit array).length = array.length := by
  induction is generalizing array with
  | nil => rfl
  | cons i is ih => rw [List.foldl_cons, ih, length_setBit]

theorem hasBit_foldl_of_hasBit (is : List ℕ) {array : Slice} (h : hasBit array j = true) :
    hasBit (is.foldl setBit array) j = true := by
  induction is generalizing array with
  | nil => exact h
  | cons i is ih => exact ih (hasBit_setBit h i)

theorem hasBit_foldl_of_mem {is : List ℕ} {array : Slice} (hlen : ∀ i ∈ is, i / 8 < array.length) (hj : j ∈ is) :
    hasBit (is.foldl setBit array) j = true := by
  induction is generalizing array with
  | nil => cases hj
  | cons i is ih =>
    rw [List.foldl_cons]
    rcases List.mem_cons.mp hj with rfl | hj
    · exact hasBit_foldl_of_hasBit is (hasBit_setBit_self (hlen j List.mem_cons_self))
    · refine ih (fun i' hi' => ?_) hj
      rw [length_setBit]
      exact hlen i' (List.mem_cons_of_mem _ hi')

theorem positions_lt (hbits : 0 < bits) (delta : UInt32) : ∀ (k : ℕ) (h : UInt32), ∀ i ∈ positions bits delta k h, i < bits
  | 0, _, _, hi => by cases hi
  | k + 1, h, i, hi => by
    rcases List.mem_cons.mp hi with rfl | hi
    · exact Nat.mod_lt _ hbits
    · exact positions_lt hbits delta k _ i hi

/-- The bits of every key are set in the end. -/
theorem hasBit_foldl_keys {keys : List Slice} {key : Slice} (hbits : 0 < bits) :
    ∀ {array : Slice}, array.length * 8 = bits → key ∈ keys → i ∈ keyPositions bits k key →
      hasBit (keys.foldl (fun array key => (keyPositions bits k key).foldl setBit array) array) i = true := by
  have hkeep : ∀ (keys : List Slice) {array : Slice}, hasBit array i = true →
      hasBit (keys.foldl (fun array key => (keyPositions bits k key).foldl setBit array) array) i = true := by
    intro keys
    induction keys with
    | nil => exact fun h => h
    | cons key keys ih => exact fun h => ih (hasBit_foldl_of_hasBit _ h)
  intro array hlen hkey hi
  induction keys generalizing array with
  | nil => cases hkey
  | cons key' keys ih =>
    rw [List.foldl_cons]
    rcases List.mem_cons.mp hkey with rfl | hkey
    · refine hkeep keys (hasBit_foldl_of_mem (fun i' hi' => ?_) hi)
      have := positions_lt hbits _ _ _ i' hi'
      omega
    · exact ih (by rw [length_foldl_setBit]; exact hlen) hkey

theorem hasBit_append (h : hasBit array i = true) (rest : Slice) : hasBit (array ++ rest) i = true := by
  obtain ⟨b, hb, hbit⟩ := hasBit_iff.mp h
  exact hasBit_iff.mpr ⟨b, by rw [List.getElem?_append_left (List.getElem?_eq_some_iff.mp hb).1, hb], hbit⟩

theorem length_foldl_keys (bits k : ℕ) (keys : List Slice) (array : Slice) :
    (keys.foldl (fun array key => (keyPositions bits k key).foldl setBit array) array).length = array.length := by
  induction keys generalizing array with
  | nil => rfl
  | cons key keys ih => rw [List.foldl_cons, ih, length_foldl_setBit]

end Bits

theorem sound (bits_per_key : ℕ) : (policy bits_per_key).Sound := by
  intro keys key hkey
  show keyMayMatch key (createFilter bits_per_key keys) = true
  obtain ⟨bytes, hbytes⟩ : ∃ bytes, bytes =
    ((if keys.length * bits_per_key < 64 then 64 else keys.length * bits_per_key) + 7) / 8 := ⟨_, rfl⟩
  have hpos : 0 < bytes := by
    split_ifs at hbytes <;> omega
  obtain ⟨array, harray⟩ : ∃ array, array = keys.foldl
    (fun array key => (keyPositions (bytes * 8) (probes bits_per_key) key).foldl setBit array)
    (List.replicate bytes 0) := ⟨_, rfl⟩
  have hlen : array.length = bytes := by rw [harray, length_foldl_keys, List.length_replicate]
  have hcreate : createFilter bits_per_key keys = array ++ [UInt8.ofNat (probes bits_per_key)] := by
    rw [harray, hbytes]
    rfl
  have hk : probes bits_per_key ≤ 30 := Nat.min_le_left _ _
  have hlast : ((createFilter bits_per_key keys)[(createFilter bits_per_key keys).length - 1]?.getD 0).toNat =
      probes bits_per_key := by
    rw [hcreate, List.length_append, List.length_singleton, Nat.add_sub_cancel, List.getElem?_concat_length,
      Option.getD_some, UInt8.toNat_ofNat', Nat.mod_eq_of_lt (by omega)]
  have hsize : (createFilter bits_per_key keys).length = bytes + 1 := by
    rw [hcreate, List.length_append, hlen, List.length_singleton]
  unfold keyMayMatch
  simp only [hlast]
  rw [hsize, if_neg (by omega), if_neg (by omega), Nat.add_sub_cancel, List.all_eq_true]
  intro i hi
  rw [hcreate, harray]
  exact hasBit_append (hasBit_foldl_keys (by omega) (by rw [List.length_replicate]) hkey hi) _

end Bloom

/-! ## The filter block matches the keys of its blocks -/

section Blocks

variable {policy : FilterPolicy} {b : FilterBlockBuilder} {gs : List (List Slice)}

/-- The bytes of one filter. -/
def filterBytes (policy : FilterPolicy) (keys : List Slice) : Slice :=
  if keys = [] then [] else policy.createFilter keys

/-- Where each of the filters begins, and where the last one ends. -/
def filterWords (policy : FilterPolicy) (gs : List (List Slice)) (n : ℕ) : List UInt32 :=
  (List.range n).map fun i => UInt32.ofNat (Frames.off (filterBytes policy) gs i)

namespace FilterBlockBuilder

/-- The filters of these groups of keys have been generated. -/
structure Wrote (policy : FilterPolicy) (b : FilterBlockBuilder) (gs : List (List Slice)) : Prop where
  result : b.result = gs.flatMap (filterBytes policy)
  filter_offsets : b.filter_offsets = filterWords policy gs gs.length

/-- Every key of these blocks, given by their offsets, is in the filter for its block or waits for it. -/
def Covers (b : FilterBlockBuilder) (gs : List (List Slice)) (blocks : List (ℕ × List Slice)) : Prop :=
  ∀ blk ∈ blocks, ∀ k ∈ blk.2,
    (∃ g, gs[blk.1 / kFilterBase]? = some g ∧ k ∈ g) ∨ blk.1 / kFilterBase = gs.length ∧ k ∈ b.keys

theorem filterWords_append (policy : FilterPolicy) (gs : List (List Slice)) (g : List Slice) :
    filterWords policy (gs ++ [g]) (gs.length + 1) =
      filterWords policy gs gs.length ++ [UInt32.ofNat (gs.flatMap (filterBytes policy)).length] := by
  unfold filterWords
  rw [List.range_succ, List.map_append, List.map_singleton, Frames.off_append le_rfl, Frames.off_length]
  congr 1
  refine List.map_congr_left fun i hi => ?_
  rw [Frames.off_append (List.mem_range.mp hi).le]

theorem Wrote.generateFilter (h : b.Wrote policy gs) :
    (b.generateFilter policy).Wrote policy (gs ++ [b.keys]) ∧ (b.generateFilter policy).keys = [] := by
  have hwords := filterWords_append policy gs b.keys
  have hlen : (gs ++ [b.keys]).length = gs.length + 1 := by rw [List.length_append, List.length_singleton]
  unfold FilterBlockBuilder.generateFilter
  split_ifs with hkeys
  · refine ⟨⟨?_, ?_⟩, hkeys⟩
    · rw [List.flatMap_append, List.flatMap_singleton, filterBytes, if_pos hkeys, List.append_nil]
      exact h.result
    · rw [hlen, hwords, ← h.result, ← h.filter_offsets]
  · refine ⟨⟨?_, ?_⟩, rfl⟩
    · rw [List.flatMap_append, List.flatMap_singleton, filterBytes, if_neg hkeys, h.result]
    · rw [hlen, hwords, ← h.result, ← h.filter_offsets]

theorem Covers.generateFilter {blocks : List (ℕ × List Slice)} (h : b.Covers gs blocks) :
    (b.generateFilter policy).Covers (gs ++ [b.keys]) blocks := by
  intro blk hblk k hk
  rcases h blk hblk k hk with ⟨g, hg, hkg⟩ | ⟨hi, hkeys⟩
  · exact Or.inl ⟨g, by rw [List.getElem?_append_left (List.getElem?_eq_some_iff.mp hg).1, hg], hkg⟩
  · exact Or.inl ⟨b.keys, by rw [hi, List.getElem?_concat_length], hkeys⟩

/-- `StartBlock` goes on to the filter of the block. -/
theorem Wrote.startBlock {blocks : List (ℕ × List Slice)} (h : b.Wrote policy gs) (hc : b.Covers gs blocks)
    {o : ℕ} (ho : gs.length ≤ o / kFilterBase) : ∃ gs', (b.startBlock policy o).Wrote policy gs' ∧
      (b.startBlock policy o).Covers gs' blocks ∧ gs'.length = o / kFilterBase := by
  have hlen : b.filter_offsets.length = gs.length := by
    rw [h.filter_offsets, filterWords, List.length_map, List.length_range]
  unfold FilterBlockBuilder.startBlock
  obtain ⟨m, hm⟩ : ∃ m, m = o / kFilterBase - b.filter_offsets.length := ⟨_, rfl⟩
  rw [← hm]
  rw [hlen] at hm
  clear hlen
  induction m generalizing b gs with
  | zero => exact ⟨gs, h, hc, by omega⟩
  | succ m ih =>
    rw [Function.iterate_succ_apply]
    obtain ⟨h', -⟩ := h.generateFilter
    have hlen : (gs ++ [b.keys]).length = gs.length + 1 := by rw [List.length_append, List.length_singleton]
    exact ih h' hc.generateFilter (by omega) (by omega)

/-- The keys of one block, as the table builder adds them. -/
def addBlock (policy : FilterPolicy) (b : FilterBlockBuilder) (blk : ℕ × List Slice) : FilterBlockBuilder :=
  blk.2.foldl (fun b k => b.addKey k) (b.startBlock policy blk.1)

theorem foldl_addKey (ks : List Slice) (b : FilterBlockBuilder) :
    ks.foldl (fun b k => b.addKey k) b = { b with keys := b.keys ++ ks } := by
  induction ks generalizing b with
  | nil => rw [List.append_nil]; rfl
  | cons k ks ih => rw [List.foldl_cons, ih, addKey, List.append_assoc]; rfl

theorem Wrote.addBlocks : ∀ (blocks : List (ℕ × List Slice)) {done : List (ℕ × List Slice)} {b : FilterBlockBuilder}
    {gs : List (List Slice)}, b.Wrote policy gs → b.Covers gs done →
    (blocks.map Prod.fst).Pairwise (· ≤ ·) → (∀ blk ∈ blocks, gs.length ≤ blk.1 / kFilterBase) →
    ∃ gs', (blocks.foldl (addBlock policy) b).Wrote policy gs' ∧
      (blocks.foldl (addBlock policy) b).Covers gs' (done ++ blocks)
  | [], done, b, gs, h, hc, _, _ => ⟨gs, h, by rwa [List.append_nil]⟩
  | blk :: blocks, done, b, gs, h, hc, hasc, hle => by
    obtain ⟨hfirst, hasc⟩ := List.pairwise_cons.mp hasc
    obtain ⟨gs', h', hc', hlen⟩ := h.startBlock hc (hle blk List.mem_cons_self)
    have hw : (addBlock policy b blk).Wrote policy gs' := by
      rw [addBlock, foldl_addKey]
      exact ⟨h'.result, h'.filter_offsets⟩
    have hcov : (addBlock policy b blk).Covers gs' (done ++ [blk]) := by
      rw [addBlock, foldl_addKey]
      intro blk' hblk' k hk
      rcases List.mem_append.mp hblk' with hdone | hnew
      · rcases hc' blk' hdone k hk with hold | ⟨hi, hkeys⟩
        · exact Or.inl hold
        · exact Or.inr ⟨hi, List.mem_append_left _ hkeys⟩
      · obtain rfl := List.mem_singleton.mp hnew
        exact Or.inr ⟨hlen.symm, List.mem_append_right _ hk⟩
    have hle' : ∀ blk' ∈ blocks, gs'.length ≤ blk'.1 / kFilterBase := fun blk' hblk' => by
      rw [hlen]
      exact Nat.div_le_div_right (hfirst _ (List.mem_map_of_mem hblk'))
    obtain ⟨gs'', h'', hc''⟩ := Wrote.addBlocks blocks hw hcov hasc hle'
    refine ⟨gs'', h'', ?_⟩
    rwa [List.append_assoc, List.singleton_append] at hc''

theorem wrote_new : new.Wrote policy [] := ⟨rfl, rfl⟩

/-- What the block is in the end. -/
theorem Wrote.finish {blocks : List (ℕ × List Slice)} (h : b.Wrote policy gs) (hc : b.Covers gs blocks) :
    ∃ gs', b.finish policy = gs'.flatMap (filterBytes policy) ++
        ((filterWords policy gs' (gs'.length + 1)).flatMap encodeFixed32 ++ [UInt8.ofNat kFilterBaseLg]) ∧
      ∀ blk ∈ blocks, ∀ k ∈ blk.2, ∃ g, gs'[blk.1 / kFilterBase]? = some g ∧ k ∈ g := by
  have hbytes {b' : FilterBlockBuilder} {gs' : List (List Slice)} (h' : b'.Wrote policy gs') :
      putFixed32 (b'.filter_offsets.foldl putFixed32 b'.result) (UInt32.ofNat b'.result.length) ++
        [UInt8.ofNat kFilterBaseLg] = gs'.flatMap (filterBytes policy) ++
        ((filterWords policy gs' (gs'.length + 1)).flatMap encodeFixed32 ++ [UInt8.ofNat kFilterBaseLg]) := by
    have hlast : filterWords policy gs' (gs'.length + 1) =
        b'.filter_offsets ++ [UInt32.ofNat b'.result.length] := by
      rw [h'.filter_offsets, h'.result, filterWords, List.range_succ, List.map_append, List.map_singleton,
        Frames.off_length]
      rfl
    rw [foldl_putFixed32, putFixed32, hlast, List.flatMap_append, List.flatMap_singleton, ← h'.result]
    simp only [List.append_assoc]
  unfold FilterBlockBuilder.finish
  split_ifs with hkeys
  · obtain ⟨h', hnil⟩ := h.generateFilter
    refine ⟨_, hbytes h', fun blk hblk k hk => ?_⟩
    have hcov : (b.generateFilter policy).Covers (gs ++ [b.keys]) blocks := hc.generateFilter
    rcases hcov blk hblk k hk with hg | ⟨-, hkeys'⟩
    · exact hg
    · rw [hnil] at hkeys'
      cases hkeys'
  · refine ⟨gs, hbytes h, fun blk hblk k hk => ?_⟩
    rcases hc blk hblk k hk with hg | ⟨-, hkeys'⟩
    · exact hg
    · rw [not_not.mp hkeys] at hkeys'
      cases hkeys'

end FilterBlockBuilder

namespace FilterBlock

/-- The contents of a filter block with the filters of these groups of keys. -/
def contents (policy : FilterPolicy) (gs : List (List Slice)) : Slice :=
  gs.flatMap (filterBytes policy) ++
    ((filterWords policy gs (gs.length + 1)).flatMap encodeFixed32 ++ [UInt8.ofNat kFilterBaseLg])

theorem length_contents (policy : FilterPolicy) (gs : List (List Slice)) : (contents policy gs).length =
    (gs.flatMap (filterBytes policy)).length + (gs.length * 4 + 5) := by
  have hwords : ((filterWords policy gs (gs.length + 1)).flatMap encodeFixed32).length = (gs.length + 1) * 4 := by
    rw [← Frames.off_length, Frames.off_eq_mul length_encodeFixed32 le_rfl, filterWords, List.length_map,
      List.length_range]
  rw [contents, List.length_append, List.length_append, hwords, List.length_singleton]
  omega

/-- The word `j` of the array of offsets. -/
theorem drop_contents {j : ℕ} (hj : j ≤ gs.length) : ∃ rest, (contents policy gs).drop
    ((gs.flatMap (filterBytes policy)).length + j * 4) =
      encodeFixed32 (UInt32.ofNat (Frames.off (filterBytes policy) gs j)) ++ rest := by
  obtain ⟨ws, hws⟩ : ∃ ws, ws = filterWords policy gs (gs.length + 1) := ⟨_, rfl⟩
  have hget : ws[j]? = some (UInt32.ofNat (Frames.off (filterBytes policy) gs j)) := by
    rw [hws, filterWords, List.getElem?_map, List.getElem?_range (Nat.lt_succ_of_le hj)]
    rfl
  have hoff : Frames.off encodeFixed32 ws j = j * 4 :=
    Frames.off_eq_mul length_encodeFixed32 (List.getElem?_eq_some_iff.mp hget).1.le
  refine ⟨(ws.drop (j + 1)).flatMap encodeFixed32 ++ [UInt8.ofNat kFilterBaseLg], ?_⟩
  rw [contents, ← List.drop_drop, List.drop_left, ← hws, ← hoff,
    List.drop_append_of_le_length (Frames.off_le _ _ _), Frames.drop_off hget, List.append_assoc]

theorem decode_contents (hfits : Fits (contents policy gs)) {j : ℕ} (hj : j ≤ gs.length) :
    (decodeFixed32 ((contents policy gs).drop ((gs.flatMap (filterBytes policy)).length + j * 4))).toNat =
      Frames.off (filterBytes policy) gs j := by
  obtain ⟨rest, hdrop⟩ := @drop_contents policy gs j hj
  have hlt : (contents policy gs).length < 2 ^ 32 := hfits
  have hle := Frames.off_le (filterBytes policy) gs j
  rw [length_contents] at hlt
  rw [hdrop, decodeFixed32_encodeFixed32]
  exact UInt32.toNat_ofNat_of_lt' (show Frames.off (filterBytes policy) gs j < 2 ^ 32 by omega)

theorem new_contents (hfits : Fits (contents policy gs)) : FilterBlockReader.new (contents policy gs) =
    ⟨contents policy gs, (gs.flatMap (filterBytes policy)).length, gs.length, kFilterBaseLg⟩ := by
  have hlen := length_contents policy gs
  have hword := decode_contents hfits (le_refl gs.length)
  rw [Frames.off_length] at hword
  have hlast : ((contents policy gs)[(contents policy gs).length - 1]?.getD 0).toNat = kFilterBaseLg := by
    have hget : (contents policy gs)[(contents policy gs).length - 1]? = some (UInt8.ofNat kFilterBaseLg) := by
      rw [contents, ← List.append_assoc, List.length_append, List.length_singleton, Nat.add_sub_cancel,
        List.getElem?_concat_length]
    rw [hget]
    rfl
  unfold FilterBlockReader.new
  simp only [hlast]
  rw [if_neg (by omega), show (contents policy gs).length - 5 =
    (gs.flatMap (filterBytes policy)).length + gs.length * 4 by omega, hword, if_neg (by omega)]
  congr 1
  omega

theorem keyMayMatch_contents {k k' : Slice} (hmatch : ∀ keys, k ∈ keys → policy.keyMayMatch k' (policy.createFilter keys) = true)
    (hfits : Fits (contents policy gs)) {o : ℕ} {g : List Slice} (hg : gs[o / kFilterBase]? = some g) (hk : k ∈ g) :
    (FilterBlockReader.new (contents policy gs)).keyMayMatch policy o k' = true := by
  have hi := (List.getElem?_eq_some_iff.mp hg).1
  have hindex : o >>> kFilterBaseLg = o / kFilterBase := Nat.shiftRight_eq_div_pow o kFilterBaseLg
  have hstart := decode_contents hfits hi.le
  have hlimit := decode_contents hfits (show o / kFilterBase + 1 ≤ gs.length from hi)
  have hsucc : Frames.off (filterBytes policy) gs (o / kFilterBase + 1) = _ := Frames.off_succ hg
  have hle := Frames.off_le (filterBytes policy) gs (o / kFilterBase + 1)
  have hbytes : filterBytes policy g = policy.createFilter g := if_neg (List.ne_nil_of_mem hk)
  have hfilter : ((contents policy gs).drop (Frames.off (filterBytes policy) gs (o / kFilterBase))).take
      (filterBytes policy g).length = filterBytes policy g := by
    rw [contents, List.drop_append_of_le_length (Frames.off_le _ _ _), Frames.drop_off hg, List.append_assoc,
      List.take_left]
  rw [Nat.succ_mul, ← Nat.add_assoc] at hlimit
  unfold FilterBlockReader.keyMayMatch
  simp only [new_contents hfits, hindex, if_pos hi, hstart, hlimit]
  rw [if_pos ⟨by omega, hle⟩, hsucc, Nat.add_sub_cancel_left, hfilter, hbytes]
  exact hmatch g hk

/-- The filter block of blocks that are given by their offsets and keys, the last offset behind them all. -/
def build (policy : FilterPolicy) (blocks : List (ℕ × List Slice)) : Slice :=
  (blocks.foldl (FilterBlockBuilder.addBlock policy) FilterBlockBuilder.new).finish policy

theorem keyMayMatch_build {k k' : Slice} (hmatch : ∀ keys, k ∈ keys → policy.keyMayMatch k' (policy.createFilter keys) = true)
    {blocks : List (ℕ × List Slice)} (hasc : (blocks.map Prod.fst).Pairwise (· ≤ ·))
    (hfits : Fits (build policy blocks)) {blk : ℕ × List Slice} (hblk : blk ∈ blocks) (hk : k ∈ blk.2) :
    (FilterBlockReader.new (build policy blocks)).keyMayMatch policy blk.1 k' = true := by
  have hnone : FilterBlockBuilder.new.Covers [] [] := fun blk hblk => absurd hblk List.not_mem_nil
  obtain ⟨gs, h, hc⟩ := FilterBlockBuilder.Wrote.addBlocks blocks FilterBlockBuilder.wrote_new hnone hasc
    (fun blk _ => Nat.zero_le _)
  rw [List.nil_append] at hc
  obtain ⟨gs', hbuild, hgroups⟩ := h.finish hc
  have heq : build policy blocks = contents policy gs' := hbuild
  rw [heq] at hfits ⊢
  obtain ⟨g, hg, hkg⟩ := hgroups blk hblk k hk
  exact keyMayMatch_contents hmatch hfits hg hkg

/-- **A filter never denies a key that was added**: with any policy that matches the keys of which its filter is
made, such as the bloom filter with any number of bits per key, the filter block of blocks in ascending order
matches every key at the offset of its block; made of internal keys, it matches every key with the same user key. -/
theorem match_of_added {blocks : List (ℕ × List Slice)} (hasc : (blocks.map Prod.fst).Pairwise (· ≤ ·)) :
    (∀ bits_per_key, (Bloom.policy bits_per_key).Sound) ∧
    ∀ policy : FilterPolicy, policy.Sound →
      (Fits (build policy blocks) → ∀ blk ∈ blocks, ∀ k ∈ blk.2,
        (FilterBlockReader.new (build policy blocks)).keyMayMatch policy blk.1 k = true) ∧
      (Fits (build (internalFilterPolicy policy) blocks) → ∀ blk ∈ blocks, ∀ k ∈ blk.2, ∀ k',
        extractUserKey k' = extractUserKey k →
          (FilterBlockReader.new (build (internalFilterPolicy policy) blocks)).keyMayMatch
            (internalFilterPolicy policy) blk.1 k' = true) := by
  refine ⟨Bloom.sound, fun policy hsound => ⟨fun hfits blk hblk k hk => ?_, fun hfits blk hblk k hk k' hk' => ?_⟩⟩
  · exact keyMayMatch_build (fun keys hkeys => hsound keys k hkeys) hasc hfits hblk hk
  · refine keyMayMatch_build (fun keys hkeys => ?_) hasc hfits hblk hk
    show policy.keyMayMatch (extractUserKey k') _ = true
    rw [hk']
    exact hsound.internal keys k hkeys

/-- Two blocks of one key each, the second far enough behind for a filter of its own. -/
theorem match_of_added_two : ∃ blocks : List (ℕ × List Slice), blocks =
    [(0, [[1, 0, 0, 0, 0, 0, 0, 0, 0]]), (5000, [[2, 0, 0, 0, 0, 0, 0, 0, 0]])] ∧
    (∀ blk ∈ blocks, ∀ k ∈ blk.2, (FilterBlockReader.new (build (Bloom.policy 10) blocks)).keyMayMatch
      (Bloom.policy 10) blk.1 k = true) ∧
    ∀ blk ∈ blocks, ∀ k ∈ blk.2, ∀ k', extractUserKey k' = extractUserKey k →
      (FilterBlockReader.new (build (internalFilterPolicy (Bloom.policy 10)) blocks)).keyMayMatch
        (internalFilterPolicy (Bloom.policy 10)) blk.1 k' = true := by
  have hasc : (([(0, [[1, 0, 0, 0, 0, 0, 0, 0, 0]]), (5000, [[2, 0, 0, 0, 0, 0, 0, 0, 0]])] :
      List (ℕ × List Slice)).map Prod.fst).Pairwise (· ≤ ·) := by decide
  obtain ⟨hbloom, hmatch⟩ := match_of_added hasc
  obtain ⟨hplain, hinternal⟩ := hmatch (Bloom.policy 10) (hbloom 10)
  exact ⟨_, rfl, hplain (by decide), hinternal (by decide)⟩

end FilterBlock

end Blocks

end Leveldb
