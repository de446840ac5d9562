import WorldToPE.Engine.Crc32c
import WorldToPE.Engine.WriteBatch

/-!
# WorldToPE.Engine.TableFormat — what a table file is made of

`table/format.cc`: a block is stored with its compression type and a checksum behind it, a handle says
where a block is stored, and the footer at the end of the file has the handles of the two blocks that
lead to the others.
-/

namespace Leveldb

/-! ## Handles -/

structure BlockHandle where
  offset : UInt64
  size : UInt64
deriving DecidableEq

namespace BlockHandle

def encodeTo (h : BlockHandle) (dst : Slice) : Slice := putVarint64 (putVarint64 dst h.offset) h.size

def decodeFrom (input : Slice) : Except Status (BlockHandle × Slice) :=
  match getVarint64 input with
  | none => .error (.corruption "bad block handle")
  | some (offset, input) =>
    match getVarint64 input with
    | none => .error (.corruption "bad block handle")
    | some (size, input) => .ok (⟨offset, size⟩, input)

/-- Maximum encoding length of a BlockHandle. -/
def kMaxEncodedLength : ℕ := 10 + 10

theorem encodeTo_eq (h : BlockHandle) (dst : Slice) : h.encodeTo dst = dst ++ h.encodeTo [] := by
  simp only [encodeTo, putVarint64, List.nil_append, List.append_assoc]

theorem decodeFrom_encodeTo (h : BlockHandle) (rest : Slice) :
    decodeFrom (h.encodeTo [] ++ rest) = .ok (h, rest) := by
  simp only [encodeTo, putVarint64, List.nil_append, List.append_assoc, decodeFrom, getVarint64_put]

theorem decodeFrom_encodeTo_self (h : BlockHandle) : decodeFrom (h.encodeTo []) = .ok (h, []) := by
  have hdecode := decodeFrom_encodeTo h []
  rwa [List.append_nil] at hdecode

theorem encodeTo_injective {h h' : BlockHandle} (heq : h.encodeTo [] = h'.encodeTo []) : h = h' := by
  have hdecode := decodeFrom_encodeTo_self h
  rw [heq, decodeFrom_encodeTo_self] at hdecode
  injection hdecode with hpair
  exact (Prod.mk.inj hpair).1.symm

theorem length_encodeTo_le (h : BlockHandle) : (h.encodeTo []).length ≤ kMaxEncodedLength := by
  have hlen (v : UInt64) : (encodeVarint64 v).length ≤ 10 := by
    have hv := v.toNat_lt
    rw [encodeVarint64_eq (by omega : 0 < 10) (by omega)]
    exact Varint.length_encode_le 10 v.toNat
  have h1 := hlen h.offset
  have h2 := hlen h.size
  simp only [encodeTo, putVarint64, List.nil_append, List.length_append, kMaxEncodedLength]
  omega

end BlockHandle

/-! ## The footer -/

structure Footer where
  metaindex_handle : BlockHandle
  index_handle : BlockHandle
deriving DecidableEq

def kTableMagicNumber : UInt64 := 0xdb4775248b80fb57

namespace Footer

def kEncodedLength : ℕ := 2 * BlockHandle.kMaxEncodedLength + 8

/-- The handles are padded to a fixed size, and the magic number stands behind them. -/
def encodeTo (f : Footer) : Slice :=
  let dst := f.index_handle.encodeTo (f.metaindex_handle.encodeTo [])
  let dst := (dst ++ List.replicate (2 * BlockHandle.kMaxEncodedLength) 0).take (2 * BlockHandle.kMaxEncodedLength)
  putFixed32 (putFixed32 dst (kTableMagicNumber &&& 0xffffffff).toUInt32) (kTableMagicNumber >>> 32).toUInt32

def decodeFrom (input : Slice) : Except Status Footer :=
  let magic_ptr := input.drop (kEncodedLength - 8)
  let magic_lo := decodeFixed32 magic_ptr
  let magic_hi := decodeFixed32 (magic_ptr.drop 4)
  let magic := (magic_hi.toUInt64 <<< 32) ||| magic_lo.toUInt64
  if magic ≠ kTableMagicNumber then .error (.corruption "not an sstable (bad magic number)")
  else do
    let (metaindex_handle, input) ← BlockHandle.decodeFrom input
    let (index_handle, _) ← BlockHandle.decodeFrom input
    return ⟨metaindex_handle, index_handle⟩

theorem encodeTo_eq (f : Footer) : ∃ pad, f.encodeTo = (f.metaindex_handle.encodeTo [] ++ (f.index_handle.encodeTo [] ++
      pad)) ++ (encodeFixed32 (kTableMagicNumber &&& 0xffffffff).toUInt32 ++
        encodeFixed32 (kTableMagicNumber >>> 32).toUInt32) ∧
    (f.metaindex_handle.encodeTo [] ++ (f.index_handle.encodeTo [] ++ pad)).length = kEncodedLength - 8 := by
  have h1 := f.metaindex_handle.length_encodeTo_le
  have h2 := f.index_handle.length_encodeTo_le
  obtain ⟨n, hn⟩ : ∃ n, n = 2 * BlockHandle.kMaxEncodedLength := ⟨_, rfl⟩
  obtain ⟨both, hboth⟩ : ∃ both, both = f.metaindex_handle.encodeTo [] ++ f.index_handle.encodeTo [] := ⟨_, rfl⟩
  have hle : both.length ≤ n := by
    rw [hboth, List.length_append]
    omega
  have htake : (both ++ List.replicate n (0 : UInt8)).take n = both ++ List.replicate (n - both.length) 0 := by
    rw [List.take_append, List.take_of_length_le hle, List.take_replicate, Nat.min_eq_left (by omega)]
  refine ⟨List.replicate (n - both.length) 0, ?_, ?_⟩
  · unfold encodeTo
    simp only [← hn]
    rw [BlockHandle.encodeTo_eq f.index_handle, ← hboth, htake, putFixed32, putFixed32, hboth]
    simp only [List.append_assoc]
  · rw [← List.append_assoc, ← hboth, List.length_append, List.length_replicate, kEncodedLength]
    omega

@[simp] theorem length_encodeTo (f : Footer) : f.encodeTo.length = kEncodedLength := by
  obtain ⟨pad, heq, hlen⟩ := f.encodeTo_eq
  rw [heq, List.length_append, hlen, List.length_append, length_encodeFixed32, length_encodeFixed32]
  rfl

theorem decodeFrom_encodeTo (f : Footer) : decodeFrom f.encodeTo = .ok f := by
  obtain ⟨pad, heq, hlen⟩ := f.encodeTo_eq
  have hdrop : f.encodeTo.drop (kEncodedLength - 8) = encodeFixed32 (kTableMagicNumber &&& 0xffffffff).toUInt32 ++
      encodeFixed32 (kTableMagicNumber >>> 32).toUInt32 := by
    rw [heq, ← hlen, List.drop_left]
  have hhi : decodeFixed32 (encodeFixed32 (kTableMagicNumber >>> 32).toUInt32) =
      (kTableMagicNumber >>> 32).toUInt32 := by
    have hdecode := decodeFixed32_encodeFixed32 (kTableMagicNumber >>> 32).toUInt32 []
    rwa [List.append_nil] at hdecode
  have hmagic : ((kTableMagicNumber >>> 32).toUInt32.toUInt64 <<< 32) |||
      (kTableMagicNumber &&& 0xffffffff).toUInt32.toUInt64 = kTableMagicNumber := by decide
  unfold decodeFrom
  simp only [hdrop, decodeFixed32_encodeFixed32, List.drop_left' (length_encodeFixed32 _), hhi, hmagic, ne_eq,
    not_true_eq_false, if_false]
  rw [heq, List.append_assoc, BlockHandle.decodeFrom_encodeTo]
  show (BlockHandle.decodeFrom _).bind _ = _
  rw [List.append_assoc, BlockHandle.decodeFrom_encodeTo]
  rfl

end Footer

/-! ## Stored blocks -/

inductive CompressionType
  | kNoCompression
  | kSnappyCompression
deriving DecidableEq

def CompressionType.code : CompressionType → UInt8
  | .kNoCompression => 0
  | .kSnappyCompression => 1

/-- `Snappy_Compress`, and `Snappy_GetUncompressedLength` with `Snappy_Uncompress`. -/
structure Snappy where
  compress : Slice → Slice
  uncompress : Slice → Option Slice

/-- What was compressed is there again when it is uncompressed. -/
def Snappy.Lossless (snappy : Snappy) : Prop := ∀ s, snappy.uncompress (snappy.compress s) = some s

/-- 1-byte type + 32-bit crc. -/
def kBlockTrailerSize : ℕ := 5

/-- What `WriteRawBlock` puts behind the contents of a block. -/
def blockTrailer (block_contents : Slice) (type : CompressionType) : Slice :=
  let crc := Crc32c.value 0 block_contents
  let crc := Crc32c.extend 0 crc [type.code]  -- Extend crc to cover block type
  type.code :: encodeFixed32 (Crc32c.mask crc)

@[simp] theorem length_blockTrailer (block_contents : Slice) (type : CompressionType) :
    (blockTrailer block_contents type).length = kBlockTrailerSize := by
  rw [blockTrailer, List.length_cons, length_encodeFixed32]
  rfl

def readBlock (snappy : Snappy) (verify_checksums : Bool) (file : Slice) (handle : BlockHandle) :
    Except Status Slice :=
  let n := handle.size.toNat
  let contents := (file.drop handle.offset.toNat).take (n + kBlockTrailerSize)
  if contents.length ≠ n + kBlockTrailerSize then .error (.corruption "truncated block read")
  -- Check the crc of the type and the block contents
  else if verify_checksums ∧
      Crc32c.value 0 (contents.take (n + 1)) ≠ Crc32c.unmask (decodeFixed32 (contents.drop (n + 1))) then
    .error (.corruption "block checksum mismatch")
  else
    match contents[n]? with
    | some 0 => .ok (contents.take n)
    | some 1 =>
      match snappy.uncompress (contents.take n) with
      | some data => .ok data
      | none => .error (.corruption "corrupted compressed block contents")
    | _ => .error (.corruption "bad block type")

/-- What the contents of a block of this type stand for. -/
def CompressionType.expand (snappy : Snappy) : CompressionType → Slice → Option Slice
  | .kNoCompression, contents => some contents
  | .kSnappyCompression, contents => snappy.uncompress contents

/-- A block that was stored is read back, with or without the check. -/
theorem readBlock_stored {snappy : Snappy} {verify : Bool} {file front rest contents data : Slice}
    {type : CompressionType} {handle : BlockHandle} (hfile : file = front ++ (contents ++ blockTrailer contents type ++ rest))
    (hoffset : handle.offset.toNat = front.length) (hsize : handle.size.toNat = contents.length)
    (hdata : type.expand snappy contents = some data) : readBlock snappy verify file handle = .ok data := by
  have hread : (file.drop handle.offset.toNat).take (contents.length + kBlockTrailerSize) =
      contents ++ blockTrailer contents type := by
    rw [hfile, hoffset, List.drop_left]
    refine List.take_left' ?_
    rw [List.length_append, length_blockTrailer]
  have hsum : (contents ++ blockTrailer contents type).take (contents.length + 1) = contents ++ [type.code] := by
    rw [List.take_append, List.take_of_length_le (by omega), Nat.add_sub_cancel_left]
    rfl
  have hcrc : (contents ++ blockTrailer contents type).drop (contents.length + 1) =
      encodeFixed32 (Crc32c.mask (Crc32c.extend 0 (Crc32c.value 0 contents) [type.code])) := by
    rw [List.drop_append, List.drop_of_length_le (by omega), Nat.add_sub_cancel_left]
    rfl
  have hdecode (v : UInt32) : decodeFixed32 (encodeFixed32 v) = v := by
    have h := decodeFixed32_encodeFixed32 v []
    rwa [List.append_nil] at h
  have hcheck : Crc32c.value 0 (contents ++ [type.code]) =
      Crc32c.extend 0 (Crc32c.value 0 contents) [type.code] := by
    rw [Crc32c.value, Crc32c.value, Crc32c.extend_extend 0 0 0]
  have hbyte : (contents ++ blockTrailer contents type)[contents.length]? = some type.code := by
    rw [List.getElem?_append_right le_rfl, Nat.sub_self]
    rfl
  unfold readBlock
  simp only [hsize, hread]
  rw [if_neg (by simp), hsum, hcrc, hdecode, Crc32c.unmask_mask, hcheck, if_neg (by simp), hbyte, List.take_left]
  cases type with
  | kNoCompression => exact congrArg Except.ok (Option.some.inj hdata)
  | kSnappyCompression =>
    have hunc : snappy.uncompress contents = some data := hdata
    show (match snappy.uncompress contents with
      | some data => Except.ok data
      | none => Except.error (Status.corruption "corrupted compressed block contents")) = _
    rw [hunc]

end Leveldb
