import WorldToPE.Engine.Crc32c

/-!
# WorldToPE.Engine.Log — the write-ahead log

`db/log_writer.cc` and `db/log_reader.cc`.  The log is a sequence of blocks of 32768 bytes.  A record
is written in fragments that do not cross a block; each has a header with a masked checksum, a length
and a type.  The reader takes a block at a time, puts the fragments together, and reports what it
drops; here it returns these reports.

`log_readAll`: a log gives back its records, and cut off anywhere it gives back those that are there
as a whole; no corruption is reported.
-/

namespace Leveldb

namespace Log

def kBlockSize : ℕ := 32768

/-- Checksum, length and type. -/
def kHeaderSize : ℕ := 7

def kZeroType : ℕ := 0
def kFullType : ℕ := 1
def kFirstType : ℕ := 2
def kMiddleType : ℕ := 3
def kLastType : ℕ := 4
def kEof : ℕ := 5
def kBadRecord : ℕ := 6

/-! ## The writer -/

structure Writer where
  dest : Slice
  block_offset : ℕ

/-- A header and its payload. -/
def physicalRecord (t : ℕ) (payload : Slice) : Slice :=
  let n := payload.length
  let crc := Crc32c.extend 0 (Crc32c.value 0 [UInt8.ofNat t]) payload
  encodeFixed32 (Crc32c.mask crc) ++ [UInt8.ofNat n, UInt8.ofNat (n >>> 8), UInt8.ofNat t] ++ payload

def Writer.emitPhysicalRecord (w : Writer) (t : ℕ) (payload : Slice) : Writer :=
  ⟨w.dest ++ physicalRecord t payload, w.block_offset + kHeaderSize + payload.length⟩

/-- No header fits into the rest of the block: it is filled, and the next block begins. -/
def Writer.switchBlock (w : Writer) : Writer :=
  let leftover := kBlockSize - w.block_offset
  if leftover < kHeaderSize then ⟨w.dest ++ List.replicate leftover 0, 0⟩ else w

def Writer.avail (w : Writer) : ℕ := kBlockSize - w.switchBlock.block_offset - kHeaderSize

theorem Writer.avail_of_full {w : Writer} (h : kBlockSize ≤ w.block_offset) : w.avail = 32761 := by
  have hlt : kBlockSize - w.block_offset < kHeaderSize := by
    simp only [kHeaderSize]
    omega
  unfold avail switchBlock
  rw [if_pos hlt]
  rfl

/-- The loop of `AddRecord`. -/
def Writer.addRecordLoop (isBegin : Bool) (left : Slice) (w : Writer) : Writer :=
  let fragment_length := if left.length < w.avail then left.length else w.avail
  let isEnd := decide (left.length = fragment_length)
  let type :=
    if isBegin && isEnd then kFullType
    else if isBegin then kFirstType
    else if isEnd then kLastType
    else kMiddleType
  let w' := w.switchBlock.emitPhysicalRecord type (left.take fragment_length)
  if 0 < (left.drop fragment_length).length then addRecordLoop false (left.drop fragment_length) w'
  else w'
termination_by 2 * left.length + if w.avail = 0 then 1 else 0
decreasing_by
  rename_i hpos
  rw [List.length_drop] at hpos ⊢
  by_cases h0 : w.avail = 0
  · -- the fragment was empty, and the next one begins a block
    have hoff : (w.switchBlock.emitPhysicalRecord type (left.take fragment_length)).avail = 32761 := by
      apply avail_of_full
      unfold avail at h0
      simp only [emitPhysicalRecord, kBlockSize, kHeaderSize] at *
      omega
    rw [hoff, if_pos h0]
    simp
  · have hlen : 0 < fragment_length := by
      simp only [fragment_length]
      split_ifs <;> omega
    split_ifs <;> omega

def Writer.addRecord (w : Writer) (slice : Slice) : Writer := w.addRecordLoop true slice

/-! ## The reader -/

/-- A call of the reporter: how many bytes are dropped, and why. -/
abbrev Drop := ℕ × String

structure Reader where
  file : Slice
  buffer : Slice
  eof : Bool
  checksum : Bool

/-- What `ReadPhysicalRecord` returns, and what it reports. -/
structure Physical where
  type : ℕ
  fragment : Slice
  drops : List Drop
  reader : Reader

/-- The next block is read. -/
def Reader.refill (r : Reader) : Reader :=
  { r with
    file := r.file.drop kBlockSize
    buffer := r.file.take kBlockSize
    eof := decide ((r.file.take kBlockSize).length < kBlockSize) }

/-- The record at the front of the buffer, which holds at least a header. -/
def Reader.parse (r : Reader) : Physical :=
  let a := (r.buffer.getD 4 0).toNat
  let b := (r.buffer.getD 5 0).toNat
  -- unsigned, as `char` is on ARM: on x86 the number of an unknown type from 128 on is sign-extended
  let type := (r.buffer.getD 6 0).toNat
  let length := a ||| (b <<< 8)
  if kHeaderSize + length > r.buffer.length then
    if r.eof then
      -- the writer died in the middle of the record
      ⟨kEof, [], [], { r with buffer := [] }⟩
    else ⟨kBadRecord, [], [(r.buffer.length, "bad record length")], { r with buffer := [] }⟩
  else if type = kZeroType ∧ length = 0 then ⟨kBadRecord, [], [], { r with buffer := [] }⟩
  else
    let expected_crc := Crc32c.unmask (decodeFixed32 r.buffer)
    let actual_crc := Crc32c.value 0 ((r.buffer.drop 6).take (1 + length))
    if r.checksum ∧ actual_crc ≠ expected_crc then
      ⟨kBadRecord, [], [(r.buffer.length, "checksum mismatch")], { r with buffer := [] }⟩
    else
      ⟨type, (r.buffer.drop kHeaderSize).take length, [],
        { r with buffer := r.buffer.drop (kHeaderSize + length) }⟩

/-- One refill is enough: after it the buffer holds a header, or the file has ended. -/
def Reader.readPhysicalRecord (r : Reader) : Physical :=
  if r.buffer.length < kHeaderSize then
    if r.eof then ⟨kEof, [], [], { r with buffer := [] }⟩
    else if r.refill.buffer.length < kHeaderSize then ⟨kEof, [], [], { r.refill with buffer := [] }⟩
    else r.refill.parse
  else r.parse

def Reader.size (r : Reader) : ℕ := r.buffer.length + r.file.length

theorem Reader.size_parse (r : Reader) (h : kHeaderSize ≤ r.buffer.length) :
    r.parse.reader.size < r.size := by
  unfold size
  have h7 : kHeaderSize = 7 := rfl
  have hb : r.parse.reader.buffer.length < r.buffer.length ∧ r.parse.reader.file = r.file := by
    simp only [parse]
    split_ifs <;> refine ⟨?_, rfl⟩
    all_goals simp only [List.length_nil, List.length_drop]; omega
  rw [hb.2]
  omega

theorem Reader.size_readPhysicalRecord (r : Reader) (h : r.readPhysicalRecord.type ≠ kEof) :
    r.readPhysicalRecord.reader.size < r.size := by
  unfold readPhysicalRecord at h ⊢
  split_ifs at h ⊢ with h1 h2 h3
  · exact absurd rfl h
  · exact absurd rfl h
  · refine lt_of_lt_of_le (size_parse _ (not_lt.mp h3)) ?_
    unfold refill size
    simp only [List.length_take, List.length_drop]
    omega
  · exact size_parse r (not_lt.mp h1)

/-- The loop of `ReadRecord`: the record, if there is one, and the reports. -/
def Reader.readRecordLoop (r : Reader) (in_fragmented_record : Bool) (scratch : Slice) :
    Option Slice × List Drop × Reader :=
  let p := r.readPhysicalRecord
  if p.type = kEof then (none, p.drops, p.reader)
  else if p.type = kFullType then
    let drops :=
      if in_fragmented_record ∧ scratch ≠ [] then [(scratch.length, "partial record without end(1)")]
      else []
    (some p.fragment, p.drops ++ drops, p.reader)
  else if p.type = kFirstType then
    let drops :=
      if in_fragmented_record ∧ scratch ≠ [] then [(scratch.length, "partial record without end(2)")]
      else []
    let q := p.reader.readRecordLoop true p.fragment
    (q.1, p.drops ++ drops ++ q.2.1, q.2.2)
  else if p.type = kMiddleType then
    if in_fragmented_record then
      let q := p.reader.readRecordLoop true (scratch ++ p.fragment)
      (q.1, p.drops ++ q.2.1, q.2.2)
    else
      let q := p.reader.readRecordLoop false scratch
      (q.1, p.drops ++ [(p.fragment.length, "missing start of fragmented record(1)")] ++ q.2.1, q.2.2)
  else if p.type = kLastType then
    if in_fragmented_record then (some (scratch ++ p.fragment), p.drops, p.reader)
    else
      let q := p.reader.readRecordLoop false scratch
      (q.1, p.drops ++ [(p.fragment.length, "missing start of fragmented record(2)")] ++ q.2.1, q.2.2)
  else if p.type = kBadRecord then
    let drops := if in_fragmented_record then [(scratch.length, "error in middle of record")] else []
    let q := p.reader.readRecordLoop false (if in_fragmented_record then [] else scratch)
    (q.1, p.drops ++ drops ++ q.2.1, q.2.2)
  else
    let size := p.fragment.length + if in_fragmented_record then scratch.length else 0
    let q := p.reader.readRecordLoop false []
    (q.1, p.drops ++ [(size, "unknown record type " ++ toString p.type)] ++ q.2.1, q.2.2)
termination_by r.size
decreasing_by all_goals exact r.size_readPhysicalRecord ‹_›

def Reader.readRecord (r : Reader) : Option Slice × List Drop × Reader := r.readRecordLoop false []

/-- A reader at the start of a file. -/
def Reader.new (file : Slice) (checksum : Bool) : Reader := ⟨file, [], false, checksum⟩

/-! ## One physical record -/

section Physical

variable {t : ℕ} {payload p q rest : Slice} {r : Reader}

@[simp] theorem length_physicalRecord (t : ℕ) (payload : Slice) :
    (physicalRecord t payload).length = kHeaderSize + payload.length := by
  simp only [physicalRecord, List.length_append, length_encodeFixed32, List.length_cons, List.length_nil]
  rfl

/-- The two bytes of the length. -/
theorem length_bytes {n : ℕ} (h : n < 2 ^ 16) :
    (UInt8.ofNat n).toNat ||| ((UInt8.ofNat (n >>> 8)).toNat <<< 8) = n := by
  have hlow : n % 2 ^ 8 < 2 ^ 8 := Nat.mod_lt _ (by omega)
  have hor := Nat.two_pow_add_eq_or_of_lt hlow (n / 2 ^ 8)
  rw [UInt8.toNat_ofNat', UInt8.toNat_ofNat', Nat.shiftRight_eq_div_pow, Nat.shiftLeft_eq,
    Nat.mod_eq_of_lt (by omega : n / 2 ^ 8 < 2 ^ 8), Nat.or_comm, mul_comm, ← hor]
  omega

/-- The fields of a header, whatever follows it. -/
theorem header_fields (htake : p.take 7 = (physicalRecord t payload).take 7) (hn : payload.length < 2 ^ 16) :
    (p.getD 4 0).toNat ||| ((p.getD 5 0).toNat <<< 8) = payload.length ∧ p.getD 6 0 = UInt8.ofNat t ∧
    decodeFixed32 p = Crc32c.mask (Crc32c.bitwise 0 (UInt8.ofNat t :: payload)) := by
  have hcrc : Crc32c.extend 0 (Crc32c.value 0 [UInt8.ofNat t]) payload =
      Crc32c.bitwise 0 (UInt8.ofNat t :: payload) := by
    rw [Crc32c.value, Crc32c.extend_extend 0 0 0, Crc32c.extend_eq_bitwise]
    rfl
  have hp : p = encodeFixed32 (Crc32c.mask (Crc32c.bitwise 0 (UInt8.ofNat t :: payload))) ++
      [UInt8.ofNat payload.length, UInt8.ofNat (payload.length >>> 8), UInt8.ofNat t] ++ p.drop 7 := by
    conv_lhs => rw [← List.take_append_drop 7 p, htake, physicalRecord]
    rw [hcrc]
    rfl
  have hget (i : ℕ) : p.getD i 0 = (encodeFixed32 (Crc32c.mask (Crc32c.bitwise 0 (UInt8.ofNat t :: payload))) ++
      [UInt8.ofNat payload.length, UInt8.ofNat (payload.length >>> 8), UInt8.ofNat t] ++ p.drop 7).getD i 0 := by
    rw [← hp]
  refine ⟨?_, ?_, ?_⟩
  · have h4 : p.getD 4 0 = UInt8.ofNat payload.length := hget 4
    have h5 : p.getD 5 0 = UInt8.ofNat (payload.length >>> 8) := hget 5
    rw [h4, h5]
    exact length_bytes hn
  · exact hget 6
  · rw [hp, List.append_assoc, decodeFixed32_encodeFixed32]

/-- A whole record at the front of the buffer is returned, and the buffer goes on behind it. -/
theorem parse_physicalRecord (h : r.buffer = physicalRecord t payload ++ rest) (ht : 0 < t)
    (ht' : t < 256) (hn : payload.length < 2 ^ 16) :
    r.parse = ⟨t, payload, [], { r with buffer := rest }⟩ := by
  have htake : r.buffer.take 7 = (physicalRecord t payload).take 7 := by
    rw [h, List.take_append_of_le_length (by rw [length_physicalRecord]; exact Nat.le_add_right _ _)]
  obtain ⟨hlen, htype, hcrc⟩ := header_fields htake hn
  have htn : (UInt8.ofNat t).toNat = t := by
    rw [UInt8.toNat_ofNat', Nat.mod_eq_of_lt ht']
  have hbuf : r.buffer.length = kHeaderSize + payload.length + rest.length := by
    rw [h, List.length_append, length_physicalRecord]
  have h6 : (r.buffer.drop 6).take (1 + payload.length) = UInt8.ofNat t :: payload := by
    rw [h, List.drop_append_of_le_length (by rw [length_physicalRecord]; simp only [kHeaderSize]; omega)]
    have hd : (physicalRecord t payload).drop 6 = UInt8.ofNat t :: payload := rfl
    rw [hd, List.take_append_of_le_length (by rw [List.length_cons]; omega), List.take_of_length_le]
    rw [List.length_cons]
    omega
  have h7 : r.buffer.drop kHeaderSize = payload ++ rest := by
    rw [h, List.drop_append_of_le_length (by rw [length_physicalRecord]; omega)]
    rfl
  have hd : r.buffer.drop (kHeaderSize + payload.length) = rest := by
    rw [← List.drop_drop, h7, List.drop_left]
  simp only [Reader.parse, hlen, htype, htn, hcrc, h6, h7, hd, Crc32c.unmask_mask, Crc32c.value,
    Crc32c.extend_eq_bitwise, List.take_left]
  rw [if_neg (by omega), if_neg (by simp only [kZeroType]; omega), if_neg (by simp)]

/-- A record that the file ends in is not there. -/
theorem parse_of_cut (h : physicalRecord t payload = r.buffer ++ q) (hq : q ≠ [])
    (h7 : kHeaderSize ≤ r.buffer.length) (hn : payload.length < 2 ^ 16) (heof : r.eof = true) :
    r.parse = ⟨kEof, [], [], { r with buffer := [] }⟩ := by
  have htake : r.buffer.take 7 = (physicalRecord t payload).take 7 := by
    rw [h, List.take_append_of_le_length (show 7 ≤ r.buffer.length from h7)]
  obtain ⟨hlen, -, -⟩ := header_fields htake hn
  have hlt : r.buffer.length < kHeaderSize + payload.length := by
    have := congrArg List.length h
    rw [length_physicalRecord, List.length_append] at this
    have hpos := List.length_pos_iff.mpr hq
    omega
  simp only [Reader.parse, hlen]
  rw [if_pos hlt, if_pos heof]

end Physical

/-! ## Where the reader is -/

/-- The reader is `off` bytes into a block, and `rest` is still to be read. -/
structure Reader.At (r : Reader) (off : ℕ) (rest : Slice) : Prop where
  le : off ≤ kBlockSize
  buffer : r.buffer = rest.take (kBlockSize - off)
  file : r.file = rest.drop (kBlockSize - off)
  eof : r.eof = true ↔ off + r.buffer.length < kBlockSize

theorem Reader.at_new (file : Slice) (checksum : Bool) : (new file checksum).At kBlockSize file where
  le := le_rfl
  buffer := by rw [Nat.sub_self]; rfl
  file := by rw [Nat.sub_self]; rfl
  eof := by simp [new]

/-- The zeros that fill a block in which no header fits. -/
def pad (off : ℕ) : Slice :=
  if kBlockSize - off < kHeaderSize then List.replicate (kBlockSize - off) 0 else []

/-- Where the next header is. -/
def start (off : ℕ) : ℕ := if kBlockSize - off < kHeaderSize then 0 else off

theorem Writer.switchBlock_eq (w : Writer) :
    w.switchBlock = ⟨w.dest ++ pad w.block_offset, start w.block_offset⟩ := by
  simp only [switchBlock, pad, start]
  split_ifs with h
  · rfl
  · rw [List.append_nil]

theorem start_le (off : ℕ) : start off + kHeaderSize ≤ kBlockSize := by
  unfold start
  split_ifs with h
  · decide
  · simp only [kBlockSize, kHeaderSize] at *
    omega

section At

variable {off t : ℕ} {payload p q rest : Slice} {r : Reader}

/-- When the file goes on behind the filled block, the next block is read. -/
theorem Reader.At.refill (h : r.At off (pad off ++ rest)) (hoff : kBlockSize - off < kHeaderSize) :
    r.buffer.length < kHeaderSize ∧ r.eof = false ∧ r.refill.At 0 rest := by
  have hle := h.le
  unfold pad at h
  rw [if_pos hoff] at h
  have hbuf : r.buffer = List.replicate (kBlockSize - off) 0 := by
    rw [h.buffer, List.take_left' List.length_replicate]
  have hfile : r.file = rest := by
    rw [h.file, List.drop_left' List.length_replicate]
  have hlen : r.buffer.length = kBlockSize - off := by
    rw [hbuf, List.length_replicate]
  refine ⟨by omega, ?_, ?_⟩
  · rw [Bool.eq_false_iff, ne_eq, h.eof]
    omega
  · exact { le := Nat.zero_le _
            buffer := by rw [Reader.refill, hfile]; rfl
            file := by rw [Reader.refill, hfile]; rfl
            eof := by simp [Reader.refill] }

/-- The file ends within the filling of a block. -/
theorem Reader.At.eof_of_pad (h : r.At off p) (hoff : kBlockSize - off < kHeaderSize)
    (hp : p.length < kBlockSize - off) : r.readPhysicalRecord.type = kEof ∧ r.readPhysicalRecord.drops = [] := by
  have hbuf : r.buffer.length = p.length := by
    rw [h.buffer, List.length_take]
    omega
  have heof : r.eof = true := by
    rw [h.eof]
    omega
  unfold readPhysicalRecord
  rw [if_pos (by omega), if_pos heof]
  exact ⟨rfl, rfl⟩

/-- A whole record where the header is. -/
theorem Reader.At.parse (h : r.At off (physicalRecord t payload ++ rest))
    (hfit : off + kHeaderSize + payload.length ≤ kBlockSize) (ht : 0 < t) (ht' : t < 256) :
    kHeaderSize ≤ r.buffer.length ∧
    ∃ r', r.parse = ⟨t, payload, [], r'⟩ ∧ r'.At (off + kHeaderSize + payload.length) rest := by
  have hn : payload.length < 2 ^ 16 := by
    simp only [kBlockSize] at hfit
    omega
  have hlen := length_physicalRecord t payload
  have hbuf : r.buffer = physicalRecord t payload ++
      rest.take (kBlockSize - (off + kHeaderSize + payload.length)) := by
    rw [h.buffer, List.take_append, hlen, List.take_of_length_le (by rw [hlen]; omega)]
    congr 2
    omega
  have hbl : r.buffer.length = kHeaderSize + payload.length +
      (rest.take (kBlockSize - (off + kHeaderSize + payload.length))).length := by
    rw [hbuf, List.length_append, hlen]
  refine ⟨by omega, _, parse_physicalRecord hbuf ht ht' hn, ?_⟩
  exact { le := hfit
          buffer := rfl
          file := by
            show r.file = _
            rw [h.file, List.drop_append, hlen, List.drop_of_length_le (by rw [hlen]; omega), List.nil_append]
            congr 1
            omega
          eof := by
            show r.eof = true ↔ _
            rw [h.eof, hbl]
            show _ ↔ off + kHeaderSize + payload.length +
              (rest.take (kBlockSize - (off + kHeaderSize + payload.length))).length < kBlockSize
            omega }

/-- A record that the file ends in, where the header is. -/
theorem Reader.At.eof_of_cut (h : r.At off p) (hpq : physicalRecord t payload = p ++ q) (hq : q ≠ [])
    (hfit : off + kHeaderSize + payload.length ≤ kBlockSize) :
    r.buffer = p ∧ r.eof = true ∧
    (kHeaderSize ≤ p.length → r.parse.type = kEof ∧ r.parse.drops = []) := by
  have hn : payload.length < 2 ^ 16 := by
    simp only [kBlockSize] at hfit
    omega
  have hlen : kHeaderSize + payload.length = p.length + q.length := by
    rw [← length_physicalRecord t payload, hpq, List.length_append]
  have hpos := List.length_pos_iff.mpr hq
  have hbuf : r.buffer = p := by
    rw [h.buffer, List.take_of_length_le (by omega)]
  have heof : r.eof = true := by
    rw [h.eof, hbuf]
    omega
  refine ⟨hbuf, heof, ?_⟩
  intro h7
  rw [← hbuf] at hpq h7
  rw [parse_of_cut hpq hq h7 hn heof]
  exact ⟨rfl, rfl⟩

/-- **A physical record is read back**, whether the block goes on or the next one begins. -/
theorem Reader.At.readPhysicalRecord (h : r.At off (pad off ++ (physicalRecord t payload ++ rest)))
    (hfit : start off + kHeaderSize + payload.length ≤ kBlockSize) (ht : 0 < t) (ht' : t < 256) :
    ∃ r', r.readPhysicalRecord = ⟨t, payload, [], r'⟩ ∧
      r'.At (start off + kHeaderSize + payload.length) rest := by
  by_cases hoff : kBlockSize - off < kHeaderSize
  · obtain ⟨hlt, heof, hat⟩ := h.refill hoff
    have hs : start off = 0 := if_pos hoff
    rw [hs] at hfit ⊢
    obtain ⟨h7, r', hparse, hat'⟩ := hat.parse hfit ht ht'
    refine ⟨r', ?_, hat'⟩
    unfold Reader.readPhysicalRecord
    rw [if_pos hlt, heof, if_neg (by simp), if_neg (not_lt.mpr h7), hparse]
  · have hs : start off = off := if_neg hoff
    have hpad : pad off = [] := if_neg hoff
    rw [hs] at hfit ⊢
    rw [hpad, List.nil_append] at h
    obtain ⟨h7, r', hparse, hat'⟩ := h.parse hfit ht ht'
    refine ⟨r', ?_, hat'⟩
    unfold Reader.readPhysicalRecord
    rw [if_neg (not_lt.mpr h7), hparse]

/-- **A physical record that is cut off** anywhere is taken for the end of the file. -/
theorem Reader.At.readPhysicalRecord_of_cut (h : r.At off p)
    (hpq : pad off ++ physicalRecord t payload = p ++ q) (hq : q ≠ [])
    (hfit : start off + kHeaderSize + payload.length ≤ kBlockSize) :
    r.readPhysicalRecord.type = kEof ∧ r.readPhysicalRecord.drops = [] := by
  by_cases hoff : kBlockSize - off < kHeaderSize
  · have hs : start off = 0 := if_pos hoff
    have hpad : (pad off).length = kBlockSize - off := by
      unfold pad
      rw [if_pos hoff, List.length_replicate]
    rw [hs] at hfit
    rcases List.append_eq_append_iff.mp hpq with ⟨p', rfl, hp'⟩ | ⟨t', ht', -⟩
    · -- the filling is there, and the record behind it is cut off
      obtain ⟨hlt, heof, hat⟩ := h.refill hoff
      obtain ⟨hbuf, -, hparse⟩ := hat.eof_of_cut hp' hq hfit
      unfold Reader.readPhysicalRecord
      rw [if_pos hlt, heof, if_neg (by simp)]
      by_cases h7 : r.refill.buffer.length < kHeaderSize
      · rw [if_pos h7]
        exact ⟨rfl, rfl⟩
      · rw [if_neg h7]
        exact hparse (by rw [← hbuf]; omega)
    · have hlen := congrArg List.length ht'
      rw [hpad, List.length_append] at hlen
      by_cases hfull : p.length < kBlockSize - off
      · exact h.eof_of_pad hoff hfull
      · -- the file ends with the filling
        have hp : p = pad off ++ [] := by
          rw [List.append_nil, ht', List.length_eq_zero_iff.mp (by omega : t'.length = 0), List.append_nil]
        rw [hp] at h
        obtain ⟨hlt, heof, hat⟩ := h.refill hoff
        unfold Reader.readPhysicalRecord
        rw [if_pos hlt, heof, if_neg (by simp), if_pos (by rw [hat.buffer]; simp [kHeaderSize])]
        exact ⟨rfl, rfl⟩
  · have hs : start off = off := if_neg hoff
    have hpad : pad off = [] := if_neg hoff
    rw [hs] at hfit
    rw [hpad, List.nil_append] at hpq
    obtain ⟨hbuf, heof, hparse⟩ := h.eof_of_cut hpq hq hfit
    unfold Reader.readPhysicalRecord
    by_cases h7 : r.buffer.length < kHeaderSize
    · rw [if_pos h7, if_pos heof]
      exact ⟨rfl, rfl⟩
    · rw [if_neg h7]
      exact hparse (by rw [← hbuf]; omega)

end At

/-! ## Records -/

/-- What the fragments of a record look like to the reader: written at `off`, they end at `off'`. -/
structure Reads (inRecord : Bool) (left : Slice) (off : ℕ) (bytes : Slice) (off' : ℕ) : Prop where
  le : off' ≤ kBlockSize
  whole {r : Reader} {rest : Slice} (scratch : Slice) : r.At off (bytes ++ rest) → ∃ r',
    r.readRecordLoop inRecord (if inRecord then scratch else []) =
      (some ((if inRecord then scratch else []) ++ left), [], r') ∧ r'.At off' rest
  cut {r : Reader} {p q : Slice} (scratch : Slice) : r.At off p → bytes = p ++ q → q ≠ [] →
    (r.readRecordLoop inRecord (if inRecord then scratch else [])).1 = none ∧
    (r.readRecordLoop inRecord (if inRecord then scratch else [])).2.1 = []

theorem Reader.readRecordLoop_of_eof {r : Reader} (h : r.readPhysicalRecord.type = kEof)
    (hd : r.readPhysicalRecord.drops = []) (inRecord : Bool) (scratch : Slice) :
    (r.readRecordLoop inRecord scratch).1 = none ∧ (r.readRecordLoop inRecord scratch).2.1 = [] := by
  rw [readRecordLoop]
  simp only [h, hd, if_true, and_self]

/-- The type of a fragment. -/
def fragmentType (isBegin isEnd : Bool) : ℕ :=
  if isBegin && isEnd then kFullType
  else if isBegin then kFirstType
  else if isEnd then kLastType
  else kMiddleType

theorem fragmentType_pos (isBegin isEnd : Bool) :
    0 < fragmentType isBegin isEnd ∧ fragmentType isBegin isEnd < 256 := by
  cases isBegin <;> cases isEnd <;> decide

/-- The last fragment of a record. -/
theorem reads_last (isBegin : Bool) {left : Slice} {off : ℕ}
    (hfit : start off + kHeaderSize + left.length ≤ kBlockSize) :
    Reads (!isBegin) left off (pad off ++ physicalRecord (fragmentType isBegin true) left)
      (start off + kHeaderSize + left.length) where
  le := hfit
  whole := by
    intro r rest scratch h
    rw [List.append_assoc] at h
    obtain ⟨r', hr, hat⟩ := h.readPhysicalRecord hfit (fragmentType_pos isBegin true).1
      (fragmentType_pos isBegin true).2
    refine ⟨r', ?_, hat⟩
    rw [Reader.readRecordLoop]
    simp only [hr]
    cases isBegin <;> simp [fragmentType, kEof, kFullType, kFirstType, kMiddleType, kLastType]
  cut := by
    intro r p q scratch h hpq hq
    obtain ⟨h1, h2⟩ := h.readPhysicalRecord_of_cut hpq hq hfit
    exact Reader.readRecordLoop_of_eof h1 h2 _ _

/-- A fragment, with more of the record behind it. -/
theorem reads_cons (isBegin : Bool) {fragment left bytes : Slice} {off off' : ℕ}
    (hfit : start off + kHeaderSize + fragment.length ≤ kBlockSize)
    (hmore : Reads true left (start off + kHeaderSize + fragment.length) bytes off') :
    Reads (!isBegin) (fragment ++ left) off
      (pad off ++ physicalRecord (fragmentType isBegin false) fragment ++ bytes) off' where
  le := hmore.le
  whole := by
    intro r rest scratch h
    rw [List.append_assoc, List.append_assoc] at h
    obtain ⟨r', hr, hat⟩ := h.readPhysicalRecord hfit (fragmentType_pos isBegin false).1
      (fragmentType_pos isBegin false).2
    cases isBegin with
    | true =>
      obtain ⟨r'', hr', hat'⟩ := hmore.whole fragment hat
      simp only [if_true] at hr'
      refine ⟨r'', ?_, hat'⟩
      rw [Reader.readRecordLoop]
      simp only [hr]
      simp [fragmentType, kEof, kFullType, kFirstType, hr']
    | false =>
      obtain ⟨r'', hr', hat'⟩ := hmore.whole (scratch ++ fragment) hat
      simp only [if_true] at hr'
      refine ⟨r'', ?_, hat'⟩
      rw [Reader.readRecordLoop]
      simp only [hr]
      simp [fragmentType, kEof, kFullType, kFirstType, kMiddleType, hr']
  cut := by
    intro r p q scratch h hpq hq
    rcases Frames.cut_append hpq with ⟨q', hq', hne⟩ | ⟨p', rfl, hp'⟩
    · obtain ⟨h1, h2⟩ := h.readPhysicalRecord_of_cut hq' hne hfit
      exact Reader.readRecordLoop_of_eof h1 h2 _ _
    · -- the fragment is there as a whole
      rw [List.append_assoc] at h
      obtain ⟨r', hr, hat⟩ := h.readPhysicalRecord hfit (fragmentType_pos isBegin false).1
        (fragmentType_pos isBegin false).2
      rw [Reader.readRecordLoop]
      simp only [hr]
      cases isBegin with
      | true =>
        obtain ⟨h1, h2⟩ := hmore.cut fragment hat hp' hq
        simp only [if_true] at h1 h2
        simp [fragmentType, kEof, kFullType, kFirstType, h1, h2]
      | false =>
        obtain ⟨h1, h2⟩ := hmore.cut (scratch ++ fragment) hat hp' hq
        simp only [if_true] at h1 h2
        simp [fragmentType, kEof, kFullType, kFirstType, kMiddleType, h1, h2]

theorem Writer.avail_eq (w : Writer) : w.avail = kBlockSize - start w.block_offset - kHeaderSize := by
  rw [avail, switchBlock_eq]

theorem Writer.emit_eq (w : Writer) (t : ℕ) (payload : Slice) :
    w.switchBlock.emitPhysicalRecord t payload =
      ⟨w.dest ++ (pad w.block_offset ++ physicalRecord t payload),
        start w.block_offset + kHeaderSize + payload.length⟩ := by
  rw [switchBlock_eq, emitPhysicalRecord, List.append_assoc]

/-- The loop of the writer adds a record that the reader puts together again. -/
theorem Writer.reads_addRecordLoop (isBegin : Bool) (left : Slice) (w : Writer) :
    ∃ bytes, (w.addRecordLoop isBegin left).dest = w.dest ++ bytes ∧
      Reads (!isBegin) left w.block_offset bytes (w.addRecordLoop isBegin left).block_offset := by
  fun_induction Writer.addRecordLoop isBegin left w with
  | case1 isBegin left w fragment_length isEnd type w' hpos ih =>
    rw [List.length_drop] at hpos
    have hfl : fragment_length ≤ w.avail := by
      simp only [fragment_length]
      split_ifs <;> omega
    have hlen : (left.take fragment_length).length = fragment_length := by
      rw [List.length_take]
      omega
    have hs := start_le w.block_offset
    have hfit : start w.block_offset + kHeaderSize + (left.take fragment_length).length ≤ kBlockSize := by
      rw [hlen]
      rw [w.avail_eq] at hfl
      omega
    have htype : type = fragmentType isBegin false := by
      have hend : isEnd = false := decide_eq_false (by omega)
      simp only [type, hend]
      rfl
    have hw' : w' = ⟨w.dest ++ (pad w.block_offset ++ physicalRecord (fragmentType isBegin false)
        (left.take fragment_length)), start w.block_offset + kHeaderSize +
          (left.take fragment_length).length⟩ := by
      simp only [w', htype]
      exact w.emit_eq _ _
    obtain ⟨bytes, hdest, hreads⟩ := ih
    have hoff : w'.block_offset = start w.block_offset + kHeaderSize +
        (left.take fragment_length).length := by rw [hw']
    rw [hoff] at hreads
    refine ⟨_, ?_, by
      have := reads_cons isBegin hfit hreads
      rwa [List.take_append_drop] at this⟩
    rw [hdest, hw']
    simp only [List.append_assoc]
  | case2 isBegin left w fragment_length isEnd type w' hpos =>
    rw [List.length_drop] at hpos
    have hfl : fragment_length = left.length := by
      have hle : fragment_length ≤ left.length := by
        simp only [fragment_length]
        split_ifs <;> omega
      omega
    have hav : left.length ≤ w.avail := by
      simp only [fragment_length] at hfl
      split_ifs at hfl <;> omega
    have hs := start_le w.block_offset
    have hfit : start w.block_offset + kHeaderSize + left.length ≤ kBlockSize := by
      rw [w.avail_eq] at hav
      omega
    have htype : type = fragmentType isBegin true := by
      have hend : isEnd = true := decide_eq_true hfl.symm
      simp only [type, hend]
      rfl
    have hw' : w' = ⟨w.dest ++ (pad w.block_offset ++ physicalRecord (fragmentType isBegin true) left),
        start w.block_offset + kHeaderSize + left.length⟩ := by
      simp only [w', htype, hfl, List.take_length]
      exact w.emit_eq _ _
    rw [hw']
    exact ⟨_, rfl, reads_last isBegin hfit⟩

/-! ## Whole logs -/

/-- A log that holds these records. -/
def writeAll (records : List Slice) : Writer := records.foldl Writer.addRecord ⟨[], 0⟩

theorem Reader.size_readRecordLoop (r : Reader) (inRecord : Bool) (scratch : Slice)
    (h : (r.readRecordLoop inRecord scratch).1.isSome) :
    (r.readRecordLoop inRecord scratch).2.2.size < r.size := by
  induction hn : r.size using Nat.strongRecOn generalizing r inRecord scratch with
  | ind n ih =>
    subst hn
    rw [readRecordLoop] at h ⊢
    simp only at h ⊢
    by_cases heof : r.readPhysicalRecord.type = kEof
    · rw [if_pos heof] at h
      cases h
    · have hlt := r.size_readPhysicalRecord heof
      split_ifs at h ⊢
      all_goals first
        | exact hlt
        | exact (ih _ hlt _ _ _ h rfl).trans hlt

/-- `ReadRecord` until it returns `false`, with all reports. -/
def Reader.readAll (r : Reader) : List Slice × List Drop :=
  match h : r.readRecord with
  | (some record, drops, r') =>
    have : r'.size < r.size := by
      have hs := r.size_readRecordLoop false [] (by
        show (r.readRecord).1.isSome
        rw [h]
        rfl)
      have hr : (r.readRecordLoop false []).2.2 = r' := congrArg (fun x => x.2.2) h
      rwa [hr] at hs
    let q := r'.readAll
    (record :: q.1, drops ++ q.2)
  | (none, drops, _) => ([], drops)
termination_by r.size

theorem Reader.readAll_of_some {r r' : Reader} {record : Slice} {drops : List Drop}
    (h : r.readRecord = (some record, drops, r')) :
    r.readAll = (record :: r'.readAll.1, drops ++ r'.readAll.2) := by
  rw [readAll]
  split
  · rename_i heq
    rw [h] at heq
    obtain ⟨h1, h2⟩ := Prod.mk.inj heq
    obtain ⟨h2, h3⟩ := Prod.mk.inj h2
    obtain rfl := Option.some.inj h1
    subst h2 h3
    rfl
  · rename_i heq
    rw [h] at heq
    cases heq

theorem Reader.readAll_of_none {r : Reader} (h : r.readRecord.1 = none) :
    r.readAll = ([], r.readRecord.2.1) := by
  rw [readAll]
  split
  · rename_i heq
    rw [heq] at h
    cases h
  · rename_i heq
    rw [heq]

theorem Writer.dest_foldl (records : List Slice) (w : Writer) :
    ∃ bytes, (records.foldl addRecord w).dest = w.dest ++ bytes := by
  induction records generalizing w with
  | nil => exact ⟨[], (List.append_nil _).symm⟩
  | cons record records ih =>
    obtain ⟨b, hb, -⟩ := w.reads_addRecordLoop true record
    obtain ⟨b', hb'⟩ := ih (w.addRecord record)
    refine ⟨b ++ b', ?_⟩
    rw [List.foldl_cons, hb', addRecord, hb, List.append_assoc]

theorem Writer.length_lt_emit (w : Writer) (t : ℕ) (payload : Slice) :
    w.dest.length < (w.switchBlock.emitPhysicalRecord t payload).dest.length := by
  rw [emit_eq]
  simp only [List.length_append, length_physicalRecord, kHeaderSize]
  omega

/-- Also an empty record takes a header. -/
theorem Writer.length_lt_addRecordLoop (isBegin : Bool) (left : Slice) (w : Writer) :
    w.dest.length < (w.addRecordLoop isBegin left).dest.length := by
  fun_induction Writer.addRecordLoop isBegin left w with
  | case1 _ _ w _ _ _ _ _ ih => exact (w.length_lt_emit _ _).trans ih
  | case2 _ _ w => exact w.length_lt_emit _ _

/-- From any place, the reader returns the records that are there as a whole, and no other. -/
theorem readAll_cut : ∀ (records : List Slice) {w : Writer} {r : Reader} {bytes p q : Slice},
    (records.foldl Writer.addRecord w).dest = w.dest ++ bytes → bytes = p ++ q →
    w.block_offset ≤ kBlockSize → r.At w.block_offset p →
    ∃ k, r.readAll = (records.take k, []) ∧ ∀ j ≤ records.length,
      (j ≤ k ↔ ((records.take j).foldl Writer.addRecord w).dest.length ≤ w.dest.length + p.length)
  | [], w, r, bytes, p, q, hdest, hpq, hoff, hat => by
    have hp : p = [] := by
      have hb : bytes = [] := List.append_right_eq_self.mp hdest.symm
      rw [hb] at hpq
      exact (List.append_eq_nil_iff.mp hpq.symm).1
    subst hp
    have hcut : pad w.block_offset ++ physicalRecord kFullType [] = [] ++ (pad w.block_offset ++
        physicalRecord kFullType []) := (List.nil_append _).symm
    obtain ⟨h1, h2⟩ := hat.readPhysicalRecord_of_cut hcut (by simp [physicalRecord]) (start_le w.block_offset)
    obtain ⟨h1, h2⟩ := Reader.readRecordLoop_of_eof h1 h2 false []
    refine ⟨0, by rw [Reader.readAll_of_none h1]; exact congrArg _ h2, ?_⟩
    intro j hj
    simp only [List.take_nil, List.foldl_nil, List.length_nil, Nat.add_zero, le_refl, iff_true]
    exact hj
  | record :: records, w, r, bytes, p, q, hdest, hpq, hoff, hat => by
    obtain ⟨b, hb, hreads⟩ := w.reads_addRecordLoop true record
    obtain ⟨b', hb'⟩ := Writer.dest_foldl records (w.addRecord record)
    have hbytes : b ++ b' = p ++ q := by
      rw [← hpq]
      rw [List.foldl_cons, hb', Writer.addRecord, hb, List.append_assoc] at hdest
      exact List.append_cancel_left hdest
    rcases Frames.cut_append hbytes with ⟨t, ht, hne⟩ | ⟨t, rfl, ht⟩
    · -- the first record is cut off
      obtain ⟨h1, h2⟩ := hreads.cut [] hat ht hne
      refine ⟨0, by rw [Reader.readAll_of_none h1]; exact congrArg _ h2, ?_⟩
      intro j hj
      rcases j with _ | j
      · simp
      · obtain ⟨b'', hb''⟩ := Writer.dest_foldl (records.take j) (w.addRecord record)
        have hpos := List.length_pos_iff.mpr hne
        rw [List.take_succ_cons, List.foldl_cons, hb'', Writer.addRecord, hb, ht]
        simp only [List.length_append]
        omega
    · obtain ⟨r', hr, hat'⟩ := hreads.whole [] hat
      simp only [Bool.not_true, Bool.false_eq_true, if_false, List.nil_append] at hr
      obtain ⟨k, hk, hmax⟩ := readAll_cut records hb' ht hreads.le hat'
      refine ⟨k + 1, ?_, ?_⟩
      · rw [Reader.readAll_of_some hr, hk]
        rfl
      · intro j hj
        rcases j with _ | j
        · simp
        · have hw : (w.addRecord record).dest.length = w.dest.length + b.length := by
            rw [Writer.addRecord, hb, List.length_append]
          have hiff := hmax j (by rw [List.length_cons] at hj; omega)
          rw [List.take_succ_cons, List.foldl_cons, List.length_append, ← Nat.add_assoc, ← hw, ← hiff]
          omega

/-- A log may as well begin at the end of a block as at the start of one. -/
theorem Writer.addRecord_start (dest record : Slice) :
    (Writer.mk dest 0).addRecord record = (Writer.mk dest kBlockSize).addRecord record := by
  have hs : (Writer.mk dest 0).switchBlock = (Writer.mk dest kBlockSize).switchBlock := by
    rw [switchBlock_eq, switchBlock_eq]
    simp [pad, start, kBlockSize, kHeaderSize]
  have ha : (Writer.mk dest 0).avail = (Writer.mk dest kBlockSize).avail := by
    rw [avail, avail, hs]
  unfold addRecord
  conv_lhs => rw [addRecordLoop]
  conv_rhs => rw [addRecordLoop]
  rw [hs, ha]

theorem writeAll_dest (records : List Slice) :
    (writeAll records).dest = (records.foldl Writer.addRecord ⟨[], kBlockSize⟩).dest := by
  unfold writeAll
  cases records with
  | nil => rfl
  | cons record records => rw [List.foldl_cons, List.foldl_cons, Writer.addRecord_start]

/-- Cut off anywhere, a log gives the records that are there as a whole. -/
theorem readAll_truncated {records : List Slice} {p q : Slice} (h : (writeAll records).dest = p ++ q)
    (checksum : Bool) :
    ∃ k, (Reader.new p checksum).readAll = (records.take k, []) ∧
      ∀ j ≤ records.length, (j ≤ k ↔ (writeAll (records.take j)).dest.length ≤ p.length) := by
  have hdest : (records.foldl Writer.addRecord ⟨[], kBlockSize⟩).dest =
      (Writer.mk [] kBlockSize).dest ++ (p ++ q) := by
    rw [← writeAll_dest]
    exact h
  obtain ⟨k, hk, hmax⟩ := readAll_cut records hdest rfl le_rfl (Reader.at_new p checksum)
  refine ⟨k, hk, ?_⟩
  intro j hj
  rw [hmax j hj, writeAll_dest, List.length_nil, Nat.zero_add]

/-- A log that is there as a whole gives all of its records. -/
theorem readAll_whole (records : List Slice) (checksum : Bool) :
    (Reader.new (writeAll records).dest checksum).readAll = (records, []) := by
  have hcut : (writeAll records).dest = (writeAll records).dest ++ [] := (List.append_nil _).symm
  obtain ⟨k, hk, hmax⟩ := readAll_truncated hcut checksum
  have hlen : records.length ≤ k := (hmax records.length le_rfl).mpr (by rw [List.take_length])
  rw [hk, List.take_of_length_le hlen]

/-- **The log gives back what is there**: as a whole it gives every record; cut off anywhere, it gives
the records up to the cut, in order.  In neither case is a corruption reported. -/
theorem log_readAll (records : List Slice) (checksum : Bool) :
    (Reader.new (writeAll records).dest checksum).readAll = (records, []) ∧
    ∀ p q, (writeAll records).dest = p ++ q →
      ∃ k, (Reader.new p checksum).readAll = (records.take k, []) ∧
        ∀ j ≤ records.length, (j ≤ k ↔ (writeAll (records.take j)).dest.length ≤ p.length) :=
  ⟨readAll_whole records checksum, fun _ _ h => readAll_truncated h checksum⟩

end Log

end Leveldb
