import WorldToPE.Lib.SeekFile

/-!
# WorldToPE.Region.DesktopRegionFile — desktop region files

`DesktopRegionFile.java`: the constructor that reads the header of an `.mca` file, and the readers
`hasChunk` and `getChunkDataInputStream`.  The object owns one seekable file, and every operation
moves its pointer.

* `padded`: the content after the constructor's padding loop.
* `construct_headerRead`: what the constructor leaves behind, for every file of at least two sectors
  whose offsets can be marked; `construct_spec` for non-negative offsets.
* `construct_short`: a file of less than a sector is replaced by an empty header.
* `construct_throws`, `construct_throws_of_offset`: the files on which it throws.
-/

namespace WorldToPE

open Java Run

/-- The fields of `DesktopRegionFile` (file name and modification time are not used below). -/
structure DesktopRegionFile where
  file : SeekFile
  offsets : Vector Int32 1024
  chunkTimestamps : Vector Int32 1024
  sectorFree : List Bool
  sizeDelta : Int32

/-- The stream that `getChunkDataInputStream` returns: the payload and how it is compressed. -/
structure ChunkStream where
  gzip : Bool
  data : List UInt8
deriving DecidableEq, Repr

namespace DesktopRegionFile

abbrev M := EStateM Exn DesktopRegionFile

/-- An operation on the object's file. -/
def io {α : Type} (m : SeekFile.F α) : M α :=
  onFile (·.file) (fun s f => { s with file := f }) m

/-! ## The constructor -/

/-- The object before the body of the constructor runs on a file with the given content. -/
def fresh (content : List UInt8) : DesktopRegionFile :=
  ⟨SeekFile.opened content, Vector.replicate 1024 0, Vector.replicate 1024 0, [], 0⟩

/-- The padding loop, with `n = 4096 - i` rounds left at most: the length is asked for in every
round, and the bytes go to wherever the file pointer is. -/
def padLoop : ℕ → M Unit
  | 0 => return ()
  | n + 1 => do
    let length ← io SeekFile.length
    if 4096 - (n + 1) < length % 4096 then
      io (SeekFile.write 0)
      padLoop n
    else return ()

/-- `sectorFree.set(i, b)`. -/
def setFree (i : Int32) (b : Bool) : M Unit := do
  let s ← get
  match lset s.sectorFree i b with
  | .error e => throw e
  | .ok sectorFree => set { s with sectorFree }

/-- An offset that was read: the sectors of its chunk are not free. -/
def noteOffset (i : ℕ) (offset : Int32) : M Unit := do
  modify fun s => { s with offsets := s.offsets.setIfInBounds i offset }
  let s ← get
  if offset ≠ 0 ∧ (offset >>> 8) + (offset &&& 255) ≤ Int32.ofNat s.sectorFree.length then
    forUpTo (offset &&& 255).toInt.toNat fun sectorNum =>
      setFree ((offset >>> 8) + Int32.ofNat sectorNum) false

/-- One round of the loop that reads the offsets. -/
def readOffset (i : ℕ) : M Unit := do
  let offset ← io SeekFile.readInt
  noteOffset i offset

/-- One round of the loop that reads the time stamps. -/
def readTimestamp (i : ℕ) : M Unit := do
  let value ← io SeekFile.readInt
  modify fun s => { s with chunkTimestamps := s.chunkTimestamps.setIfInBounds i value }

/-- A file of less than a sector gets an empty header. -/
def initHeader : M Unit := do
  let length ← io SeekFile.length
  if length < 4096 then
    forUpTo 1024 fun _ => io (SeekFile.writeInt 0)
    forUpTo 1024 fun _ => io (SeekFile.writeInt 0)
    modify fun s => { s with sizeDelta := s.sizeDelta + 8192 }

def pad : M Unit := do
  let length ← io SeekFile.length
  if length % 4096 ≠ 0 then padLoop 4096

/-- The table of free sectors: all but the two sectors of the header. -/
def initSectors : M Unit := do
  let length ← io SeekFile.length
  let nSectors := Int32.ofNat length / 4096
  if nSectors < 0 then throw .illegalArgument
  modify fun s => { s with sectorFree := List.replicate nSectors.toInt.toNat true }
  setFree 0 false
  setFree 1 false

def readHeader : M Unit := do
  io (SeekFile.seek 0)
  forUpTo 1024 readOffset
  forUpTo 1024 readTimestamp

/-- The constructor. -/
def construct : M Unit :=
  catchIO (do initHeader; pad; initSectors; readHeader) (return ())

/-! ## Reading -/

def outOfBounds (x z : Int32) : Bool := x < 0 || x ≥ 32 || z < 0 || z ≥ 32

def getOffset (x z : Int32) : M Int32 := do
  let s ← get
  match aget s.offsets (z * 32 + x) with
  | .error e => throw e
  | .ok offset => return offset

def hasChunk (x z : Int32) : M Bool := do
  let offset ← getOffset x z
  return offset ≠ 0

/-- `data = new byte[n]; file.read(data)`: what the file does not have stays zero. -/
def readData (n : Int32) : M (List UInt8) := do
  if n < 0 then throw .negativeArraySize
  let bs ← io (SeekFile.readUpTo n.toInt.toNat)
  return bs ++ List.replicate (n.toInt.toNat - bs.length) 0

section Streams

-- whether `new GZIPInputStream` finds a header it accepts; it throws an `IOException` otherwise
variable (gzipHeader : List UInt8 → Bool)

/-- The payload of a chunk of `numSectors` sectors, at the file pointer. -/
def readPayload (numSectors : Int32) : M (Option ChunkStream) := do
  let length ← io SeekFile.readInt
  if length > numSectors * 4096 then return none
  else do
    let version ← io SeekFile.readByte
    if version = 1 then do
      let data ← readData (length - 1)
      if gzipHeader data then return some ⟨true, data⟩ else throw .io
    else if version = 2 then do
      let data ← readData (length - 1)
      return some ⟨false, data⟩
    else return none

/-- The `try` block of `getChunkDataInputStream`. -/
def openChunk (x z : Int32) : M (Option ChunkStream) := do
  let offset ← getOffset x z
  if offset = 0 then return none
  else do
    let sectorNumber := offset >>> 8
    let numSectors := offset &&& 255
    let s ← get
    if sectorNumber + numSectors > Int32.ofNat s.sectorFree.length then return none
    else do
      io (SeekFile.seek (sectorNumber * 4096).toInt)
      readPayload gzipHeader numSectors

def getChunkDataInputStream (x z : Int32) : M (Option ChunkStream) :=
  if outOfBounds x z then return none
  else catchIO (openChunk gzipHeader x z) (return none)

end Streams

/-! ## Specifications -/

theorem io_of_ok {α : Type} {m : SeekFile.F α} {s : DesktopRegionFile} {a : α} {f : SeekFile}
    (h : m s.file = .ok a f) : io m s = .ok a { s with file := f } := by
  unfold io onFile
  rw [h]

theorem io_of_error {α : Type} {m : SeekFile.F α} {s : DesktopRegionFile} {e : Exn} {f : SeekFile}
    (h : m s.file = .error e f) : io m s = .error e { s with file := f } := by
  unfold io onFile
  rw [h]

@[simp] theorem io_length (s : DesktopRegionFile) :
    io SeekFile.length s = .ok s.file.bytes.length s := rfl

/-- The content after the padding loop: the loop writes at the file pointer, which is at `0`. -/
def padded (content : List UInt8) : List UInt8 :=
  List.replicate (content.length % 4096) 0 ++ content.drop (content.length % 4096)

theorem length_padded (content : List UInt8) : (padded content).length = content.length := by
  have := Nat.mod_le content.length 4096
  simp [padded]
  omega

theorem padded_of_aligned {content : List UInt8} (h : content.length % 4096 = 0) :
    padded content = content := by
  simp [padded, h]

/-! ### The padding loop -/

theorem length_put {f : SeekFile} (h : f.pos < f.bytes.length) (b : UInt8) :
    (f.put b).bytes.length = f.bytes.length ∧ (f.put b).pos = f.pos + 1 := by
  unfold SeekFile.put
  rw [if_pos h]
  exact ⟨List.length_set, rfl⟩

/-- The loop runs until its counter, which is also the file pointer, reaches the remainder. -/
theorem padLoop_eq : ∀ (n : ℕ) (s : DesktopRegionFile), n ≤ 4096 → s.file.pos = 4096 - n →
    4096 - n ≤ s.file.bytes.length % 4096 → padLoop n s = .ok ()
      { s with file := (fun f => f.put 0)^[s.file.bytes.length % 4096 - (4096 - n)] s.file }
  | 0, s, _, _, h => by
    have := Nat.mod_lt s.file.bytes.length (show 4096 > 0 by norm_num)
    omega
  | n + 1, s, hn, hp, h => by
    have hle := Nat.mod_le s.file.bytes.length 4096
    unfold padLoop
    rw [bind_of_ok (io_length s)]
    by_cases hlt : 4096 - (n + 1) < s.file.bytes.length % 4096
    · obtain ⟨hl, hq⟩ := length_put (show s.file.pos < s.file.bytes.length by omega) 0
      have hw : io (SeekFile.write 0) s = .ok () { s with file := s.file.put 0 } := rfl
      have ih := padLoop_eq n { s with file := s.file.put 0 } (by omega) (by dsimp only; omega)
        (by dsimp only; omega)
      dsimp only at ih
      rw [if_pos hlt, bind_of_ok hw, ih, hl, ← Function.iterate_succ_apply]
      congr 4
      omega
    · rw [if_neg hlt, show s.file.bytes.length % 4096 - (4096 - (n + 1)) = 0 by omega]
      rfl

theorem pad_eq {s : DesktopRegionFile} (hp : s.file.pos = 0) : pad s = .ok ()
    { s with file := ⟨padded s.file.bytes, s.file.bytes.length % 4096⟩ } := by
  unfold pad
  rw [bind_of_ok (io_length s)]
  by_cases h : s.file.bytes.length % 4096 = 0
  · rw [if_neg (not_not.mpr h), padded_of_aligned h, h, ← hp]
    rfl
  · have hle := Nat.mod_le s.file.bytes.length 4096
    rw [if_pos h, padLoop_eq 4096 s le_rfl hp (by omega)]
    have hz := SeekFile.put_zeros s.file (s.file.bytes.length % 4096) (by omega)
    rw [hp] at hz
    simp only [Nat.sub_self, Nat.sub_zero, hz]
    simp [padded]

theorem pad_aligned {s : DesktopRegionFile} (h : s.file.bytes.length % 4096 = 0) :
    pad s = .ok () s := by
  unfold pad
  rw [bind_of_ok (io_length s), if_neg (not_not.mpr h)]
  rfl

theorem initHeader_eq {s : DesktopRegionFile} (h : 4096 ≤ s.file.bytes.length) :
    initHeader s = .ok () s := by
  unfold initHeader
  rw [bind_of_ok (io_length s), if_neg (by omega)]
  rfl

/-! ### The sector table -/

theorem setFree_ok {s : DesktopRegionFile} {i : Int32} {k : ℕ} (hi : i.toInt = k)
    (hk : k < s.sectorFree.length) (b : Bool) :
    setFree i b s = .ok () { s with sectorFree := s.sectorFree.set k b } := by
  simp [setFree, lset_of_toInt b hi hk]

theorem setFree_error {s : DesktopRegionFile} {i : Int32} {k : ℕ} (hi : i.toInt = k)
    (hk : s.sectorFree.length ≤ k) (b : Bool) : setFree i b s = .error .indexOutOfBounds s := by
  simp [setFree, lset, show ¬ (0 ≤ i.toInt ∧ i.toInt < s.sectorFree.length) by omega]

theorem setFree_neg {s : DesktopRegionFile} {i : Int32} (h : i.toInt < 0) (b : Bool) :
    setFree i b s = .error .indexOutOfBounds s := by
  unfold setFree lset
  rw [bind_of_ok (get_apply s), if_neg (by omega)]
  rfl

/-- The number of sectors, as the code computes it from the low 32 bits of the length. -/
def nSectors (length : ℕ) : Int := (Int32.ofNat length).toInt.tdiv 4096

theorem toInt_nSectors (length : ℕ) : (Int32.ofNat length / 4096).toInt = nSectors length :=
  Int32.toInt_div_of_ne_right _ _ (by decide)

theorem two_le_nSectors_iff (length : ℕ) :
    2 ≤ nSectors length ↔ 8192 ≤ (Int32.ofNat length).toInt := by
  unfold nSectors
  rcases le_total 0 (Int32.ofNat length).toInt with h | h
  · rw [Int.tdiv_eq_ediv_of_nonneg h]
    omega
  · have hneg := Int.tdiv_nonneg (Int.neg_nonneg_of_nonpos h) (show (0 : Int) ≤ 4096 by norm_num)
    rw [Int.neg_tdiv] at hneg
    omega

theorem nSectors_lt (length : ℕ) : nSectors length < 2 ^ 31 := by
  rw [← toInt_nSectors]
  exact Int32.toInt_lt _

/-- The table for `k` sectors. -/
def headerTable (k : ℕ) : List Bool := ((List.replicate k true).set 0 false).set 1 false

theorem initSectors_eq {s : DesktopRegionFile} (h : 2 ≤ nSectors s.file.bytes.length) :
    initSectors s = .ok () { s with sectorFree := headerTable (nSectors s.file.bytes.length).toNat } := by
  have hz : (0 : Int32).toInt = (0 : ℕ) := rfl
  have h1 : (1 : Int32).toInt = (1 : ℕ) := rfl
  have hn := toInt_nSectors s.file.bytes.length
  have hlt : ¬ Int32.ofNat s.file.bytes.length / 4096 < 0 := by
    rw [Int32.lt_iff_toInt_lt, hn, hz]
    omega
  unfold initSectors
  simp only [bind_apply, io_length, if_neg hlt, modify_apply, hn]
  rw [setFree_ok hz (by simp; omega)]
  dsimp only
  rw [setFree_ok h1 (by simp; omega)]
  rfl

/-- With fewer than two sectors the constructor leaves through an unchecked exception. -/
theorem initSectors_throws {s : DesktopRegionFile} (h : nSectors s.file.bytes.length < 2) :
    ∃ e s', initSectors s = .error e s' ∧ e.isIO = false := by
  have hz : (0 : Int32).toInt = (0 : ℕ) := rfl
  have h1 : (1 : Int32).toInt = (1 : ℕ) := rfl
  have hn := toInt_nSectors s.file.bytes.length
  unfold initSectors
  by_cases hlt : Int32.ofNat s.file.bytes.length / 4096 < 0
  · exact ⟨.illegalArgument, s, by simp [if_pos hlt], rfl⟩
  · simp only [bind_apply, io_length, if_neg hlt, modify_apply, hn]
    rw [Int32.lt_iff_toInt_lt, hn, hz] at hlt
    rcases Nat.lt_or_ge 0 (nSectors s.file.bytes.length).toNat with hp | hp
    · rw [setFree_ok hz (by simp; omega)]
      dsimp only
      rw [setFree_error h1 (by simp; omega)]
      exact ⟨_, _, rfl, rfl⟩
    · rw [setFree_error hz (by simp; omega)]
      exact ⟨_, _, rfl, rfl⟩

/-- Setting the sectors `p, …, p + n - 1` one after another. -/
theorem setFree_run {s : DesktopRegionFile} {start : Int32} {p n : ℕ} (hs : start.toInt = p)
    (hn : p + n ≤ s.sectorFree.length) (hk : s.sectorFree.length < 2 ^ 31) (b : Bool) :
    forUpTo n (fun i => setFree (start + Int32.ofNat i) b) s =
      .ok () { s with sectorFree := overwrite s.sectorFree p (List.replicate n b) } := by
  have hstep : ∀ i < n, ∀ t : DesktopRegionFile,
      t = { s with sectorFree := overwrite s.sectorFree p (List.replicate i b) } →
      ∃ t', setFree (start + Int32.ofNat i) b t = .ok () t' ∧
        t' = { s with sectorFree := overwrite s.sectorFree p (List.replicate (i + 1) b) } := by
    rintro i hi t rfl
    have hidx : (start + Int32.ofNat i).toInt = (p + i : ℕ) := by
      have hi' : (Int32.ofNat i).toInt = i := Int32.toInt_ofNat_of_lt (by omega)
      rw [toInt_add_of_fits] <;> omega
    have hlen : p + i < (overwrite s.sectorFree p (List.replicate i b)).length := by
      rw [length_overwrite (by omega), List.length_replicate]
      omega
    refine ⟨_, setFree_ok hidx hlen b, ?_⟩
    rw [overwrite_replicate_succ (by omega)]
  obtain ⟨t, ht, rfl⟩ := forUpTo_ok (s := s) (I := fun i t => t =
    { s with sectorFree := overwrite s.sectorFree p (List.replicate i b) }) (by simp [overwrite]) n hstep
  exact ht

/-! ### The header -/

/-- The test that the code makes of an offset against the number of sectors. -/
def Fits (k : ℕ) (offset : Int32) : Prop :=
  offset ≠ 0 ∧ (offset >>> 8) + (offset &&& 255) ≤ Int32.ofNat k

/-- The sectors of an offset that passes the test can be marked. -/
def Markable (k : ℕ) (offset : Int32) : Prop := Fits k offset → 0 ≤ offset.toInt ∨ offset &&& 255 = 0

/-- Sector `i` is among those of the offset. -/
def Covers (k : ℕ) (offset : Int32) (i : ℕ) : Prop :=
  Fits k offset ∧ offset.toInt / 256 ≤ i ∧ (i : Int) < offset.toInt / 256 + offset.toInt % 256

instance (k : ℕ) (offset : Int32) : Decidable (Fits k offset) :=
  inferInstanceAs (Decidable (offset ≠ 0 ∧ (offset >>> 8) + (offset &&& 255) ≤ Int32.ofNat k))

section Offset

variable (offset : Int32)

theorem toInt_sectorNumber : (offset >>> 8).toInt = offset.toInt / 256 :=
  toInt_shiftRight offset 8 (by norm_num)

theorem toInt_numSectors : (offset &&& 255).toInt = offset.toInt % 256 :=
  toInt_and_mask offset 8 (by norm_num)

theorem toInt_runEnd :
    ((offset >>> 8) + (offset &&& 255)).toInt = offset.toInt / 256 + offset.toInt % 256 := by
  have h1 := offset.toInt_lt
  have h2 := offset.le_toInt
  rw [toInt_add_of_fits] <;> rw [toInt_sectorNumber, toInt_numSectors] <;> omega

theorem fits_iff {k : ℕ} (hk : k < 2 ^ 31) :
    Fits k offset ↔ offset ≠ 0 ∧ offset.toInt / 256 + offset.toInt % 256 ≤ k := by
  rw [Fits, Int32.le_iff_toInt_le, Int32.toInt_ofNat_of_lt hk, toInt_runEnd]

theorem numSectors_eq_zero_iff : offset &&& 255 = 0 ↔ offset.toInt % 256 = 0 := by
  rw [← toInt_numSectors, ← Int32.toInt_inj]
  rfl

end Offset

/-- The sectors of an offset that lies inside the table are marked. -/
theorem markUsed_ok {s : DesktopRegionFile} {offset : Int32} (hk : s.sectorFree.length < 2 ^ 31)
    (hfit : Fits s.sectorFree.length offset) (hm : Markable s.sectorFree.length offset) :
    ∃ free, free.length = s.sectorFree.length ∧
      (∀ i, free[i]? = some false ↔ s.sectorFree[i]? = some false ∨
        Covers s.sectorFree.length offset i) ∧
      forUpTo (offset &&& 255).toInt.toNat
        (fun sectorNum => setFree ((offset >>> 8) + Int32.ofNat sectorNum) false) s =
        .ok () { s with sectorFree := free } := by
  have hle := ((fits_iff offset hk).mp hfit).2
  have hn := toInt_numSectors offset
  rcases hm hfit with h0 | h0
  · have hs : (offset >>> 8).toInt = (offset.toInt / 256).toNat := by
      rw [toInt_sectorNumber]
      omega
    have hrun := setFree_run hs (n := (offset &&& 255).toInt.toNat) (by omega) hk false
    refine ⟨_, ?_, fun i => ?_, hrun⟩
    · rw [length_overwrite (by omega), List.length_replicate]
      omega
    · rw [getElem?_overwrite (by omega), List.length_replicate, Covers]
      by_cases hi : (offset.toInt / 256).toNat ≤ i ∧
          i < (offset.toInt / 256).toNat + (offset &&& 255).toInt.toNat
      · rw [if_pos hi, List.getElem?_replicate, if_pos (by omega)]
        exact ⟨fun _ => .inr ⟨hfit, by omega, by omega⟩, fun _ => rfl⟩
      · rw [if_neg hi]
        exact ⟨.inl, fun h => h.resolve_right fun hc => by omega⟩
  · have hz := (numSectors_eq_zero_iff offset).mp h0
    refine ⟨s.sectorFree, rfl, fun i => ⟨.inl, fun h => h.resolve_right fun hc => ?_⟩, ?_⟩
    · have := hc.2
      omega
    · rw [hn, hz]
      rfl

/-- A negative offset with a sector count gives an index below the table. -/
theorem markUsed_throws {s : DesktopRegionFile} {offset : Int32} (h0 : offset.toInt < 0)
    (hn : offset &&& 255 ≠ 0) :
    ∃ t, forUpTo (offset &&& 255).toInt.toNat
      (fun sectorNum => setFree ((offset >>> 8) + Int32.ofNat sectorNum) false) s =
      .error .indexOutOfBounds t := by
  have hpos : offset.toInt % 256 ≠ 0 := mt (numSectors_eq_zero_iff offset).mpr hn
  have hcount := toInt_numSectors offset
  have hneg : ((offset >>> 8) + Int32.ofNat 0).toInt < 0 := by
    have hz : (Int32.ofNat 0).toInt = 0 := rfl
    have h1 := toInt_sectorNumber offset
    have h2 := offset.le_toInt
    rw [toInt_add_of_fits] <;> omega
  exact forUpTo_error (I := fun _ _ => True) (i := 0) trivial (by omega) (by omega)
    fun t _ => ⟨t, setFree_neg hneg false⟩

section NoteOffset

variable {s : DesktopRegionFile} (i : ℕ) (offset : Int32)

theorem noteOffset_ok (hk : s.sectorFree.length < 2 ^ 31) (hm : Markable s.sectorFree.length offset) :
    ∃ free, free.length = s.sectorFree.length ∧
      (∀ j, free[j]? = some false ↔ s.sectorFree[j]? = some false ∨
        Covers s.sectorFree.length offset j) ∧
      noteOffset i offset s = .ok ()
        { s with sectorFree := free, offsets := s.offsets.setIfInBounds i offset } := by
  unfold noteOffset
  rw [bind_of_ok (modify_apply _ _), bind_of_ok (get_apply _)]
  split
  · rename_i hfit
    obtain ⟨free, hlen, hfree, hrun⟩ := markUsed_ok (s := { s with
      offsets := s.offsets.setIfInBounds i offset }) hk hfit hm
    exact ⟨free, hlen, hfree, hrun⟩
  · rename_i hfit
    exact ⟨s.sectorFree, rfl, fun j => ⟨.inl, fun h => h.resolve_right fun hc => hfit hc.1⟩, rfl⟩

theorem noteOffset_throws (hm : ¬Markable s.sectorFree.length offset) :
    ∃ t, noteOffset i offset s = .error .indexOutOfBounds t := by
  unfold noteOffset
  rw [bind_of_ok (modify_apply _ _), bind_of_ok (get_apply _)]
  simp only [Markable, Classical.not_imp, not_or, not_le] at hm
  split
  · exact markUsed_throws hm.2.1 hm.2.2
  · rename_i hfit
    exact absurd hm.1 hfit

end NoteOffset

open SeekFile (intAt)

/-- The offsets read so far, with the pointer behind them, and the sectors that they have marked. -/
structure OffsetsRead (header : ℕ) (offsetAt : ℕ → Int32) (bytes : List UInt8) (k i : ℕ)
    (t : DesktopRegionFile) : Prop where
  file : t.file = ⟨bytes, 4 * i⟩
  sectors : t.sectorFree.length = k
  offsets : ∀ j < min i 1024, t.offsets[j]? = some (offsetAt j)
  used : ∀ n, t.sectorFree[n]? = some false ↔
    n < header ∨ ∃ j < min i 1024, Covers k (offsetAt j) n

/-- The offsets of a desktop file, whose header takes two sectors. -/
abbrev HeaderRead (bytes : List UInt8) : ℕ → ℕ → DesktopRegionFile → Prop :=
  OffsetsRead 2 (fun j => intAt bytes (4 * j)) bytes

theorem OffsetsRead.readInt {header k i : ℕ} {offsetAt : ℕ → Int32} {bytes : List UInt8}
    {t : DesktopRegionFile} (ht : OffsetsRead header offsetAt bytes k i t)
    (hlen : 4 * i + 4 ≤ bytes.length) :
    io SeekFile.readInt t = .ok (intAt bytes (4 * i)) { t with file := ⟨bytes, 4 * (i + 1)⟩ } := by
  have hb : t.file.bytes = bytes := by rw [ht.file]
  have hp : t.file.pos = 4 * i := by rw [ht.file]
  have hr := SeekFile.readInt_spec (f := t.file) (by rw [hb, hp]; omega)
  rw [hb, hp] at hr
  exact io_of_ok hr

theorem OffsetsRead.noteOffset {header k i : ℕ} {offsetAt : ℕ → Int32} {bytes : List UInt8}
    (hi : i < 1024) (hk : k < 2 ^ 31) (hm : Markable k (offsetAt i)) {t : DesktopRegionFile}
    (ht : OffsetsRead header offsetAt bytes k i t) :
    ∃ t', noteOffset i (offsetAt i) { t with file := ⟨bytes, 4 * (i + 1)⟩ } = .ok () t' ∧
      OffsetsRead header offsetAt bytes k (i + 1) t' := by
  obtain ⟨free, hfree, hused, hr⟩ := noteOffset_ok (s := { t with file := ⟨bytes, 4 * (i + 1)⟩ }) i
    (offsetAt i) (by rw [ht.sectors]; exact hk) (by rw [ht.sectors]; exact hm)
  rw [ht.sectors] at hused
  refine ⟨_, hr, rfl, hfree.trans ht.sectors, fun j hj => ?_, fun n => ?_⟩
  · rw [Vector.getElem?_setIfInBounds]
    by_cases hij : i = j
    · subst hij
      rw [if_pos rfl, if_pos hi]
    · rw [if_neg hij]
      exact ht.offsets j (by omega)
  · show free[n]? = some false ↔ _
    rw [hused, ht.used]
    constructor
    · rintro ((h | ⟨j, hj, hc⟩) | hc)
      · exact .inl h
      · exact .inr ⟨j, by omega, hc⟩
      · exact .inr ⟨i, by omega, hc⟩
    · rintro (h | ⟨j, hj, hc⟩)
      · exact .inl (.inl h)
      · by_cases hij : j = i
        · exact .inr (hij ▸ hc)
        · exact .inl (.inr ⟨j, by omega, hc⟩)

theorem readOffset_headerRead {bytes : List UInt8} {k i : ℕ} (hi : i < 1024)
    (hlen : 4096 ≤ bytes.length) (hk : k < 2 ^ 31) (hm : Markable k (intAt bytes (4 * i)))
    {t : DesktopRegionFile} (ht : HeaderRead bytes k i t) :
    ∃ t', readOffset i t = .ok () t' ∧ HeaderRead bytes k (i + 1) t' := by
  obtain ⟨t', h', ht'⟩ := ht.noteOffset hi hk hm
  refine ⟨t', ?_, ht'⟩
  rw [readOffset, bind_of_ok (ht.readInt (by omega)), h']

theorem readOffset_throws {bytes : List UInt8} {k i : ℕ} (hi : i < 1024)
    (hlen : 4096 ≤ bytes.length) (hm : ¬Markable k (intAt bytes (4 * i)))
    {t : DesktopRegionFile} (ht : HeaderRead bytes k i t) :
    ∃ t', readOffset i t = .error .indexOutOfBounds t' := by
  obtain ⟨t', h'⟩ := noteOffset_throws (s := { t with file := ⟨bytes, 4 * (i + 1)⟩ }) i
    (intAt bytes (4 * i)) (by rw [ht.sectors]; exact hm)
  refine ⟨t', ?_⟩
  rw [readOffset, bind_of_ok (ht.readInt (by omega)), h']

/-- A time stamp moves the pointer on. -/
theorem readTimestamp_headerRead {bytes : List UInt8} {k i : ℕ} (hi : i < 1024)
    (hlen : 8192 ≤ bytes.length) {t : DesktopRegionFile} (ht : HeaderRead bytes k (1024 + i) t) :
    ∃ t', readTimestamp i t = .ok () t' ∧ HeaderRead bytes k (1024 + (i + 1)) t' := by
  have hm : readTimestamp i t = .ok () { t with
      file := ⟨bytes, 4 * (1024 + (i + 1))⟩,
      chunkTimestamps := t.chunkTimestamps.setIfInBounds i (intAt bytes (4 * (1024 + i))) } := by
    unfold readTimestamp
    rw [bind_of_ok (ht.readInt (by omega)), modify_apply]
    rfl
  refine ⟨_, hm, rfl, ht.sectors, fun j hj => ht.offsets j (by omega), fun n => ?_⟩
  rw [show min (1024 + (i + 1)) 1024 = min (1024 + i) 1024 by omega]
  exact ht.used n

section ReadHeader

variable {s : DesktopRegionFile} {k : ℕ} (h2 : 2 ≤ k) (hfree : s.sectorFree = headerTable k)
include h2 hfree

theorem headerRead_start : HeaderRead s.file.bytes k 0 { s with file := ⟨s.file.bytes, 0⟩ } := by
  refine ⟨rfl, by simp [hfree, headerTable], by omega, fun n => ?_⟩
  show s.sectorFree[n]? = some false ↔ _
  rw [hfree, headerTable, List.getElem?_set, List.getElem?_set, List.getElem?_replicate]
  simp only [List.length_set, List.length_replicate]
  rcases n with _ | _ | n
  · simp
    omega
  · simp
    omega
  · simp

variable (hlen : 8192 ≤ s.file.bytes.length) (hk : k < 2 ^ 31)
include hlen hk

theorem readHeader_ok (hm : ∀ i < 1024, Markable k (intAt s.file.bytes (4 * i))) :
    ∃ t, readHeader s = .ok () t ∧ HeaderRead s.file.bytes k 2048 t := by
  have hseek : io (SeekFile.seek 0) s = .ok () { s with file := ⟨s.file.bytes, 0⟩ } := rfl
  obtain ⟨t1, ht1, hI1⟩ := forUpTo_ok (headerRead_start h2 hfree) 1024
    fun i hi t ht => readOffset_headerRead hi (by omega) hk (hm i hi) ht
  obtain ⟨t2, ht2, hI2⟩ := forUpTo_ok (I := fun i => HeaderRead s.file.bytes k (1024 + i)) hI1 1024
    fun i hi t ht => readTimestamp_headerRead hi hlen ht
  refine ⟨t2, ?_, hI2⟩
  unfold readHeader
  rw [bind_of_ok hseek, bind_of_ok ht1, ht2]

/-- The first offset that cannot be marked ends the constructor. -/
theorem readHeader_throws (hm : ∃ i < 1024, ¬Markable k (intAt s.file.bytes (4 * i))) :
    ∃ t, readHeader s = .error .indexOutOfBounds t := by
  classical
  have hseek : io (SeekFile.seek 0) s = .ok () { s with file := ⟨s.file.bytes, 0⟩ } := rfl
  have hfirst := Nat.find_spec hm
  have hleast : ∀ j < Nat.find hm, Markable k (intAt s.file.bytes (4 * j)) := by
    intro j hj
    by_contra h
    exact Nat.find_min hm hj ⟨by omega, h⟩
  obtain ⟨t, ht⟩ := forUpTo_error (e := Exn.indexOutOfBounds)
    (headerRead_start h2 hfree) hfirst.1
    (fun j hj t ht => readOffset_headerRead (by omega) (by omega) hk (hleast j hj) ht)
    fun t ht => readOffset_throws hfirst.1 (by omega) hfirst.2 ht
  refine ⟨t, ?_⟩
  unfold readHeader
  rw [bind_of_ok hseek, bind_of_error ht]

end ReadHeader

/-! ### The whole constructor -/

section Construct

variable {content : List UInt8}

theorem body_eq (hlen : 4096 ≤ content.length) :
    (do initHeader; pad; initSectors; readHeader) (fresh content) =
      (do initSectors; readHeader)
        { fresh content with file := ⟨padded content, content.length % 4096⟩ } := by
  have h1 : initHeader (fresh content) = .ok () (fresh content) := initHeader_eq hlen
  have h2 : pad (fresh content) = .ok () _ := pad_eq rfl
  rw [bind_of_ok h1, bind_of_ok h2]
  rfl

/-- The object when the header is about to be read. -/
def ready (content : List UInt8) : DesktopRegionFile :=
  { fresh content with
    file := ⟨padded content, content.length % 4096⟩
    sectorFree := headerTable (nSectors content.length).toNat }

theorem body_eq_readHeader (hlen : 4096 ≤ content.length) (hn : 2 ≤ nSectors content.length) :
    (do initHeader; pad; initSectors; readHeader) (fresh content) = readHeader (ready content) := by
  have hl := length_padded content
  have h := initSectors_eq (s := { fresh content with
    file := ⟨padded content, content.length % 4096⟩ }) (by rw [hl]; exact hn)
  rw [body_eq hlen, bind_of_ok h]
  unfold ready
  rw [hl]

/-- A file of at least two sectors whose offsets can all be marked. -/
theorem construct_headerRead (hlen : 8192 ≤ content.length) (hn : 2 ≤ nSectors content.length)
    (hm : ∀ i < 1024, Markable (nSectors content.length).toNat (intAt (padded content) (4 * i))) :
    ∃ s, construct (fresh content) = .ok () s ∧
      HeaderRead (padded content) (nSectors content.length).toNat 2048 s := by
  have hlt := nSectors_lt content.length
  obtain ⟨t, ht, hH⟩ := readHeader_ok (s := ready content) (by omega) rfl
    (by rw [ready, length_padded]; exact hlen) (by omega) hm
  refine ⟨t, ?_, hH⟩
  unfold construct catchIO
  rw [body_eq_readHeader (by omega) hn, ht]

/-- **The constructor** on a file of at least two sectors: the padding loop has overwritten the
beginning of the file before the header is read. -/
theorem construct_spec (hlen : 8192 ≤ content.length) (hn : 2 ≤ nSectors content.length)
    (hoff : ∀ i < 1024, 0 ≤ (intAt (padded content) (4 * i)).toInt) :
    ∃ s, construct (fresh content) = .ok () s ∧ s.file.bytes = padded content ∧
      (∀ i < 1024, s.offsets[i]? = some (intAt (padded content) (4 * i))) ∧
      s.sectorFree.length = (nSectors content.length).toNat := by
  obtain ⟨s, hs, hH⟩ := construct_headerRead hlen hn fun i hi _ => .inl (hoff i hi)
  exact ⟨s, hs, by rw [hH.file], fun i hi => hH.offsets i (by omega), hH.sectors⟩

theorem construct_throws (hlen : 4096 ≤ content.length) (hn : nSectors content.length < 2) :
    ∃ e s, construct (fresh content) = .error e s := by
  obtain ⟨e, s', h, he⟩ := initSectors_throws (s := { fresh content with
    file := ⟨padded content, content.length % 4096⟩ }) (by rw [length_padded]; exact hn)
  refine ⟨e, s', ?_⟩
  unfold construct catchIO
  rw [body_eq hlen, bind_of_error h]
  simp [he]

theorem construct_throws_of_offset (hlen : 8192 ≤ content.length) (hn : 2 ≤ nSectors content.length)
    (hm : ∃ i < 1024, ¬Markable (nSectors content.length).toNat (intAt (padded content) (4 * i))) :
    ∃ e s, construct (fresh content) = .error e s := by
  have hlt := nSectors_lt content.length
  obtain ⟨t, ht⟩ := readHeader_throws (s := ready content) (by omega) rfl
    (by rw [ready, length_padded]; exact hlen) (by omega) hm
  refine ⟨.indexOutOfBounds, t, ?_⟩
  unfold construct catchIO
  rw [body_eq_readHeader (by omega) hn, ht]
  rfl

end Construct

/-! ### Files of less than a sector -/

theorem overwrite_zeros (content : List UInt8) (a : ℕ) :
    overwrite (List.replicate a 0 ++ content.drop a) a (intBytes 0) =
      List.replicate (a + 4) 0 ++ content.drop (a + 4) := by
  have hbytes : intBytes 0 = List.replicate 4 0 := by decide
  rw [overwrite, hbytes, List.take_left' (by simp), ← List.replicate_add, List.length_replicate,
    ← List.drop_drop, List.drop_left' (by simp), List.drop_drop]

theorem writeZero (content : List UInt8) {a : ℕ} {s : DesktopRegionFile}
    (hs : s.file = ⟨List.replicate a 0 ++ content.drop a, a⟩) :
    io (SeekFile.writeInt 0) s = .ok ()
      { s with file := ⟨List.replicate (a + 4) 0 ++ content.drop (a + 4), a + 4⟩ } := by
  have hle : s.file.pos ≤ s.file.bytes.length := by
    rw [hs, List.length_append, List.length_replicate]
    exact Nat.le_add_right _ _
  have hw := SeekFile.writeInt_spec 0 hle
  rw [hs] at hw
  rw [overwrite_zeros] at hw
  exact io_of_ok (by rw [hs]; exact hw)

/-- Zeros that are written from the beginning of the file on. -/
theorem writeZeros (content : List UInt8) {a : ℕ} {s : DesktopRegionFile}
    (hs : s.file = ⟨List.replicate a 0 ++ content.drop a, a⟩) : ∀ n,
    forUpTo n (fun _ => io (SeekFile.writeInt 0)) s = .ok ()
      { s with file := ⟨List.replicate (a + 4 * n) 0 ++ content.drop (a + 4 * n), a + 4 * n⟩ }
  | 0 => by
    rw [Nat.mul_zero, Nat.add_zero, ← hs]
    rfl
  | n + 1 => by
    rw [forUpTo, bind_of_ok (writeZeros content hs n), writeZero content rfl]
    rfl

theorem intAt_zeros {n i : ℕ} (h : i + 4 ≤ n) : intAt (List.replicate n 0) i = 0 := by
  unfold intAt
  rw [List.drop_replicate, List.take_replicate, Nat.min_eq_left (by omega)]
  decide

theorem initHeader_of_writes {s s₁ s₂ : DesktopRegionFile} (h : s.file.bytes.length < 4096)
    (h1 : forUpTo 1024 (fun _ => io (SeekFile.writeInt 0)) s = .ok () s₁)
    (h2 : forUpTo 1024 (fun _ => io (SeekFile.writeInt 0)) s₁ = .ok () s₂) :
    initHeader s = .ok () { s₂ with sizeDelta := s₂.sizeDelta + 8192 } := by
  unfold initHeader
  rw [bind_of_ok (io_length _), if_pos h, bind_of_ok h1, bind_of_ok h2]
  rfl

/-! ### The size of the file and its growth -/

section SizeDelta

variable {d : Int32}

theorem keepsSizeDelta_io {α : Type} (m : SeekFile.F α) :
    Keeps (fun s : DesktopRegionFile => s.sizeDelta = d) (io m) := by
  intro s hs
  unfold after io onFile
  cases m s.file <;> exact hs

theorem keepsSizeDelta_setFree (i : Int32) (b : Bool) :
    Keeps (fun s : DesktopRegionFile => s.sizeDelta = d) (setFree i b) := by
  intro s hs
  unfold after setFree
  rw [bind_of_ok (get_apply s)]
  cases lset s.sectorFree i b <;> exact hs

/-- The constructor counts only the sectors of a new header. -/
theorem keepsSizeDelta_readHeader :
    Keeps (fun s : DesktopRegionFile => s.sizeDelta = d) readHeader := by
  refine (keepsSizeDelta_io _).bind fun _ => (Keeps.forUpTo (fun i => ?_) 1024).bind fun _ =>
    Keeps.forUpTo (fun i => ?_) 1024
  · refine (keepsSizeDelta_io _).bind fun offset => Keeps.bind ?_ fun _ => Keeps.get.bind fun s => ?_
    · exact fun s hs => hs
    · split
      · exact Keeps.forUpTo (fun j => keepsSizeDelta_setFree _ _) _
      · exact Keeps.pure _
  · refine (keepsSizeDelta_io _).bind fun value => ?_
    exact fun s hs => hs

end SizeDelta

section Short

variable {content : List UInt8} (h : content.length < 4096)
include h

theorem initHeader_short : initHeader (fresh content) = .ok ()
    { fresh content with file := ⟨List.replicate 8192 0, 8192⟩, sizeDelta := 0 + 8192 } := by
  have h1 := writeZeros content (a := 0) (s := fresh content) rfl 1024
  have h2 := writeZeros content (a := 4096)
    (s := { fresh content with file := ⟨List.replicate 4096 0 ++ content.drop 4096, 4096⟩ }) rfl 1024
  have hdrop : content.drop 8192 = [] := List.drop_eq_nil_of_le (by omega)
  simp only [Nat.zero_add, Nat.reduceMul, Nat.reduceAdd, hdrop, List.append_nil] at h1 h2
  exact initHeader_of_writes h h1 h2

/-- The file becomes an empty header of two sectors. -/
theorem construct_short : ∃ s, construct (fresh content) = .ok () s ∧
    HeaderRead (List.replicate 8192 0) 2 2048 s ∧ s.sizeDelta = 8192 := by
  have h1 := initHeader_short h
  set s₁ : DesktopRegionFile :=
    { fresh content with file := ⟨List.replicate 8192 0, 8192⟩, sizeDelta := 0 + 8192 } with hs₁
  have hlen : s₁.file.bytes.length = 8192 := List.length_replicate
  have h2 : pad s₁ = .ok () s₁ := pad_aligned (by rw [hlen])
  have hn : nSectors s₁.file.bytes.length = 2 := by
    rw [hlen]
    decide
  have h3 := initSectors_eq (s := s₁) (by omega)
  rw [hn] at h3
  obtain ⟨s, h4, hH⟩ := readHeader_ok (s := { s₁ with sectorFree := headerTable 2 }) (k := 2) le_rfl rfl
    (by rw [hlen]) (by norm_num) fun i hi hfit => absurd (intAt_zeros (by omega)) hfit.1
  have hdelta := keepsSizeDelta_readHeader (d := 8192) { s₁ with sectorFree := headerTable 2 } rfl
  rw [after_of_ok h4] at hdelta
  refine ⟨s, ?_, hH, hdelta⟩
  have hbody : (do initHeader; pad; initSectors; readHeader) (fresh content) = .ok () s := by
    rw [bind_of_ok h1, bind_of_ok h2, bind_of_ok h3]
    exact h4
  unfold construct catchIO
  rw [hbody]

end Short

theorem nSectors_of_lt {n : ℕ} (h : n < 2 ^ 31) : nSectors n = (n / 4096 : ℕ) := by
  unfold nSectors
  rw [Int32.toInt_ofNat_of_lt h]
  rfl

end DesktopRegionFile

end WorldToPE
