import WorldToPE.Region.Write
import WorldToPE.Region.Slots

/-!
# WorldToPE.Region.RegionFile — region files of the Pocket Edition

`RegionFile.java`, the variant of the desktop class for `chunks.dat`: the bytes of its `int`s are
reversed, the header is one sector, and a chunk has no version byte.  The fields of the two classes are
the same, so that the object is the same record; its time stamps stay zero.

* `construct_ok`: the constructor on a file of whole sectors.
* `getChunkData_stored`: a read returns the chunk of the store that the file represents.
* `getChunkData_run`: a read returns the last data that were written, after every sequence of writes
  and reopenings.
-/

namespace WorldToPE

open Java Run Sectors

abbrev RegionFile := DesktopRegionFile

namespace RegionFile

open DesktopRegionFile (M io initHeader pad setFree noteOffset getOffset outOfBounds readData store fresh
  WriteCall)

/-! ## The class -/

/-- The table of free sectors: all but the sector of the header. -/
def initSectors : M Unit := do
  let length ← io SeekFile.length
  let nSectors := Int32.ofNat length / 4096
  if nSectors < 0 then throw .illegalArgument
  modify fun s => { s with sectorFree := List.replicate nSectors.toInt.toNat true }
  setFree 0 false

/-- One round of the loop that reads the offsets. -/
def readOffset (i : ℕ) : M Unit := do
  let n ← io SeekFile.readInt
  noteOffset i (reverseBytes n)

def readHeader : M Unit := do
  io (SeekFile.seek 0)
  forUpTo 1024 readOffset

/-- The constructor. -/
def construct : M Unit :=
  catchIO (do initHeader; pad; initSectors; readHeader) (return ())

/-- The data of a chunk of `numSectors` sectors, at the file pointer. -/
def readChunk (numSectors : Int32) : M (Option (List UInt8)) := do
  let n ← io SeekFile.readInt
  let length := reverseBytes n
  if length > 4096 * numSectors then return none
  else do
    let data ← readData (length - 1)
    return some data

/-- The `try` block of `getChunkData`. -/
def openChunk (x z : Int32) : M (Option (List UInt8)) := do
  let offset ← getOffset x z
  if offset = 0 then return none
  else do
    let sectorNumber := offset >>> 8
    let numSectors := offset &&& 255
    let s ← get
    if sectorNumber + numSectors > Int32.ofNat s.sectorFree.length then return none
    else do
      io (SeekFile.seek (sectorNumber * 4096).toInt)
      readChunk numSectors

def getChunkData (x z : Int32) : M (Option (List UInt8)) :=
  if outOfBounds x z then return none
  else catchIO (openChunk x z) (return none)

def write (x z : Int32) (data : List UInt8) (length : Int32) : M Unit :=
  catchIO (store Layout.pocket (return ()) x z data length) (return ())

/-! ## The statement -/

/-- What happens to a region file: a write, or the file is opened again. -/
inductive Op
  | write (w : WriteCall)
  | reopen

def Op.Valid : Op → Prop
  | .write w => w.Valid
  | .reopen => True

instance : DecidablePred Op.Valid
  | .write w => inferInstanceAs (Decidable w.Valid)
  | .reopen => .isTrue trivial

def exec : Op → M Unit
  | .write w => write w.x w.z w.data w.length
  | .reopen => fun s => construct (fresh s.file.bytes)

/-- What a step does to a store of chunks. -/
def Op.applyTo (c : Fin 1024 → Option (List UInt8)) : Op → Fin 1024 → Option (List UInt8)
  | .write w => w.applyTo c
  | .reopen => c

/-- The store that the file is meant to be: the last write to `(x, z)` that fits. -/
def lastWrite (ops : List Op) (x z : Int32) : Option (List UInt8) :=
  ops.foldl (fun found op => match op with
    | .write w => if w.x = x ∧ w.z = z ∧ w.Fits then some w.bytes else found
    | .reopen => found) none

/-! ## The constructor -/

open DesktopRegionFile (OffsetsRead Markable Stored nSectors extent extents record getOffset_ok io_of_ok
  toInt_numSectors slot toInt_slot outOfBounds_iff)
open SeekFile (intAt)

/-- The offsets in a header, with their bytes reversed. -/
def offsetAt (bytes : List UInt8) (i : ℕ) : Int32 := reverseBytes (intAt bytes (4 * i))

section Construct

variable {s : RegionFile} {k : ℕ} (hk : k < 2 ^ 19) (h1 : 1 ≤ k)
  (hlen : s.file.bytes.length = 4096 * k)
include hk h1 hlen

theorem initSectors_eq : initSectors s =
    .ok () { s with sectorFree := (List.replicate k true).set 0 false } := by
  have hz : (0 : Int32).toInt = (0 : ℕ) := rfl
  have hn : (Int32.ofNat s.file.bytes.length / 4096).toInt = k := by
    rw [DesktopRegionFile.toInt_nSectors, DesktopRegionFile.nSectors_of_lt (by omega), hlen,
      Nat.mul_div_cancel_left k (by norm_num)]
  have hneg : ¬Int32.ofNat s.file.bytes.length / 4096 < 0 := by
    rw [Int32.lt_iff_toInt_lt, hn, hz]
    omega
  unfold initSectors
  simp only [bind_apply, DesktopRegionFile.io_length, if_neg hneg, modify_apply, hn,
    Int.toNat_natCast]
  exact DesktopRegionFile.setFree_ok hz (by simp; omega) false

theorem readHeader_ok (hfree : s.sectorFree = (List.replicate k true).set 0 false)
    (hm : ∀ i < 1024, Markable k (offsetAt s.file.bytes i)) :
    ∃ t, readHeader s = .ok () t ∧
      OffsetsRead 1 (offsetAt s.file.bytes) s.file.bytes k 1024 t := by
  have hseek : io (SeekFile.seek 0) s = .ok () { s with file := ⟨s.file.bytes, 0⟩ } := rfl
  have hstart : OffsetsRead 1 (offsetAt s.file.bytes) s.file.bytes k 0
      { s with file := ⟨s.file.bytes, 0⟩ } := by
    refine ⟨rfl, by simp [hfree], by omega, fun n => ?_⟩
    show s.sectorFree[n]? = some false ↔ _
    rw [hfree, List.getElem?_set, List.getElem?_replicate, List.length_replicate]
    rcases n with _ | n
    · simp
      omega
    · simp
  have hstep : ∀ i < 1024, ∀ t, OffsetsRead 1 (offsetAt s.file.bytes) s.file.bytes k i t →
      ∃ t', readOffset i t = .ok () t' ∧
        OffsetsRead 1 (offsetAt s.file.bytes) s.file.bytes k (i + 1) t' := by
    intro i hi t ht
    obtain ⟨t', h', ht'⟩ := ht.noteOffset hi (by omega) (hm i hi)
    refine ⟨t', ?_, ht'⟩
    unfold readOffset
    rw [bind_of_ok (ht.readInt (by omega))]
    exact h'
  obtain ⟨t, ht, hI⟩ := forUpTo_ok hstart 1024 hstep
  refine ⟨t, ?_, hI⟩
  unfold readHeader
  rw [bind_of_ok hseek, ht]

/-- **The constructor**, once the header is there. -/
theorem construct_ok {content : List UInt8} (hinit : initHeader (fresh content) = .ok () s)
    (hm : ∀ i < 1024, Markable k (offsetAt s.file.bytes i)) :
    ∃ t, construct (fresh content) = .ok () t ∧
      OffsetsRead 1 (offsetAt s.file.bytes) s.file.bytes k 1024 t := by
  have hpad : pad s = .ok () s := DesktopRegionFile.pad_aligned (by omega)
  have hsec := initSectors_eq hk h1 hlen
  obtain ⟨t, ht, hI⟩ := readHeader_ok (s := { s with
    sectorFree := (List.replicate k true).set 0 false }) hk h1 hlen rfl hm
  refine ⟨t, catchIO_of_ok ?_, hI⟩
  rw [bind_of_ok hinit, bind_of_ok hpad, bind_of_ok hsec, ht]

end Construct

/-- A new file represents the empty store. -/
theorem construct_empty : ∃ s, construct (fresh []) = .ok () s ∧
    Stored Layout.pocket (fun _ => none) s := by
  have hz : ∀ i < 1024, offsetAt (List.replicate 8192 0) i = 0 := by
    intro i hi
    rw [offsetAt, DesktopRegionFile.intAt_zeros (by omega)]
    decide
  have hinit := DesktopRegionFile.initHeader_short (show ([] : List UInt8).length < 4096 by simp)
  obtain ⟨s, hs, hI⟩ := construct_ok (k := 2) (by norm_num) (by norm_num)
    (by rw [List.length_replicate]) hinit fun i hi hfit => absurd (hz i hi) hfit.1
  exact ⟨s, hs, hI.stored_empty le_rfl hz (by decide)⟩

section Pocket

variable {c : Fin 1024 → Option (List UInt8)} {s : RegionFile}

/-- Opening the file again finds the same store. -/
theorem reopen_stored (h : Stored Layout.pocket c s) :
    ∃ t, construct (fresh s.file.bytes) = .ok () t ∧ Stored Layout.pocket c t := by
  have hinit : initHeader (fresh s.file.bytes) = .ok () (fresh s.file.bytes) :=
    DesktopRegionFile.initHeader_eq h.header_le
  have hoffset : ∀ k : Fin 1024, offsetAt s.file.bytes k = s.offsets[k] :=
    h.decode (f := fun bs => reverseBytes (ofIntBytes bs)) fun n => by
      show reverseBytes (ofIntBytes (intBytes (reverseBytes n))) = n
      rw [ofIntBytes_intBytes, reverseBytes_reverseBytes]
  have hm : ∀ i < 1024, Markable s.sectorFree.length (offsetAt s.file.bytes i) := by
    intro i hi _
    rw [hoffset ⟨i, hi⟩]
    exact .inl (h.offset_nonneg ⟨i, hi⟩)
  obtain ⟨t, ht, hI⟩ := construct_ok (s := fresh s.file.bytes) h.small h.exact.header_le h.length
    hinit hm
  obtain ⟨hoff, hfree⟩ := h.of_offsetsRead hoffset le_rfl hI
  exact ⟨t, ht, h.congr (by rw [hI.file]; rfl) hoff hfree⟩

/-! ## Reading -/

/-- The record of a chunk, read at its first sector. -/
theorem readChunk_ok {data rest : List UInt8} {numSectors : Int32} {p : ℕ}
    (hlen : (data.length + 1 : Int) ≤ (numSectors * 4096).toInt)
    (hdrop : s.file.bytes.drop p =
      intBytes (reverseBytes (Int32.ofNat (data.length + 1))) ++ (data ++ rest)) :
    ∃ t, readChunk numSectors { s with file := ⟨s.file.bytes, p⟩ } = .ok (some data) t := by
  have hmax := (numSectors * 4096).toInt_lt
  have hread := SeekFile.readInt_of_drop hdrop
  have hafter := SeekFile.drop_after hdrop
  rw [length_intBytes] at hafter
  obtain ⟨t, ht⟩ := DesktopRegionFile.readData_of_drop hlen
    (r := { s with file := ⟨s.file.bytes, p + 4⟩ }) rfl hafter
  have hle : ¬Int32.ofNat (data.length + 1) > 4096 * numSectors := by
    rw [Int32.mul_comm, gt_iff_lt, Int32.lt_iff_toInt_lt, Int32.toInt_ofNat_of_lt (by omega)]
    omega
  refine ⟨t, ?_⟩
  unfold readChunk
  rw [bind_of_ok (io_of_ok hread), reverseBytes_reverseBytes, if_neg hle,
    bind_of_ok ht]
  rfl

/-- What lies at the first sector of a chunk. -/
theorem drop_of_stored (h : Stored Layout.pocket c s) {k : Fin 1024} {data : List UInt8}
    (hc : c k = some data) : ∃ rest, s.file.bytes.drop (4096 * (extents s k).start) =
      intBytes (reverseBytes (Int32.ofNat (data.length + 1))) ++ (data ++ rest) := by
  have hrec : (s.file.bytes.drop (4096 * (extents s k).start)).take (record Layout.pocket data).length =
      record Layout.pocket data := (h.chunk k data hc).record
  have hrecord : record Layout.pocket data =
      intBytes (reverseBytes (Int32.ofNat (data.length + 1))) ++ data := rfl
  refine ⟨(s.file.bytes.drop (4096 * (extents s k).start)).drop
    (record Layout.pocket data).length, ?_⟩
  rw [← List.append_assoc, ← hrecord]
  calc s.file.bytes.drop (4096 * (extents s k).start)
      = (s.file.bytes.drop (4096 * (extents s k).start)).take (record Layout.pocket data).length ++
          (s.file.bytes.drop (4096 * (extents s k).start)).drop (record Layout.pocket data).length :=
        (List.take_append_drop _ _).symm
    _ = _ := by rw [hrec]

/-- **Reading** returns the chunk of the store. -/
theorem getChunkData_stored (h : Stored Layout.pocket c s) {x z : Int32} {k : Fin 1024}
    (hb : outOfBounds x z = false) (hk : (z * 32 + x).toInt = k) :
    result (getChunkData x z) s = .ok (c k) := by
  suffices hopen : ∃ t, openChunk x z s = .ok (c k) t by
    obtain ⟨t, ht⟩ := hopen
    unfold getChunkData
    rw [if_neg (by rw [hb]; decide)]
    exact result_of_ok (catchIO_of_ok ht)
  unfold openChunk
  rw [bind_of_ok (getOffset_ok hk)]
  cases hc : c k with
  | none =>
    rw [if_pos (h.empty k hc)]
    exact ⟨s, rfl⟩
  | some data =>
    obtain ⟨hne, hgt, hlen, hpos⟩ := h.tests hc
    obtain ⟨rest, hdrop⟩ := drop_of_stored h hc
    have hseek : SeekFile.seek ((s.offsets[k] >>> 8) * 4096).toInt s.file =
        .ok () ⟨s.file.bytes, 4096 * (extents s k).start⟩ := by
      rw [hpos, SeekFile.seek_nonneg (by omega), Int.toNat_natCast]
    obtain ⟨t, ht⟩ := readChunk_ok hlen hdrop
    refine ⟨t, ?_⟩
    rw [if_neg hne, bind_of_ok (get_apply s), if_neg hgt, bind_of_ok (io_of_ok hseek)]
    exact ht

/-- **One step** does to the file what it does to the store. -/
theorem exec_stored (h : Stored Layout.pocket c s) {op : Op} (hop : op.Valid) :
    ∃ t, exec op s = .ok () t ∧ Stored Layout.pocket (op.applyTo c) t := by
  cases op with
  | write w =>
    obtain ⟨t, ht, hs, -⟩ := h.write hop fun c t ht => ⟨t, rfl, ht, DesktopRegionFile.grown_zero rfl rfl⟩
    exact ⟨t, ht, hs⟩
  | reopen => exact reopen_stored h

end Pocket

/-! ## Runs -/

theorem lastWrite_concat (ops : List Op) (op : Op) (x z : Int32) :
    lastWrite (ops ++ [op]) x z = match op with
      | .write w => if w.x = x ∧ w.z = z ∧ w.Fits then some w.bytes else lastWrite ops x z
      | .reopen => lastWrite ops x z := by
  unfold lastWrite
  rw [List.foldl_append]
  cases op <;> rfl

/-- The file represents a store that has the last writes. -/
def Reached (ops : List Op) (s : RegionFile) : Prop :=
  ∃ c, Stored Layout.pocket c s ∧ ∀ x z, outOfBounds x z = false → ∀ k : Fin 1024,
    slot x z = k → c k = lastWrite ops x z

theorem slot_inj {x z x' z' : Int32} (hb : outOfBounds x z = false) (hb' : outOfBounds x' z' = false)
    (h : slot x z = slot x' z') : x = x' ∧ z = z' := by
  have h1 := outOfBounds_iff.mp hb
  have h2 := outOfBounds_iff.mp hb'
  unfold slot at h
  constructor <;> apply Int32.toInt_inj.mp <;> omega

theorem applyTo_lastWrite {c : Fin 1024 → Option (List UInt8)} {ops : List Op} {op : Op}
    (hop : op.Valid) {x z : Int32} (hb : outOfBounds x z = false) {k : Fin 1024} (hk : slot x z = k)
    (hc : c k = lastWrite ops x z) : op.applyTo c k = lastWrite (ops ++ [op]) x z := by
  rw [lastWrite_concat]
  cases op with
  | reopen => exact hc
  | write w =>
    show (if w.Fits ∧ slot w.x w.z = k then some w.bytes else c k) =
      if w.x = x ∧ w.z = z ∧ w.Fits then some w.bytes else lastWrite ops x z
    rw [← hc, ← hk]
    refine if_congr ⟨fun ⟨hf, hs⟩ => ?_, fun ⟨h1, h2, hf⟩ => ⟨hf, by rw [h1, h2]⟩⟩ rfl rfl
    obtain ⟨h1, h2⟩ := slot_inj hop.inBounds hb hs
    exact ⟨h1, h2, hf⟩

theorem exec_reached {ops : List Op} {op : Op} (hop : op.Valid) {s : RegionFile}
    (h : Reached ops s) : Reached (ops ++ [op]) (after (exec op) s) := by
  obtain ⟨c, hs, hc⟩ := h
  obtain ⟨t, ht, hs'⟩ := exec_stored hs hop
  rw [after_of_ok ht]
  exact ⟨_, hs', fun x z hb k hk => applyTo_lastWrite hop hb hk (hc x z hb k hk)⟩

/-- Nothing is written outside the region. -/
theorem lastWrite_outOfBounds {x z : Int32} (hb : outOfBounds x z = true) (ops : List Op)
    (hops : ∀ op ∈ ops, op.Valid) : lastWrite ops x z = none := by
  induction ops using List.reverseRecOn with
  | nil => rfl
  | append_singleton ops op ih =>
    have hop := hops op (by simp)
    rw [lastWrite_concat]
    cases op with
    | reopen => exact ih fun o ho => hops o (by simp [ho])
    | write w =>
      dsimp only
      rw [if_neg, ih fun o ho => hops o (by simp [ho])]
      rintro ⟨rfl, rfl, -⟩
      rw [WriteCall.Valid.inBounds hop] at hb
      cases hb

/-- **The region file is a store**: after every sequence of writes and reopenings a read returns the
data of the last write that fits, and a write that does not fit changes nothing. -/
theorem getChunkData_run (ops : List Op) (hops : ∀ op ∈ ops, op.Valid) :
    ∃ s, construct (fresh []) = .ok () s ∧
      (∀ x z, result (getChunkData x z) (run exec s ops) = .ok (lastWrite ops x z)) ∧
      ∀ w : WriteCall, w.Valid → ¬w.Fits →
        (after (exec (.write w)) (run exec s ops)).file = (run exec s ops).file ∧
        ∀ later x z, result (getChunkData x z) (run exec s (ops ++ .write w :: later)) =
          result (getChunkData x z) (run exec s (ops ++ later)) := by
  obtain ⟨s, hs, h0⟩ := construct_empty
  have hreached : Reached ops (run exec s ops) :=
    run_induction_of (P := fun _ op => op.Valid) (I := Reached)
      ⟨_, h0, fun _ _ _ _ _ => rfl⟩ (fun _ _ _ h hop => exec_reached hop h) ops (steps_of_forall hops)
  refine ⟨s, hs, fun x z => ?_, fun w hw hfit => ?_⟩
  · cases hb : outOfBounds x z with
    | true =>
      unfold getChunkData
      rw [if_pos hb, lastWrite_outOfBounds hb ops hops]
      rfl
    | false =>
      obtain ⟨c, hc, hlast⟩ := hreached
      obtain ⟨hi, hlt⟩ := toInt_slot hb
      rw [getChunkData_stored hc hb (k := ⟨slot x z, hlt⟩) hi, hlast x z hb ⟨slot x z, hlt⟩ rfl]
  · have hsame : after (exec (.write w)) (run exec s ops) = run exec s ops :=
      after_of_ok (DesktopRegionFile.write_tooLarge hw hfit)
    refine ⟨by rw [hsame], fun later x z => ?_⟩
    rw [run_append, run_append, run_cons, hsame]

/-- A chunk that is written, replaced after the file was opened again, and read. -/
theorem getChunkData_replaced :
    (∀ op ∈ [Op.write ⟨0, 0, [1, 2, 3], 3⟩, .reopen, .write ⟨0, 0, [4, 5], 1⟩], op.Valid) ∧
      lastWrite [.write ⟨0, 0, [1, 2, 3], 3⟩, .reopen, .write ⟨0, 0, [4, 5], 1⟩] 0 0 = some [4] ∧
      ∃ s, construct (fresh []) = .ok () s ∧ result (getChunkData 0 0) (run exec s
        [.write ⟨0, 0, [1, 2, 3], 3⟩, .reopen, .write ⟨0, 0, [4, 5], 1⟩]) = .ok (some [4]) := by
  obtain ⟨s, hs, hread, -⟩ := getChunkData_run
    [.write ⟨0, 0, [1, 2, 3], 3⟩, .reopen, .write ⟨0, 0, [4, 5], 1⟩] (by decide)
  exact ⟨by decide, by decide, s, hs, (hread 0 0).trans (by decide)⟩

end RegionFile

end WorldToPE
