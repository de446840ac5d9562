import WorldToPE.Region.Slots

/-!
# WorldToPE.Region.Corrupt — reading a region file with arbitrary content

The offsets and lengths of a region file are not checked when they are written to disk by somebody else.
The constructor and `getChunkDataInputStream` test them, but three kinds of content get past the tests:
a file of one sector, for which the table of sectors is too short for the header; a negative offset with
a sector count, whose sectors lie below the table; and a payload whose length is zero or negative.

* `readPayload_total`, `readPayload_bad`: reading at a position of the file.
* `readsTotally_iff`: the contents on which opening and reading never throw.
-/

namespace WorldToPE.DesktopRegionFile

open Java Run
open SeekFile (intAt)

/-! ## Reading at a position -/

/-- The position that a slot's offset stands for, as the code computes it. -/
def position (offset : Int32) : Int := ((offset >>> 8) * 4096).toInt

/-- A payload that is read with an array of negative size, or of a size that is not its own. -/
def BadPayload (bytes : List UInt8) (p : ℕ) : Prop :=
  p + 5 ≤ bytes.length ∧ (intAt bytes p).toInt ≤ 0 ∧
    (bytes.getD (p + 4) 0 = 1 ∨ bytes.getD (p + 4) 0 = 2)

theorem readData_neg {n : Int32} (h : n.toInt < 0) (s : DesktopRegionFile) :
    readData n s = .error .negativeArraySize s := by
  unfold readData
  rw [if_pos (by rw [Int32.lt_iff_toInt_lt]; exact h)]
  rfl

theorem readData_ok {n : Int32} (h : 0 ≤ n.toInt) (s : DesktopRegionFile) :
    ∃ data t, readData n s = .ok data t ∧ data.length = n.toInt.toNat := by
  have hn : ¬n < 0 := by
    rw [Int32.lt_iff_toInt_lt]
    show ¬n.toInt < 0
    omega
  unfold readData
  rw [if_neg hn]
  refine ⟨_, _, rfl, ?_⟩
  rw [List.length_append, List.length_replicate, List.length_take]
  omega

section Payload

variable {gzipHeader : List UInt8 → Bool} {numSectors : Int32} {s : DesktopRegionFile}

/-- The part of `readPayload` behind the length and the version. -/
theorem readPayload_eq (h : s.file.pos + 5 ≤ s.file.bytes.length)
    (hle : ¬intAt s.file.bytes s.file.pos > numSectors * 4096) :
    readPayload gzipHeader numSectors s = (
      if s.file.bytes.getD (s.file.pos + 4) 0 = 1 then do
        let data ← readData (intAt s.file.bytes s.file.pos - 1)
        if gzipHeader data then return some ⟨true, data⟩ else throw .io
      else if s.file.bytes.getD (s.file.pos + 4) 0 = 2 then do
        let data ← readData (intAt s.file.bytes s.file.pos - 1)
        return some ⟨false, data⟩
      else return none : M (Option ChunkStream))
        { s with file := ⟨s.file.bytes, s.file.pos + 4 + 1⟩ } := by
  unfold readPayload
  rw [bind_of_ok (io_of_ok (SeekFile.readInt_spec (by omega))), if_neg hle,
    bind_of_ok (io_of_ok (SeekFile.readByte_spec (show s.file.pos + 4 < s.file.bytes.length by omega)))]

/-- **Reading at a position** without a bad payload gives nothing, fails with an `IOException`, or gives
a stream that fits in its sectors. -/
theorem readPayload_total (gzipHeader : List UInt8 → Bool) (hn : 0 ≤ numSectors.toInt) (h255 : numSectors.toInt ≤ 255)
    (hbad : ¬BadPayload s.file.bytes s.file.pos) :
    (∃ o t, readPayload gzipHeader numSectors s = .ok o t ∧
      ∀ stream, o = some stream → stream.data.length ≤ 4096 * numSectors.toInt.toNat) ∨
      ∃ e t, readPayload gzipHeader numSectors s = .error e t ∧ e.isIO = true := by
  have h4096 : (4096 : Int32).toInt = 4096 := rfl
  have hmul : (numSectors * 4096).toInt = numSectors.toInt * 4096 := by
    rw [toInt_mul_of_fits] <;> rw [h4096] <;> omega
  by_cases h4 : s.file.bytes.length < s.file.pos + 4
  · obtain ⟨g, hg⟩ := SeekFile.readInt_eof h4
    exact .inr ⟨.eof, _, by rw [readPayload, bind_of_error (io_of_error hg)], rfl⟩
  have hint := io_of_ok (s := s) (SeekFile.readInt_spec (f := s.file) (by omega))
  by_cases hgt : intAt s.file.bytes s.file.pos > numSectors * 4096
  · refine .inl ⟨none, { s with file := ⟨s.file.bytes, s.file.pos + 4⟩ }, ?_, nofun⟩
    rw [readPayload, bind_of_ok hint, if_pos hgt]
    rfl
  by_cases h5 : s.file.bytes.length < s.file.pos + 5
  · obtain ⟨g, hg⟩ := SeekFile.readByte_eof (f := ⟨s.file.bytes, s.file.pos + 4⟩) (by dsimp only; omega)
    refine .inr ⟨.eof, { s with file := g }, ?_, rfl⟩
    rw [readPayload, bind_of_ok hint, if_neg hgt, bind_of_error (io_of_error hg)]
  rw [readPayload_eq (by omega) hgt]
  have hle : (intAt s.file.bytes s.file.pos).toInt ≤ numSectors.toInt * 4096 := by
    rw [gt_iff_lt, Int32.lt_iff_toInt_lt, hmul] at hgt
    omega
  by_cases hv : s.file.bytes.getD (s.file.pos + 4) 0 = 1 ∨ s.file.bytes.getD (s.file.pos + 4) 0 = 2
  · have hpos : 0 < (intAt s.file.bytes s.file.pos).toInt := by
      by_contra hneg
      exact hbad ⟨by omega, by omega, hv⟩
    have hone : (1 : Int32).toInt = 1 := rfl
    have hsub : (intAt s.file.bytes s.file.pos - 1).toInt = (intAt s.file.bytes s.file.pos).toInt - 1 := by
      have hlt := (intAt s.file.bytes s.file.pos).toInt_lt
      rw [Int32.toInt_sub, hone, Int.bmod_eq_of_le (by omega) (by omega)]
    obtain ⟨data, t, hdata, hlen⟩ := readData_ok (n := intAt s.file.bytes s.file.pos - 1) (by omega)
      { s with file := ⟨s.file.bytes, s.file.pos + 4 + 1⟩ }
    by_cases h1 : s.file.bytes.getD (s.file.pos + 4) 0 = 1
    · rw [if_pos h1, bind_of_ok hdata]
      by_cases hz : gzipHeader data = true
      · rw [if_pos hz]
        refine .inl ⟨_, t, rfl, fun stream hs => ?_⟩
        obtain rfl := Option.some.inj hs
        show data.length ≤ _
        omega
      · rw [if_neg hz]
        exact .inr ⟨.io, t, rfl, rfl⟩
    · rw [if_neg h1, if_pos (hv.resolve_left h1), bind_of_ok hdata]
      refine .inl ⟨_, t, rfl, fun stream hs => ?_⟩
      obtain rfl := Option.some.inj hs
      show data.length ≤ _
      omega
  · push Not at hv
    rw [if_neg hv.1, if_neg hv.2]
    exact .inl ⟨none, _, rfl, nofun⟩

/-- A bad payload makes the reader throw, or gives it an array that is far too large. -/
theorem readPayload_bad (hn : 0 ≤ numSectors.toInt) (h255 : numSectors.toInt ≤ 255)
    (hbad : BadPayload s.file.bytes s.file.pos) :
    (∃ e t, readPayload (fun _ => true) numSectors s = .error e t ∧ e.isIO = false) ∨
      ∃ stream t, readPayload (fun _ => true) numSectors s = .ok (some stream) t ∧
        stream.data.length = 2 ^ 31 - 1 := by
  obtain ⟨h5, hle, hv⟩ := hbad
  have h4096 : (4096 : Int32).toInt = 4096 := rfl
  have hmul : (numSectors * 4096).toInt = numSectors.toInt * 4096 := by
    rw [toInt_mul_of_fits] <;> rw [h4096] <;> omega
  have hgt : ¬intAt s.file.bytes s.file.pos > numSectors * 4096 := by
    rw [gt_iff_lt, Int32.lt_iff_toInt_lt, hmul]
    omega
  rw [readPayload_eq h5 hgt]
  have hge := (intAt s.file.bytes s.file.pos).le_toInt
  have hone : (1 : Int32).toInt = 1 := rfl
  have hsub : (intAt s.file.bytes s.file.pos - 1).toInt =
      ((intAt s.file.bytes s.file.pos).toInt - 1).bmod (2 ^ 32) := by
    rw [Int32.toInt_sub, hone]
  generalize intAt s.file.bytes s.file.pos = n at *
  generalize { s with file := ⟨s.file.bytes, s.file.pos + 4 + 1⟩ } = s'
  by_cases hmin : n.toInt = -2 ^ 31
  · have hmax : (n - 1).toInt = 2 ^ 31 - 1 := by
      rw [hsub, hmin]
      decide
    obtain ⟨data, t, hdata, hlen⟩ := readData_ok (n := n - 1) (by omega) s'
    rw [hmax] at hlen
    rcases hv with h1 | h2
    · rw [if_pos h1, bind_of_ok hdata]
      exact .inr ⟨⟨true, data⟩, t, rfl, hlen⟩
    · rw [if_neg (by rw [h2]; decide), if_pos h2, bind_of_ok hdata]
      exact .inr ⟨⟨false, data⟩, t, rfl, hlen⟩
  · have hneg : (n - 1).toInt < 0 := by
      rw [hsub, Int.bmod_eq_of_le (by omega) (by omega)]
      omega
    have hdata := readData_neg hneg s'
    rcases hv with h1 | h2
    · rw [if_pos h1, bind_of_error hdata]
      exact .inl ⟨_, _, rfl, rfl⟩
    · rw [if_neg (by rw [h2]; decide), if_pos h2, bind_of_error hdata]
      exact .inl ⟨_, _, rfl, rfl⟩

end Payload

/-! ## The slots of an open file -/

/-- An offset that the constructor can mark and behind which there is no bad payload. -/
def Readable (bytes : List UInt8) (k : ℕ) (offset : Int32) : Prop :=
  Markable k offset ∧ (Fits k offset → 0 ≤ position offset → ¬BadPayload bytes (position offset).toNat)

theorem numSectors_range (offset : Int32) :
    0 ≤ (offset &&& 255).toInt ∧ (offset &&& 255).toInt ≤ 255 := by
  rw [toInt_numSectors]
  omega

/-- The file pointer is at the position of the slot after the seek. -/
theorem seek_position {bytes : List UInt8} {k : ℕ} {s : DesktopRegionFile}
    (hH : HeaderRead bytes k 2048 s) {offset : Int32} (hp : 0 ≤ position offset) :
    io (SeekFile.seek (position offset)) s =
      .ok () { s with file := ⟨bytes, (position offset).toNat⟩ } := by
  rw [io_of_ok (SeekFile.seek_nonneg (by omega) s.file), hH.file]

section Slot

variable {bytes : List UInt8} {k : ℕ} {s : DesktopRegionFile} (hH : HeaderRead bytes k 2048 s)
  {x z : Int32} (hb : outOfBounds x z = false)
include hH hb

theorem offset_of_headerRead : s.offsets[slot x z]? = some (intAt bytes (4 * slot x z)) :=
  hH.offsets _ (by have := (toInt_slot hb).2; omega)

/-- Nothing is read from a slot without an offset inside the file. -/
theorem openChunk_of_not_fits {gzipHeader : List UInt8 → Bool}
    (hf : ¬Fits k (intAt bytes (4 * slot x z))) : openChunk gzipHeader x z s = .ok none s := by
  have ho := getOffset_eq hb (offset_of_headerRead hH hb)
  unfold openChunk
  rw [bind_of_ok ho]
  generalize intAt bytes (4 * slot x z) = offset at hf
  by_cases hz : offset = 0
  · rw [if_pos hz]
    rfl
  · have hgt : (offset >>> 8) + (offset &&& 255) > Int32.ofNat s.sectorFree.length := by
      rw [hH.sectors, gt_iff_lt, Int32.lt_iff_toInt_lt]
      by_contra hle
      exact hf ⟨hz, by rw [Int32.le_iff_toInt_le]; omega⟩
    rw [if_neg hz, bind_of_ok (get_apply s), if_pos hgt]
    rfl

/-- The reader seeks to the position of an offset inside the file. -/
theorem openChunk_of_fits {gzipHeader : List UInt8 → Bool} (hf : Fits k (intAt bytes (4 * slot x z))) :
    openChunk gzipHeader x z s = (do
      io (SeekFile.seek (position (intAt bytes (4 * slot x z))))
      readPayload gzipHeader (intAt bytes (4 * slot x z) &&& 255)) s := by
  have ho := getOffset_eq hb (offset_of_headerRead hH hb)
  unfold openChunk
  rw [bind_of_ok ho]
  generalize intAt bytes (4 * slot x z) = offset at hf
  have hgt : ¬(offset >>> 8) + (offset &&& 255) > Int32.ofNat s.sectorFree.length := by
    have h2 := hf.2
    rw [Int32.le_iff_toInt_le] at h2
    rw [hH.sectors, gt_iff_lt, Int32.lt_iff_toInt_lt]
    omega
  rw [if_neg hf.1, bind_of_ok (get_apply s), if_neg hgt]
  rfl

theorem getChunk_total (gzipHeader : List UInt8 → Bool)
    (hr : Readable bytes k (intAt bytes (4 * slot x z))) :
    ∃ o, result (getChunkDataInputStream gzipHeader x z) s = .ok o ∧ ∀ stream, o = some stream →
      stream.data.length ≤ 4096 * (intAt bytes (4 * slot x z) &&& 255).toInt.toNat := by
  unfold getChunkDataInputStream
  rw [if_neg (by rw [hb]; decide), result_catchIO_pure]
  by_cases hf : Fits k (intAt bytes (4 * slot x z))
  · rw [result, openChunk_of_fits hH hb hf]
    by_cases hp : 0 ≤ position (intAt bytes (4 * slot x z))
    · rw [bind_of_ok (seek_position hH hp)]
      obtain ⟨h0, h255⟩ := numSectors_range (intAt bytes (4 * slot x z))
      rcases readPayload_total gzipHeader
        (s := { s with file := ⟨bytes, (position (intAt bytes (4 * slot x z))).toNat⟩ }) h0 h255
        (hr.2 hf hp) with ⟨o, t, ho, hlen⟩ | ⟨e, t, he, hio⟩
      · rw [ho]
        exact ⟨o, rfl, hlen⟩
      · rw [he]
        exact ⟨none, by simp [hio], fun _ h => by cases h⟩
    · rw [bind_of_error (io_of_error (SeekFile.seek_neg (by omega) s.file))]
      exact ⟨none, rfl, fun _ h => by cases h⟩
  · rw [result_of_ok (openChunk_of_not_fits hH hb hf)]
    exact ⟨none, rfl, fun _ h => by cases h⟩

theorem getChunk_bad (hf : Fits k (intAt bytes (4 * slot x z)))
    (hp : 0 ≤ position (intAt bytes (4 * slot x z)))
    (hbad : BadPayload bytes (position (intAt bytes (4 * slot x z))).toNat) :
    (∃ e, result (getChunkDataInputStream (fun _ => true) x z) s = .error e) ∨
      ∃ stream, result (getChunkDataInputStream (fun _ => true) x z) s = .ok (some stream) ∧
        stream.data.length = 2 ^ 31 - 1 := by
  unfold getChunkDataInputStream
  rw [if_neg (by rw [hb]; decide), result_catchIO_pure, result, openChunk_of_fits hH hb hf,
    bind_of_ok (seek_position hH hp)]
  obtain ⟨h0, h255⟩ := numSectors_range (intAt bytes (4 * slot x z))
  rcases readPayload_bad
    (s := { s with file := ⟨bytes, (position (intAt bytes (4 * slot x z))).toNat⟩ }) h0 h255 hbad with
    ⟨e, t, he, hio⟩ | ⟨stream, t, ho, hlen⟩
  · rw [he]
    exact .inl ⟨e, by simp [hio]⟩
  · rw [ho]
    exact .inr ⟨stream, rfl, hlen⟩

end Slot

/-! ## Opening and reading -/

/-- Opening a file with this content and reading from it never throws: whatever was read before, a call
returns nothing or a stream whose array fits in the sectors of the slot. -/
def ReadsTotally (content : List UInt8) : Prop :=
  ∃ s, construct (fresh content) = .ok () s ∧
    ∀ (gzipHeader : List UInt8 → Bool) (calls : List (Int32 × Int32)) (x z : Int32),
      ∃ o, result (getChunkDataInputStream gzipHeader x z)
          (run (fun c => getChunkDataInputStream gzipHeader c.1 c.2) s calls) = .ok o ∧
        ∀ stream, o = some stream → ∃ offset, result (getOffset x z) s = .ok offset ∧
          stream.data.length ≤ 4096 * (offset &&& 255).toInt.toNat

/-- The calls only move the file pointer. -/
theorem samePos_run (gzipHeader : List UInt8 → Bool) (s : DesktopRegionFile)
    (calls : List (Int32 × Int32)) :
    SamePos s (run (fun c => getChunkDataInputStream gzipHeader c.1 c.2) s calls) := by
  refine run_induction_of (P := fun _ _ => True) (I := fun _ t => SamePos s t) (SamePos.refl s) ?_ calls
    (steps_of_forall fun _ _ => trivial)
  intro _ c t ht _
  exact keeps_getChunkDataInputStream gzipHeader s c.1 c.2 t ht

theorem readsTotally_of_readable {content bytes : List UInt8} {k : ℕ} {s : DesktopRegionFile}
    (hopen : construct (fresh content) = .ok () s) (hH : HeaderRead bytes k 2048 s)
    (hr : ∀ i < 1024, Readable bytes k (intAt bytes (4 * i))) : ReadsTotally content := by
  refine ⟨s, hopen, fun gzipHeader calls x z => ?_⟩
  cases hb : outOfBounds x z with
  | true =>
    refine ⟨none, ?_, nofun⟩
    unfold getChunkDataInputStream
    rw [if_pos hb]
    rfl
  | false =>
    rw [getChunkDataInputStream_samePos gzipHeader (samePos_run gzipHeader s calls) hb]
    obtain ⟨o, ho, hlen⟩ := getChunk_total hH hb gzipHeader (hr _ (toInt_slot hb).2)
    exact ⟨o, ho, fun stream hs =>
      ⟨_, result_of_ok (getOffset_eq hb (offset_of_headerRead hH hb)), hlen stream hs⟩⟩

theorem readable_of_readsTotally {content bytes : List UInt8} {k : ℕ} {s : DesktopRegionFile}
    (hopen : construct (fresh content) = .ok () s) (hH : HeaderRead bytes k 2048 s)
    (h : ReadsTotally content) {i : ℕ} (hi : i < 1024) (hf : Fits k (intAt bytes (4 * i)))
    (hp : 0 ≤ position (intAt bytes (4 * i))) :
    ¬BadPayload bytes (position (intAt bytes (4 * i))).toNat := by
  intro hbad
  obtain ⟨s', hopen', hcalls⟩ := h
  obtain ⟨-, rfl⟩ := EStateM.Result.ok.inj (hopen.symm.trans hopen')
  have hb := outOfBounds_ofNat (x := i % 32) (z := i / 32) (by omega) (by omega)
  have hslot : slot (Int32.ofNat (i % 32)) (Int32.ofNat (i / 32)) = i := by
    unfold slot
    rw [Int32.toInt_ofNat_of_lt (by omega), Int32.toInt_ofNat_of_lt (by omega)]
    omega
  rw [← hslot] at hf hp hbad
  obtain ⟨o, ho, hlen⟩ := hcalls (fun _ => true) [] (Int32.ofNat (i % 32)) (Int32.ofNat (i / 32))
  rw [run_nil] at ho
  rcases getChunk_bad hH hb hf hp hbad with ⟨e, he⟩ | ⟨stream, hs, hmax⟩
  · rw [he] at ho
    cases ho
  · rw [hs] at ho
    obtain ⟨offset, -, hle⟩ := hlen stream (Except.ok.inj ho).symm
    have h255 := (numSectors_range offset).2
    omega

/-- **The contents that can be read**: files of less than a sector, and files of two sectors or more in
which every offset inside the file can be marked and has no bad payload behind it. -/
theorem readsTotally_iff (content : List UInt8) (h : content.length < 2 ^ 31) :
    ReadsTotally content ↔ content.length < 4096 ∨ 8192 ≤ content.length ∧
      ∀ i < 1024, Readable (padded content) (content.length / 4096) (intAt (padded content) (4 * i)) := by
  have hn := nSectors_of_lt h
  have hk : (nSectors content.length).toNat = content.length / 4096 := by rw [hn, Int.toNat_natCast]
  constructor
  · intro ht
    by_cases h1 : content.length < 4096
    · exact .inl h1
    have h2 : 8192 ≤ content.length := by
      by_contra hlt
      obtain ⟨e, s, he⟩ := construct_throws (show 4096 ≤ content.length by omega) (by omega)
      obtain ⟨s', hs', -⟩ := ht
      rw [he] at hs'
      cases hs'
    have hm : ∀ i < 1024, Markable (content.length / 4096) (intAt (padded content) (4 * i)) := by
      by_contra hex
      push Not at hex
      obtain ⟨e, s, he⟩ := construct_throws_of_offset h2 (by omega) (by rw [hk]; exact hex)
      obtain ⟨s', hs', -⟩ := ht
      rw [he] at hs'
      cases hs'
    obtain ⟨s, hopen, hH⟩ := construct_headerRead h2 (by omega) (by rw [hk]; exact hm)
    rw [hk] at hH
    exact .inr ⟨h2, fun i hi => ⟨hm i hi, fun hf hp => readable_of_readsTotally hopen hH ht hi hf hp⟩⟩
  · rintro (h1 | ⟨h2, hr⟩)
    · obtain ⟨s, hopen, hH, -⟩ := construct_short h1
      refine readsTotally_of_readable hopen hH fun i hi => ?_
      have hz : intAt (List.replicate 8192 0) (4 * i) = 0 := intAt_zeros (by omega)
      exact ⟨fun hf => absurd hz hf.1, fun hf => absurd hz hf.1⟩
    · obtain ⟨s, hopen, hH⟩ := construct_headerRead h2 (by omega)
        (by rw [hk]; exact fun i hi => (hr i hi).1)
      rw [hk] at hH
      exact readsTotally_of_readable hopen hH hr

/-- A region with one chunk can be read. -/
theorem readsTotally_singleSlot : ReadsTotally (singleSlot [3, 0]) := by
  have hlen : (singleSlot [3, 0]).length = 12288 := length_singleSlot (by decide)
  have hpad : padded (singleSlot [3, 0]) = singleSlot [3, 0] := padded_of_aligned (by rw [hlen])
  have hpayload : intAt (singleSlot [3, 0]) 8192 = 3 := by
    unfold intAt singleSlot
    rw [List.drop_left' (length_oneChunk 8188)]
    decide
  refine (readsTotally_iff _ (by rw [hlen]; norm_num)).mpr (.inr ⟨by rw [hlen]; norm_num, ?_⟩)
  rw [hpad, hlen]
  intro i hi
  rw [intAt_singleSlot _ hi]
  by_cases h0 : i = 0
  · rw [if_pos h0]
    refine ⟨fun _ => .inl (by decide), fun _ _ hbad => ?_⟩
    have hle := hbad.2.1
    rw [show (position 513).toNat = 8192 by decide, hpayload] at hle
    exact absurd hle (by decide)
  · rw [if_neg h0]
    exact ⟨fun hf => absurd rfl hf.1, fun hf => absurd rfl hf.1⟩

/-- A file of one sector cannot be opened. -/
theorem not_readsTotally_oneSector : (List.replicate 4096 (0 : UInt8)).length < 2 ^ 31 ∧
    ¬ReadsTotally (List.replicate 4096 0) := by
  have hlen : (List.replicate 4096 (0 : UInt8)).length = 4096 := List.length_replicate
  have hsec : nSectors (List.replicate 4096 (0 : UInt8)).length < 2 := by
    rw [hlen]
    decide
  refine ⟨by rw [hlen]; norm_num, ?_⟩
  rintro ⟨s, hs, -⟩
  obtain ⟨e, s', he⟩ := construct_throws (by rw [hlen]) hsec
  rw [he] at hs
  cases hs

end WorldToPE.DesktopRegionFile
