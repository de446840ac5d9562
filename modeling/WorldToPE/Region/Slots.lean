import WorldToPE.Region.Opening

/-!
# WorldToPE.Region.Slots — reading the slots of an open region file

Every read moves the pointer of the one file the object owns.  What a slot holds is nevertheless a
function of the opened file: each read starts with a seek.

* `openChunk_samePos`: what is read from a slot does not depend on where the file pointer was.
* `slotStream`, `readSlot`: what a slot holds, and that this is what is read from it at any time.
-/

namespace WorldToPE.DesktopRegionFile

open Java Run

/-- `t` is `r` with the file pointer somewhere else. -/
def SamePos (r t : DesktopRegionFile) : Prop := ∃ p, t = { r with file := ⟨r.file.bytes, p⟩ }

theorem SamePos.refl (r : DesktopRegionFile) : SamePos r r := ⟨r.file.pos, rfl⟩

/-- A file operation that only moves the pointer. -/
theorem keeps_io {α : Type} {m : SeekFile.F α} (hm : ∀ f, (after m f).bytes = f.bytes)
    (r : DesktopRegionFile) : Keeps (SamePos r) (io m) := by
  rintro s ⟨p, rfl⟩
  have h := hm ⟨r.file.bytes, p⟩
  unfold after at h
  unfold after io onFile
  dsimp only
  cases hf : m ⟨r.file.bytes, p⟩ with
  | ok a f =>
    rw [hf] at h
    exact ⟨f.pos, by rw [← h]⟩
  | error e f =>
    rw [hf] at h
    exact ⟨f.pos, by rw [← h]⟩

theorem bytes_readUpTo (n : ℕ) (f : SeekFile) : (after (SeekFile.readUpTo n) f).bytes = f.bytes := rfl

theorem bytes_readInt (f : SeekFile) : (after SeekFile.readInt f).bytes = f.bytes := by
  unfold SeekFile.readInt
  rw [after_bind]
  unfold SeekFile.readUpTo
  simp only [bind_apply, get_apply, set_apply, pure_apply]
  split <;> rfl

theorem bytes_readByte (f : SeekFile) : (after SeekFile.readByte f).bytes = f.bytes := by
  unfold SeekFile.readByte
  rw [after_bind]
  unfold SeekFile.readUpTo
  simp only [bind_apply, get_apply, set_apply, pure_apply]
  split <;> rfl

theorem bytes_seek (n : Int) (f : SeekFile) : (after (SeekFile.seek n) f).bytes = f.bytes := by
  unfold SeekFile.seek
  split <;> rfl

section Slots

variable (gzipHeader : List UInt8 → Bool) (r : DesktopRegionFile)

theorem keeps_readData (n : Int32) : Keeps (SamePos r) (readData n) := by
  unfold readData
  split
  · exact Keeps.throw _
  · exact (keeps_io (bytes_readUpTo _) r).bind fun bs => Keeps.pure _

theorem keeps_readPayload (n : Int32) : Keeps (SamePos r) (readPayload gzipHeader n) := by
  refine (keeps_io bytes_readInt r).bind fun length => ?_
  split
  · exact Keeps.pure _
  · refine (keeps_io bytes_readByte r).bind fun version => ?_
    split
    · refine (keeps_readData r _).bind fun data => ?_
      split
      · exact Keeps.pure _
      · exact Keeps.throw _
    · split
      · exact (keeps_readData r _).bind fun data => Keeps.pure _
      · exact Keeps.pure _

theorem keeps_getOffset (x z : Int32) : Keeps (SamePos r) (getOffset x z) := by
  refine Keeps.get.bind fun s => ?_
  split
  · exact Keeps.throw _
  · exact Keeps.pure _

theorem keeps_openChunk (x z : Int32) : Keeps (SamePos r) (openChunk gzipHeader x z) := by
  refine (keeps_getOffset r x z).bind fun offset => ?_
  split
  · exact Keeps.pure _
  · refine Keeps.get.bind fun s => ?_
    split
    · exact Keeps.pure _
    · exact (keeps_io (bytes_seek _) r).bind fun _ => keeps_readPayload gzipHeader r _

/-- **What is read from a slot** does not depend on where the file pointer was. -/
theorem openChunk_samePos {r t : DesktopRegionFile} (h : SamePos r t) {x z : Int32}
    (hb : outOfBounds x z = false) :
    result (openChunk gzipHeader x z) t = result (openChunk gzipHeader x z) r := by
  obtain ⟨p, rfl⟩ := h
  obtain ⟨hi, hlt⟩ := toInt_slot hb
  have ho : r.offsets[slot x z]? = some r.offsets[slot x z] := Vector.getElem?_eq_getElem hlt
  have h1 := getOffset_eq hb ho
  have h2 : getOffset x z { r with file := ⟨r.file.bytes, p⟩ } = .ok r.offsets[slot x z] _ :=
    getOffset_eq hb ho
  unfold result openChunk
  rw [bind_of_ok h1, bind_of_ok h2]
  generalize r.offsets[slot x z] = offset
  by_cases hz : offset = 0
  · rw [if_pos hz]
    rfl
  · rw [if_neg hz, bind_of_ok (get_apply _), bind_of_ok (get_apply _)]
    dsimp only
    by_cases hs : (offset >>> 8) + (offset &&& 255) > Int32.ofNat r.sectorFree.length
    · rw [if_pos hs]
      rfl
    · rw [if_neg hs]
      by_cases hneg : ((offset >>> 8) * 4096).toInt < 0
      · rw [bind_of_error (io_of_error (SeekFile.seek_neg hneg _)),
          bind_of_error (io_of_error (SeekFile.seek_neg hneg _))]
      · -- after the seek the two objects are the same
        rw [bind_of_ok (io_of_ok (SeekFile.seek_nonneg hneg _)),
          bind_of_ok (io_of_ok (SeekFile.seek_nonneg hneg _))]

/-! ## The stream of a slot -/

theorem keeps_getChunkDataInputStream (x z : Int32) :
    Keeps (SamePos r) (getChunkDataInputStream gzipHeader x z) := by
  unfold getChunkDataInputStream
  split
  · exact Keeps.pure _
  · intro s hs
    rw [after_catchIO_pure]
    exact keeps_openChunk gzipHeader r x z s hs

theorem getChunkDataInputStream_samePos {r t : DesktopRegionFile} (h : SamePos r t) {x z : Int32}
    (hb : outOfBounds x z = false) : result (getChunkDataInputStream gzipHeader x z) t =
      result (getChunkDataInputStream gzipHeader x z) r := by
  unfold getChunkDataInputStream
  rw [if_neg (by rw [hb]; decide), result_catchIO_pure, result_catchIO_pure,
    openChunk_samePos gzipHeader h hb]

/-- What slot `(x, z)` holds: nothing, or the stream that is opened for it. -/
def slotStream (x z : ℕ) : Except Exn (Option ChunkStream) := do
  if ← result (hasChunk (Int32.ofNat x) (Int32.ofNat z)) r then
    result (getChunkDataInputStream gzipHeader (Int32.ofNat x) (Int32.ofNat z)) r
  else return none

theorem outOfBounds_ofNat {x z : ℕ} (hx : x < 32) (hz : z < 32) :
    outOfBounds (Int32.ofNat x) (Int32.ofNat z) = false := by
  rw [outOfBounds_iff, Int32.toInt_ofNat_of_lt (by omega), Int32.toInt_ofNat_of_lt (by omega)]
  omega

/-- What a slot holds, read with the pointer anywhere. -/
theorem slotStream_samePos {x z : ℕ} (hx : x < 32) (hz : z < 32) {t : DesktopRegionFile}
    (h : SamePos r t) : ∃ used, hasChunk (Int32.ofNat x) (Int32.ofNat z) t = .ok used t ∧
      slotStream gzipHeader r x z = if used then
        result (getChunkDataInputStream gzipHeader (Int32.ofNat x) (Int32.ofNat z)) t
      else .ok none := by
  have hb := outOfBounds_ofNat hx hz
  have hlt := (toInt_slot hb).2
  have hoff : ∀ u : DesktopRegionFile, SamePos r u →
      u.offsets[slot (Int32.ofNat x) (Int32.ofNat z)]? =
        some r.offsets[slot (Int32.ofNat x) (Int32.ofNat z)] := by
    rintro u ⟨p, rfl⟩
    exact Vector.getElem?_eq_getElem hlt
  have hr := hasChunk_eq hb (hoff r (SamePos.refl r))
  refine ⟨_, hasChunk_eq hb (hoff t h), ?_⟩
  unfold slotStream
  rw [result_of_ok hr, getChunkDataInputStream_samePos gzipHeader h hb]
  rfl

/-- Reading a slot with the pointer anywhere: whether it is used, and then what it holds. -/
theorem readSlot {x z : ℕ} (hx : x < 32) (hz : z < 32) {t : DesktopRegionFile} (h : SamePos r t)
    {o : Option ChunkStream} (ho : slotStream gzipHeader r x z = .ok o) :
    (hasChunk (Int32.ofNat x) (Int32.ofNat z) t = .ok false t ∧ o = none) ∨
    (hasChunk (Int32.ofNat x) (Int32.ofNat z) t = .ok true t ∧
      ∃ t', getChunkDataInputStream gzipHeader (Int32.ofNat x) (Int32.ofNat z) t = .ok o t' ∧
        SamePos r t') := by
  obtain ⟨used, hhas, hslot⟩ := slotStream_samePos gzipHeader r hx hz h
  rw [hslot] at ho
  cases used with
  | false => exact .inl ⟨hhas, (Except.ok.inj ho).symm⟩
  | true =>
    have hk := keeps_getChunkDataInputStream gzipHeader r (Int32.ofNat x) (Int32.ofNat z) t h
    obtain ⟨t', ht'⟩ := result_eq_ok.mp ho
    rw [after_of_ok ht'] at hk
    exact .inr ⟨hhas, t', ht', hk⟩

end Slots

/-! ## Deflated chunks -/

section Deflated

variable (gzipHeader : List UInt8 → Bool) {data rest : List UInt8} {numSectors : Int32}
  (hlen : (data.length + 1 : Int) ≤ (numSectors * 4096).toInt)
include hlen

theorem readData_of_drop {r : DesktopRegionFile} {p : ℕ} (hf : r.file = ⟨r.file.bytes, p⟩)
    (h : r.file.bytes.drop p = data ++ rest) :
    ∃ r', readData (Int32.ofNat (data.length + 1) - 1) r = .ok data r' := by
  have hmax := (numSectors * 4096).toInt_lt
  have hsub : (Int32.ofNat (data.length + 1) - 1).toInt = data.length := by
    have h1 : (1 : Int32).toInt = 1 := rfl
    rw [Int32.toInt_sub, Int32.toInt_ofNat_of_lt (by omega), h1,
      Int.bmod_eq_of_le (by omega) (by omega)]
    omega
  have hneg : ¬ Int32.ofNat (data.length + 1) - 1 < 0 := by
    rw [Int32.lt_iff_toInt_lt, hsub]
    show ¬ (data.length : Int) < 0
    omega
  unfold readData
  rw [if_neg hneg, hsub, Int.toNat_natCast]
  show ∃ r', (io (SeekFile.readUpTo data.length) >>= _ : M _) r = _
  rw [bind_of_ok (io_of_ok (by rw [hf]; exact SeekFile.readUpTo_of_drop h)), Nat.sub_self,
    List.replicate_zero, List.append_nil]
  exact ⟨_, rfl⟩

/-- A deflated payload: its length, the version and the data. -/
theorem readPayload_deflated {r : DesktopRegionFile}
    (h : r.file.bytes.drop r.file.pos =
      intBytes (Int32.ofNat (data.length + 1)) ++ 2 :: (data ++ rest)) :
    ∃ r', readPayload gzipHeader numSectors r = .ok (some ⟨false, data⟩) r' := by
  have hmax := (numSectors * 4096).toInt_lt
  have hd1 := SeekFile.drop_after h
  rw [length_intBytes] at hd1
  have hd2 := SeekFile.drop_after
    (show r.file.bytes.drop (r.file.pos + 4) = [2] ++ (data ++ rest) from hd1)
  obtain ⟨r', hr'⟩ := readData_of_drop hlen
    (r := { r with file := ⟨r.file.bytes, r.file.pos + 4 + 1⟩ }) rfl hd2
  have hle : ¬ Int32.ofNat (data.length + 1) > numSectors * 4096 := by
    rw [gt_iff_lt, Int32.lt_iff_toInt_lt, Int32.toInt_ofNat_of_lt (by omega)]
    omega
  refine ⟨r', ?_⟩
  unfold readPayload
  rw [bind_of_ok (io_of_ok (SeekFile.readInt_of_drop h)), if_neg hle,
    bind_of_ok (io_of_ok (SeekFile.readByte_of_drop hd1)), if_neg (by decide), if_pos rfl,
    bind_of_ok hr']
  rfl

end Deflated

/-- A payload of a version that is not known is passed over. -/
theorem readPayload_unknown (gzipHeader : List UInt8 → Bool) {numSectors n : Int32} {version : UInt8}
    {rest : List UInt8} (hn : ¬ n > numSectors * 4096) (h1 : version ≠ 1) (h2 : version ≠ 2)
    {r : DesktopRegionFile} (h : r.file.bytes.drop r.file.pos = intBytes n ++ version :: rest) :
    ∃ r', readPayload gzipHeader numSectors r = .ok none r' := by
  have hd := SeekFile.drop_after h
  rw [length_intBytes] at hd
  refine ⟨{ r with file := ⟨r.file.bytes, r.file.pos + 4 + 1⟩ }, ?_⟩
  unfold readPayload
  rw [bind_of_ok (io_of_ok (SeekFile.readInt_of_drop h)), if_neg hn,
    bind_of_ok (io_of_ok (SeekFile.readByte_of_drop hd)), if_neg h1, if_neg h2]
  rfl

/-! ## Used and unused slots -/

section Offsets

variable (gzipHeader : List UInt8 → Bool) {region : DesktopRegionFile} {x z : ℕ} (hx : x < 32) (hz : z < 32)
include hx hz

theorem slot_ofNat : slot (Int32.ofNat x) (Int32.ofNat z) = z * 32 + x := by
  unfold slot
  rw [Int32.toInt_ofNat_of_lt (by omega), Int32.toInt_ofNat_of_lt (by omega)]
  omega

theorem slotStream_unused (ho : region.offsets[z * 32 + x]? = some 0) :
    slotStream gzipHeader region x z = .ok none := by
  rw [← slot_ofNat hx hz] at ho
  unfold slotStream
  rw [result_of_ok (hasChunk_eq (outOfBounds_ofNat hx hz) ho)]
  rfl

/-- A slot with an offset holds what the payload at its first sector is read as. -/
theorem slotStream_used {offset : Int32} (ho : region.offsets[z * 32 + x]? = some offset) (h0 : offset ≠ 0)
    (hin : ¬ (offset >>> 8) + (offset &&& 255) > Int32.ofNat region.sectorFree.length)
    (hpos : ¬ ((offset >>> 8) * 4096).toInt < 0) {o : Option ChunkStream} {r' : DesktopRegionFile}
    (hread : readPayload gzipHeader (offset &&& 255)
      { region with file := ⟨region.file.bytes, ((offset >>> 8) * 4096).toInt.toNat⟩ } = .ok o r') :
    result (hasChunk (Int32.ofNat x) (Int32.ofNat z)) region = .ok true ∧
      slotStream gzipHeader region x z = .ok o := by
  rw [← slot_ofNat hx hz] at ho
  have hb := outOfBounds_ofNat hx hz
  have hhas : result (hasChunk (Int32.ofNat x) (Int32.ofNat z)) region = .ok true := by
    rw [result_of_ok (hasChunk_eq hb ho), decide_eq_true h0]
  have hopen : openChunk gzipHeader (Int32.ofNat x) (Int32.ofNat z) region = .ok o r' := by
    unfold openChunk
    rw [bind_of_ok (getOffset_eq hb ho), if_neg h0, bind_of_ok (get_apply _), if_neg hin,
      bind_of_ok (io_of_ok (SeekFile.seek_nonneg hpos region.file)), hread]
  refine ⟨hhas, ?_⟩
  unfold slotStream
  rw [hhas]
  show result (getChunkDataInputStream gzipHeader _ _) region = _
  unfold getChunkDataInputStream
  rw [if_neg (by rw [hb]; decide), result_catchIO_pure, result_of_ok hopen]

/-- The first sector after the tables holds a deflated payload. -/
theorem slotStream_deflated {data rest : List UInt8} (h : data.length ≤ 4091)
    (ho : region.offsets[z * 32 + x]? = some 513) (hin : ¬ (3 : Int32) > Int32.ofNat region.sectorFree.length)
    (hdrop : region.file.bytes.drop 8192 = intBytes (Int32.ofNat (data.length + 1)) ++ 2 :: (data ++ rest)) :
    slotStream gzipHeader region x z = .ok (some ⟨false, data⟩) := by
  have hfit : (data.length + 1 : Int) ≤ ((1 : Int32) * 4096).toInt := by
    show (data.length + 1 : Int) ≤ 4096
    omega
  obtain ⟨r', hr'⟩ := readPayload_deflated gzipHeader hfit
    (r := { region with file := ⟨region.file.bytes, 8192⟩ }) hdrop
  exact (slotStream_used gzipHeader hx hz ho (by decide) hin (by decide) hr').2

end Offsets

/-! ## A region with one chunk -/

/-- A region file of three sectors whose first slot holds the deflated `data`. -/
def singleSlot (data : List UInt8) : List UInt8 :=
  oneChunk 8188 ++ (intBytes (Int32.ofNat (data.length + 1)) ++
    2 :: (data ++ List.replicate (4091 - data.length) 0))

theorem length_singleSlot {data : List UInt8} (h : data.length ≤ 4091) :
    (singleSlot data).length = 12288 := by
  simp only [singleSlot, List.length_append, length_oneChunk, length_intBytes, List.length_cons,
    List.length_replicate]
  omega

open SeekFile (intAt) in
theorem intAt_singleSlot (data : List UInt8) {i : ℕ} (hi : i < 1024) :
    intAt (singleSlot data) (4 * i) = if i = 0 then 513 else 0 := by
  unfold intAt singleSlot oneChunk
  rw [List.append_assoc]
  by_cases h0 : i = 0
  · rw [if_pos h0, h0, Nat.mul_zero, List.drop_zero,
      List.take_append_of_le_length (by simp), List.take_of_length_le (by simp)]
    decide
  · rw [if_neg h0, List.drop_append, List.drop_eq_nil_of_le (by simp; omega), List.nil_append,
      List.drop_append, List.drop_replicate, List.take_append_of_le_length (by simp; omega),
      List.take_replicate, Nat.min_eq_left (by simp; omega)]
    decide

theorem slotStream_singleSlot (gzipHeader : List UInt8 → Bool) {data : List UInt8}
    (h : data.length ≤ 4091) :
    ∃ region, construct (fresh (singleSlot data)) = .ok () region ∧
      ∀ x < 32, ∀ z < 32, slotStream gzipHeader region x z =
        .ok (if x = 0 ∧ z = 0 then some ⟨false, data⟩ else none) := by
  have hlen := length_singleSlot h
  have hpad : padded (singleSlot data) = singleSlot data := padded_of_aligned (by rw [hlen])
  have hn : nSectors (singleSlot data).length = 3 := by
    rw [hlen]
    decide
  have hnonneg : ∀ i < 1024, 0 ≤ (SeekFile.intAt (padded (singleSlot data)) (4 * i)).toInt := by
    intro i hi
    rw [hpad, intAt_singleSlot data hi]
    split <;> decide
  obtain ⟨region, hopen, hbytes, hoff, hsec⟩ := construct_spec (by omega) (by omega) hnonneg
  rw [hpad] at hbytes hoff
  rw [hn] at hsec
  refine ⟨region, hopen, fun x hx z hz => ?_⟩
  have ho := hoff (z * 32 + x) (by omega)
  rw [intAt_singleSlot data (by omega)] at ho
  by_cases h0 : x = 0 ∧ z = 0
  · rw [if_pos (by omega)] at ho
    rw [if_pos h0]
    have hdrop : region.file.bytes.drop 8192 = intBytes (Int32.ofNat (data.length + 1)) ++
        2 :: (data ++ List.replicate (4091 - data.length) 0) := by
      rw [hbytes]
      exact List.drop_left' (length_oneChunk 8188)
    exact slotStream_deflated gzipHeader hx hz h ho (by rw [hsec]; decide) hdrop
  · rw [if_neg (by omega)] at ho
    rw [if_neg h0]
    exact slotStream_unused gzipHeader hx hz ho

/-! ## A second slot that cannot be read -/

/-- The same region with another slot beside it, whose payload has a version that is not known. -/
def besideUnknown (data : List UInt8) : List UInt8 :=
  [0, 0, 2, 1, 0, 0, 3, 1] ++ (List.replicate 8184 0 ++ (intBytes (Int32.ofNat (data.length + 1)) ++
    2 :: (data ++ (List.replicate (4091 - data.length) 0 ++ (intBytes 1 ++ 9 :: List.replicate 4091 0)))))

theorem length_besideUnknown {data : List UInt8} (h : data.length ≤ 4091) :
    (besideUnknown data).length = 16384 := by
  simp only [besideUnknown, List.length_append, length_intBytes, List.length_cons, List.length_replicate,
    List.length_nil]
  omega

open SeekFile (intAt) in
theorem intAt_besideUnknown (data : List UInt8) {i : ℕ} (hi : i < 1024) :
    intAt (besideUnknown data) (4 * i) = if i = 0 then 513 else if i = 1 then 769 else 0 := by
  unfold intAt besideUnknown
  by_cases h0 : i = 0
  · subst h0
    rw [if_pos rfl]
    rfl
  by_cases h1 : i = 1
  · subst h1
    rw [if_neg h0, if_pos rfl]
    rfl
  · rw [if_neg h0, if_neg h1, List.drop_append, List.drop_eq_nil_of_le (by simp; omega), List.nil_append,
      List.drop_append, List.drop_replicate, List.take_append_of_le_length (by simp; omega),
      List.take_replicate, Nat.min_eq_left (by simp; omega)]
    decide

/-- The two payloads. -/
theorem drop_besideUnknown {data : List UInt8} (h : data.length ≤ 4091) :
    (besideUnknown data).drop 8192 = intBytes (Int32.ofNat (data.length + 1)) ++
        2 :: (data ++ (List.replicate (4091 - data.length) 0 ++ (intBytes 1 ++ 9 :: List.replicate 4091 0))) ∧
      (besideUnknown data).drop 12288 = intBytes 1 ++ 9 :: List.replicate 4091 0 := by
  have hdata : (besideUnknown data).drop 8192 = intBytes (Int32.ofNat (data.length + 1)) ++
      2 :: (data ++ (List.replicate (4091 - data.length) 0 ++
        (intBytes 1 ++ 9 :: List.replicate 4091 0))) := by
    rw [besideUnknown, ← List.append_assoc]
    refine List.drop_left' ?_
    rw [List.length_append, List.length_replicate]
    rfl
  have hsector : (intBytes (Int32.ofNat (data.length + 1)) ++
      2 :: (data ++ List.replicate (4091 - data.length) 0)).length = 4096 := by
    rw [List.length_append, List.length_cons, List.length_append, List.length_replicate, length_intBytes]
    omega
  refine ⟨hdata, ?_⟩
  rw [show 12288 = 8192 + 4096 from rfl, ← List.drop_drop, hdata, ← List.append_assoc, ← List.cons_append,
    ← List.append_assoc]
  exact List.drop_left' hsector

theorem slotStream_besideUnknown (gzipHeader : List UInt8 → Bool) {data : List UInt8}
    (h : data.length ≤ 4091) :
    ∃ region, construct (fresh (besideUnknown data)) = .ok () region ∧
      result (hasChunk 1 0) region = .ok true ∧ ∀ x < 32, ∀ z < 32, slotStream gzipHeader region x z =
        .ok (if x = 0 ∧ z = 0 then some ⟨false, data⟩ else none) := by
  have hlen := length_besideUnknown h
  have hpad : padded (besideUnknown data) = besideUnknown data := padded_of_aligned (by rw [hlen])
  have hn : nSectors (besideUnknown data).length = 4 := by
    rw [hlen]
    decide
  have hnonneg : ∀ i < 1024, 0 ≤ (SeekFile.intAt (padded (besideUnknown data)) (4 * i)).toInt := by
    intro i hi
    rw [hpad, intAt_besideUnknown data hi]
    split_ifs <;> decide
  obtain ⟨region, hopen, hbytes, hoff, hsec⟩ := construct_spec (by omega) (by omega) hnonneg
  rw [hpad] at hbytes hoff
  rw [hn] at hsec
  obtain ⟨hdata, hunknown⟩ := drop_besideUnknown h
  rw [← hbytes] at hdata hunknown
  have hsecond : region.offsets[1]? = some 769 := by
    rw [hoff 1 (by norm_num), intAt_besideUnknown data (by norm_num)]
    rfl
  obtain ⟨r1, hr1⟩ := readPayload_unknown gzipHeader (n := 1) (show ¬ (1 : Int32) > 1 * 4096 by decide)
    (show (9 : UInt8) ≠ 1 by decide) (by decide)
    (r := { region with file := ⟨region.file.bytes, 12288⟩ }) hunknown
  obtain ⟨hhas, hbeside⟩ := slotStream_used gzipHeader (x := 1) (z := 0) (by norm_num) (by norm_num) hsecond
    (by decide) (by rw [hsec]; decide) (by decide) hr1
  refine ⟨region, hopen, hhas, fun x hx z hz => ?_⟩
  have ho := hoff (z * 32 + x) (by omega)
  rw [intAt_besideUnknown data (by omega)] at ho
  by_cases h0 : x = 0 ∧ z = 0
  · rw [if_pos (by omega)] at ho
    rw [if_pos h0]
    exact slotStream_deflated gzipHeader hx hz h ho (by rw [hsec]; decide) hdata
  rw [if_neg (by omega)] at ho
  rw [if_neg h0]
  by_cases h1 : x = 1 ∧ z = 0
  · obtain ⟨rfl, rfl⟩ := h1
    exact hbeside
  · rw [if_neg (by omega)] at ho
    exact slotStream_unused gzipHeader hx hz ho

end WorldToPE.DesktopRegionFile
