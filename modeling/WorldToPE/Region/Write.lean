import WorldToPE.Region.Opening
import WorldToPE.Lib.Sectors

/-!
# WorldToPE.Region.Write — writing a chunk into a region file

`write` of `DesktopRegionFile.java` and of `RegionFile.java`: the same code up to the bytes of an
`int`, the version byte and the time stamp, which are the fields of a `Layout`.

* `Stored`: the file represents a store of chunks — its map of sectors is exact, its header holds
  the offsets, and behind every offset lies the record of the chunk.
* `writeSectors_ok`, `setOffset_ok`, `extend_ok`: what the steps of a write leave behind.
* `grow_ok`: the file grows only while it is short.
* `store_ok`: a write that fits keeps the representation and changes one chunk of the store.
-/

namespace WorldToPE

open Java Run Sectors

/-- What the two classes do differently: the sectors of the header, the bytes of an `int`, and what
stands between the length and the data of a chunk. -/
structure Layout where
  header : ℕ
  encode : Int32 → List UInt8
  version : List UInt8
  header_pos : 1 ≤ header
  header_le : header ≤ 2
  length_encode : ∀ n, (encode n).length = 4
  length_version : version.length ≤ 1

/-- Big-endian `int`s, and the version byte of deflated data. -/
def Layout.desktop : Layout where
  header := 2
  encode := intBytes
  version := [2]
  header_pos := by norm_num
  header_le := le_rfl
  length_encode := length_intBytes
  length_version := le_rfl

/-- Little-endian `int`s, and no version byte. -/
def Layout.pocket : Layout where
  header := 1
  encode n := intBytes (reverseBytes n)
  version := []
  header_pos := le_rfl
  header_le := by norm_num
  length_encode n := length_intBytes (reverseBytes n)
  length_version := by simp

namespace DesktopRegionFile

def emptySector : List UInt8 := List.replicate 4096 0

def sectorsNeeded (length : Int32) : Int32 := (length + 5) / 4096 + 1

section Write

variable (L : Layout)

def setOffset (x z offset : Int32) : M Unit := do
  let s ← get
  match aset s.offsets (z * 32 + x) offset with
  | .error e => throw e
  | .ok offsets => set { s with offsets }
  io (SeekFile.seek ((z * 32 + x) * 4).toInt)
  io (SeekFile.writeBytes (L.encode offset))

/-- `write(sectorNumber, data, length)`. -/
def writeSectors (sectorNumber : Int32) (data : List UInt8) (length : Int32) : M Unit := do
  io (SeekFile.seek (sectorNumber * 4096).toInt)
  io (SeekFile.writeBytes (L.encode (length + 1)))
  io (SeekFile.writeBytes L.version)
  io (SeekFile.writeRange data length)

/-- A chunk moves to free sectors: the branch `reuse`. -/
def reuse (x z : Int32) (data : List UInt8) (length needed sectorNumber : Int32) : M Unit := do
  setOffset L x z ((sectorNumber <<< 8) ||| needed)
  forUpTo needed.toInt.toNat fun i => setFree (sectorNumber + Int32.ofNat i) false
  writeSectors L sectorNumber data length

/-- One round of the loop of the branch `grow`. -/
def addSector : M Unit := do
  io (SeekFile.writeBytes emptySector)
  modify fun s => { s with sectorFree := s.sectorFree ++ [false] }

/-- The new sectors of the branch `grow`: empty sectors behind the end of the file. -/
def extend (needed : Int32) : M Unit := do
  let fileLength ← io SeekFile.length
  io (SeekFile.seek fileLength)
  forUpTo needed.toInt.toNat fun _ => addSector
  modify fun s => { s with sizeDelta := s.sizeDelta + needed * 4096 }

/-- A chunk moves behind the end of the file: the branch `grow`. -/
def grow (x z : Int32) (data : List UInt8) (length needed : Int32) : M Unit := do
  let sectorNumber := Int32.ofNat (← get).sectorFree.length
  extend needed
  writeSectors L sectorNumber data length
  setOffset L x z ((sectorNumber <<< 8) ||| needed)

/-- The old sectors become free, and the chunk goes to the first run of free sectors that is long
enough. -/
def relocate (x z : Int32) (data : List UInt8) (length needed offset : Int32) : M Unit := do
  forUpTo (offset &&& 255).toInt.toNat fun i => setFree ((offset >>> 8) + Int32.ofNat i) true
  let run := firstFit needed.toInt (← get).sectorFree
  let runStart := run.elim (-1) fun r => Int32.ofNat r.start
  if needed.toInt ≤ run.elim 0 Extent.count then reuse L x z data length needed runStart
  else grow L x z data length needed

/-- The `try` block of `write`; `stamp` is what it does at the end of a write. -/
def store (stamp : M Unit) (x z : Int32) (data : List UInt8) (length : Int32) : M Unit := do
  let offset ← getOffset x z
  let needed := sectorsNeeded length
  if needed < 256 then
    if offset >>> 8 = 0 ∨ offset &&& 255 ≠ needed then relocate L x z data length needed offset
    else writeSectors L (offset >>> 8) data length
    stamp

end Write

/-! ## The steps of a write -/

/-- The record of a chunk in the file. -/
def record (L : Layout) (data : List UInt8) : List UInt8 :=
  L.encode (Int32.ofNat (data.length + 1)) ++ (L.version ++ data)

section Steps

variable {L : Layout} {s : DesktopRegionFile}

theorem length_record (data : List UInt8) :
    4 ≤ (record L data).length ∧ (record L data).length ≤ data.length + 5 := by
  have := L.length_version
  simp only [record, List.length_append, L.length_encode]
  omega

theorem io_bind {α β : Type} (m : SeekFile.F α) (f : α → SeekFile.F β) :
    io (m >>= f) = io m >>= fun a => io (f a) := by
  funext s
  cases hm : m s.file with
  | ok a g =>
    rw [bind_of_ok (io_of_ok hm)]
    unfold io onFile
    rw [bind_of_ok hm]
  | error e g =>
    rw [bind_of_error (io_of_error hm)]
    exact io_of_error (bind_of_error hm)

/-- Seeking to a byte and writing there. -/
theorem io_writeAt {p : ℕ} {n : Int} (hn : n = p) (hp : p ≤ s.file.bytes.length) (bs : List UInt8) :
    (do io (SeekFile.seek n); io (SeekFile.writeBytes bs)) s =
      .ok () { s with file := ⟨overwrite s.file.bytes p bs, p + bs.length⟩ } := by
  have hseek : SeekFile.seek n s.file = .ok () ⟨s.file.bytes, p⟩ := by
    rw [SeekFile.seek_nonneg (by omega), hn, Int.toNat_natCast]
  rw [bind_of_ok (io_of_ok hseek)]
  exact io_of_ok (SeekFile.writeBytes_spec bs hp)

theorem setOffset_ok {x z : Int32} {k : Fin 1024} (hk : (z * 32 + x).toInt = k) (offset : Int32)
    (hlen : 4096 ≤ s.file.bytes.length) :
    setOffset L x z offset s = .ok ()
      { s with offsets := s.offsets.set k offset,
               file := ⟨overwrite s.file.bytes (4 * k) (L.encode offset), 4 * k + 4⟩ } := by
  have hlt := k.isLt
  have hp : ((z * 32 + x) * 4).toInt = (4 * k : ℕ) := by
    have h4 : (4 : Int32).toInt = 4 := rfl
    rw [toInt_mul_of_fits] <;> rw [hk, h4] <;> push_cast <;> omega
  have hw := io_writeAt (s := { s with offsets := s.offsets.set k offset }) hp
    (by dsimp only; omega) (L.encode offset)
  rw [L.length_encode] at hw
  unfold setOffset
  rw [bind_of_ok (get_apply s), aset_of_toInt offset hk hlt]
  dsimp only
  rw [bind_of_ok (set_apply _ s), hw]

/-- The record goes to the first sector of the chunk. -/
theorem writeSectors_ok {sectorNumber length : Int32} {data : List UInt8} {p n : ℕ}
    (hs : sectorNumber.toInt = p) (hp : p < 2 ^ 19) (hlen : 4096 * p ≤ s.file.bytes.length)
    (hn : length.toInt = n) (hdata : n ≤ data.length) (hbig : n < 2 ^ 31 - 1) :
    writeSectors L sectorNumber data length s = .ok ()
      { s with file := ⟨overwrite s.file.bytes (4096 * p) (record L (data.take n)),
                        4096 * p + (record L (data.take n)).length⟩ } := by
  have hpos : (sectorNumber * 4096).toInt = (4096 * p : ℕ) := by
    have h4 : (4096 : Int32).toInt = 4096 := rfl
    rw [toInt_mul_of_fits] <;> rw [hs, h4] <;> push_cast <;> omega
  have hl : length + 1 = Int32.ofNat ((data.take n).length + 1) := by
    have h1 : (1 : Int32).toInt = 1 := rfl
    rw [← Int32.toInt_inj, List.length_take_of_le hdata, Int32.toInt_ofNat_of_lt (by omega),
      toInt_add_of_fits] <;> rw [hn, h1] <;> push_cast <;> omega
  rw [← io_writeAt hpos hlen (record L (data.take n))]
  unfold writeSectors record
  rw [hl, SeekFile.writeRange_eq hn hdata, SeekFile.writeBytes_append, SeekFile.writeBytes_append,
    io_bind, io_bind]

theorem addSector_ok (hpos : s.file.pos = s.file.bytes.length) :
    addSector s = .ok ()
      { s with file := ⟨s.file.bytes ++ emptySector, s.file.bytes.length + 4096⟩,
               sectorFree := s.sectorFree ++ [false] } := by
  have hw := SeekFile.writeBytes_spec emptySector hpos.le
  have hlen : emptySector.length = 4096 := List.length_replicate
  rw [hpos, overwrite_length, hlen] at hw
  unfold addSector
  rw [bind_of_ok (io_of_ok hw), modify_apply]

/-- The object with `i` more empty sectors. -/
def longer (s : DesktopRegionFile) (i : ℕ) : DesktopRegionFile :=
  { s with file := ⟨s.file.bytes ++ List.replicate (4096 * i) 0, s.file.bytes.length + 4096 * i⟩,
           sectorFree := s.sectorFree ++ List.replicate i false }

theorem addSector_longer (i : ℕ) : addSector (longer s i) = .ok () (longer s (i + 1)) := by
  have hbytes : List.replicate (4096 * i) 0 ++ emptySector =
      (List.replicate (4096 * (i + 1)) 0 : List UInt8) := by
    rw [emptySector, List.replicate_append_replicate, Nat.mul_succ]
  have hlen : (longer s i).file.bytes.length = (longer s i).file.pos := by
    simp [longer]
  have hfree : List.replicate i false ++ [false] = List.replicate (i + 1) false :=
    List.replicate_succ'.symm
  rw [addSector_ok hlen.symm, hlen]
  simp only [longer, List.append_assoc, hbytes, hfree, Nat.mul_succ, Nat.add_assoc]

theorem extend_ok {needed : Int32} {n : ℕ} (hn : needed.toInt = n) :
    extend needed s = .ok ()
      { longer s n with sizeDelta := s.sizeDelta + needed * 4096 } := by
  have hseek : SeekFile.seek s.file.bytes.length s.file =
      .ok () ⟨s.file.bytes, s.file.bytes.length⟩ := by
    rw [SeekFile.seek_nonneg (by omega), Int.toNat_natCast]
  have hstart : { s with file := ⟨s.file.bytes, s.file.bytes.length⟩ } = longer s 0 := by
    simp [longer]
  have hloop : forUpTo n (fun _ => addSector) (longer s 0) = .ok () (longer s n) := by
    obtain ⟨t, ht, rfl⟩ := forUpTo_ok (I := fun i t => t = longer s i) rfl n
      (by rintro i - t rfl; exact ⟨_, addSector_longer i, rfl⟩)
    exact ht
  unfold extend
  rw [bind_of_ok (io_length s), bind_of_ok (io_of_ok hseek), hn, Int.toNat_natCast, hstart,
    bind_of_ok hloop, modify_apply]
  rfl

/-! ### The two branches that move a chunk -/

section Move

variable {x z length needed sectorNumber : Int32} {data : List UInt8} {k : Fin 1024} {n m p : ℕ}
  (hk : (z * 32 + x).toInt = k) (hn : length.toInt = n) (hdata : n ≤ data.length)
  (hbig : n < 2 ^ 31 - 1) (hm : needed.toInt = m)
  (hlen : s.file.bytes.length = 4096 * s.sectorFree.length) (hsmall : s.sectorFree.length < 2 ^ 19)
include hk hn hdata hbig hm hlen hsmall

theorem reuse_eq (hp : sectorNumber.toInt = p) (hpos : 1 ≤ p) (hin : p + m ≤ s.sectorFree.length) :
    ∃ pos, reuse L x z data length needed sectorNumber s = .ok ()
      { s with offsets := s.offsets.set k ((sectorNumber <<< 8) ||| needed),
               sectorFree := mark s.sectorFree ⟨p, m⟩ false,
               file := ⟨overwrite (overwrite s.file.bytes (4 * k)
                 (L.encode ((sectorNumber <<< 8) ||| needed))) (4096 * p) (record L (data.take n)),
                 pos⟩ } := by
  have hlt := k.isLt
  have h1 := setOffset_ok (L := L) (s := s) hk ((sectorNumber <<< 8) ||| needed) (by omega)
  have hlen1 : (overwrite s.file.bytes (4 * k)
      (L.encode ((sectorNumber <<< 8) ||| needed))).length = s.file.bytes.length := by
    rw [length_overwrite (by omega), L.length_encode]
    omega
  have h2 := setFree_run (s := { s with
    offsets := s.offsets.set k ((sectorNumber <<< 8) ||| needed),
    file := ⟨overwrite s.file.bytes (4 * k) (L.encode ((sectorNumber <<< 8) ||| needed)),
      4 * k + 4⟩ }) hp (n := m) hin (by dsimp only; omega) false
  have h3 := writeSectors_ok (L := L) (s := { s with
    offsets := s.offsets.set k ((sectorNumber <<< 8) ||| needed),
    file := ⟨overwrite s.file.bytes (4 * k) (L.encode ((sectorNumber <<< 8) ||| needed)),
      4 * k + 4⟩,
    sectorFree := overwrite s.sectorFree p (List.replicate m false) }) hp (by omega)
    (by dsimp only; omega) hn hdata hbig
  refine ⟨4096 * p + (record L (data.take n)).length, ?_⟩
  unfold reuse
  rw [bind_of_ok h1, hm, Int.toNat_natCast, bind_of_ok h2, h3]
  rfl

theorem grow_eq (hpos : 1 ≤ s.sectorFree.length) :
    ∃ pos, grow L x z data length needed s = .ok ()
      { s with offsets := s.offsets.set k ((Int32.ofNat s.sectorFree.length <<< 8) ||| needed),
               sectorFree := s.sectorFree ++ List.replicate m false,
               sizeDelta := s.sizeDelta + needed * 4096,
               file := ⟨overwrite (overwrite (s.file.bytes ++ List.replicate (4096 * m) 0) (4 * k)
                 (L.encode ((Int32.ofNat s.sectorFree.length <<< 8) ||| needed)))
                 (4096 * s.sectorFree.length) (record L (data.take n)), pos⟩ } := by
  have hlt := k.isLt
  have hp : (Int32.ofNat s.sectorFree.length).toInt = s.sectorFree.length :=
    Int32.toInt_ofNat_of_lt (by omega)
  have h1 := extend_ok (s := s) hm
  have h2 := writeSectors_ok (L := L) (s := { longer s m with
    sizeDelta := s.sizeDelta + needed * 4096 }) hp (by omega)
    (by dsimp only [longer]; rw [List.length_append]; omega) hn hdata hbig
  have h3 := setOffset_ok (L := L) (s := { longer s m with
    sizeDelta := s.sizeDelta + needed * 4096,
    file := ⟨overwrite (longer s m).file.bytes (4096 * s.sectorFree.length)
      (record L (data.take n)), 4096 * s.sectorFree.length + (record L (data.take n)).length⟩ }) hk
    ((Int32.ofNat s.sectorFree.length <<< 8) ||| needed) (by
      dsimp only [longer]
      rw [length_overwrite] <;> rw [List.length_append] <;> omega)
  -- the header is written last, which makes no difference
  have hcomm := overwrite_comm (s.file.bytes ++ List.replicate (4096 * m) 0)
    (L.encode ((Int32.ofNat s.sectorFree.length <<< 8) ||| needed)) (record L (data.take n))
    (p := 4 * k) (q := 4096 * s.sectorFree.length)
    (by rw [L.length_encode, List.length_append]; omega) (by rw [List.length_append]; omega)
    (by rw [L.length_encode]; omega)
  refine ⟨4 * k + 4, ?_⟩
  unfold grow
  rw [bind_of_ok (get_apply s), bind_of_ok h1, bind_of_ok h2, h3, hcomm]
  rfl

end Move

end Steps

/-! ## The sectors of an offset -/

/-- The sectors of an offset: the upper three bytes are the first sector, the last byte the count. -/
def extent (offset : Int32) : Extent := ⟨(offset >>> 8).toInt.toNat, (offset &&& 255).toInt.toNat⟩

/-- The sectors of the chunks. -/
def extents (s : DesktopRegionFile) (k : Fin 1024) : Extent := extent s.offsets[k]

theorem extent_zero : extent 0 = ⟨0, 0⟩ := rfl

theorem count_extent_lt (offset : Int32) : (extent offset).count < 256 := by
  have := toInt_numSectors offset
  dsimp only [extent]
  omega

/-- The `int` that the code makes of a sector number and a count. -/
theorem toInt_pack {sectorNumber needed : Int32} {p n : ℕ} (hp : sectorNumber.toInt = p)
    (hlt : p < 2 ^ 19) (hn : needed.toInt = n) (hn' : n < 256) :
    ((sectorNumber <<< 8) ||| needed).toInt = p * 256 + n := by
  have hshift : (sectorNumber <<< 8).toInt = p * 2 ^ 8 := by
    rw [← hp]
    exact toInt_shiftLeft 8 (by norm_num) (by omega) (by omega)
  rw [← hn, show (p * 256 : Int) = p * 2 ^ 8 by norm_num, ← hshift]
  refine toInt_or_of_lt 8 ?_ ?_ ?_ ?_ ?_ <;> omega

/-- The offset that the code makes of a sector number and a count. -/
theorem extent_pack {sectorNumber needed : Int32} {p n : ℕ} (hp : sectorNumber.toInt = p)
    (hlt : p < 2 ^ 19) (hn : needed.toInt = n) (hn' : n < 256) :
    extent ((sectorNumber <<< 8) ||| needed) = ⟨p, n⟩ := by
  rw [extent, toInt_sectorNumber, toInt_numSectors, toInt_pack hp hlt hn hn']
  congr 1 <;> omega

section SetOffset

variable {s t : DesktopRegionFile} {k : Fin 1024} {offset : Int32}
  (h : t.offsets = s.offsets.set k offset)
include h

theorem offsets_self : t.offsets[k] = offset := by
  simp [h]

theorem offsets_of_ne {l : Fin 1024} (hne : l ≠ k) : t.offsets[l] = s.offsets[l] := by
  have hval : (k : ℕ) ≠ l := fun he => hne (Fin.ext he.symm)
  simp [h, hval]

theorem extents_set : extents t = Function.update (extents s) k (extent offset) := by
  funext l
  unfold extents
  rcases eq_or_ne l k with rfl | hne
  · rw [Function.update_self, offsets_self h]
  · rw [Function.update_of_ne hne, offsets_of_ne h hne]

end SetOffset

/-! ## The store that a file represents -/

/-- The record of the data lies behind the offset. -/
structure Holds (L : Layout) (bytes : List UInt8) (offset : Int32) (data : List UInt8) : Prop where
  count : (extent offset).count = (data.length + 5) / 4096 + 1
  record : (bytes.drop (4096 * (extent offset).start)).take (record L data).length = record L data

/-- **The file represents the store `c`.** -/
structure Stored (L : Layout) (c : Fin 1024 → Option (List UInt8)) (s : DesktopRegionFile) : Prop where
  exact : Exact L.header (extents s) s.sectorFree
  small : s.sectorFree.length < 2 ^ 19
  length : s.file.bytes.length = 4096 * s.sectorFree.length
  table : ∀ k : Fin 1024, (s.file.bytes.drop (4 * k)).take 4 = L.encode s.offsets[k]
  empty : ∀ k, c k = none → s.offsets[k] = 0
  chunk : ∀ k data, c k = some data → Holds L s.file.bytes s.offsets[k] data

/-- Sector `n` is in the run of the offset. -/
def InRun (offset : Int32) (n : ℕ) : Prop :=
  (offset >>> 8).toInt ≤ n ∧ (n : Int) < (offset >>> 8).toInt + (offset &&& 255).toInt

/-- **The map is exact.** -/
structure ExactMap (s : DesktopRegionFile) : Prop where
  disjoint : ∀ j k : Fin 1024, j ≠ k → s.offsets[j] ≠ 0 → s.offsets[k] ≠ 0 →
    ∀ n, ¬(InRun s.offsets[j] n ∧ InRun s.offsets[k] n)
  inside : ∀ k : Fin 1024, s.offsets[k] ≠ 0 → 2 ≤ (s.offsets[k] >>> 8).toInt ∧
    4096 * ((s.offsets[k] >>> 8).toInt + (s.offsets[k] &&& 255).toInt) ≤ s.file.bytes.length
  used : ∀ n, s.sectorFree[n]? = some false ↔
    n < 2 ∨ ∃ k : Fin 1024, s.offsets[k] ≠ 0 ∧ InRun s.offsets[k] n
  length : s.file.bytes.length = 4096 * s.sectorFree.length
  header : ∀ k : Fin 1024, SeekFile.intAt s.file.bytes (4 * k) = s.offsets[k]
  reopened : ∃ t, construct (fresh s.file.bytes) = .ok () t ∧ t.offsets = s.offsets ∧
    t.sectorFree = s.sectorFree

section Stored

variable {L : Layout} {c : Fin 1024 → Option (List UInt8)} {s : DesktopRegionFile}

theorem Stored.header_le (h : Stored L c s) : 4096 ≤ s.file.bytes.length := by
  have h1 := h.exact.header_le
  have h2 := L.header_pos
  have h3 := h.length
  omega

/-- The representation does not depend on the file pointer, the time stamps or the size delta. -/
theorem Stored.congr (h : Stored L c s) {t : DesktopRegionFile}
    (hbytes : t.file.bytes = s.file.bytes) (hoff : t.offsets = s.offsets)
    (hfree : t.sectorFree = s.sectorFree) : Stored L c t := by
  have hext : extents t = extents s := by
    funext k
    rw [extents, extents, hoff]
  refine ⟨?_, ?_, ?_, ?_, ?_, ?_⟩
  · rw [hext, hfree]
    exact h.exact
  · rw [hfree]
    exact h.small
  · rw [hbytes, hfree]
    exact h.length
  · rw [hbytes, hoff]
    exact h.table
  · rw [hoff]
    exact h.empty
  · rw [hbytes, hoff]
    exact h.chunk

theorem Stored.eq_zero_or (h : Stored L c s) (k : Fin 1024) :
    s.offsets[k] = 0 ∨ (extents s k).count ≠ 0 := by
  cases hc : c k with
  | none => exact .inl (h.empty k hc)
  | some data =>
    have hn := (h.chunk k data hc).count
    right
    show (extent s.offsets[k]).count ≠ 0
    omega

/-- The sector number of a chunk is the start of its extent, and inside the table. -/
theorem Stored.extents_start (h : Stored L c s) (k : Fin 1024) :
    (s.offsets[k] >>> 8).toInt = (extents s k).start ∧
      (extents s k).start + (extents s k).count ≤ s.sectorFree.length := by
  rcases h.eq_zero_or k with h0 | h0
  · have hstart : extents s k = ⟨0, 0⟩ := by
      rw [extents, h0, extent_zero]
    rw [hstart, h0]
    exact ⟨rfl, by simp⟩
  · have hin := h.exact.inside k h0
    have hpos := L.header_pos
    have hstart : (extents s k).start = (s.offsets[k] >>> 8).toInt.toNat := rfl
    omega

theorem inRun_iff (h : Stored L c s) (k : Fin 1024) (n : ℕ) :
    InRun s.offsets[k] n ↔ n ∈ extents s k := by
  have hstart := (h.extents_start k).1
  have hnum := toInt_numSectors s.offsets[k]
  have hcount : (extents s k).count = (s.offsets[k] &&& 255).toInt.toNat := rfl
  rw [InRun, mem_def]
  constructor <;> intro hn <;> omega

/-- The tests that `RegionFile.getChunkData` makes of an offset pass. -/
theorem Stored.tests (h : Stored L c s) {k : Fin 1024} {data : List UInt8}
    (hc : c k = some data) : s.offsets[k] ≠ 0 ∧
      ¬(s.offsets[k] >>> 8) + (s.offsets[k] &&& 255) > Int32.ofNat s.sectorFree.length ∧
      (data.length + 1 : Int) ≤ ((s.offsets[k] &&& 255) * 4096).toInt ∧
      ((s.offsets[k] >>> 8) * 4096).toInt = (4096 * (extents s k).start : ℕ) := by
  obtain ⟨hstart, hin⟩ := h.extents_start k
  have hsmall := h.small
  have hcount : (s.offsets[k] &&& 255).toInt.toNat = (data.length + 5) / 4096 + 1 :=
    (h.chunk k data hc).count
  have hext : (extents s k).count = (s.offsets[k] &&& 255).toInt.toNat := rfl
  have hnum := toInt_numSectors s.offsets[k]
  have h4096 : (4096 : Int32).toInt = 4096 := rfl
  have hmul : ((s.offsets[k] &&& 255) * 4096).toInt = (s.offsets[k] &&& 255).toInt * 4096 := by
    rw [toInt_mul_of_fits] <;> rw [h4096] <;> omega
  refine ⟨fun h0 => ?_, ?_, by omega, ?_⟩
  · rw [h0] at hcount
    exact absurd hcount (by simp)
  · have hsum : ((s.offsets[k] >>> 8) + (s.offsets[k] &&& 255)).toInt =
        (s.offsets[k] >>> 8).toInt + (s.offsets[k] &&& 255).toInt := by
      rw [toInt_add_of_fits] <;> omega
    rw [gt_iff_lt, Int32.lt_iff_toInt_lt, hsum, Int32.toInt_ofNat_of_lt (by omega)]
    omega
  · rw [toInt_mul_of_fits] <;> rw [h4096, hstart] <;> push_cast <;> omega

/-! ### The constructor on a file that represents a store -/

/-- An offset, read from the header. -/
theorem Stored.decode (h : Stored L c s) {f : List UInt8 → Int32} (hf : ∀ n, f (L.encode n) = n)
    (k : Fin 1024) : f ((s.file.bytes.drop (4 * k)).take 4) = s.offsets[k] := by
  rw [h.table k, hf]

theorem Stored.offset_nonneg (h : Stored L c s) (k : Fin 1024) : 0 ≤ s.offsets[k].toInt := by
  have hstart := (h.extents_start k).1
  rw [toInt_sectorNumber] at hstart
  omega

/-- The sectors that the constructor marks for a chunk are those of its extent. -/
theorem Stored.covers_iff (h : Stored L c s) (k : Fin 1024) (n : ℕ) :
    Covers s.sectorFree.length s.offsets[k] n ↔ n ∈ extents s k := by
  obtain ⟨hstart, hin⟩ := h.extents_start k
  have hsmall := h.small
  have hnum := toInt_numSectors s.offsets[k]
  have hsec := toInt_sectorNumber s.offsets[k]
  have hcount : (extents s k).count = (s.offsets[k] &&& 255).toInt.toNat := rfl
  rw [Covers, fits_iff _ (by omega), mem_def]
  constructor
  · rintro ⟨-, h1, h2⟩
    omega
  · intro hn
    refine ⟨⟨fun h0 => ?_, by omega⟩, by omega, by omega⟩
    have hzero : (extents s k).count = 0 := by
      rw [hcount, h0]
      rfl
    omega

/-- Reading the offsets back recovers the offsets and the table of free sectors. -/
theorem Stored.of_offsetsRead (h : Stored L c s) {offsetAt : ℕ → Int32} {i : ℕ}
    {t : DesktopRegionFile} (hoff : ∀ k : Fin 1024, offsetAt k = s.offsets[k]) (hi : 1024 ≤ i)
    (ht : OffsetsRead L.header offsetAt s.file.bytes s.sectorFree.length i t) :
    t.offsets = s.offsets ∧ t.sectorFree = s.sectorFree := by
  constructor
  · apply Vector.ext
    intro j hj
    have hread := ht.offsets j (by omega)
    rw [Vector.getElem?_eq_getElem hj, hoff ⟨j, hj⟩] at hread
    exact Option.some.inj hread
  · refine table_ext ht.sectors fun n => ?_
    rw [ht.used, h.exact.used]
    constructor
    · rintro (hn | ⟨j, hj, hc⟩)
      · exact .inl hn
      · have hlt : j < 1024 := by omega
        rw [hoff ⟨j, hlt⟩] at hc
        exact .inr ⟨⟨j, hlt⟩, (h.covers_iff _ n).mp hc⟩
    · rintro (hn | ⟨k, hk⟩)
      · exact .inl hn
      · have hlt := k.isLt
        refine .inr ⟨k, by omega, ?_⟩
        rw [hoff k]
        exact (h.covers_iff k n).mpr hk

/-- A header of zeros represents the empty store. -/
theorem OffsetsRead.stored_empty {offsetAt : ℕ → Int32} {i : ℕ} {t : DesktopRegionFile}
    (ht : OffsetsRead L.header offsetAt (List.replicate 8192 0) 2 i t) (hi : 1024 ≤ i)
    (hoff : ∀ j < 1024, offsetAt j = 0) (henc : L.encode 0 = List.replicate 4 0) :
    Stored L (fun _ => none) t := by
  have hzero : ∀ k : Fin 1024, t.offsets[k] = 0 := by
    intro k
    have hlt := k.isLt
    have hread := ht.offsets k (by omega)
    rw [Vector.getElem?_eq_getElem hlt, hoff k hlt] at hread
    exact Option.some.inj hread
  have hnone : ∀ (k : Fin 1024) n, n ∉ extents t k := by
    intro k n
    rw [extents, hzero k]
    exact not_mem_of_count rfl n
  have hbytes : t.file.bytes = List.replicate 8192 0 := by rw [ht.file]
  have hheader := L.header_le
  refine ⟨⟨?_, fun k hk => ?_, fun k l _ n hn => absurd hn (hnone k n), fun n => ?_⟩, ?_, ?_,
    fun k => ?_, fun k _ => hzero k, nofun⟩
  · rw [ht.sectors]
    exact hheader
  · rw [extents, hzero k] at hk
    exact absurd rfl hk
  · rw [ht.used]
    constructor
    · rintro (hn | ⟨j, hj, hc⟩)
      · exact .inl hn
      · exact absurd (hoff j (by omega)) hc.1.1
    · rintro (hn | ⟨k, hk⟩)
      · exact .inl hn
      · exact absurd hk (hnone k n)
  · rw [ht.sectors]
    norm_num
  · rw [hbytes, List.length_replicate, ht.sectors]
  · have hlt := k.isLt
    rw [hbytes, hzero k, henc, List.drop_replicate, List.take_replicate, Nat.min_eq_left (by omega)]

/-! ### Placing a record -/

theorem length_record_le (data : List UInt8) :
    (record L data).length ≤ 4096 * ((data.length + 5) / 4096 + 1) := by
  have := (length_record (L := L) data).2
  omega

/-- Where the record of a chunk lies. -/
theorem Stored.record_inside (h : Stored L c s) {k : Fin 1024} {data : List UInt8}
    (hc : c k = some data) : 1 ≤ (extents s k).start ∧
      4096 * (extents s k).start + (record L data).length ≤
        4096 * ((extents s k).start + (extents s k).count) ∧
      4096 * ((extents s k).start + (extents s k).count) ≤ s.file.bytes.length := by
  have hcount : (extents s k).count = (data.length + 5) / 4096 + 1 := (h.chunk k data hc).count
  have hin := h.exact.inside k (by omega)
  have hpos := L.header_pos
  have hlen := length_record_le (L := L) data
  rw [h.length]
  omega

/-- A write has put a record into the sectors of an offset, with `g` new sectors: what `t` has of the
object `s` before the write. -/
structure Placed (L : Layout) (s t : DesktopRegionFile) (k : Fin 1024) (offset : Int32)
    (data : List UInt8) (g : ℕ) : Prop where
  offsets : t.offsets = s.offsets.set k offset
  count : (extent offset).count = (data.length + 5) / 4096 + 1
  exact : Exact L.header (Function.update (extents s) k (extent offset)) t.sectorFree
  sectors : t.sectorFree.length = s.sectorFree.length + g
  bytes : t.file.bytes =
    overwrite (overwrite (s.file.bytes ++ List.replicate (4096 * g) 0) (4 * k) (L.encode offset))
      (4096 * (extent offset).start) (record L data)

section Place

variable {t : DesktopRegionFile} {k : Fin 1024} {offset : Int32} {data : List UInt8} {g : ℕ}
  (hp : Placed L s t k offset data g) (h : Stored L c s)
include hp

/-- The new extent lies behind the header and inside the longer file. -/
theorem Placed.extent_inside : 1 ≤ (extent offset).start ∧
    (extent offset).start + (extent offset).count ≤ t.sectorFree.length := by
  have hin := hp.exact.inside k
  rw [Function.update_self] at hin
  have hpos := L.header_pos
  have hcount := hp.count
  have := hin (by omega)
  omega

include h

theorem Placed.length_headed : (overwrite (s.file.bytes ++ List.replicate (4096 * g) 0) (4 * k)
    (L.encode offset)).length = 4096 * t.sectorFree.length := by
  have hk := k.isLt
  have hle := h.header_le
  have hlen := h.length
  have hg := hp.sectors
  rw [length_overwrite] <;>
    simp only [List.length_append, List.length_replicate, L.length_encode] <;> omega

theorem Placed.length_bytes : t.file.bytes.length = 4096 * t.sectorFree.length := by
  have hin := hp.extent_inside
  have hlen := hp.length_headed h
  have hrec := length_record_le (L := L) data
  have hcount := hp.count
  rw [hp.bytes, length_overwrite (by omega), hlen]
  omega

/-- What a placement leaves alone. -/
theorem Placed.drop_take {q m : ℕ} (hq : q + m ≤ s.file.bytes.length)
    (h1 : q + m ≤ 4 * k ∨ 4 * k + 4 ≤ q)
    (h2 : q + m ≤ 4096 * (extent offset).start ∨
      4096 * ((extent offset).start + (extent offset).count) ≤ q) :
    (t.file.bytes.drop q).take m = (s.file.bytes.drop q).take m := by
  have hin := hp.extent_inside
  have hlen := hp.length_headed h
  have hrec := length_record_le (L := L) data
  have hcount := hp.count
  have hk := k.isLt
  have hle := h.header_le
  rw [hp.bytes, drop_take_overwrite (by omega) (by omega),
    drop_take_overwrite (by rw [List.length_append]; omega) (by rw [L.length_encode]; omega),
    List.drop_append_of_le_length (by omega), List.take_append_of_le_length (by simp; omega)]

/-- The header after a placement. -/
theorem Placed.table (l : Fin 1024) : (t.file.bytes.drop (4 * l)).take 4 = L.encode t.offsets[l] := by
  have hin := hp.extent_inside
  have hlen := hp.length_headed h
  have hle := h.header_le
  have hk := k.isLt
  have hl := l.isLt
  rcases eq_or_ne l k with rfl | hne
  · have hself := drop_take_overwrite_self (s.file.bytes ++ List.replicate (4096 * g) 0)
      (L.encode offset) (p := 4 * l) (by rw [List.length_append]; omega)
    rw [L.length_encode] at hself
    rw [offsets_self hp.offsets, hp.bytes, drop_take_overwrite (by omega) (.inl (by omega)), hself]
  · have hval : (l : ℕ) ≠ k := fun he => hne (Fin.ext he)
    rw [offsets_of_ne hp.offsets hne, ← h.table l]
    exact hp.drop_take h (by omega) (by omega) (.inl (by omega))

/-- The record of another chunk stays where it is. -/
theorem Placed.holds_of_ne {l : Fin 1024} (hne : l ≠ k) {d : List UInt8} (hd : c l = some d) :
    Holds L t.file.bytes t.offsets[l] d := by
  have hold := h.chunk l d hd
  have hcount := hp.count
  have hl : (extents s l).count = (d.length + 5) / 4096 + 1 := hold.count
  have hinside := h.record_inside hd
  have hk := k.isLt
  -- the two extents share no sector of the new table
  have hapart := apart_of_disjoint (e := extent offset) (f := extents s l) (by omega) (by omega)
    fun n hn => by
      have := hp.exact.disjoint k l hne.symm n
      rw [Function.update_self, Function.update_of_ne hne] at this
      exact this hn
  rw [offsets_of_ne hp.offsets hne]
  refine ⟨hold.count, ?_⟩
  have hframe := hp.drop_take h (q := 4096 * (extents s l).start) (m := (record L d).length)
    (by omega) (by omega) (by omega)
  exact hframe.trans hold.record

/-- **Placing a record** changes one chunk of the store. -/
theorem Placed.stored (hsmall : t.sectorFree.length < 2 ^ 19) :
    Stored L (Function.update c k (some data)) t where
  exact := by
    rw [extents_set hp.offsets]
    exact hp.exact
  small := hsmall
  length := hp.length_bytes h
  table := hp.table h
  empty l hl := by
    rcases eq_or_ne l k with rfl | hne
    · simp at hl
    · rw [Function.update_of_ne hne] at hl
      rw [offsets_of_ne hp.offsets hne]
      exact h.empty l hl
  chunk l d hd := by
    rcases eq_or_ne l k with rfl | hne
    · rw [Function.update_self] at hd
      obtain rfl := Option.some.inj hd
      have hin := hp.extent_inside
      have hlen := hp.length_headed h
      rw [offsets_self hp.offsets]
      refine ⟨hp.count, ?_⟩
      rw [hp.bytes]
      exact drop_take_overwrite_self _ _ (by omega)
    · rw [Function.update_of_ne hne] at hd
      exact hp.holds_of_ne h hne hd

end Place

/-! ## The branches of a write -/

theorem toInt_sectorsNeeded {length : Int32} {n : ℕ} (hn : length.toInt = n) (hbig : n < 2 ^ 31 - 5) :
    (sectorsNeeded length).toInt = ((n + 5) / 4096 + 1 : ℕ) := by
  have h5 : (length + 5).toInt = n + 5 := by
    rw [toInt_add_of_fits] <;> rw [hn, show (5 : Int32).toInt = 5 from rfl] <;> omega
  have hd : ((length + 5) / 4096).toInt = (n + 5) / 4096 := by
    rw [Int32.toInt_div_of_ne_right _ _ (by decide), h5]
    exact Int.tdiv_eq_ediv_of_nonneg (by omega)
  unfold sectorsNeeded
  rw [toInt_add_of_fits] <;> rw [hd, show (1 : Int32).toInt = 1 from rfl] <;> push_cast <;> omega

/-- The most sectors that a file can have: there was no room for the last run that was added. -/
def maxSectors : ℕ := 2 + 1023 * (255 + 254) + 254 + 255

/-- A write has added `g` sectors. -/
structure Grown (s t : DesktopRegionFile) (g : ℕ) : Prop where
  sectors : t.sectorFree.length = s.sectorFree.length + g
  sizeDelta : t.sizeDelta = s.sizeDelta + Int32.ofNat (4096 * g)
  bound : g ≠ 0 → t.sectorFree.length ≤ maxSectors

theorem grown_zero {t : DesktopRegionFile} (hfree : t.sectorFree.length = s.sectorFree.length)
    (hdelta : t.sizeDelta = s.sizeDelta) : Grown s t 0 :=
  ⟨hfree, by rw [hdelta, Nat.mul_zero]; exact (Int32.add_zero _).symm, fun h => absurd rfl h⟩

theorem Grown.trans_zero {t u : DesktopRegionFile} {g : ℕ} (h : Grown s t g) (hu : Grown t u 0) :
    Grown s u g := by
  have hsectors : u.sectorFree.length = t.sectorFree.length := hu.sectors
  have hdelta : u.sizeDelta = t.sizeDelta := hu.sizeDelta.trans (Int32.add_zero _)
  exact ⟨hsectors.trans h.sectors, hdelta.trans h.sizeDelta, fun hg => hsectors.trans_le (h.bound hg)⟩

theorem Grown.small {t : DesktopRegionFile} {g : ℕ} (h : Grown s t g)
    (hs : s.sectorFree.length < 2 ^ 19) : t.sectorFree.length < 2 ^ 19 := by
  have hsectors := h.sectors
  rcases Nat.eq_zero_or_pos g with rfl | hg
  · exact hsectors ▸ hs
  · have := h.bound hg.ne'
    unfold maxSectors at this
    omega

theorem mul_sectorSize {needed : Int32} {m : ℕ} (hm : needed.toInt = m) (hlt : m < 256) :
    needed * 4096 = Int32.ofNat (4096 * m) := by
  have h4 : (4096 : Int32).toInt = 4096 := rfl
  rw [← Int32.toInt_inj, Int32.toInt_ofNat_of_lt (by omega), toInt_mul_of_fits] <;>
    rw [hm, h4] <;> push_cast <;> omega

/-- The object after the old sectors of a chunk became free. -/
def released (s : DesktopRegionFile) (k : Fin 1024) : DesktopRegionFile :=
  { s with sectorFree := mark s.sectorFree (extents s k) true }

theorem Stored.length_released (h : Stored L c s) (k : Fin 1024) :
    (released s k).sectorFree.length = s.sectorFree.length :=
  length_mark (h.extents_start k).2 true

theorem Stored.exact_released (h : Stored L c s) (k : Fin 1024) :
    Exact L.header (Function.update (extents s) k ⟨0, 0⟩) (released s k).sectorFree :=
  h.exact.release (h.extents_start k).2

/-- The loop that gives the old sectors of a chunk back. -/
theorem Stored.release_ok (h : Stored L c s) (k : Fin 1024) :
    forUpTo (s.offsets[k] &&& 255).toInt.toNat
      (fun i => setFree ((s.offsets[k] >>> 8) + Int32.ofNat i) true) s = .ok () (released s k) := by
  obtain ⟨hstart, hin⟩ := h.extents_start k
  have hsmall := h.small
  exact setFree_run hstart hin (by omega) true

/-- The branch `rewrite`: the record goes where the old one was. -/
theorem rewrite_ok {length : Int32} {data : List UInt8} {k : Fin 1024} {n : ℕ} (h : Stored L c s)
    (hn : length.toInt = n) (hdata : n ≤ data.length) (hfit : (n + 5) / 4096 + 1 < 256)
    (hcount : (extents s k).count = (n + 5) / 4096 + 1) :
    ∃ t, writeSectors L (s.offsets[k] >>> 8) data length s = .ok () t ∧
      Placed L s t k s.offsets[k] (data.take n) 0 ∧ Grown s t 0 := by
  obtain ⟨hstart, hin⟩ := h.extents_start k
  have hsmall := h.small
  have hlen := h.length
  refine ⟨_, writeSectors_ok hstart (by omega) (by omega) hn hdata (by omega),
    ⟨?_, ?_, ?_, rfl, ?_⟩, grown_zero rfl rfl⟩
  · simp
  · rw [List.length_take_of_le hdata]
    exact hcount
  · rw [show extent s.offsets[k] = extents s k from rfl, Function.update_eq_self]
    exact h.exact
  · have htable := h.table k
    have hsame : overwrite s.file.bytes (4 * k) (L.encode s.offsets[k]) = s.file.bytes :=
      overwrite_of_drop_take (by rw [L.length_encode]; exact htable)
    rw [Nat.mul_zero, List.replicate_zero, List.append_nil, hsame]
    rfl

section Branches

variable {x z length needed : Int32} {data : List UInt8} {k : Fin 1024} {n : ℕ}
  (h : Stored L c s) (hn : length.toInt = n) (hdata : n ≤ data.length)
  (hfit : (n + 5) / 4096 + 1 < 256) (hneeded : needed.toInt = ((n + 5) / 4096 + 1 : ℕ))
  (hk : (z * 32 + x).toInt = k)
include h hn hdata hfit hneeded hk

/-- The branch `reuse`: the record goes to free sectors. -/
theorem reuse_ok {r : Extent} (hr : Found ((n + 5) / 4096 + 1) (released s k).sectorFree r) :
    ∃ t offset, reuse L x z data length needed (Int32.ofNat r.start) (released s k) = .ok () t ∧
      Placed L s t k offset (data.take n) 0 ∧ Grown s t 0 := by
  have hsmall := h.small
  have hmark := h.length_released k
  have hrin := hr.inside
  have henough := hr.enough
  have hp : (Int32.ofNat r.start).toInt = r.start := Int32.toInt_ofNat_of_lt (by omega)
  have hpack := extent_pack hp (by omega) hneeded hfit
  have hfree : ∀ i, i ∈ (⟨r.start, (n + 5) / 4096 + 1⟩ : Extent) →
      (released s k).sectorFree[i]? = some true := by
    intro i hi
    refine hr.isFree i ?_
    simp only [mem_def] at hi ⊢
    omega
  have hocc : Exact L.header (Function.update (extents s) k ⟨r.start, (n + 5) / 4096 + 1⟩)
      (mark (released s k).sectorFree ⟨r.start, (n + 5) / 4096 + 1⟩ false) := by
    rw [← Function.update_idem (v := ⟨0, 0⟩)]
    exact (h.exact_released k).occupy (by simp) (by dsimp only; omega) hfree
  have hpos : 1 ≤ r.start := by
    have hin' := hocc.inside k
    rw [Function.update_self] at hin'
    exact L.header_pos.trans (hin' (by simp)).1
  obtain ⟨pos, ht⟩ := reuse_eq (L := L) (s := released s k) hk hn hdata (by omega) hneeded
    (by rw [hmark]; exact h.length) (by omega) hp hpos (by omega)
  have hin : r.start + ((n + 5) / 4096 + 1) ≤ (released s k).sectorFree.length := by omega
  have hlen : (mark (released s k).sectorFree ⟨r.start, (n + 5) / 4096 + 1⟩ false).length =
      s.sectorFree.length := (length_mark hin false).trans hmark
  refine ⟨_, _, ht, ⟨rfl, ?_, ?_, hlen, ?_⟩, grown_zero hlen rfl⟩
  · rw [hpack, List.length_take_of_le hdata]
  · rw [hpack]
    exact hocc
  · rw [hpack, Nat.mul_zero, List.replicate_zero, List.append_nil]
    rfl

/-- The branch `grow`: the record goes to new sectors, and the file stays small. -/
theorem grow_ok
    (hno : NoRoom ((n + 5) / 4096 + 1) (released s k).sectorFree (released s k).sectorFree.length) :
    ∃ t offset, grow L x z data length needed (released s k) = .ok () t ∧
      Placed L s t k offset (data.take n) ((n + 5) / 4096 + 1) ∧ Grown s t ((n + 5) / 4096 + 1) := by
  have hsmall := h.small
  have hmark := h.length_released k
  have hrel := h.exact_released k
  have hcounts : ∀ l, (Function.update (extents s) k ⟨0, 0⟩ l).count ≤ 255 := by
    intro l
    rcases eq_or_ne l k with rfl | hne
    · simp
    · rw [Function.update_of_ne hne]
      exact Nat.le_of_lt_succ (count_extent_lt _)
  have hle := L.header_le
  have hbound := hrel.length_le_of_noRoom hno hcounts (j := k) (by simp)
  rw [Fintype.card_fin] at hbound
  have hpos := L.header_pos.trans hrel.header_le
  have hp : (Int32.ofNat (released s k).sectorFree.length).toInt = (released s k).sectorFree.length :=
    Int32.toInt_ofNat_of_lt (by omega)
  have hpack := extent_pack hp (by omega) hneeded hfit
  obtain ⟨pos, ht⟩ := grow_eq (L := L) (s := released s k) hk hn hdata (by omega) hneeded
    (by rw [hmark]; exact h.length) (by omega) hpos
  have hlen : ((released s k).sectorFree ++ List.replicate ((n + 5) / 4096 + 1) false).length =
      s.sectorFree.length + ((n + 5) / 4096 + 1) := by
    rw [List.length_append, List.length_replicate, hmark]
  refine ⟨_, _, ht, ⟨rfl, ?_, ?_, hlen, ?_⟩, ⟨hlen, ?_, fun _ => ?_⟩⟩
  · rw [hpack, List.length_take_of_le hdata]
  · rw [hpack, ← Function.update_idem (v := ⟨0, 0⟩)]
    exact hrel.grow (by simp) _
  · rw [hpack]
    rfl
  · exact congrArg (s.sizeDelta + ·) (mul_sectorSize hneeded hfit)
  · show ((released s k).sectorFree ++ List.replicate ((n + 5) / 4096 + 1) false).length ≤ maxSectors
    rw [hlen, ← hmark]
    unfold maxSectors
    omega

/-- A chunk that changes its size moves. -/
theorem relocate_ok : ∃ t offset g, relocate L x z data length needed s.offsets[k] s = .ok () t ∧
    Placed L s t k offset (data.take n) g ∧ Grown s t g := by
  unfold relocate
  rw [bind_of_ok (h.release_ok k), bind_of_ok (get_apply _), hneeded]
  rcases firstFit_spec (Nat.succ_pos ((n + 5) / 4096)) (released s k).sectorFree with
    ⟨r, hr, hfound⟩ | ⟨hshort, hno⟩
  · have henough := hfound.enough
    obtain ⟨t, offset, ht, hp⟩ := reuse_ok h hn hdata hfit hneeded hk hfound
    refine ⟨t, offset, 0, ?_, hp⟩
    rw [hr, if_pos (by exact_mod_cast henough)]
    exact ht
  · obtain ⟨t, offset, ht, hp⟩ := grow_ok h hn hdata hfit hneeded hk hno
    refine ⟨t, offset, _, ?_, hp⟩
    have hnot : ¬((((n + 5) / 4096 + 1 : ℕ) : Int) ≤
        (firstFit ((n + 5) / 4096 + 1 : ℕ) (released s k).sectorFree).elim 0 Extent.count) := by
      cases hr : firstFit ((n + 5) / 4096 + 1 : ℕ) (released s k).sectorFree with
      | none =>
        dsimp only [Option.elim]
        omega
      | some r =>
        have := hshort r hr
        dsimp only [Option.elim]
        omega
    rw [if_neg hnot, ht]

end Branches

/-! ## A write -/

theorem getOffset_ok {x z : Int32} {k : Fin 1024} (hk : (z * 32 + x).toInt = k) :
    getOffset x z s = .ok s.offsets[k] s := by
  unfold getOffset
  rw [bind_of_ok (get_apply s), aget_eq hk k.isLt]
  rfl

section Store

variable {stamp : M Unit} {x z length : Int32} {data : List UInt8} {k : Fin 1024} {n : ℕ}
  (h : Stored L c s) (hk : (z * 32 + x).toInt = k) (hn : length.toInt = n)
  (hdata : n ≤ data.length) (hbig : n < 2 ^ 31 - 5)

include hn hbig in
theorem needed_lt_iff : sectorsNeeded length < 256 ↔ (n + 5) / 4096 + 1 < 256 := by
  rw [Int32.lt_iff_toInt_lt, toInt_sectorsNeeded hn hbig, show (256 : Int32).toInt = 256 from rfl]
  omega

include h hk hn hdata hbig in
/-- **A write** that fits changes one chunk of the store. -/
theorem store_ok
    (hstamp : ∀ c t, Stored L c t → ∃ t', stamp t = .ok () t' ∧ Stored L c t' ∧ Grown t t' 0)
    (hfit : (n + 5) / 4096 + 1 < 256) :
    ∃ t, store L stamp x z data length s = .ok () t ∧
      Stored L (Function.update c k (some (data.take n))) t ∧ ∃ g, Grown s t g := by
  have hneeded := toInt_sectorsNeeded hn hbig
  unfold store
  rw [bind_of_ok (getOffset_ok hk), if_pos ((needed_lt_iff hn hbig).mpr hfit)]
  by_cases hmove : s.offsets[k] >>> 8 = 0 ∨ s.offsets[k] &&& 255 ≠ sectorsNeeded length
  · obtain ⟨t, offset, g, ht, hp, hgrown⟩ := relocate_ok h hn hdata hfit hneeded hk
    obtain ⟨t', ht', hs, hsame⟩ := hstamp _ t (hp.stored h (hgrown.small h.small))
    refine ⟨t', ?_, hs, g, hgrown.trans_zero hsame⟩
    rw [if_pos hmove, bind_of_ok ht]
    exact ht'
  · have hcount : (extents s k).count = (n + 5) / 4096 + 1 := by
      have hand := (not_or.mp hmove).2
      show (s.offsets[k] &&& 255).toInt.toNat = _
      rw [not_not.mp hand, hneeded, Int.toNat_natCast]
    obtain ⟨t, ht, hp, hgrown⟩ := rewrite_ok h hn hdata hfit hcount
    obtain ⟨t', ht', hs, hsame⟩ := hstamp _ t (hp.stored h (hgrown.small h.small))
    refine ⟨t', ?_, hs, 0, hgrown.trans_zero hsame⟩
    rw [if_neg hmove, bind_of_ok ht]
    exact ht'

include hk hn hbig in
/-- A write that is too large does nothing. -/
theorem store_tooLarge (hfit : ¬(n + 5) / 4096 + 1 < 256) :
    store L stamp x z data length s = .ok () s := by
  unfold store
  rw [bind_of_ok (getOffset_ok hk), if_neg (mt (needed_lt_iff hn hbig).mp hfit)]
  rfl

end Store

end Stored

/-! ## The calls of `write` -/

/-- A call of `write`. -/
structure WriteCall where
  x : Int32
  z : Int32
  data : List UInt8
  length : Int32

namespace WriteCall

/-- The chunk is one of the region, and the length is one of the data. -/
def Valid (w : WriteCall) : Prop :=
  (0 ≤ w.x ∧ w.x < 32 ∧ 0 ≤ w.z ∧ w.z < 32) ∧
    0 ≤ w.length ∧ w.length.toInt ≤ w.data.length ∧ w.length.toInt < 2 ^ 31 - 5

instance (w : WriteCall) : Decidable w.Valid := inferInstanceAs (Decidable (_ ∧ _))

/-- The data need less than 256 sectors. -/
def Fits (w : WriteCall) : Prop := (w.length.toInt + 5) / 4096 + 1 < 256

instance (w : WriteCall) : Decidable w.Fits := inferInstanceAs (Decidable (_ < _))

/-- The bytes of the call: the first `length` of its data. -/
def bytes (w : WriteCall) : List UInt8 := w.data.take w.length.toInt.toNat

/-- What the call does to a store of chunks. -/
def applyTo (w : WriteCall) (c : Fin 1024 → Option (List UInt8)) : Fin 1024 → Option (List UInt8) :=
  fun k => if w.Fits ∧ slot w.x w.z = k then some w.bytes else c k

variable {w : WriteCall}

theorem Valid.inBounds (hw : w.Valid) : outOfBounds w.x w.z = false := by
  obtain ⟨⟨hx0, hx, hz0, hz⟩, -⟩ := hw
  rw [Int32.le_iff_toInt_le] at hx0 hz0
  rw [Int32.lt_iff_toInt_lt] at hx hz
  exact outOfBounds_iff.mpr ⟨⟨hx0, hx⟩, hz0, hz⟩

theorem Valid.index (hw : w.Valid) :
    ∃ k : Fin 1024, (w.z * 32 + w.x).toInt = k ∧ slot w.x w.z = k := by
  obtain ⟨hi, hlt⟩ := toInt_slot hw.inBounds
  exact ⟨⟨_, hlt⟩, hi, rfl⟩

theorem Valid.toNat_length (hw : w.Valid) : w.length.toInt = w.length.toInt.toNat := by
  have h0 := Int32.le_iff_toInt_le.mp hw.2.1
  exact (Int.toNat_of_nonneg h0).symm

theorem applyTo_of_fits {k : Fin 1024} (hk : slot w.x w.z = k) (hfit : w.Fits)
    (c : Fin 1024 → Option (List UInt8)) : w.applyTo c = Function.update c k (some w.bytes) := by
  funext l
  rcases eq_or_ne l k with rfl | hne
  · simp [applyTo, hfit, hk]
  · have hval : (k : ℕ) ≠ l := fun he => hne (Fin.ext he.symm)
    simp [applyTo, hk, hne, hval]

theorem applyTo_of_not_fits (hfit : ¬w.Fits) (c : Fin 1024 → Option (List UInt8)) :
    w.applyTo c = c := by
  funext l
  simp [applyTo, hfit]

end WriteCall

section Calls

variable {L : Layout} {c : Fin 1024 → Option (List UInt8)} {s : DesktopRegionFile} {stamp : M Unit}
  {w : WriteCall}

/-- A call that does not fit does nothing. -/
theorem write_tooLarge (hw : w.Valid) (hfit : ¬w.Fits) :
    catchIO (store L stamp w.x w.z w.data w.length) (return ()) s = .ok () s := by
  obtain ⟨k, hk, -⟩ := hw.index
  have hn := hw.toNat_length
  have hbig := hw.2.2.2
  unfold WriteCall.Fits at hfit
  exact catchIO_of_ok (store_tooLarge hk hn (by omega) (by omega))

/-- **A call of `write`** does to the file what it does to the store. -/
theorem Stored.write (h : Stored L c s) (hw : w.Valid)
    (hstamp : ∀ c t, Stored L c t → ∃ t', stamp t = .ok () t' ∧ Stored L c t' ∧ Grown t t' 0) :
    ∃ t, catchIO (store L stamp w.x w.z w.data w.length) (return ()) s = .ok () t ∧
      Stored L (w.applyTo c) t ∧ ∃ g, Grown s t g := by
  obtain ⟨k, hk, hslot⟩ := hw.index
  have hn := hw.toNat_length
  have hbig := hw.2.2.2
  have hdata : w.length.toInt.toNat ≤ w.data.length := by
    have := hw.2.2.1
    omega
  by_cases hfit : w.Fits
  · have hfit' : (w.length.toInt.toNat + 5) / 4096 + 1 < 256 := by
      unfold WriteCall.Fits at hfit
      omega
    obtain ⟨t, ht, hs⟩ := store_ok h hk hn hdata (by omega) hstamp hfit'
    refine ⟨t, catchIO_of_ok ht, ?_⟩
    rw [WriteCall.applyTo_of_fits hslot hfit]
    exact hs
  · refine ⟨s, write_tooLarge hw hfit, ?_, 0, grown_zero rfl rfl⟩
    rw [WriteCall.applyTo_of_not_fits hfit]
    exact h

end Calls

end DesktopRegionFile

end WorldToPE
