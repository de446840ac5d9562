import WorldToPE.Convert.Converter

/-!
# WorldToPE.Convert.Section — the cells a section writes

A desktop section stores its cells with `x` running fastest and `y` slowest, a pocket chunk with `y`
running fastest and `x` slowest.  `sectionPos` is the place of a chunk cell in its section; all index
arithmetic of the innermost loop is turned into it here.

* `convertCell_spec`: one round of the innermost loop writes one cell in all four layers.
* `Written`: the relation between the chunk before and after, closed under further rounds.
* `rounds_run`: a section writes exactly the cells of its sixteen layers.
-/

namespace WorldToPE.Converter

open Java Run Nibble Chunk

/-! ## Cells -/

/-- What the four layers hold for one cell. -/
structure Cell where
  type : UInt8
  data : Int32
  blockLight : Int32
  skyLight : Int32
deriving DecidableEq, Repr

/-- A cell with nothing in it. -/
def Cell.zero : Cell := ⟨0, 0, 0, 0⟩

/-- The cell at offset `i` of a chunk. -/
def cellAt (c : Chunk) (i : ℕ) : Cell :=
  ⟨c.typeCell i, c.dataCell i, halfAt c.blockLight i, halfAt c.skyLight i⟩

/-- The place in its section of the chunk cell at offset `i`. -/
def sectionPos (i : ℕ) : ℕ := i % 16 * 256 + i / 128 % 16 * 16 + i / 2048

/-- The section of the chunk cell at offset `i`. -/
def sectionOf (i : ℕ) : ℕ := i % 128 / 16

/-- The converted cell at place `p` of a section. -/
def Layers.cell (blockTranslate : Vector UInt8 256) (l : Layers) (p : ℕ) : Cell :=
  ⟨byteAt blockTranslate (l.blocks.getD p 0).toNat, half (l.data.getD (p / 2) 0) p,
    half (l.blockLight.getD (p / 2) 0) p, half (l.skyLight.getD (p / 2) 0) p⟩

/-- The arrays have the sizes of a section. -/
structure Layers.Sized (l : Layers) : Prop where
  blocks : l.blocks.length = 4096
  data : l.data.length = 2048
  blockLight : l.blockLight.length = 2048
  skyLight : l.skyLight.length = 2048

/-! ## Index arithmetic -/

/-- The nibble at place `p` of a layer. -/
theorem lget_half {data : List UInt8} {pos : Int32} {p : ℕ} (hp : pos.toInt = p)
    (hlt : p / 2 < data.length) :
    (do let b ← lget data (pos >>> 1)
        return if pos &&& 1 = 0 then widen b &&& 15 else (widen b >>> 4) &&& 15 : Except Exn Int32) =
      .ok (half (data.getD (p / 2) 0) p) := by
  have hslot : (pos >>> 1).toInt = (p / 2 : ℕ) := by
    rw [toInt_shiftRight_one, hp]
    omega
  have hodd : (pos &&& 1).toInt = pos.toInt % 2 := toInt_and_mask pos 1 (by norm_num)
  rw [lget_of_toInt hslot hlt, List.getD_eq_getElem?_getD, List.getElem?_eq_getElem hlt]
  show Except.ok (if pos &&& 1 = 0 then _ else _) = _
  have h0 : pos &&& 1 = 0 ↔ ¬ p % 2 = 1 := by
    rw [← Int32.toInt_inj, hodd, hp]
    show (p : Int) % 2 = 0 ↔ _
    omega
  unfold half
  by_cases h : p % 2 = 1
  · rw [if_neg (by rw [h0, not_not]; exact h), if_pos h]
    rfl
  · rw [if_pos (h0.mpr h), if_neg h]
    rfl

section Index

variable {x y z : ℕ} (hx : x < 16) (hy : y < 16) (hz : z < 16)

theorem toInt_ofNat16 {n : ℕ} (h : n < 16) : (Int32.ofNat n).toInt = n :=
  Int32.toInt_ofNat_of_lt (by omega)

include hx hz

theorem toInt_row : ((Int32.ofNat z <<< 4) ||| Int32.ofNat x).toInt = z * 16 + x := by
  have ex := toInt_ofNat16 hx
  have ez := toInt_ofNat16 hz
  have es : (Int32.ofNat z <<< 4).toInt = (Int32.ofNat z).toInt * 2 ^ 4 :=
    toInt_shiftLeft 4 (by norm_num) (by omega) (by omega)
  rw [ez] at es
  rw [toInt_or_of_lt 4 (by omega) (by omega) (by omega) (by omega) (by omega), es, ex]
  norm_num

include hy

theorem toInt_sectionPos :
    (((Int32.ofNat z <<< 4) ||| Int32.ofNat x) ||| (Int32.ofNat y <<< 8)).toInt =
      (y * 256 + z * 16 + x : ℕ) := by
  have ey := toInt_ofNat16 hy
  have er := toInt_row hx hz
  have es : (Int32.ofNat y <<< 8).toInt = (Int32.ofNat y).toInt * 2 ^ 8 :=
    toInt_shiftLeft 8 (by norm_num) (by omega) (by omega)
  rw [ey] at es
  rw [Int32.or_comm, toInt_or_of_lt 8 (by omega) (by omega) (by omega) (by omega) (by omega), es, er]
  push_cast
  ring

theorem toInt_layerPos :
    (((Int32.ofNat y <<< ((4 : Int32) + 4)) ||| (Int32.ofNat z <<< 4)) ||| Int32.ofNat x).toInt =
      (y * 256 + z * 16 + x : ℕ) := by
  rw [Int32.or_assoc, Int32.or_comm]
  exact toInt_sectionPos hx hy hz

/-- `DataLayer.get` inside a section. -/
theorem dataLayer_get {data : List UInt8} (hd : data.length = 2048) :
    DataLayer.get ⟨data, 4⟩ (Int32.ofNat x) (Int32.ofNat y) (Int32.ofNat z) =
      .ok (half (data.getD ((y * 256 + z * 16 + x) / 2) 0) (y * 256 + z * 16 + x)) :=
  lget_half (toInt_layerPos hx hy hz) (by rw [hd]; omega)

end Index

/-- The four coordinates of a chunk cell. -/
theorem eq_cell_iff {x z Y y : ℕ} (hz : z < 16) (hY : Y < 8) (hy : y < 16) {j : ℕ} :
    x * 2048 + z * 128 + (Y * 16 + y) = j ↔
      j / 2048 = x ∧ j / 128 % 16 = z ∧ sectionOf j = Y ∧ j % 16 = y := by
  unfold sectionOf
  constructor
  · rintro rfl
    refine ⟨?_, ?_, ?_, ?_⟩ <;> omega
  · omega

/-- The block translation of a byte. -/
theorem translate (blockTranslate : Vector UInt8 256) (b : UInt8) :
    aget blockTranslate (widen b &&& 255) = .ok (byteAt blockTranslate b.toNat) := by
  have hb := b.toNat_lt
  refine aget_of_toInt ?_ hb
  have h : (widen b &&& 255).toInt = (widen b).toInt % 2 ^ 8 := toInt_and_mask _ 8 (by norm_num)
  rw [h, toInt_widen]
  split <;> omega

/-- The absolute height of layer `y` of section `sectionY`. -/
theorem toInt_yy {sectionY : Int32} {Y y : ℕ} (hY : sectionY.toInt = Y) (hY8 : Y < 8) (hy : y < 16) :
    ((sectionY <<< 4) + Int32.ofNat y).toInt = Y * 16 + y := by
  have ey := toInt_ofNat16 hy
  have es : (sectionY <<< 4).toInt = sectionY.toInt * 2 ^ 4 :=
    toInt_shiftLeft 4 (by norm_num) (by omega) (by omega)
  rw [hY] at es
  rw [toInt_add_of_fits (by omega) (by omega), es, ey]
  norm_num

/-! ## One cell -/

/-- The chunk after all four layers of the cell at offset `i` were written. -/
def writeCell (c : Chunk) (i : ℕ) (hi : i < 32768) (v : Cell) : Chunk :=
  { c with
    blocks := c.blocks.set i v.type hi
    metaData := putHalf c.metaData i (by omega) v.data
    blockLight := putHalf c.blockLight i (by omega) v.blockLight
    skyLight := putHalf c.skyLight i (by omega) v.skyLight }

theorem onChunk_ok {f : Chunk → Except Exn Chunk} {s : Converter} {c : Chunk}
    (h : f s.peChunk = .ok c) : onChunk f s = .ok () { s with peChunk := c } := by
  simp [onChunk, h, lift]

theorem onChunk_error {f : Chunk → Except Exn Chunk} {s : Converter} {e : Exn}
    (h : f s.peChunk = .error e) : onChunk f s = .error e s := by
  simp [onChunk, h, lift]

theorem lift_ok {α : Type} {e : Except Exn α} {a : α} (h : e = .ok a) (s : Converter) :
    lift e s = .ok a s := by
  rw [h]
  rfl

theorem chunkSetHalf_ok (arr : Vector UInt8 16384) {x y z : Int32} (h : inRange x y z = true)
    (v : Int32) : chunkSetHalf arr x y z v =
      .ok (putHalf arr (cellIdx x y z) (cellIdx_half_lt h) v) := by
  refine setHalfAt_spec arr (cellIdx_half_lt h) (getOffset_half h) v ?_
  have hm : (getOffset x y z &&& 1).toInt = (getOffset x y z).toInt % 2 :=
    toInt_and_mask _ 1 (by norm_num)
  rw [decide_eq_true_eq, ← Int32.toInt_inj, hm, getOffset_eq_cellIdx h]
  show (cellIdx x y z : Int) % 2 = 1 ↔ _
  omega

/-- `c'` is `c` with the cells of `P` written from `v` and everything else kept. -/
structure Written (P : ℕ → Prop) (v : ℕ → Cell) (c c' : Chunk) : Prop where
  rest : c' = { c with blocks := c'.blocks, metaData := c'.metaData, blockLight := c'.blockLight,
                       skyLight := c'.skyLight }
  on : ∀ i < 32768, P i → cellAt c' i = v i
  off : ∀ i < 32768, ¬ P i → cellAt c' i = cellAt c i

theorem Written.refl {P : ℕ → Prop} {v : ℕ → Cell} {c : Chunk} (hP : ∀ i < 32768, ¬ P i) :
    Written P v c c :=
  ⟨rfl, fun i hi h => absurd h (hP i hi), fun _ _ _ => rfl⟩

theorem Written.congr {P Q : ℕ → Prop} {v : ℕ → Cell} {c c' : Chunk} (h : Written P v c c')
    (hPQ : ∀ i < 32768, (P i ↔ Q i)) : Written Q v c c' :=
  ⟨h.rest, fun i hi hq => h.on i hi ((hPQ i hi).mpr hq),
    fun i hi hq => h.off i hi fun hp => hq ((hPQ i hi).mp hp)⟩

/-- The nibbles of a cell fit in four bits. -/
def Cell.Fits (v : Cell) : Prop :=
  v.data &&& 15 = v.data ∧ v.blockLight &&& 15 = v.blockLight ∧ v.skyLight &&& 15 = v.skyLight

theorem Layers.cell_fits (blockTranslate : Vector UInt8 256) (l : Layers) (p : ℕ) :
    (l.cell blockTranslate p).Fits :=
  ⟨half_and_15 _ _, half_and_15 _ _, half_and_15 _ _⟩

theorem cellAt_writeCell (c : Chunk) {i : ℕ} (hi : i < 32768) {v : Cell} (hv : v.Fits) (j : ℕ) :
    cellAt (writeCell c i hi v) j = if i = j then v else cellAt c j := by
  obtain ⟨hd, hb, hs⟩ := hv
  simp only [cellAt, writeCell, typeCell, dataCell, byteAt_set, halfAt_putHalf, hd, hb, hs]
  split <;> rfl

/-- **Step**: one more cell. -/
theorem Written.step {P : ℕ → Prop} {v : ℕ → Cell} {c c' : Chunk} (h : Written P v c c') {i : ℕ}
    (hi : i < 32768) (hv : (v i).Fits) :
    Written (fun j => P j ∨ i = j) v c (writeCell c' i hi (v i)) where
  rest := by
    rw [h.rest]
    rfl
  on := by
    intro j hj hp
    rw [cellAt_writeCell _ hi hv]
    by_cases hij : i = j
    · rw [if_pos hij, hij]
    · rw [if_neg hij]
      exact h.on j hj (hp.resolve_right hij)
  off := by
    intro j hj hp
    rw [not_or] at hp
    rw [cellAt_writeCell _ hi hv, if_neg hp.2]
    exact h.off j hj hp.1

/-! ## The three loops -/

/-- The cells of section `Y` that were written before the round `(x, z, y)` of the loops. -/
def Done (Y x z y : ℕ) (i : ℕ) : Prop :=
  sectionOf i = Y ∧ (i / 2048 < x ∨ i / 2048 = x ∧ (i / 128 % 16 < z ∨ i / 128 % 16 = z ∧ i % 16 < y))

/-- The converter after some rounds of the loops that started in `s`. -/
def Rounds (blockTranslate : Vector UInt8 256) (l : Layers) (s : Converter) (P : ℕ → Prop)
    (t : Converter) : Prop :=
  ∃ c, t = { s with peChunk := c } ∧
    Written P (fun i => l.cell blockTranslate (sectionPos i)) s.peChunk c

theorem Rounds.congr {blockTranslate : Vector UInt8 256} {l : Layers} {s t : Converter}
    {P Q : ℕ → Prop} (h : Rounds blockTranslate l s P t) (hPQ : ∀ i < 32768, (P i ↔ Q i)) :
    Rounds blockTranslate l s Q t := by
  obtain ⟨c, rfl, hw⟩ := h
  exact ⟨c, rfl, hw.congr hPQ⟩

section Cells

variable (blockTranslate : Vector UInt8 256) {sectionY : Int32} {Y : ℕ} (hY : sectionY.toInt = Y)
  (hY8 : Y < 8) {l : Layers} (hl : l.Sized)
include hY hY8 hl

/-- **One round of the innermost loop** writes the cell at `(x, 16 Y + y, z)`. -/
theorem convertCell_spec {x z y : ℕ} (hx : x < 16) (hz : z < 16) (hy : y < 16) (s : Converter) :
    convertCell blockTranslate sectionY l (Int32.ofNat x) (Int32.ofNat z) (Int32.ofNat y) s =
      .ok () { s with
        peChunk := writeCell s.peChunk (x * 2048 + z * 128 + (Y * 16 + y)) (by omega)
          (l.cell blockTranslate (y * 256 + z * 16 + x)) } := by
  have hyy := toInt_yy hY hY8 hy
  have ex := toInt_ofNat16 hx
  have ez := toInt_ofNat16 hz
  have hr : inRange (Int32.ofNat x) ((sectionY <<< 4) + Int32.ofNat y) (Int32.ofNat z) = true := by
    rw [inRange_iff]
    omega
  have hi : cellIdx (Int32.ofNat x) ((sectionY <<< 4) + Int32.ofNat y) (Int32.ofNat z) =
      x * 2048 + z * 128 + (Y * 16 + y) := by
    unfold cellIdx
    rw [hyy, ex, ez]
    omega
  have hblock : lget l.blocks (((Int32.ofNat z <<< 4) ||| Int32.ofNat x) ||| (Int32.ofNat y <<< 8)) =
      .ok (l.blocks.getD (y * 256 + z * 16 + x) 0) := by
    have hlt : y * 256 + z * 16 + x < l.blocks.length := by
      rw [hl.blocks]
      omega
    rw [lget_of_toInt (toInt_sectionPos hx hy hz) hlt, List.getD_eq_getElem?_getD,
      List.getElem?_eq_getElem hlt]
    rfl
  unfold convertCell
  rw [bind_of_ok (lift_ok hblock _), bind_of_ok (lift_ok (translate _ _) _),
    bind_of_ok (onChunk_ok (setBlockTypeIdNoDirty_spec _ hr _)),
    bind_of_ok (lift_ok (dataLayer_get hx hy hz hl.data) _),
    bind_of_ok (onChunk_ok (setBlockDataNoDirty_spec _ hr _)),
    bind_of_ok (lift_ok (dataLayer_get hx hy hz hl.blockLight) _),
    bind_of_ok (onChunk_ok (by rw [chunkSetHalf_ok _ hr]; rfl)),
    bind_of_ok (lift_ok (dataLayer_get hx hy hz hl.skyLight) _),
    onChunk_ok (by rw [chunkSetHalf_ok _ hr]; rfl)]
  simp only [hi, narrow_widen]
  rfl

/-- **Step lemma** of the loops. -/
theorem rounds_step {x z y : ℕ} (hx : x < 16) (hz : z < 16) (hy : y < 16) {s t : Converter}
    (h : Rounds blockTranslate l s (Done Y x z y) t) :
    ∃ t', convertCell blockTranslate sectionY l (Int32.ofNat x) (Int32.ofNat z) (Int32.ofNat y) t =
      .ok () t' ∧ Rounds blockTranslate l s (Done Y x z (y + 1)) t' := by
  obtain ⟨c, rfl, hw⟩ := h
  refine ⟨_, convertCell_spec blockTranslate hY hY8 hl hx hz hy _, _, rfl, ?_⟩
  have hi : x * 2048 + z * 128 + (Y * 16 + y) < 32768 := by omega
  have hpos : y * 256 + z * 16 + x = sectionPos (x * 2048 + z * 128 + (Y * 16 + y)) := by
    unfold sectionPos
    omega
  have hstep := hw.step hi (Layers.cell_fits _ _ _)
  rw [← hpos] at hstep
  refine hstep.congr fun j hj => ?_
  rw [eq_cell_iff hz hY8 hy]
  unfold Done
  omega

/-- **Run lemma**: all rounds of the three loops. -/
theorem rounds_run (s : Converter) : ∃ t,
    forUpTo 16 (fun x => forUpTo 16 fun z => forUpTo 16 fun y =>
      convertCell blockTranslate sectionY l (Int32.ofNat x) (Int32.ofNat z) (Int32.ofNat y)) s =
      .ok () t ∧ Rounds blockTranslate l s (fun i => sectionOf i = Y) t := by
  have hz : ∀ x < 16, ∀ z < 16, ∀ t, Rounds blockTranslate l s (Done Y x z 0) t →
      ∃ t', forUpTo 16 (fun y => convertCell blockTranslate sectionY l (Int32.ofNat x)
        (Int32.ofNat z) (Int32.ofNat y)) t = .ok () t' ∧
        Rounds blockTranslate l s (Done Y x (z + 1) 0) t' := by
    intro x hx z hz t h
    obtain ⟨t', ht', hI⟩ := forUpTo_ok (I := fun y t => Rounds blockTranslate l s (Done Y x z y) t)
      h 16 fun y hy t h => rounds_step blockTranslate hY hY8 hl hx hz hy h
    refine ⟨t', ht', hI.congr fun i hi => ?_⟩
    unfold Done
    omega
  have hx : ∀ x < 16, ∀ t, Rounds blockTranslate l s (Done Y x 0 0) t →
      ∃ t', forUpTo 16 (fun z => forUpTo 16 fun y => convertCell blockTranslate sectionY l
        (Int32.ofNat x) (Int32.ofNat z) (Int32.ofNat y)) t = .ok () t' ∧
        Rounds blockTranslate l s (Done Y (x + 1) 0 0) t' := by
    intro x hx t h
    obtain ⟨t', ht', hI⟩ := forUpTo_ok (I := fun z t => Rounds blockTranslate l s (Done Y x z 0) t)
      h 16 (hz x hx)
    refine ⟨t', ht', hI.congr fun i hi => ?_⟩
    unfold Done
    omega
  have hstart : Rounds blockTranslate l s (Done Y 0 0 0) s := by
    refine ⟨s.peChunk, rfl, Written.refl fun i hi => ?_⟩
    unfold Done
    omega
  obtain ⟨t, ht, hI⟩ := forUpTo_ok (I := fun x t => Rounds blockTranslate l s (Done Y x 0 0) t)
    hstart 16 hx
  refine ⟨t, ht, hI.congr fun i hi => ?_⟩
  unfold Done
  omega

end Cells

end WorldToPE.Converter
