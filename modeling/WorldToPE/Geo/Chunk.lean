import WorldToPE.Lib.JavaArray
import WorldToPE.Lib.Nibble

/-!
# WorldToPE.Geo.Chunk — one 16 × 128 × 16 column of blocks

The data of `geo/Chunk.java`: a byte per cell for the block type, half a byte per cell for the data
and the two light layers, a dirty table and the grass colours.  Cell `(x, y, z)` has offset
`x * 2048 + z * 128 + y` in every layer.

Over the methods, cell-level reads `typeCell` / `dataCell` and one specification lemma per method:
`getBlockTypeId_spec`, `getBlockData_spec`, `setBlockTypeIdNoDirty_spec`, `setBlockDataNoDirty_spec`,
and for records `loadFromByteArray_spec`, `loadFromByteArray_error`, `loadFromByteArray_save`.
-/

namespace WorldToPE

open Java Nibble

/-- `geo/Chunk.java`. -/
structure Chunk where
  x : Int32
  z : Int32
  blocks : Vector UInt8 32768
  metaData : Vector UInt8 16384
  blockLight : Vector UInt8 16384
  skyLight : Vector UInt8 16384
  dirtyTable : Vector UInt8 256
  grassColor : Vector UInt8 768
  hasFilledDirtyTable : Bool := false
  needsSaving : Bool := false

namespace Chunk

/-- `new Chunk(x, z)`. -/
def new (x z : Int32) : Chunk where
  x := x
  z := z
  blocks := Vector.replicate 32768 0
  metaData := Vector.replicate 16384 0
  blockLight := Vector.replicate 16384 0
  skyLight := Vector.replicate 16384 0
  dirtyTable := Vector.replicate 256 0
  grassColor := Vector.replicate 768 0

/-- The least record length that `loadFromByteArray` accepts. -/
def minRecord : ℕ := 82944

def loadFromByteArray (c : Chunk) (rawData : List UInt8) : Except Exn Chunk := do
  let blocks ← arraycopyFrom rawData 0 32768
  let metaData ← arraycopyFrom rawData 32768 16384
  let skyLight ← arraycopyFrom rawData 49152 16384
  let blockLight ← arraycopyFrom rawData 65536 16384
  let dirtyTable ← arraycopyFrom rawData 81920 256
  let grassColor ← arraycopyFrom rawData 82176 768
  return { c with blocks, metaData, skyLight, blockLight, dirtyTable, grassColor }

/-- `saveToByteArray`: the six arrays and the three spare bytes of the freshly allocated result. -/
def saveToByteArray (c : Chunk) : List UInt8 :=
  c.blocks.toList ++ (c.metaData.toList ++ (c.skyLight.toList ++ (c.blockLight.toList ++
    (c.dirtyTable.toList ++ (c.grassColor.toList ++ [0, 0, 0])))))

def getOffset (x y z : Int32) : Int32 := (x * 128 * 16) + (z * 128) + y

/-- The guard shared by the checked accessors. -/
def inRange (x y z : Int32) : Bool :=
  x < 16 && y < 128 && z < 16 && 0 ≤ x && 0 ≤ y && 0 ≤ z

def getBlockTypeId (c : Chunk) (x y z : Int32) : Except Exn Int32 :=
  if !inRange x y z then return 0
  else do
    let b ← aget c.blocks (getOffset x y z)
    let typeId := widen b
    return if typeId < 0 then typeId + 256 else typeId

def getBlockData (c : Chunk) (x y z : Int32) : Except Exn Int32 :=
  if !inRange x y z then return 0
  else do
    let offset := getOffset x y z
    let b ← aget c.metaData (offset >>> 1)
    let dualData := widen b
    return if offset % 2 = 1 then (dualData >>> 4) &&& 15 else dualData &&& 15

def setBlockTypeIdNoDirty (c : Chunk) (x y z type : Int32) : Except Exn Chunk := do
  let blocks ← aset c.blocks (getOffset x y z) (narrow type)
  return { c with blocks }

/-- The read-modify-write of one half byte, shared by the block data and the light layers. -/
def setHalfAt (arr : Vector UInt8 16384) (offset newData : Int32) (odd : Bool) :
    Except Exn (Vector UInt8 16384) := do
  let oldData ← aget arr (offset >>> 1)
  if odd then aset arr (offset >>> 1) (narrow ((newData <<< 4) ||| (widen oldData &&& 15)))
  else aset arr (offset >>> 1) (narrow ((widen oldData &&& 240) ||| (newData &&& 15)))

def setBlockDataNoDirty (c : Chunk) (x y z newData : Int32) : Except Exn Chunk := do
  let offset := getOffset x y z
  let metaData ← setHalfAt c.metaData offset newData (offset % 2 = 1)
  return { c with metaData }

/-- `setDirtyTable`: its arguments are ignored and the table is filled once. -/
def setDirtyTable (c : Chunk) : Chunk :=
  if c.hasFilledDirtyTable then c
  else { c with dirtyTable := Vector.replicate 256 255, hasFilledDirtyTable := true }

def setNeedsSaving (c : Chunk) (save : Bool) : Chunk := { c with needsSaving := save }

def setBlockTypeId (c : Chunk) (x y z type : Int32) : Except Exn Chunk :=
  if inRange x y z then do
    let c ← c.setBlockTypeIdNoDirty x y z type
    return c.setDirtyTable.setNeedsSaving true
  else return c

def setBlockData (c : Chunk) (x y z newData : Int32) : Except Exn Chunk :=
  if inRange x y z then do
    let c ← c.setBlockDataNoDirty x y z newData
    return c.setDirtyTable.setNeedsSaving true
  else return c

/-- The loop of `getHighestBlockYAt`, from `y = n - 1` down to `0`. -/
def highestFrom (c : Chunk) (x z : Int32) : ℕ → Except Exn Int32
  | 0 => return 0
  | n + 1 => do
    let t ← c.getBlockTypeId x (Int32.ofNat n) z
    if t ≠ 0 then return Int32.ofNat n else highestFrom c x z n

def getHighestBlockYAt (c : Chunk) (x z : Int32) : Except Exn Int32 := highestFrom c x z 128

/-! ## Offsets -/

/-- The offset of a cell, without overflow. -/
def cellIdx (x y z : Int32) : ℕ := (x.toInt * 2048 + z.toInt * 128 + y.toInt).toNat

theorem inRange_iff {x y z : Int32} : inRange x y z = true ↔
    (0 ≤ x.toInt ∧ x.toInt < 16) ∧ (0 ≤ y.toInt ∧ y.toInt < 128) ∧ 0 ≤ z.toInt ∧ z.toInt < 16 := by
  have h0 : (0 : Int32).toInt = 0 := rfl
  have h16 : (16 : Int32).toInt = 16 := rfl
  have h128 : (128 : Int32).toInt = 128 := rfl
  simp only [inRange, Bool.and_eq_true, decide_eq_true_eq, Int32.lt_iff_toInt_lt,
    Int32.le_iff_toInt_le, h0, h16, h128]
  constructor
  · rintro ⟨⟨⟨⟨⟨h1, h2⟩, h3⟩, h4⟩, h5⟩, h6⟩
    exact ⟨⟨h4, h1⟩, ⟨h5, h2⟩, h6, h3⟩
  · rintro ⟨⟨h4, h1⟩, ⟨h5, h2⟩, h6, h3⟩
    exact ⟨⟨⟨⟨⟨h1, h2⟩, h3⟩, h4⟩, h5⟩, h6⟩

/-- Below the chunk top the offset does not overflow, also for the negative `y` of a bad section. -/
theorem toInt_getOffset {x y z : Int32} (hx : 0 ≤ x.toInt ∧ x.toInt < 16)
    (hy : -2048 ≤ y.toInt ∧ y.toInt < 128) (hz : 0 ≤ z.toInt ∧ z.toInt < 16) :
    (getOffset x y z).toInt = x.toInt * 2048 + z.toInt * 128 + y.toInt := by
  have h16 : (16 : Int32).toInt = 16 := rfl
  have h128 : (128 : Int32).toInt = 128 := rfl
  have e1 : (x * 128).toInt = x.toInt * 128 := by
    rw [toInt_mul_of_fits] <;> rw [h128] <;> omega
  have e2 : (x * 128 * 16).toInt = x.toInt * 128 * 16 := by
    rw [toInt_mul_of_fits] <;> rw [e1, h16] <;> omega
  have e3 : (z * 128).toInt = z.toInt * 128 := by
    rw [toInt_mul_of_fits] <;> rw [h128] <;> omega
  have e4 : (x * 128 * 16 + z * 128).toInt = x.toInt * 128 * 16 + z.toInt * 128 := by
    rw [toInt_add_of_fits] <;> rw [e2, e3] <;> omega
  unfold getOffset
  rw [toInt_add_of_fits] <;> rw [e4] <;> omega

theorem toInt_shiftRight_one (x : Int32) : (x >>> 1).toInt = x.toInt / 2 :=
  toInt_shiftRight x 1 (by norm_num)

section InRange

variable {x y z : Int32} (h : inRange x y z = true)
include h

theorem cellIdx_lt : cellIdx x y z < 32768 := by
  have := inRange_iff.mp h
  unfold cellIdx
  omega

theorem cellIdx_half_lt : cellIdx x y z / 2 < 16384 := by
  have := cellIdx_lt h
  omega

theorem getOffset_eq_cellIdx : (getOffset x y z).toInt = cellIdx x y z := by
  have h' := inRange_iff.mp h
  rw [toInt_getOffset h'.1 (by omega) h'.2.2]
  unfold cellIdx
  omega

theorem getOffset_half : (getOffset x y z >>> 1).toInt = (cellIdx x y z / 2 : ℕ) := by
  rw [toInt_shiftRight_one, getOffset_eq_cellIdx h]
  omega

theorem getOffset_odd : getOffset x y z % 2 = 1 ↔ cellIdx x y z % 2 = 1 := by
  have h1 : (1 : Int32).toInt = 1 := rfl
  have h2 : (2 : Int32).toInt = 2 := rfl
  rw [← Int32.toInt_inj, Int32.toInt_mod, getOffset_eq_cellIdx h, h1, h2,
    Int.tmod_eq_emod_of_nonneg (by omega)]
  omega

end InRange

/-- Different cells have different offsets. -/
theorem cellIdx_inj {x y z x' y' z' : Int32} (h : inRange x y z = true)
    (h' : inRange x' y' z' = true) (he : cellIdx x y z = cellIdx x' y' z') :
    x = x' ∧ y = y' ∧ z = z' := by
  have a := inRange_iff.mp h
  have b := inRange_iff.mp h'
  unfold cellIdx at he
  refine ⟨Int32.toInt_inj.mp ?_, Int32.toInt_inj.mp ?_, Int32.toInt_inj.mp ?_⟩ <;> omega

/-! ## Cells -/

/-- The type of cell `i`. -/
def typeCell (c : Chunk) (i : ℕ) : UInt8 := byteAt c.blocks i

/-- The data of cell `i`. -/
def dataCell (c : Chunk) (i : ℕ) : Int32 := halfAt c.metaData i

/-- A byte as the unsigned `int` that `getBlockTypeId` returns. -/
def unsigned (b : UInt8) : Int32 := if widen b < 0 then widen b + 256 else widen b

theorem toInt_unsigned (b : UInt8) : (unsigned b).toInt = b.toNat := by
  have hb := b.toNat_lt
  have h0 : (0 : Int32).toInt = 0 := rfl
  have h256 : (256 : Int32).toInt = 256 := rfl
  have hw := toInt_widen b
  unfold unsigned
  by_cases h : widen b < 0
  · have h' := Int32.lt_iff_toInt_lt.mp h
    rw [h0, hw] at h'
    rw [if_pos h, toInt_add_of_fits] <;> rw [h256, hw] <;> split at h' <;> omega
  · have h' := mt Int32.lt_iff_toInt_lt.mpr h
    rw [h0, hw] at h'
    rw [if_neg h, hw]
    split at h' <;> omega

/-- Storing an `int` and reading it back keeps its low eight bits. -/
theorem unsigned_narrow (n : Int32) : unsigned (narrow n) = n &&& 255 := by
  apply Int32.toInt_inj.mp
  have h : (n &&& 255).toInt = n.toInt % 2 ^ 8 := toInt_and_mask n 8 (by norm_num)
  rw [toInt_unsigned, toNat_narrow, h]
  norm_num

theorem getBlockTypeId_spec (c : Chunk) {x y z : Int32} (h : inRange x y z = true) :
    c.getBlockTypeId x y z = .ok (unsigned (c.typeCell (cellIdx x y z))) := by
  simp only [getBlockTypeId, h, Bool.not_true, Bool.false_eq_true, if_false]
  rw [aget_of_toInt (getOffset_eq_cellIdx h) (cellIdx_lt h)]
  rfl

theorem getBlockData_spec (c : Chunk) {x y z : Int32} (h : inRange x y z = true) :
    c.getBlockData x y z = .ok (c.dataCell (cellIdx x y z)) := by
  simp only [getBlockData, h, Bool.not_true, Bool.false_eq_true, if_false]
  rw [aget_of_toInt (getOffset_half h) (cellIdx_half_lt h)]
  show Except.ok (if getOffset x y z % 2 = 1 then _ else _) = _
  rw [dataCell, halfAt, half]
  by_cases ho : cellIdx x y z % 2 = 1
  · rw [if_pos ((getOffset_odd h).mpr ho), if_pos ho]
    rfl
  · rw [if_neg (mt (getOffset_odd h).mp ho), if_neg ho]
    rfl

theorem setBlockTypeIdNoDirty_spec (c : Chunk) {x y z : Int32} (h : inRange x y z = true)
    (type : Int32) : c.setBlockTypeIdNoDirty x y z type =
      .ok { c with blocks := c.blocks.set (cellIdx x y z) (narrow type) (cellIdx_lt h) } := by
  unfold setBlockTypeIdNoDirty
  rw [aset_of_toInt _ (getOffset_eq_cellIdx h) (cellIdx_lt h)]
  rfl

theorem setHalfAt_spec (arr : Vector UInt8 16384) {offset : Int32} {i : ℕ} (hi : i / 2 < 16384)
    (ho : (offset >>> 1).toInt = (i / 2 : ℕ)) (v : Int32) {odd : Bool}
    (hodd : odd = true ↔ i % 2 = 1) : setHalfAt arr offset v odd = .ok (putHalf arr i hi v) := by
  unfold setHalfAt putHalf setHalf
  rw [aget_of_toInt ho hi]
  by_cases hm : i % 2 = 1
  · obtain rfl : odd = true := hodd.mpr hm
    show aset arr (offset >>> 1) _ = _
    rw [aset_of_toInt _ ho hi, if_pos hm]
    rfl
  · obtain rfl : odd = false := by
      cases odd
      · rfl
      · exact absurd (hodd.mp rfl) hm
    show aset arr (offset >>> 1) _ = _
    rw [aset_of_toInt _ ho hi, if_neg hm]
    rfl

theorem setBlockDataNoDirty_spec (c : Chunk) {x y z : Int32} (h : inRange x y z = true)
    (newData : Int32) : c.setBlockDataNoDirty x y z newData =
      .ok { c with metaData := putHalf c.metaData (cellIdx x y z) (cellIdx_half_lt h) newData } := by
  unfold setBlockDataNoDirty
  dsimp only
  rw [setHalfAt_spec c.metaData (cellIdx_half_lt h) (getOffset_half h) newData
    (by rw [decide_eq_true_eq]; exact getOffset_odd h)]
  rfl

@[simp] theorem new_typeCell (x z : Int32) {i : ℕ} (hi : i < 32768) : (new x z).typeCell i = 0 :=
  byteAt_replicate 0 hi

@[simp] theorem new_dataCell (x z : Int32) {i : ℕ} (hi : i < 32768) : (new x z).dataCell i = 0 :=
  halfAt_replicate_zero (by omega)

/-! ## Edits -/

theorem setDirtyTable_eq (c : Chunk) : ∃ d f, c.setDirtyTable =
    { c with dirtyTable := d, hasFilledDirtyTable := f } := by
  unfold setDirtyTable
  split
  · exact ⟨c.dirtyTable, c.hasFilledDirtyTable, rfl⟩
  · exact ⟨_, _, rfl⟩

/-- `c'` is `c` after an edit: same coordinates, marked for saving, with the given cells. -/
structure Edited (c c' : Chunk) (type : ℕ → UInt8) (data : ℕ → Int32) : Prop where
  x : c'.x = c.x
  z : c'.z = c.z
  needsSaving : c'.needsSaving = true
  type : ∀ i, c'.typeCell i = type i
  data : ∀ i, c'.dataCell i = data i

theorem setBlockTypeId_spec (c : Chunk) {x y z : Int32} (h : inRange x y z = true) (type : Int32) :
    ∃ c', c.setBlockTypeId x y z type = .ok c' ∧
      Edited c c' (fun i => if cellIdx x y z = i then narrow type else c.typeCell i) c.dataCell := by
  unfold setBlockTypeId
  rw [if_pos h, setBlockTypeIdNoDirty_spec c h]
  refine ⟨_, rfl, ?_⟩
  obtain ⟨d, f, hd⟩ := setDirtyTable_eq
    { c with blocks := c.blocks.set (cellIdx x y z) (narrow type) (cellIdx_lt h) }
  rw [hd]
  exact ⟨rfl, rfl, rfl, fun i => byteAt_set _ (cellIdx_lt h) _ _, fun _ => rfl⟩

theorem setBlockData_spec (c : Chunk) {x y z : Int32} (h : inRange x y z = true) (newData : Int32) :
    ∃ c', c.setBlockData x y z newData = .ok c' ∧ Edited c c' c.typeCell
      (fun i => if cellIdx x y z = i then newData &&& 15 else c.dataCell i) := by
  unfold setBlockData
  rw [if_pos h, setBlockDataNoDirty_spec c h]
  refine ⟨_, rfl, ?_⟩
  obtain ⟨d, f, hd⟩ := setDirtyTable_eq
    { c with metaData := putHalf c.metaData (cellIdx x y z) (cellIdx_half_lt h) newData }
  rw [hd]
  exact ⟨rfl, rfl, rfl, fun _ => rfl, fun i => halfAt_putHalf _ (cellIdx_half_lt h) _ _⟩

/-! ## The highest block -/

/-- `h` is the greatest `y < n` with a non-zero type, `0` if there is none. -/
def IsHighest (type : ℕ → Int32) (n : ℕ) (h : Int32) : Prop :=
  (∃ k < n, h = Int32.ofNat k ∧ type k ≠ 0 ∧ ∀ j, k < j → j < n → type j = 0) ∨
  (h = 0 ∧ ∀ j < n, type j = 0)

theorem IsHighest.congr {type type' : ℕ → Int32} {n : ℕ} {h : Int32} (hh : IsHighest type n h)
    (he : ∀ j < n, type j = type' j) : IsHighest type' n h := by
  rcases hh with ⟨k, hk, hkh, hne, hz⟩ | ⟨rfl, hz⟩
  · exact Or.inl ⟨k, hk, hkh, he k hk ▸ hne, fun j hj hjn => he j hjn ▸ hz j hj hjn⟩
  · exact Or.inr ⟨rfl, fun j hj => he j hj ▸ hz j hj⟩

theorem highestFrom_spec (c : Chunk) {x z : Int32} (type : ℕ → Int32) : ∀ n,
    (∀ j < n, c.getBlockTypeId x (Int32.ofNat j) z = .ok (type j)) →
    ∃ h, highestFrom c x z n = .ok h ∧ IsHighest type n h
  | 0, _ => ⟨0, rfl, Or.inr ⟨rfl, by omega⟩⟩
  | n + 1, ht => by
    unfold highestFrom
    rw [ht n (by omega)]
    by_cases h0 : type n = 0
    · obtain ⟨h, he, hh⟩ := highestFrom_spec c type n (fun j hj => ht j (by omega))
      refine ⟨h, ?_, ?_⟩
      · show (if type n ≠ 0 then _ else _) = _
        rw [if_neg (not_not.mpr h0), he]
      · rcases hh with ⟨k, hk, hkh, hne, hz⟩ | ⟨rfl, hz⟩
        · refine Or.inl ⟨k, by omega, hkh, hne, fun j hj hjn => ?_⟩
          by_cases hj' : j = n
          · rw [hj', h0]
          · exact hz j hj (by omega)
        · refine Or.inr ⟨rfl, fun j hj => ?_⟩
          by_cases hj' : j = n
          · rw [hj', h0]
          · exact hz j (by omega)
    · refine ⟨Int32.ofNat n, ?_, Or.inl ⟨n, by omega, rfl, h0, by omega⟩⟩
      show (if type n ≠ 0 then _ else _) = _
      rw [if_pos h0]
      rfl

/-! ## Records -/

@[simp] theorem length_saveToByteArray (c : Chunk) : c.saveToByteArray.length = 82947 := by
  simp [saveToByteArray]

/-- A record is too short as soon as its last array does not fit. -/
theorem loadFromByteArray_error (c : Chunk) {raw : List UInt8} (h : raw.length < minRecord) :
    c.loadFromByteArray raw = .error .arrayIndexOutOfBounds := by
  have key : ∀ (p n : ℕ), (∃ v, arraycopyFrom raw p n = Except.ok v) ∨
      arraycopyFrom raw p n = .error .arrayIndexOutOfBounds := fun p n => by
    by_cases hp : p + n ≤ raw.length
    · obtain ⟨v, hv, -⟩ := arraycopyFrom_ok raw p hp
      exact Or.inl ⟨v, hv⟩
    · exact Or.inr (arraycopyFrom_error hp)
  have last : arraycopyFrom raw 82176 768 = .error .arrayIndexOutOfBounds :=
    arraycopyFrom_error (by unfold minRecord at h; omega)
  unfold loadFromByteArray
  rcases key 0 32768 with ⟨v1, e1⟩ | e1 <;> rw [e1]
  · rcases key 32768 16384 with ⟨v2, e2⟩ | e2 <;> simp only [e2]
    · rcases key 49152 16384 with ⟨v3, e3⟩ | e3 <;> simp only [e3]
      · rcases key 65536 16384 with ⟨v4, e4⟩ | e4 <;> simp only [e4]
        · rcases key 81920 256 with ⟨v5, e5⟩ | e5 <;> simp only [e5, last] <;> rfl
        · rfl
      · rfl
    · rfl
  · rfl

/-- The type a record holds for cell `i`. -/
def recordType (raw : List UInt8) (i : ℕ) : UInt8 := raw.getD i 0

/-- The data a record holds for cell `i`. -/
def recordData (raw : List UInt8) (i : ℕ) : Int32 := half (raw.getD (32768 + i / 2) 0) i

theorem loadFromByteArray_spec (c : Chunk) {raw : List UInt8} (h : minRecord ≤ raw.length) :
    ∃ c', c.loadFromByteArray raw = .ok c' ∧ c'.x = c.x ∧ c'.z = c.z ∧
      c'.needsSaving = c.needsSaving ∧ (∀ i < 32768, c'.typeCell i = recordType raw i) ∧
      ∀ i < 32768, c'.dataCell i = recordData raw i := by
  unfold minRecord at h
  obtain ⟨v1, e1, -⟩ := arraycopyFrom_ok (n := 32768) raw 0 (by omega)
  obtain ⟨v2, e2, -⟩ := arraycopyFrom_ok (n := 16384) raw 32768 (by omega)
  obtain ⟨v3, e3, -⟩ := arraycopyFrom_ok (n := 16384) raw 49152 (by omega)
  obtain ⟨v4, e4, -⟩ := arraycopyFrom_ok (n := 16384) raw 65536 (by omega)
  obtain ⟨v5, e5, -⟩ := arraycopyFrom_ok (n := 256) raw 81920 (by omega)
  obtain ⟨v6, e6, -⟩ := arraycopyFrom_ok (n := 768) raw 82176 (by omega)
  refine ⟨⟨c.x, c.z, v1, v2, v4, v3, v5, v6, c.hasFilledDirtyTable, c.needsSaving⟩, ?_, rfl, rfl, rfl,
    fun i hi => ?_, fun i hi => ?_⟩
  · unfold loadFromByteArray
    rw [e1, e2, e3, e4, e5, e6]
    rfl
  · have := byteAt_arraycopyFrom e1 hi
    rw [zero_add] at this
    exact this
  · show half (byteAt v2 (i / 2)) i = _
    rw [byteAt_arraycopyFrom e2 (show i / 2 < 16384 by omega)]
    rfl

/-- **Records round-trip**: loading what `saveToByteArray` produced restores the six arrays. -/
theorem loadFromByteArray_save (c c0 : Chunk) :
    c0.loadFromByteArray c.saveToByteArray = .ok ⟨c0.x, c0.z, c.blocks, c.metaData, c.blockLight,
      c.skyLight, c.dirtyTable, c.grassColor, c0.hasFilledDirtyTable, c0.needsSaving⟩ := by
  have e1 : arraycopyFrom c.saveToByteArray 0 32768 = .ok c.blocks :=
    arraycopyFrom_append [] _ c.blocks
  have e2 : arraycopyFrom c.saveToByteArray 32768 16384 = .ok c.metaData := by
    have := arraycopyFrom_append c.blocks.toList (c.skyLight.toList ++ (c.blockLight.toList ++
      (c.dirtyTable.toList ++ (c.grassColor.toList ++ [0, 0, 0])))) c.metaData
    rwa [Vector.length_toList] at this
  have e3 : arraycopyFrom c.saveToByteArray 49152 16384 = .ok c.skyLight := by
    have := arraycopyFrom_append (c.blocks.toList ++ c.metaData.toList) (c.blockLight.toList ++
      (c.dirtyTable.toList ++ (c.grassColor.toList ++ [0, 0, 0]))) c.skyLight
    simpa [saveToByteArray] using this
  have e4 : arraycopyFrom c.saveToByteArray 65536 16384 = .ok c.blockLight := by
    have := arraycopyFrom_append (c.blocks.toList ++ (c.metaData.toList ++ c.skyLight.toList))
      (c.dirtyTable.toList ++ (c.grassColor.toList ++ [0, 0, 0])) c.blockLight
    simpa [saveToByteArray] using this
  have e5 : arraycopyFrom c.saveToByteArray 81920 256 = .ok c.dirtyTable := by
    have := arraycopyFrom_append (c.blocks.toList ++ (c.metaData.toList ++ (c.skyLight.toList ++
      c.blockLight.toList))) (c.grassColor.toList ++ [0, 0, 0]) c.dirtyTable
    simpa [saveToByteArray] using this
  have e6 : arraycopyFrom c.saveToByteArray 82176 768 = .ok c.grassColor := by
    have := arraycopyFrom_append (c.blocks.toList ++ (c.metaData.toList ++ (c.skyLight.toList ++
      (c.blockLight.toList ++ c.dirtyTable.toList)))) [0, 0, 0] c.grassColor
    simpa [saveToByteArray] using this
  unfold loadFromByteArray
  rw [e1, e2, e3, e4, e5, e6]
  rfl

/-- A saved record holds the cells of the chunk. -/
theorem record_save (c : Chunk) {i : ℕ} (hi : i < 32768) :
    recordType c.saveToByteArray i = c.typeCell i ∧ recordData c.saveToByteArray i = c.dataCell i := by
  obtain ⟨c', hc', -, -, -, ht, hd⟩ := loadFromByteArray_spec (new 0 0)
    (show minRecord ≤ c.saveToByteArray.length by rw [length_saveToByteArray]; unfold minRecord; omega)
  rw [loadFromByteArray_save] at hc'
  obtain rfl := Except.ok.inj hc'
  exact ⟨(ht i hi).symm, (hd i hi).symm⟩

end Chunk

end WorldToPE
