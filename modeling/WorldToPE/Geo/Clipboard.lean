import WorldToPE.Geo.GeoLoops

/-!
# WorldToPE.Geo.Clipboard — boxes of blocks in two arrays

`geo/CuboidClipboard.java`: the blocks of a box, one byte for the type and one for the data of each cell,
row by row.  A byte is read back with its sign.

* `getOffset_inj`, `toInt_getOffset`: the offsets of the cells of the box are distinct indices of the arrays.
* `clipboardLaws`: a clipboard is a map of blocks on its box.
-/

namespace WorldToPE

open Java Run

structure CuboidClipboard where
  blocks : List UInt8
  metaData : List UInt8
  width : Int32
  height : Int32
  length : Int32
deriving DecidableEq, Repr

namespace CuboidClipboard

abbrev M := EStateM Exn CuboidClipboard

def getOffset (this : CuboidClipboard) (x y z : Int32) : Int32 :=
  this.width * y * this.length + this.width * z + x

def getBlockTypeId (x y z : Int32) : M Int32 := do
  let this ← get
  let b ← lift (lget this.blocks (this.getOffset x y z))
  return widen b

def setBlockTypeId (x y z type : Int32) : M Unit := do
  let this ← get
  let blocks ← lift (lput this.blocks (this.getOffset x y z) (narrow type))
  set { this with blocks := blocks }

def getBlockData (x y z : Int32) : M Int32 := do
  let this ← get
  let b ← lift (lget this.metaData (this.getOffset x y z))
  return widen b

def setBlockData (x y z type : Int32) : M Unit := do
  let this ← get
  let metaData ← lift (lput this.metaData (this.getOffset x y z) (narrow type))
  set { this with metaData := metaData }

def clipboardArea : AreaBlockAccess CuboidClipboard where
  getBlockTypeId := getBlockTypeId
  getBlockData := getBlockData
  setBlockTypeId := setBlockTypeId
  setBlockData := setBlockData

/-- `place`, into another area. -/
def place {σ : Type} (world : AreaBlockAccess σ) (startPoint : Vector3f) (noAir : Bool) :
    EStateM Exn (σ × CuboidClipboard) Unit := do
  let beginX := startPoint.x.toInt32
  let beginY := startPoint.y.toInt32
  let beginZ := startPoint.z.toInt32
  let this := (← get).2
  for x in intRange 0 this.width do
    for z in intRange 0 this.length do
      for y in intRange 0 this.height do
        let blockId ← onSnd (getBlockTypeId x y z)
        if noAir = false ∨ blockId ≠ 0 then
          let data ← onSnd (getBlockData x y z)
          onFst (world.setBlockTypeId (beginX + x) (beginY + y) (beginZ + z) blockId)
          onFst (world.setBlockData (beginX + x) (beginY + y) (beginZ + z) data)

/-- `copy`, out of another area. -/
def copy {σ : Type} (world : AreaBlockAccess σ) (startPoint : Vector3f) :
    EStateM Exn (σ × CuboidClipboard) Unit := do
  let beginX := startPoint.getBlockX
  let beginY := startPoint.getBlockY
  let beginZ := startPoint.getBlockZ
  let this := (← get).2
  for x in intRange 0 this.width do
    for z in intRange 0 this.length do
      for y in intRange 0 this.height do
        let blockId ← onFst (world.getBlockTypeId (beginX + x) (beginY + y) (beginZ + z))
        let data ← onFst (world.getBlockData (beginX + x) (beginY + y) (beginZ + z))
        onSnd (setBlockTypeId x y z blockId)
        onSnd (setBlockData x y z data)

/-! ## Offsets -/

section Rows

/-- The index of column `x` in row `z`. -/
theorem row_bounds {w l x z : ℤ} (hx : 0 ≤ x ∧ x < w) (hz : 0 ≤ z ∧ z < l) :
    0 ≤ w * z + x ∧ w * z + x < w * l := by
  constructor
  · have h : 0 ≤ w * z := mul_nonneg (by omega) hz.1
    omega
  · have h : w * (z + 1) ≤ w * l := mul_le_mul_of_nonneg_left (by omega) (by omega)
    rw [mul_add, mul_one] at h
    omega

theorem row_inj {w x z x' z' : ℤ} (hx : 0 ≤ x ∧ x < w) (hx' : 0 ≤ x' ∧ x' < w)
    (h : w * z + x = w * z' + x') : z = z' ∧ x = x' := by
  have hdiv : ∀ {u v : ℤ}, 0 ≤ u ∧ u < w → (w * v + u) / w = v := by
    intro u v hu
    rw [Int.mul_add_ediv_left _ _ (by omega), Int.ediv_eq_zero_of_lt hu.1 hu.2, add_zero]
  have hz : z = z' := by rw [← hdiv (v := z) hx, h, hdiv hx']
  subst hz
  exact ⟨rfl, by omega⟩

end Rows

/-- The box of the clipboard. -/
def box (this : CuboidClipboard) : CuboidRegion := ⟨0, 0, 0, this.width, this.height, this.length⟩

/-- Both arrays have one byte for each cell of the box, as many as an array can have. -/
structure Sized (this : CuboidClipboard) : Prop where
  positive : this.box.Positive
  blocks : (this.blocks.length : ℤ) = this.width.toInt * this.height.toInt * this.length.toInt
  metaData : this.metaData.length = this.blocks.length
  fits : this.blocks.length < 2 ^ 31

theorem lies_box {this : CuboidClipboard} {c : Pos} : this.box.Lies c ↔
    (0 ≤ c.x.toInt ∧ c.x.toInt < this.width.toInt) ∧ (0 ≤ c.y.toInt ∧ c.y.toInt < this.height.toInt) ∧
      0 ≤ c.z.toInt ∧ c.z.toInt < this.length.toInt := by
  have h0 : (0 : Int32).toInt = 0 := rfl
  rw [CuboidRegion.lies_iff, Axis.forall]
  simp only [CuboidRegion.far, CuboidRegion.start, CuboidRegion.size, box, Pos.on, h0, Int32.zero_add]

section Offset

variable {this : CuboidClipboard} (hs : this.Sized)
include hs

/-- The offset of a cell, without overflow. -/
theorem toInt_getOffset {c : Pos} (hc : this.box.Lies c) :
    (this.getOffset c.x c.y c.z).toInt =
      this.width.toInt * this.length.toInt * c.y.toInt + (this.width.toInt * c.z.toInt + c.x.toInt) ∧
    0 ≤ (this.getOffset c.x c.y c.z).toInt ∧
    (this.getOffset c.x c.y c.z).toInt < this.blocks.length := by
  obtain ⟨hx, hy, hz⟩ := lies_box.mp hc
  obtain ⟨h1, h2⟩ := row_bounds hx hz
  obtain ⟨h3, h4⟩ := row_bounds ⟨h1, h2⟩ hy
  have hlen := hs.blocks
  have hfits := hs.fits
  have hvolume : this.width.toInt * this.length.toInt * this.height.toInt = this.blocks.length := by
    rw [hlen]
    ring
  have hyl : 0 ≤ this.width.toInt * c.y.toInt := mul_nonneg (by omega) hy.1
  have hzl : 0 ≤ this.width.toInt * c.z.toInt := mul_nonneg (by omega) hz.1
  have hwy : this.width.toInt * c.y.toInt ≤ this.width.toInt * c.y.toInt * this.length.toInt :=
    le_mul_of_one_le_right hyl (by omega)
  have hlayers : this.width.toInt * c.y.toInt * this.length.toInt =
      this.width.toInt * this.length.toInt * c.y.toInt := by ring
  have e1 : (this.width * c.y).toInt = this.width.toInt * c.y.toInt :=
    toInt_mul_of_fits (by omega) (by omega)
  have e2 : (this.width * c.y * this.length).toInt =
      this.width.toInt * this.length.toInt * c.y.toInt := by
    rw [toInt_mul_of_fits, e1, hlayers] <;> rw [e1, hlayers] <;> omega
  have e3 : (this.width * c.z).toInt = this.width.toInt * c.z.toInt :=
    toInt_mul_of_fits (by omega) (by omega)
  have e4 : (this.width * c.y * this.length + this.width * c.z).toInt =
      this.width.toInt * this.length.toInt * c.y.toInt + this.width.toInt * c.z.toInt := by
    rw [toInt_add_of_fits, e2, e3] <;> rw [e2, e3] <;> omega
  have e5 : (this.getOffset c.x c.y c.z).toInt = this.width.toInt * this.length.toInt * c.y.toInt +
      (this.width.toInt * c.z.toInt + c.x.toInt) := by
    rw [getOffset, toInt_add_of_fits, e4, add_assoc] <;> rw [e4] <;> omega
  exact ⟨e5, by omega, by omega⟩

/-- Cells of the box have their own offsets. -/
theorem getOffset_inj {c d : Pos} (hc : this.box.Lies c) (hd : this.box.Lies d)
    (h : this.getOffset c.x c.y c.z = this.getOffset d.x d.y d.z) : c = d := by
  have h' := congrArg Int32.toInt h
  rw [(toInt_getOffset hs hc).1, (toInt_getOffset hs hd).1] at h'
  obtain ⟨hx, hy, hz⟩ := lies_box.mp hc
  obtain ⟨hx', hy', hz'⟩ := lies_box.mp hd
  obtain ⟨ey, h'⟩ := row_inj (row_bounds hx hz) (row_bounds hx' hz') h'
  obtain ⟨ez, ex⟩ := row_inj hx hx' h'
  cases c
  cases d
  simp_all [Int32.toInt_inj]

end Offset

/-! ## The clipboard as a map of blocks -/

/-- The byte at an offset, as the readers show it. -/
def byteOf (bytes : List UInt8) (i : Int32) : Int32 := widen (bytes.getD i.toInt.toNat 0)

def blockAt (this : CuboidClipboard) (c : Pos) : Block :=
  if this.box.Lies c then
    ⟨byteOf this.blocks (this.getOffset c.x c.y c.z), byteOf this.metaData (this.getOffset c.x c.y c.z)⟩
  else ⟨0, 0⟩

theorem byteOf_set {bytes : List UInt8} {i j : Int32} (hi : 0 ≤ i.toInt ∧ i.toInt < bytes.length)
    (hj : 0 ≤ j.toInt) (b : UInt8) :
    byteOf (bytes.set i.toInt.toNat b) j = if i = j then widen b else byteOf bytes j := by
  unfold byteOf
  rw [List.getD_eq_getElem?_getD, List.getElem?_set, List.getD_eq_getElem?_getD]
  by_cases h : i = j
  · subst h
    rw [if_pos rfl, if_pos (by omega), if_pos rfl, Option.getD_some]
  · have hne : i.toInt.toNat ≠ j.toInt.toNat := by
      intro heq
      exact h (Int32.toInt_inj.mp (by omega))
    rw [if_neg hne, if_neg h]

theorem lget_byteOf {bytes : List UInt8} {i : Int32} (h : 0 ≤ i.toInt ∧ i.toInt < bytes.length) :
    ∃ b, lget bytes i = .ok b ∧ widen b = byteOf bytes i := by
  have hlt : i.toInt.toNat < bytes.length := by omega
  refine ⟨bytes[i.toInt.toNat], lget_of_toInt (Int.toNat_of_nonneg h.1).symm hlt, ?_⟩
  rw [byteOf, List.getD_eq_getElem?_getD, List.getElem?_eq_getElem hlt, Option.getD_some]

/-- A clipboard that differs in the block at one cell. -/
theorem blockAt_written {this : CuboidClipboard} {c : Pos} (hc : this.box.Lies c)
    (this' : CuboidClipboard) (hbox : this'.box = this.box) (hoff : this'.getOffset = this.getOffset)
    {b : Block} (h : ∀ d, this.box.Lies d → Block.mk (byteOf this'.blocks (this.getOffset d.x d.y d.z))
      (byteOf this'.metaData (this.getOffset d.x d.y d.z)) = if d = c then b else this.blockAt d)
    (d : Pos) : this'.blockAt d = if d = c then b else this.blockAt d := by
  by_cases hd : this.box.Lies d
  · rw [← h d hd, blockAt, hbox, if_pos hd, hoff]
  · have hdc : d ≠ c := by
      rintro rfl
      exact hd hc
    rw [blockAt, hbox, if_neg hd, if_neg hdc, blockAt, if_neg hd]

section Access

variable {this : CuboidClipboard} (hs : this.Sized) {c : Pos} (hc : this.box.Lies c)
include hs hc

theorem getBlockTypeId_ok : getBlockTypeId c.x c.y c.z this = .ok (this.blockAt c).type this := by
  obtain ⟨-, h⟩ := toInt_getOffset hs hc
  obtain ⟨b, hb, hw⟩ := lget_byteOf h
  rw [getBlockTypeId, bind_of_ok (get_apply this), bind_of_ok (lift_of_ok hb this), blockAt, if_pos hc,
    hw]
  rfl

theorem getBlockData_ok : getBlockData c.x c.y c.z this = .ok (this.blockAt c).data this := by
  obtain ⟨-, h⟩ := toInt_getOffset hs hc
  rw [← hs.metaData] at h
  obtain ⟨b, hb, hw⟩ := lget_byteOf h
  rw [getBlockData, bind_of_ok (get_apply this), bind_of_ok (lift_of_ok hb this), blockAt, if_pos hc,
    hw]
  rfl

/-- A byte written at a cell is read at this cell, and no other changes. -/
theorem byteOf_written {bytes : List UInt8} (hbytes : bytes.length = this.blocks.length) (b : UInt8)
    {c' : Pos} (hc' : this.box.Lies c') :
    byteOf (bytes.set (this.getOffset c.x c.y c.z).toInt.toNat b) (this.getOffset c'.x c'.y c'.z) =
      if c' = c then widen b else byteOf bytes (this.getOffset c'.x c'.y c'.z) := by
  have h := (toInt_getOffset hs hc).2
  rw [← hbytes] at h
  have hsame : this.getOffset c.x c.y c.z = this.getOffset c'.x c'.y c'.z ↔ c' = c := by
    constructor
    · intro heq
      exact (getOffset_inj hs hc hc' heq).symm
    · rintro rfl
      rfl
  rw [byteOf_set h (toInt_getOffset hs hc').2.1]
  simp only [hsame]

theorem setBlockTypeId_ok (type : Int32) : ∃ this', setBlockTypeId c.x c.y c.z type this = .ok () this' ∧
    (this'.box = this.box ∧ this'.Sized) ∧ ∀ d, this'.blockAt d =
      if d = c then { this.blockAt c with type := widen (narrow type) } else this.blockAt d := by
  obtain ⟨-, h⟩ := toInt_getOffset hs hc
  have hput := lput_of_toInt (narrow type) (Int.toNat_of_nonneg h.1).symm
    (show _ < this.blocks.length by omega)
  set this' : CuboidClipboard := { this with
    blocks := this.blocks.set (this.getOffset c.x c.y c.z).toInt.toNat (narrow type) } with hthis'
  have hset : setBlockTypeId c.x c.y c.z type this = .ok () this' := by
    rw [setBlockTypeId, bind_of_ok (get_apply this), bind_of_ok (lift_of_ok hput this), set_apply]
  refine ⟨this', hset, ⟨rfl, ⟨hs.positive, ?_, ?_, ?_⟩⟩, blockAt_written hc this' rfl rfl fun d hd => ?_⟩
  · simpa [hthis'] using hs.blocks
  · simpa [hthis'] using hs.metaData
  · simpa [hthis'] using hs.fits
  · rw [hthis', byteOf_written hs hc rfl (narrow type) hd, blockAt, if_pos hc, blockAt, if_pos hd]
    by_cases hdc : d = c
    · rw [if_pos hdc, if_pos hdc, hdc]
    · rw [if_neg hdc, if_neg hdc]

theorem setBlockData_ok (data : Int32) : ∃ this', setBlockData c.x c.y c.z data this = .ok () this' ∧
    (this'.box = this.box ∧ this'.Sized) ∧ ∀ d, this'.blockAt d =
      if d = c then { this.blockAt c with data := widen (narrow data) } else this.blockAt d := by
  obtain ⟨-, h⟩ := toInt_getOffset hs hc
  rw [← hs.metaData] at h
  have hput := lput_of_toInt (narrow data) (Int.toNat_of_nonneg h.1).symm
    (show _ < this.metaData.length by omega)
  set this' : CuboidClipboard := { this with
    metaData := this.metaData.set (this.getOffset c.x c.y c.z).toInt.toNat (narrow data) } with hthis'
  have hset : setBlockData c.x c.y c.z data this = .ok () this' := by
    rw [setBlockData, bind_of_ok (get_apply this), bind_of_ok (lift_of_ok hput this), set_apply]
  refine ⟨this', hset, ⟨rfl, ⟨hs.positive, hs.blocks, ?_, hs.fits⟩⟩,
    blockAt_written hc this' rfl rfl fun d hd => ?_⟩
  · simpa [hthis'] using hs.metaData
  · rw [hthis', byteOf_written hs hc hs.metaData (narrow data) hd, blockAt, if_pos hc, blockAt, if_pos hd]
    by_cases hdc : d = c
    · rw [if_pos hdc, if_pos hdc, hdc]
    · rw [if_neg hdc, if_neg hdc]

end Access

/-- **A clipboard with the box `R` is a map of blocks** on it: both numbers are kept as signed bytes. -/
def clipboardLaws (R : CuboidRegion) : AreaLaws clipboardArea where
  Valid this := this.box = R ∧ this.Sized
  blocks := blockAt
  InArea c := R.Lies c
  Kept _ := True
  keptType type := widen (narrow type)
  keptData data := widen (narrow data)
  getBlockTypeId {this} h c hc := by
    obtain ⟨rfl, hs⟩ := h
    exact ⟨this, getBlockTypeId_ok hs hc, ⟨rfl, hs⟩, rfl⟩
  getBlockData {this} h c hc := by
    obtain ⟨rfl, hs⟩ := h
    exact ⟨this, getBlockData_ok hs hc, ⟨rfl, hs⟩, rfl⟩
  setBlockTypeId {this} h c hc type := by
    obtain ⟨rfl, hs⟩ := h
    obtain ⟨this', h1, h2, h3⟩ := setBlockTypeId_ok hs hc type
    exact ⟨this', h1, h2, fun d => (h3 d).trans (if_congr (and_iff_left trivial).symm rfl rfl)⟩
  setBlockData {this} h c hc data := by
    obtain ⟨rfl, hs⟩ := h
    obtain ⟨this', h1, h2, h3⟩ := setBlockData_ok hs hc data
    exact ⟨this', h1, h2, fun d => (h3 d).trans (if_congr (and_iff_left trivial).symm rfl rfl)⟩

end CuboidClipboard

end WorldToPE
