import WorldToPE.Lib.IntRange

/-!
# WorldToPE.Geo.CuboidRegion — boxes of blocks

`geo/CuboidRegion.java`: a box is its corner and its size, in `int`s.  The three axes are treated alike,
so that each fact is stated once for an axis.

* `lies_createIntersection`: a cell of the intersection is a cell of both boxes.
* `isValid_createIntersection`: when the intersection of two boxes passes for a box.
* `isMeet_iff`: the boxes for which `createIntersection`, `isValid` and `contains` fit together.
-/

namespace WorldToPE

open Java

/-- The position of a block. -/
structure Pos where
  x : Int32
  y : Int32
  z : Int32
deriving DecidableEq, Repr

structure CuboidRegion where
  x : Int32
  y : Int32
  z : Int32
  width : Int32
  height : Int32
  length : Int32
deriving DecidableEq, Repr

namespace CuboidRegion

/-- Checks if the other box is fully contained in this one. -/
def contains (this other : CuboidRegion) : Bool :=
  other.x ≥ this.x && other.y ≥ this.y && other.z ≥ this.z &&
    other.x + other.width ≤ this.x + this.width &&
    other.y + other.height ≤ this.y + this.height &&
    other.z + other.length ≤ this.z + this.length

def createIntersection (this other : CuboidRegion) : CuboidRegion :=
  let iX := if this.x > other.x then this.x else other.x
  let iY := if this.y > other.y then this.y else other.y
  let iZ := if this.z > other.z then this.z else other.z
  let tSX := this.x + this.width
  let tSY := this.y + this.height
  let tSZ := this.z + this.length
  let oSX := other.x + other.width
  let oSY := other.y + other.height
  let oSZ := other.z + other.length
  let iSX := if tSX < oSX then tSX else oSX
  let iSY := if tSY < oSY then tSY else oSY
  let iSZ := if tSZ < oSZ then tSZ else oSZ
  ⟨iX, iY, iZ, iSX - iX, iSY - iY, iSZ - iZ⟩

/-- `isValid`: "are width, height, and depth positive?" -/
def isValid (this : CuboidRegion) : Bool := this.width ≥ 0 && this.height ≥ 0 && this.length ≥ 0

def getBlockCount (this : CuboidRegion) : Int32 := this.width * this.height * this.length

end CuboidRegion

/-! ## Axes -/

inductive Axis
  | x
  | y
  | z
deriving DecidableEq, Repr

theorem Axis.forall {p : Axis → Prop} : (∀ a, p a) ↔ p .x ∧ p .y ∧ p .z := by
  constructor
  · intro h
    exact ⟨h .x, h .y, h .z⟩
  · rintro ⟨hx, hy, hz⟩ a
    cases a
    exacts [hx, hy, hz]

def Pos.on (c : Pos) : Axis → Int32
  | .x => c.x
  | .y => c.y
  | .z => c.z

namespace CuboidRegion

variable (A B C : CuboidRegion)

def start : Axis → Int32
  | .x => A.x
  | .y => A.y
  | .z => A.z

def size : Axis → Int32
  | .x => A.width
  | .y => A.height
  | .z => A.length

/-- The far side of a box: the first coordinate behind it. -/
def far (a : Axis) : Int32 := A.start a + A.size a

/-- The cell lies in the box. -/
def Lies (c : Pos) : Prop := ∀ a, A.start a ≤ c.on a ∧ c.on a < A.far a

instance : DecidablePred A.Lies := fun _ => decidable_of_iff _ Axis.forall.symm

/-- All dimensions are positive. -/
def Positive : Prop := ∀ a, 0 < (A.size a).toInt

/-- The far corner fits in an `int`. -/
def Fits : Prop := ∀ a, (A.start a).toInt + (A.size a).toInt < 2 ^ 31

variable {A B C}

theorem contains_iff :
    A.contains C = true ↔ ∀ a, (A.start a).toInt ≤ (C.start a).toInt ∧ (C.far a).toInt ≤ (A.far a).toInt := by
  simp only [contains, Bool.and_eq_true, decide_eq_true_eq, ge_iff_le, Int32.le_iff_toInt_le,
    Axis.forall, far, start, size]
  tauto

theorem isValid_iff : A.isValid = true ↔ ∀ a, 0 ≤ (A.size a).toInt := by
  have h0 : (0 : Int32).toInt = 0 := rfl
  simp only [isValid, Bool.and_eq_true, decide_eq_true_eq, ge_iff_le, Int32.le_iff_toInt_le, h0,
    Axis.forall, size, and_assoc]

theorem lies_iff {c : Pos} : A.Lies c ↔
    ∀ a, (A.start a).toInt ≤ (c.on a).toInt ∧ (c.on a).toInt < (A.far a).toInt := by
  simp only [Lies, Int32.le_iff_toInt_le, Int32.lt_iff_toInt_lt]

theorem toInt_far (hfits : A.Fits) {a : Axis} (hsize : 0 ≤ (A.size a).toInt) :
    (A.far a).toInt = (A.start a).toInt + (A.size a).toInt := by
  have h1 := (A.start a).le_toInt
  exact toInt_add_of_fits (by omega) (hfits a)

/-! ## The intersection -/

/-- The extent of the common part on an axis, negative where there is a gap. -/
def overlap (A B : CuboidRegion) (a : Axis) : ℤ :=
  min (A.far a).toInt (B.far a).toInt - max (A.start a).toInt (B.start a).toInt

theorem start_createIntersection (a : Axis) :
    (A.createIntersection B).start a = meetStart (A.start a) (B.start a) := by
  cases a <;> rfl

theorem size_createIntersection (a : Axis) : (A.createIntersection B).size a =
    meetEnd (A.far a) (B.far a) - meetStart (A.start a) (B.start a) := by
  cases a <;> rfl

/-- The far side of the intersection, also where its size overflowed. -/
theorem far_createIntersection (a : Axis) :
    (A.createIntersection B).far a = meetEnd (A.far a) (B.far a) := by
  rw [far, start_createIntersection, size_createIntersection, add_sub_self]

/-- **Cells of the intersection** are the cells of both boxes. -/
theorem lies_createIntersection (c : Pos) : (A.createIntersection B).Lies c ↔ A.Lies c ∧ B.Lies c := by
  simp only [lies_iff, start_createIntersection, far_createIntersection, toInt_meetStart,
    toInt_meetEnd, max_le_iff, lt_min_iff, ← forall_and]
  refine forall_congr' fun a => ?_
  tauto

theorem contains_createIntersection :
    (A.createIntersection B).contains C = true ↔ A.contains C = true ∧ B.contains C = true := by
  simp only [contains_iff, start_createIntersection, far_createIntersection, toInt_meetStart,
    toInt_meetEnd, max_le_iff, le_min_iff, ← forall_and]
  refine forall_congr' fun a => ?_
  tauto

/-- Two boxes share a cell if they overlap on every axis. -/
theorem shares_iff : (∃ c, A.Lies c ∧ B.Lies c) ↔ ∀ a, 0 < A.overlap B a := by
  constructor
  · rintro ⟨c, hcA, hcB⟩ a
    have h1 := lies_iff.mp hcA a
    have h2 := lies_iff.mp hcB a
    unfold overlap
    omega
  · intro h
    refine ⟨⟨meetStart (A.start .x) (B.start .x), meetStart (A.start .y) (B.start .y),
      meetStart (A.start .z) (B.start .z)⟩, ?_⟩
    rw [← lies_createIntersection, lies_iff]
    intro a
    have hov := h a
    have hon : Pos.on ⟨meetStart (A.start .x) (B.start .x), meetStart (A.start .y) (B.start .y),
        meetStart (A.start .z) (B.start .z)⟩ a = meetStart (A.start a) (B.start a) := by
      cases a <;> rfl
    rw [hon, start_createIntersection, far_createIntersection, toInt_meetStart, toInt_meetEnd]
    unfold overlap at hov
    omega

/-- **When the intersection passes for a box**: on no axis is there a gap, other than one so wide that
the size overflows. -/
theorem isValid_createIntersection (hA : A.Positive) (hA' : A.Fits) :
    (A.createIntersection B).isValid = true ↔
      ∀ a, 0 ≤ A.overlap B a ∨ A.overlap B a < -2 ^ 31 := by
  rw [isValid_iff]
  refine forall_congr' fun a => ?_
  have hfar := toInt_far hA' (hA a).le
  have hsize := (A.size a).toInt_lt
  rw [size_createIntersection, nonneg_sub_iff, toInt_meetStart, toInt_meetEnd, overlap]
  · omega
  · rw [toInt_meetStart, toInt_meetEnd]
    omega

/-! ## The meet -/

/-- The intersection of `A` and `B` is what both share: cell by cell, as a box, and for the box `C`. -/
structure IsMeet (A B C : CuboidRegion) : Prop where
  lies : ∀ c, (A.createIntersection B).Lies c ↔ A.Lies c ∧ B.Lies c
  valid : (A.createIntersection B).isValid = true ↔ ∃ c, A.Lies c ∧ B.Lies c
  contains : A.contains C = true ∧ B.contains C = true ↔
    (A.createIntersection B).isValid = true ∧ (A.createIntersection B).contains C = true

/-- On some axis there is a gap between the boxes, and its width is a number that an `int` can hold. -/
def Apart (A B : CuboidRegion) : Prop := ∃ a, -2 ^ 31 ≤ A.overlap B a ∧ A.overlap B a < 0

/-- As `int`s, the corners of `C` lie between the later start and the nearer far side of `A` and `B`. -/
def Between (A B C : CuboidRegion) : Prop := ∀ a,
  max (A.start a).toInt (B.start a).toInt ≤ (C.start a).toInt ∧
    (C.far a).toInt ≤ min (A.far a).toInt (B.far a).toInt

/-- A box whose far corner fits is never between boxes that are apart. -/
theorem not_between_of_fits (h : A.Apart B) (hC : C.Positive) (hC' : C.Fits) : ¬ A.Between B C := by
  intro hb
  obtain ⟨a, -, hgap⟩ := h
  have hba := hb a
  have hfar := toInt_far hC' (hC a).le
  have hpos := hC a
  unfold overlap at hgap
  omega

theorem between_iff : A.Between B C ↔ A.contains C = true ∧ B.contains C = true := by
  rw [← contains_createIntersection, contains_iff, Between]
  simp only [start_createIntersection, far_createIntersection, toInt_meetStart, toInt_meetEnd]

/-- **The intersection is the meet** of two boxes if and only if they share a cell, or are apart and `C`
is not between them through an overflow. -/
theorem isMeet_iff (A B C : CuboidRegion) (hA : A.Positive) (hA' : A.Fits) :
    IsMeet A B C ↔ (∀ a, 0 < A.overlap B a) ∨ A.Apart B ∧ ¬ A.Between B C := by
  have hvalid := isValid_createIntersection (B := B) hA hA'
  have hshares := shares_iff (A := A) (B := B)
  have hcontains := contains_createIntersection (A := A) (B := B) (C := C)
  constructor
  · intro h
    by_cases hov : ∀ a, 0 < A.overlap B a
    · exact Or.inl hov
    · right
      have hnot : ¬ (A.createIntersection B).isValid = true := by
        rw [h.valid, hshares]
        exact hov
      constructor
      · rw [hvalid] at hnot
        obtain ⟨a, ha⟩ := not_forall.mp hnot
        exact ⟨a, by omega⟩
      · rw [between_iff, h.contains]
        exact fun hb => hnot hb.1
  · rintro (hov | ⟨⟨a, ha⟩, hb⟩)
    · have hyes : (A.createIntersection B).isValid = true := hvalid.mpr fun a => Or.inl (hov a).le
      refine ⟨lies_createIntersection, ⟨fun _ => hshares.mpr hov, fun _ => hyes⟩, ?_⟩
      rw [hcontains]
      exact ⟨fun h => ⟨hyes, h⟩, And.right⟩
    · have hnot : ¬ (A.createIntersection B).isValid = true := by
        rw [hvalid]
        intro h
        have ha' := h a
        omega
      refine ⟨lies_createIntersection, ⟨fun h => absurd h hnot, fun h => ?_⟩, ?_⟩
      · have hov := hshares.mp h a
        omega
      · rw [between_iff] at hb
        exact ⟨fun h => absurd h hb, fun h => absurd h.1 hnot⟩

/-- Two boxes that overlap in a corner. -/
theorem isMeet_corner : IsMeet ⟨0, 0, 0, 2, 2, 2⟩ ⟨1, 1, 1, 2, 2, 2⟩ ⟨1, 1, 1, 1, 1, 1⟩ := by
  refine (isMeet_iff _ _ _ ?_ ?_).mpr (Or.inl ?_) <;> intro a <;> cases a <;> decide

/-- Two boxes that touch share no cell, but their intersection passes for a box. -/
theorem not_isMeet_touching :
    Positive ⟨0, 0, 0, 1, 1, 1⟩ ∧ Fits ⟨0, 0, 0, 1, 1, 1⟩ ∧ Positive ⟨1, 0, 0, 1, 1, 1⟩ ∧
      Fits ⟨1, 0, 0, 1, 1, 1⟩ ∧ ¬ IsMeet ⟨0, 0, 0, 1, 1, 1⟩ ⟨1, 0, 0, 1, 1, 1⟩ ⟨0, 0, 0, 1, 1, 1⟩ := by
  refine ⟨?_, ?_, ?_, ?_, fun h => ?_⟩
  iterate 4 exact fun a => by cases a <;> decide
  obtain ⟨c, h1, h2⟩ := h.valid.mp (by decide)
  have hx1 := (lies_iff.mp h1 .x).2
  have hx2 := (lies_iff.mp h2 .x).1
  exact absurd (hx2.trans_lt hx1) (by decide)

end CuboidRegion

end WorldToPE
