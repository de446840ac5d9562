import WorldToPE.Geo.Shapes

/-!
# WorldToPE.Geo.Pyramid — pyramids

`makePyramid`.  Its layers are squares.  The test for a hollow pyramid takes one row more on the negative
sides (`x <= -sh + 1`) than on the positive ones (`x >= sh`), so that the hull is two blocks thick there.

* `mem_pyramidCells`: the cells that are visited.
* `exists_doubled_iff`: the second rows that are set too many.
* `pyramid_exact_iff`: when a pyramid is exact: if it is solid, or has no inside.
-/

namespace WorldToPE.GeoUtils

open Java Run ChunkManager

/-- The coordinates of the bottom layer exist. -/
def InSpan (center height : Int32) : Prop :=
  -2 ^ 31 ≤ center.toInt - (height.toInt - 1) ∧ center.toInt + (height.toInt - 1) < 2 ^ 31

/-- The offsets of a layer of half-width `s`, or of its border. -/
def InLayer (s dx dz : ℤ) (hollow : Bool) : Prop :=
  |dx| < s ∧ |dz| < s ∧ (hollow = true → max |dx| |dz| = s - 1)

def Pyramid (centerX centerY centerZ height : Int32) (hollow : Bool) (c : Pos) : Prop :=
  centerY.toInt ≤ c.y.toInt ∧ c.y.toInt ≤ centerY.toInt + height.toInt ∧
    InLayer (height.toInt - (c.y.toInt - centerY.toInt)) (c.x.toInt - centerX.toInt)
      (c.z.toInt - centerZ.toInt) hollow

/-- The second row on a negative side of a layer, without the border. -/
def SecondRow (s dx dz : ℤ) : Prop := |dx| < s - 1 ∧ |dz| < s - 1 ∧ (dx = 2 - s ∨ dz = 2 - s)

/-- The cells inside a hollow pyramid that are set all the same. -/
def Doubled (centerX centerY centerZ height : Int32) (c : Pos) : Prop :=
  centerY.toInt ≤ c.y.toInt ∧ SecondRow (height.toInt - (c.y.toInt - centerY.toInt))
    (c.x.toInt - centerX.toInt) (c.z.toInt - centerZ.toInt)

/-- The test of a layer. -/
theorem onLayer_iff {s x z : Int32} (hs : 1 ≤ s.toInt) (hollow : Bool) : OnLayer s x z hollow ↔
    hollow = false ∨ x.toInt ≤ 2 - s.toInt ∨ s.toInt - 1 ≤ x.toInt ∨ z.toInt ≤ 2 - s.toInt ∨
      s.toInt - 1 ≤ z.toInt := by
  have hone : (1 : Int32).toInt = 1 := rfl
  have hlt := s.toInt_lt
  have e1 : (s - 1).toInt = s.toInt - 1 := by
    rw [Int32.toInt_sub, hone]
    exact Int.bmod_eq_of_le (by omega) (by omega)
  have hneg : (-(s - 1)).toInt = 1 - s.toInt := by
    rw [toInt_neg_of_nonneg (by omega), e1]
    omega
  have e2 : (-(s - 1) + 1).toInt = 2 - s.toInt := by
    rw [toInt_add_of_fits (by omega) (by omega), hneg, hone]
    omega
  show hollow = false ∨ x ≤ -(s - 1) + 1 ∨ x ≥ s - 1 ∨ z ≤ -(s - 1) + 1 ∨ z ≥ s - 1 ↔ _
  rw [ge_iff_le, ge_iff_le, Int32.le_iff_toInt_le, Int32.le_iff_toInt_le, Int32.le_iff_toInt_le,
    Int32.le_iff_toInt_le, e1, e2]

/-- What the test takes of a layer: the layer itself if it is solid, else the border and the second rows. -/
theorem layer_iff {s x z : ℤ} (hollow : Bool) :
    ((-s + 1 ≤ x ∧ x < s) ∧ (-s + 1 ≤ z ∧ z < s) ∧
      (hollow = false ∨ x ≤ 2 - s ∨ s - 1 ≤ x ∨ z ≤ 2 - s ∨ s - 1 ≤ z)) ↔
      InLayer s x z hollow ∨ hollow = true ∧ SecondRow s x z := by
  unfold InLayer SecondRow
  -- without absolute values everything is linear
  rcases abs_cases x with ⟨hx, hx'⟩ | ⟨hx, hx'⟩ <;> rcases abs_cases z with ⟨hz, hz'⟩ | ⟨hz, hz'⟩ <;>
    rw [hx, hz] <;> cases hollow <;> simp only [Bool.false_eq_true, Bool.true_eq_false, false_or, true_or,
      and_true, false_implies, true_implies, false_and, true_and, or_false] <;> omega

section Cells

variable {centerX centerY centerZ height : Int32}

/-- The cells of one layer that are visited. -/
theorem mem_layer {s : Int32} (hs : 1 ≤ s.toInt)
    (hx : -2 ^ 31 ≤ centerX.toInt - (s.toInt - 1) ∧ centerX.toInt + (s.toInt - 1) < 2 ^ 31)
    (hz : -2 ^ 31 ≤ centerZ.toInt - (s.toInt - 1) ∧ centerZ.toInt + (s.toInt - 1) < 2 ^ 31)
    (hollow : Bool) (x z : Int32) :
    (((-s + 1).toInt ≤ (x - centerX).toInt ∧ (x - centerX).toInt < s.toInt) ∧
      ((-s + 1).toInt ≤ (z - centerZ).toInt ∧ (z - centerZ).toInt < s.toInt) ∧
      OnLayer s (x - centerX) (z - centerZ) hollow) ↔
      InLayer s.toInt (x.toInt - centerX.toInt) (z.toInt - centerZ.toInt) hollow ∨
        hollow = true ∧ SecondRow s.toInt (x.toInt - centerX.toInt) (z.toInt - centerZ.toInt) := by
  have hone : (1 : Int32).toInt = 1 := rfl
  have hlt := s.toInt_lt
  have hneg := toInt_neg_of_nonneg (show 0 ≤ s.toInt by omega)
  have elo : (-s + 1).toInt = -s.toInt + 1 := by
    rw [toInt_add_of_fits (by omega) (by omega), hneg, hone]
  have ex := toInt_sub_of_range (a := centerX) (c := x) (show _ ≤ _ + (-s.toInt + 1) by omega)
    (show _ + s.toInt ≤ _ by omega) (by omega)
  have ez := toInt_sub_of_range (a := centerZ) (c := z) (show _ ≤ _ + (-s.toInt + 1) by omega)
    (show _ + s.toInt ≤ _ by omega) (by omega)
  rw [onLayer_iff hs, elo, ← layer_iff]
  constructor
  · rintro ⟨bx, bz, htest⟩
    have hx' := ex (Or.inl bx)
    have hz' := ez (Or.inl bz)
    rw [hx'] at bx htest
    rw [hz'] at bz htest
    exact ⟨bx, bz, htest⟩
  · rintro ⟨bx, bz, htest⟩
    rw [ex (Or.inr bx), ez (Or.inr bz)]
    exact ⟨bx, bz, htest⟩

/-- The layer of a cell is the only one that can have it. -/
theorem mem_pyramidCells_layer (htop : (height + 1).toInt = height.toInt + 1) (hollow : Bool) {c : Pos}
    {dy : Int32} (hdy : c.y - centerY = dy) :
    c ∈ (pyramidCells height hollow).map (offset centerX centerY centerZ) ↔
      (0 ≤ dy.toInt ∧ dy.toInt < height.toInt + 1) ∧
        ((-(height - dy) + 1).toInt ≤ (c.x - centerX).toInt ∧ (c.x - centerX).toInt < (height - dy).toInt) ∧
        ((-(height - dy) + 1).toInt ≤ (c.z - centerZ).toInt ∧ (c.z - centerZ).toInt < (height - dy).toInt) ∧
        OnLayer (height - dy) (c.x - centerX) (c.z - centerZ) hollow := by
  have hzero : (0 : Int32).toInt = 0 := rfl
  rw [mem_map_offset, pyramidCells, List.mem_filter, List.mem_flatMap, decide_eq_true_eq, hdy]
  simp only [mem_grid, mem_intRange, List.mem_singleton, hzero, htop]
  constructor
  · rintro ⟨⟨y, hlayer, bx, bz, rfl⟩, htest⟩
    exact ⟨hlayer, bx, bz, htest⟩
  · rintro ⟨hlayer, bx, bz, htest⟩
    exact ⟨⟨dy, hlayer, bx, bz, rfl⟩, htest⟩

/-- **The cells that `makePyramid` visits**: the pyramid and, if it is hollow, the second rows. -/
theorem mem_pyramidCells (h0 : 0 ≤ height.toInt) (hmax : height.toInt + 1 < 2 ^ 31)
    (hx : InSpan centerX height) (hy : centerY.toInt + height.toInt < 2 ^ 31)
    (hz : InSpan centerZ height) (hollow : Bool) (c : Pos) :
    c ∈ (pyramidCells height hollow).map (offset centerX centerY centerZ) ↔
      Pyramid centerX centerY centerZ height hollow c ∨
        hollow = true ∧ Doubled centerX centerY centerZ height c := by
  have hone : (1 : Int32).toInt = 1 := rfl
  have hzero : (0 : Int32).toInt = 0 := rfl
  have htop : (height + 1).toInt = height.toInt + 1 := by
    rw [toInt_add_of_fits] <;> rw [hone] <;> omega
  have hcy := centerY.le_toInt
  have ey := toInt_sub_of_range (a := centerY) (c := c.y) (show _ ≤ _ + 0 by omega)
    (show _ + (height.toInt + 1) ≤ _ by omega) (by omega)
  set dy := c.y - centerY with hdy
  rw [mem_pyramidCells_layer htop hollow hdy.symm]
  unfold InSpan at hx hz
  by_cases hd : 0 ≤ c.y.toInt - centerY.toInt ∧ c.y.toInt - centerY.toInt < height.toInt + 1
  · have hey := ey (Or.inr hd)
    have hsub : (height - dy).toInt = height.toInt - (c.y.toInt - centerY.toInt) := by
      rw [Int32.toInt_sub, hey]
      exact Int.bmod_eq_of_le (by omega) (by omega)
    have hbottom : centerY.toInt ≤ c.y.toInt := by omega
    have htop : c.y.toInt ≤ centerY.toInt + height.toInt := by omega
    by_cases hs : 1 ≤ (height - dy).toInt
    · rw [mem_layer hs (by omega) (by omega) hollow c.x c.z, hsub, hey]
      simp only [Pyramid, Doubled, hbottom, htop, hd, true_and, and_self]
    · -- the top layer is empty
      have hzero' : height - dy = 0 := Int32.toInt_inj.mp (by rw [hzero]; omega)
      have hrange : ¬ ((-(0 : Int32) + 1).toInt ≤ (c.x - centerX).toInt ∧
          (c.x - centerX).toInt < (0 : Int32).toInt) := by
        have hneg : (-(0 : Int32) + 1).toInt = 1 := rfl
        omega
      have hnot : ∀ w : ℤ, ¬ |w| < height.toInt - (c.y.toInt - centerY.toInt) := by
        intro w hw
        have h := abs_nonneg w
        omega
      have hnot' : ∀ w : ℤ, ¬ |w| < height.toInt - (c.y.toInt - centerY.toInt) - 1 := by
        intro w hw
        have h := abs_nonneg w
        omega
      rw [hzero']
      simp only [hrange, Pyramid, Doubled, InLayer, SecondRow, hnot, hnot', false_and, and_false, or_self]
  · have hnot : ¬ (0 ≤ dy.toInt ∧ dy.toInt < height.toInt + 1) := by
      intro h
      rw [ey (Or.inl h)] at h
      exact hd h
    simp only [hnot, false_and, false_iff, not_or]
    constructor
    · rintro ⟨h1, h2, -⟩
      omega
    · rintro ⟨-, h1, h2, -⟩
      have h := abs_nonneg (c.x.toInt - centerX.toInt)
      omega

end Cells

/-- The second rows are not part of a hollow pyramid. -/
theorem not_pyramid_of_doubled {centerX centerY centerZ height : Int32} {c : Pos}
    (h : Doubled centerX centerY centerZ height c) :
    ¬ Pyramid centerX centerY centerZ height true c := by
  obtain ⟨-, hx, hz, -⟩ := h
  rintro ⟨-, -, -, -, hborder⟩
  exact (max_lt hx hz).ne (hborder rfl)

/-- There are second rows if and only if the bottom layer has an inside. -/
theorem exists_doubled_iff {centerX centerY centerZ height : Int32} (h0 : 0 ≤ height.toInt)
    (hx : InSpan centerX height) (hz : InSpan centerZ height) :
    (∃ c, Doubled centerX centerY centerZ height c) ↔ 2 ≤ height.toInt := by
  constructor
  · rintro ⟨c, hy, h, -⟩
    have habs := abs_nonneg (c.x.toInt - centerX.toInt)
    omega
  · intro h2
    have htwo : (2 : Int32).toInt = 2 := rfl
    have hlt := height.toInt_lt
    have hsub : (2 - height).toInt = 2 - height.toInt := by
      rw [Int32.toInt_sub, htwo]
      exact Int.bmod_eq_of_le (by omega) (by omega)
    have hrow : ∀ a : Int32, InSpan a height → (a + (2 - height)).toInt - a.toInt = 2 - height.toInt := by
      intro a ha
      unfold InSpan at ha
      rw [toInt_add_of_fits (by omega) (by omega), hsub]
      omega
    have habs : |2 - height.toInt| < height.toInt - 1 := abs_lt.mpr ⟨by omega, by omega⟩
    -- a corner of the second rows of the bottom layer
    refine ⟨⟨centerX + (2 - height), centerY, centerZ + (2 - height)⟩, le_rfl, ?_⟩
    rw [hrow _ hx, hrow _ hz, sub_self, sub_zero]
    exact ⟨habs, habs, Or.inl rfl⟩

/-- **A pyramid is exact** if and only if it is solid, or so low that it has no inside. -/
theorem pyramid_exact_iff (centerX centerY centerZ height : Int32) (h0 : 0 ≤ height.toInt)
    (hmax : height.toInt + 1 < 2 ^ 31) (hx : InSpan centerX height)
    (hy : centerY.toInt + height.toInt < 2 ^ 31) (hz : InSpan centerZ height) (toKey : MaterialKey)
    (hollow : Bool) : (Call.makePyramid centerX centerY centerZ height hollow).MakesIff toKey
      (Pyramid centerX centerY centerZ height hollow) (hollow = false ∨ height.toInt ≤ 1) := by
  refine Call.makesIff toKey ⟨fun h => ?_, fun h c => ?_⟩
  · by_contra hnot
    obtain ⟨hhollow, hheight⟩ := not_or.mp hnot
    have hdoubled : ∃ c, Doubled centerX centerY centerZ height c :=
      (exists_doubled_iff h0 hx hz).mpr (by omega)
    obtain ⟨c, hc⟩ := hdoubled
    have hhollow : hollow = true := by simpa using hhollow
    subst hhollow
    have hvisited := (mem_pyramidCells h0 hmax hx hy hz true c).mpr (Or.inr ⟨rfl, hc⟩)
    exact not_pyramid_of_doubled hc ((h c).mp hvisited)
  · refine (mem_pyramidCells h0 hmax hx hy hz hollow c).trans (or_iff_left ?_)
    rintro ⟨rfl, hc⟩
    have h2 := (exists_doubled_iff h0 hx hz).mp ⟨c, hc⟩
    rcases h with h | h
    · cases h
    · omega

/-- A hollow pyramid of height 2 is not exact. -/
theorem pyramid_exact_two : (Call.makePyramid 0 64 0 2 true).MakesIff ⟨1, 0⟩ (Pyramid 0 64 0 2 true)
    (true = false ∨ (2 : Int32).toInt ≤ 1) :=
  pyramid_exact_iff 0 64 0 2 (by decide) (by decide) ⟨by decide, by decide⟩ (by decide)
    ⟨by decide, by decide⟩ ⟨1, 0⟩ true

/-- In an empty world the cell inside a hollow pyramid of height 2 is filled. -/
theorem not_pyramid_exact : ∃ n s' log,
    (Call.makePyramid 0 64 0 2 true).run managerArea.recorded ⟨1, 0⟩ (opened ∅, []) = .ok n (s', log) ∧
      ¬ Sets log (Pyramid 0 64 0 2 true) ⟨1, 0⟩ ∧ ¬ Pyramid 0 64 0 2 true ⟨0, 64, 0⟩ ∧
      Shows s' ⟨0, 64, 0⟩ ⟨1, 0⟩ := by
  obtain ⟨s', hrun, hs', hshown⟩ := Call.run_recorded_ok (sound_opened recordsOk_empty)
    (.makePyramid 0 64 0 2 true) ⟨1, 0⟩
  have hnot : ¬ Pyramid 0 64 0 2 true ⟨0, 64, 0⟩ :=
    not_pyramid_of_doubled ⟨by decide, by decide, by decide, Or.inl (by decide)⟩
  have hmem : (⟨0, 64, 0⟩ : Pos) ∈ (Call.makePyramid 0 64 0 2 true).visited := by decide
  refine ⟨_, s', _, hrun, fun hsets => ?_, hnot, (shows_iff hs').mpr ?_⟩
  · exact hnot ((sets_iff.mp hsets _).mp hmem)
  · rw [hshown, afterPut_of_not_inStale (not_inStale_of_attached (attached_opened ∅) _),
      if_pos ⟨hmem, by decide⟩]
    decide

end WorldToPE.GeoUtils
