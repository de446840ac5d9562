import WorldToPE.Geo.Builders

/-!
# WorldToPE.Geo.Shapes — round shapes

`makeSphere`, `makeDome` and `makeCylinder`.  Their loops stop before the radius, while the test is
`distFromCenter <= radiusSquared`: of the ball they miss the cells at distance `radius` on the positive
axes, and no others.

* `ball_rim`: a cell of the ball that the loops do not reach is the end of a positive axis.
* `mem_visited_sphere`, `mem_visited_dome`, `mem_visited_cylinder`: the cells that are set are the shape
  without its rim.
* `round_shapes_iff`: when the three builders make the shape: never, or it has no layer.
-/

namespace WorldToPE.GeoUtils

open Java Run ChunkManager

/-! ## Offsets from a center -/

theorem mem_map_offset {centerX centerY centerZ : Int32} {l : List Pos} {c : Pos} :
    c ∈ l.map (offset centerX centerY centerZ) ↔
      (⟨c.x - centerX, c.y - centerY, c.z - centerZ⟩ : Pos) ∈ l := by
  have hc : offset centerX centerY centerZ ⟨c.x - centerX, c.y - centerY, c.z - centerZ⟩ = c := by
    simp only [offset, add_sub_self]
  constructor
  · intro h
    rw [← hc, List.mem_map_of_injective (offset_injective centerX centerY centerZ)] at h
    exact h
  · intro h
    rw [← hc]
    exact List.mem_map_of_mem h

/-- An offset in a range that does not overflow is a difference of integers. -/
theorem toInt_sub_of_range {a c : Int32} {lo hi : ℤ} (h1 : -2 ^ 31 ≤ a.toInt + lo)
    (h2 : a.toInt + hi ≤ 2 ^ 31) (h3 : -2 ^ 31 ≤ lo ∧ hi ≤ 2 ^ 31) (h : (lo ≤ (c - a).toInt ∧ (c - a).toInt < hi) ∨
      (lo ≤ c.toInt - a.toInt ∧ c.toInt - a.toInt < hi)) : (c - a).toInt = c.toInt - a.toInt := by
  have hc1 := c.le_toInt
  have hc2 := c.toInt_lt
  have hv1 := (c - a).le_toInt
  have hv2 := (c - a).toInt_lt
  rw [Int32.toInt_sub, Int.bmod_def] at h hv1 hv2 ⊢
  split_ifs at h hv1 hv2 ⊢ <;> omega

theorem toInt_neg_of_nonneg {r : Int32} (h : 0 ≤ r.toInt) : (-r).toInt = -r.toInt := by
  have hlt := r.toInt_lt
  rw [Int32.toInt_neg]
  exact Int.bmod_eq_of_le (by omega) (by omega)

/-! ## Balls -/

/-- The squared distances of the ball, or of its hull. -/
def InBall (d r : ℤ) (hollow : Bool) : Prop := d ≤ r ^ 2 ∧ (hollow = false ∨ (r - 1) ^ 2 ≤ d)

instance (d r : ℤ) (hollow : Bool) : Decidable (InBall d r hollow) := inferInstanceAs (Decidable (_ ∧ _))

/-- The test of the builders, for radii whose square is an `int`. -/
theorem onShape_iff {d : ℤ} {radius : Int32} (h0 : 0 ≤ radius.toInt) (hr : radius.toInt ≤ 46340)
    (hollow : Bool) : OnShape d radius hollow ↔ InBall d radius.toInt hollow := by
  have hone : (1 : Int32).toInt = 1 := rfl
  have hpred : (radius - 1).toInt = radius.toInt - 1 := by
    rw [Int32.toInt_sub, hone]
    exact Int.bmod_eq_of_le (by omega) (by omega)
  have hbound : ∀ a : ℤ, -1 ≤ a → a ≤ 46340 → 0 ≤ a * a ∧ a * a < 2 ^ 31 := by
    intro a h1 h2
    constructor <;> nlinarith
  obtain ⟨h1, h2⟩ := hbound radius.toInt (by omega) hr
  obtain ⟨h3, h4⟩ := hbound (radius.toInt - 1) (by omega) (by omega)
  have e1 : (radius * radius).toInt = radius.toInt ^ 2 := by
    rw [toInt_mul_of_fits (by omega) h2, sq]
  have e2 : ((radius - 1) * (radius - 1)).toInt = (radius.toInt - 1) ^ 2 := by
    rw [toInt_mul_of_fits, hpred, sq] <;> rw [hpred] <;> omega
  show d ≤ (radius * radius).toInt ∧
    (hollow = false ∨ d ≥ ((radius - 1) * (radius - 1)).toInt) ↔ InBall d radius.toInt hollow
  rw [e1, e2]
  rfl

/-- No coordinate of a point of the ball is beyond the radius. -/
theorem ball_bound {x y z r : ℤ} (hr : 0 ≤ r) (h : x ^ 2 + y ^ 2 + z ^ 2 ≤ r ^ 2) : -r ≤ x ∧ x ≤ r := by
  have hx : x ^ 2 ≤ r ^ 2 := by
    have hy := sq_nonneg y
    have hz := sq_nonneg z
    omega
  exact abs_le.mp (abs_le_of_sq_le_sq hx hr)

theorem ball_bounds {x y z r : ℤ} (hr : 0 ≤ r) (h : x ^ 2 + y ^ 2 + z ^ 2 ≤ r ^ 2) :
    (-r ≤ x ∧ x ≤ r) ∧ (-r ≤ y ∧ y ≤ r) ∧ -r ≤ z ∧ z ≤ r := by
  have hy : y ^ 2 + x ^ 2 + z ^ 2 ≤ r ^ 2 := by omega
  have hz : z ^ 2 + x ^ 2 + y ^ 2 ≤ r ^ 2 := by omega
  exact ⟨ball_bound hr h, ball_bound hr hy, ball_bound hr hz⟩

/-- On the extreme plane there is only the end of the axis. -/
theorem ball_end {y z r : ℤ} (h : r ^ 2 + y ^ 2 + z ^ 2 ≤ r ^ 2) : y = 0 ∧ z = 0 := by
  have hy := sq_nonneg y
  have hz := sq_nonneg z
  constructor
  · exact pow_eq_zero_iff two_ne_zero |>.mp (by omega)
  · exact pow_eq_zero_iff two_ne_zero |>.mp (by omega)

/-- **A point of the ball that the half-open bounds leave out** is the end of a positive axis. -/
theorem ball_rim {x y z r : ℤ} (hr : 0 ≤ r) (h : x ^ 2 + y ^ 2 + z ^ 2 ≤ r ^ 2) :
    ¬ (x < r ∧ y < r ∧ z < r) ↔
      x = r ∧ y = 0 ∧ z = 0 ∨ x = 0 ∧ y = r ∧ z = 0 ∨ x = 0 ∧ y = 0 ∧ z = r := by
  obtain ⟨hx, hy, hz⟩ := ball_bounds hr h
  constructor
  · intro hnot
    by_cases hxr : x = r
    · subst hxr
      obtain ⟨h1, h2⟩ := ball_end h
      exact Or.inl ⟨rfl, h1, h2⟩
    by_cases hyr : y = r
    · subst hyr
      obtain ⟨h1, h2⟩ := ball_end (show y ^ 2 + x ^ 2 + z ^ 2 ≤ y ^ 2 by omega)
      exact Or.inr (Or.inl ⟨h1, rfl, h2⟩)
    · have hzr : z = r := by omega
      subst hzr
      obtain ⟨h1, h2⟩ := ball_end (show z ^ 2 + x ^ 2 + y ^ 2 ≤ z ^ 2 by omega)
      exact Or.inr (Or.inr ⟨h1, h2, rfl⟩)
  · rintro (⟨rfl, -, -⟩ | ⟨-, rfl, -⟩ | ⟨-, -, rfl⟩) <;> omega

/-! ## The shapes -/

/-- The cells within the radius of a center exist. -/
def InReach (center radius : Int32) : Prop :=
  -2 ^ 31 ≤ center.toInt - radius.toInt ∧ center.toInt + radius.toInt < 2 ^ 31

def Sphere (centerX centerY centerZ radius : Int32) (hollow : Bool) (c : Pos) : Prop :=
  InBall ((c.x.toInt - centerX.toInt) ^ 2 + (c.y.toInt - centerY.toInt) ^ 2 +
    (c.z.toInt - centerZ.toInt) ^ 2) radius.toInt hollow

def Dome (centerX centerY centerZ radius : Int32) (hollow : Bool) (c : Pos) : Prop :=
  Sphere centerX centerY centerZ radius hollow c ∧ centerY.toInt ≤ c.y.toInt

def Cylinder (centerX centerY centerZ radius height : Int32) (hollow : Bool) (c : Pos) : Prop :=
  InBall ((c.x.toInt - centerX.toInt) ^ 2 + (c.z.toInt - centerZ.toInt) ^ 2) radius.toInt hollow ∧
    centerY.toInt ≤ c.y.toInt ∧ c.y.toInt < centerY.toInt + height.toInt

instance (centerX centerY centerZ radius : Int32) (hollow : Bool) (c : Pos) :
    Decidable (Sphere centerX centerY centerZ radius hollow c) :=
  inferInstanceAs (Decidable (InBall _ _ _))

instance (centerX centerY centerZ radius : Int32) (hollow : Bool) (c : Pos) :
    Decidable (Dome centerX centerY centerZ radius hollow c) := inferInstanceAs (Decidable (_ ∧ _))

instance (centerX centerY centerZ radius height : Int32) (hollow : Bool) (c : Pos) :
    Decidable (Cylinder centerX centerY centerZ radius height hollow c) :=
  inferInstanceAs (Decidable (_ ∧ _))

section Cells

variable {centerX centerY centerZ radius : Int32} (h0 : 0 ≤ radius.toInt) (hr : radius.toInt ≤ 46340)
  (hx : InReach centerX radius) (hz : InReach centerZ radius) (hollow : Bool) (c : Pos)
include h0 hr hx hz

/-- The cells that `makeSphere` and `makeDome` visit, from the layer `lo` up. -/
theorem mem_ballCells {lo : Int32} (hlo : -radius.toInt ≤ lo.toInt)
    (hy : -2 ^ 31 ≤ centerY.toInt + lo.toInt ∧ centerY.toInt + radius.toInt < 2 ^ 31) :
    c ∈ ((grid (intRange (-radius) radius) (intRange (-radius) radius) (intRange lo radius)).filter
        fun d => OnShape (dist2 d) radius hollow).map (offset centerX centerY centerZ) ↔
      Sphere centerX centerY centerZ radius hollow c ∧ lo.toInt ≤ c.y.toInt - centerY.toInt ∧
        c.x.toInt - centerX.toInt < radius.toInt ∧ c.y.toInt - centerY.toInt < radius.toInt ∧
          c.z.toInt - centerZ.toInt < radius.toInt := by
  have hneg := toInt_neg_of_nonneg h0
  rw [mem_map_offset, List.mem_filter, mem_grid, mem_intRange, mem_intRange, mem_intRange,
    decide_eq_true_eq, onShape_iff h0 hr, hneg]
  unfold InReach at hx hz
  have ex := toInt_sub_of_range (a := centerX) (c := c.x) (show _ ≤ _ + -radius.toInt by omega)
    (show _ + radius.toInt ≤ _ by omega) (by omega)
  have ey := toInt_sub_of_range (a := centerY) (c := c.y) (show _ ≤ _ + lo.toInt by omega)
    (show _ + radius.toInt ≤ _ by omega) (by omega)
  have ez := toInt_sub_of_range (a := centerZ) (c := c.z) (show _ ≤ _ + -radius.toInt by omega)
    (show _ + radius.toInt ≤ _ by omega) (by omega)
  constructor
  · rintro ⟨⟨ux, uz, uy⟩, hball⟩
    simp only [dist2, pow2, ex (Or.inl ux), ey (Or.inl uy), ez (Or.inl uz)] at ux uy uz hball
    exact ⟨hball, uy.1, ux.2, uy.2, uz.2⟩
  · rintro ⟨hball, ly, ux, uy, uz⟩
    obtain ⟨lx, -, lz⟩ := ball_bounds h0 hball.1
    simp only [dist2, pow2, ex (Or.inr ⟨lx.1, ux⟩), ey (Or.inr ⟨ly, uy⟩), ez (Or.inr ⟨lz.1, uz⟩)]
    exact ⟨⟨⟨lx.1, ux⟩, ⟨lz.1, uz⟩, ly, uy⟩, hball⟩

/-- The cells that `makeCylinder` visits. -/
theorem mem_cylinderCells {height : Int32} (hy : -2 ^ 31 ≤ centerY.toInt + height.toInt ∧
    centerY.toInt + height.toInt < 2 ^ 31) :
    c ∈ (cylinderCells centerY radius height hollow).map (offset centerX 0 centerZ) ↔
      Cylinder centerX centerY centerZ radius height hollow c ∧
        c.x.toInt - centerX.toInt < radius.toInt ∧ c.z.toInt - centerZ.toInt < radius.toInt := by
  have hneg := toInt_neg_of_nonneg h0
  have hfar : (centerY + height).toInt = centerY.toInt + height.toInt := toInt_add_of_fits hy.1 hy.2
  rw [mem_map_offset, cylinderCells, List.mem_filter, mem_grid, mem_intRange, mem_intRange, mem_intRange,
    decide_eq_true_eq, onShape_iff h0 hr, hneg, hfar, Int32.sub_zero]
  unfold InReach at hx hz
  have ex := toInt_sub_of_range (a := centerX) (c := c.x) (show _ ≤ _ + -radius.toInt by omega)
    (show _ + radius.toInt ≤ _ by omega) (by omega)
  have ez := toInt_sub_of_range (a := centerZ) (c := c.z) (show _ ≤ _ + -radius.toInt by omega)
    (show _ + radius.toInt ≤ _ by omega) (by omega)
  constructor
  · rintro ⟨⟨ux, uz, uy⟩, hball⟩
    simp only [pow2, ex (Or.inl ux), ez (Or.inl uz)] at ux uz hball
    exact ⟨⟨hball, uy⟩, ux.2, uz.2⟩
  · rintro ⟨⟨hball, uy⟩, ux, uz⟩
    obtain ⟨lx, lz, -⟩ := ball_bounds h0 (show _ ^ 2 + _ ^ 2 + 0 ^ 2 ≤ _ from by simpa using hball.1)
    simp only [pow2, ex (Or.inr ⟨lx.1, ux⟩), ez (Or.inr ⟨lz.1, uz⟩)]
    exact ⟨⟨⟨lx.1, ux⟩, ⟨lz.1, uz⟩, uy⟩, hball⟩

end Cells

/-! ## The cells that are left out -/

/-- The ends of the positive axes. -/
def rim (centerX centerY centerZ radius : Int32) : List Pos :=
  [⟨centerX + radius, centerY, centerZ⟩, ⟨centerX, centerY + radius, centerZ⟩,
    ⟨centerX, centerY, centerZ + radius⟩]

theorem eq_add_iff {a c r : Int32} (h0 : 0 ≤ r.toInt) (h : a.toInt + r.toInt < 2 ^ 31) :
    c = a + r ↔ c.toInt - a.toInt = r.toInt := by
  have ha := a.le_toInt
  rw [← Int32.toInt_inj, toInt_add_of_fits (by omega) h]
  omega

theorem eq_center_iff {a c : Int32} : c = a ↔ c.toInt - a.toInt = 0 := by
  rw [← Int32.toInt_inj]
  omega

/-- The end of an axis is in the ball, and in its hull. -/
theorem inBall_end {r : ℤ} {hollow : Bool} (hh : hollow = true → 1 ≤ r) : InBall (r ^ 2) r hollow := by
  refine ⟨le_rfl, ?_⟩
  cases hollow with
  | false => exact Or.inl rfl
  | true =>
    have h1 := hh rfl
    refine Or.inr (pow_le_pow_left₀ ?_ ?_ 2) <;> omega

section Rim

variable {centerX centerY centerZ radius : Int32} (h0 : 0 ≤ radius.toInt) {hollow : Bool}
  (hh : hollow = true → 1 ≤ radius.toInt) (hx : centerX.toInt + radius.toInt < 2 ^ 31)
  (hz : centerZ.toInt + radius.toInt < 2 ^ 31)
include h0 hh hx hz

/-- **The ball without the cells that are visited** is the rim. -/
theorem mem_rim_iff (hy : centerY.toInt + radius.toInt < 2 ^ 31) (c : Pos) :
    c ∈ rim centerX centerY centerZ radius ↔ Sphere centerX centerY centerZ radius hollow c ∧
      ¬ (c.x.toInt - centerX.toInt < radius.toInt ∧ c.y.toInt - centerY.toInt < radius.toInt ∧
        c.z.toInt - centerZ.toInt < radius.toInt) := by
  obtain ⟨x, y, z⟩ := c
  simp only [rim, List.mem_cons, List.not_mem_nil, or_false, Pos.mk.injEq, eq_add_iff h0 hx,
    eq_add_iff h0 hy, eq_add_iff h0 hz, eq_center_iff]
  constructor
  · rintro (⟨e1, e2, e3⟩ | ⟨e1, e2, e3⟩ | ⟨e1, e2, e3⟩)
    all_goals
      refine ⟨?_, by omega⟩
      simp only [Sphere, e1, e2, e3]
      simpa using inBall_end hh
  · rintro ⟨hball, hnot⟩
    exact (ball_rim h0 hball.1).mp hnot

theorem mem_rim_cylinder {height : Int32} (c : Pos) :
    Cylinder centerX centerY centerZ radius height hollow c ∧
      ¬ (c.x.toInt - centerX.toInt < radius.toInt ∧ c.z.toInt - centerZ.toInt < radius.toInt) ↔
      (centerY.toInt ≤ c.y.toInt ∧ c.y.toInt < centerY.toInt + height.toInt) ∧
        (c.x = centerX + radius ∧ c.z = centerZ ∨ c.x = centerX ∧ c.z = centerZ + radius) := by
  rw [eq_add_iff h0 hx, eq_add_iff h0 hz, eq_center_iff, eq_center_iff]
  constructor
  · rintro ⟨⟨hball, hy⟩, hnot⟩
    refine ⟨hy, ?_⟩
    set dx := c.x.toInt - centerX.toInt
    set dz := c.z.toInt - centerZ.toInt
    have hle : dx ^ 2 + dz ^ 2 + 0 ^ 2 ≤ radius.toInt ^ 2 := by simpa using hball.1
    obtain ⟨lx, lz, -⟩ := ball_bounds h0 hle
    by_cases hxr : dx = radius.toInt
    · rw [hxr] at hle
      exact Or.inl ⟨hxr, (ball_end hle).1⟩
    · have hzr : dz = radius.toInt := by omega
      rw [hzr] at hle
      exact Or.inr ⟨(ball_end (show radius.toInt ^ 2 + dx ^ 2 + 0 ^ 2 ≤ _ by omega)).1, hzr⟩
  · rintro ⟨hy, ⟨e1, e2⟩ | ⟨e1, e2⟩⟩
    all_goals
      refine ⟨⟨?_, hy⟩, by omega⟩
      rw [e1, e2]
      simpa using inBall_end hh

end Rim

/-! ## When the shapes are exact -/

/-- Visited cells and wanted cells: if the visited ones are the wanted ones within a bound, they are the wanted
ones outside the rim. -/
theorem mem_visited_iff {visited wanted bound rim : Prop} (h : visited ↔ wanted ∧ bound)
    (hrim : rim ↔ wanted ∧ ¬ bound) : visited ↔ wanted ∧ ¬ rim := by
  rw [h, hrim]
  tauto

section Exact

variable {radius : Int32} (h0 : 0 ≤ radius.toInt) (hr : radius.toInt ≤ 46340) {hollow : Bool}
  (hh : hollow = true → 1 ≤ radius.toInt) {centerX centerY centerZ : Int32}
include h0 hr hh

theorem mem_visited_sphere (hx : InReach centerX radius) (hy : InReach centerY radius)
    (hz : InReach centerZ radius) (c : Pos) :
    c ∈ (Call.makeSphere centerX centerY centerZ radius hollow).visited ↔
      Sphere centerX centerY centerZ radius hollow c ∧ c ∉ rim centerX centerY centerZ radius := by
  have hneg := toInt_neg_of_nonneg h0
  have hlo : -2 ^ 31 ≤ centerY.toInt + (-radius).toInt ∧ centerY.toInt + radius.toInt < 2 ^ 31 := by
    rw [hneg]
    exact ⟨hy.1, hy.2⟩
  refine mem_visited_iff ?_ (mem_rim_iff h0 hh hx.2 hz.2 hy.2 c)
  rw [Call.visited, sphereCells, mem_ballCells h0 hr hx hz hollow c hneg.ge hlo, hneg]
  refine and_congr_right fun hball => and_iff_right ?_
  exact (ball_bounds h0 hball.1).2.1.1

theorem mem_visited_dome (hx : InReach centerX radius) (hy : centerY.toInt + radius.toInt < 2 ^ 31)
    (hz : InReach centerZ radius) (c : Pos) :
    c ∈ (Call.makeDome centerX centerY centerZ radius hollow).visited ↔
      Dome centerX centerY centerZ radius hollow c ∧ c ∉ rim centerX centerY centerZ radius := by
  have hzero : (0 : Int32).toInt = 0 := rfl
  have hlo : -2 ^ 31 ≤ centerY.toInt + (0 : Int32).toInt ∧ centerY.toInt + radius.toInt < 2 ^ 31 := by
    have h := centerY.le_toInt
    rw [hzero]
    omega
  have hmem : c ∈ (Call.makeDome centerX centerY centerZ radius hollow).visited ↔
      Dome centerX centerY centerZ radius hollow c ∧ (c.x.toInt - centerX.toInt < radius.toInt ∧
        c.y.toInt - centerY.toInt < radius.toInt ∧ c.z.toInt - centerZ.toInt < radius.toInt) := by
    rw [Call.visited, domeCells, mem_ballCells h0 hr hx hz hollow c (by rw [hzero]; omega) hlo, hzero, Dome,
      and_assoc, sub_nonneg]
  refine mem_visited_iff hmem ?_
  -- the rim is in the upper half
  rw [mem_rim_iff h0 hh hx.2 hz.2 hy, Dome, and_assoc]
  refine and_congr_right fun hball => (and_iff_right_of_imp fun hnot => ?_).symm
  have hend := (ball_rim h0 hball.1).mp hnot
  omega

theorem mem_visited_cylinder {center : Vector3f} {height : Int32} (hx : InReach center.getBlockX radius)
    (hz : InReach center.getBlockZ radius) (hy : -2 ^ 31 ≤ center.getBlockY.toInt + height.toInt ∧
      center.getBlockY.toInt + height.toInt < 2 ^ 31) (c : Pos) :
    c ∈ (Call.makeCylinder center radius height hollow).visited ↔
      Cylinder center.getBlockX center.getBlockY center.getBlockZ radius height hollow c ∧
        ¬ ((center.getBlockY.toInt ≤ c.y.toInt ∧ c.y.toInt < center.getBlockY.toInt + height.toInt) ∧
          (c.x = center.getBlockX + radius ∧ c.z = center.getBlockZ ∨
            c.x = center.getBlockX ∧ c.z = center.getBlockZ + radius)) :=
  mem_visited_iff (mem_cylinderCells h0 hr hx hz hollow c hy)
    (mem_rim_cylinder h0 hh hx.2 hz.2 c).symm

end Exact

/-- **The round shapes are never exact**: the ends of the positive axes belong to them and are not set.  Only
a cylinder without a layer is as it should be. -/
theorem round_shapes_iff (radius : Int32) (h0 : 0 ≤ radius.toInt) (hr : radius.toInt ≤ 46340)
    (toKey : MaterialKey) (hollow : Bool) (hh : hollow = true → 1 ≤ radius.toInt) :
    (∀ centerX centerY centerZ, InReach centerX radius → InReach centerY radius → InReach centerZ radius →
      (Call.makeSphere centerX centerY centerZ radius hollow).MakesIff toKey
        (Sphere centerX centerY centerZ radius hollow) False) ∧
    (∀ centerX centerY centerZ, InReach centerX radius → centerY.toInt + radius.toInt < 2 ^ 31 →
      InReach centerZ radius →
      (Call.makeDome centerX centerY centerZ radius hollow).MakesIff toKey
        (Dome centerX centerY centerZ radius hollow) False) ∧
    ∀ (center : Vector3f) (height : Int32), InReach center.getBlockX radius →
      InReach center.getBlockZ radius →
      (-2 ^ 31 ≤ center.getBlockY.toInt + height.toInt ∧
        center.getBlockY.toInt + height.toInt < 2 ^ 31) →
      (Call.makeCylinder center radius height hollow).MakesIff toKey
        (Cylinder center.getBlockX center.getBlockY center.getBlockZ radius height hollow)
        (height.toInt ≤ 0) := by
  refine ⟨fun centerX centerY centerZ hx hy hz => ?_, fun centerX centerY centerZ hx hy hz => ?_,
    fun center height hx hz hy => ?_⟩
  · refine Call.makesIff toKey (iff_false_intro fun h => ?_)
    have hend : (⟨centerX + radius, centerY, centerZ⟩ : Pos) ∈ rim centerX centerY centerZ radius :=
      List.mem_cons_self
    have hin := ((mem_rim_iff h0 hh hx.2 hz.2 hy.2 _).mp hend).1
    exact ((mem_visited_sphere h0 hr hh hx hy hz _).mp ((h _).mpr hin)).2 hend
  · refine Call.makesIff toKey (iff_false_intro fun h => ?_)
    have hend : (⟨centerX + radius, centerY, centerZ⟩ : Pos) ∈ rim centerX centerY centerZ radius :=
      List.mem_cons_self
    have hball : Sphere centerX centerY centerZ radius hollow ⟨centerX + radius, centerY, centerZ⟩ :=
      ((mem_rim_iff h0 hh hx.2 hz.2 hy _).mp hend).1
    exact ((mem_visited_dome h0 hr hh hx hy hz _).mp ((h _).mpr ⟨hball, le_rfl⟩)).2 hend
  · refine Call.makesIff toKey ⟨fun h => ?_, fun hheight c => ?_⟩
    · by_contra hheight
      have hlayer : center.getBlockY.toInt < center.getBlockY.toInt + height.toInt := by omega
      -- the end of an axis in the first layer
      have hrim := @mem_rim_cylinder center.getBlockX center.getBlockY center.getBlockZ radius h0 hollow hh
        hx.2 hz.2 height ⟨center.getBlockX + radius, center.getBlockY, center.getBlockZ⟩
      have hend := hrim.mpr ⟨⟨le_rfl, hlayer⟩, Or.inl ⟨rfl, rfl⟩⟩
      have hvisited := (mem_visited_cylinder h0 hr hh hx hz hy _).mp ((h _).mpr hend.1)
      exact hvisited.2 ⟨⟨le_rfl, hlayer⟩, Or.inl ⟨rfl, rfl⟩⟩
    · have hnot : ¬ Cylinder center.getBlockX center.getBlockY center.getBlockZ radius height hollow c := by
        rintro ⟨-, h1, h2⟩
        omega
      rw [mem_visited_cylinder h0 hr hh hx hz hy]
      exact and_iff_left_of_imp fun h => absurd h hnot

/-- A ball of radius 1 and a cylinder without a layer. -/
theorem round_shapes_stone :
    (Call.makeSphere 0 64 0 1 true).MakesIff ⟨1, 0⟩ (Sphere 0 64 0 1 true) False ∧
    (Call.makeDome 0 64 0 1 true).MakesIff ⟨1, 0⟩ (Dome 0 64 0 1 true) False ∧
    (Call.makeCylinder Vector3f.zero 1 0 true).MakesIff ⟨1, 0⟩ (Cylinder Vector3f.zero.getBlockX
      Vector3f.zero.getBlockY Vector3f.zero.getBlockZ 1 0 true) ((0 : Int32).toInt ≤ 0) := by
  have hreach : InReach 0 1 := ⟨by decide, by decide⟩
  obtain ⟨hsphere, hdome, hcylinder⟩ :=
    round_shapes_iff 1 (by decide) (by decide) ⟨1, 0⟩ true (fun _ => by decide)
  exact ⟨hsphere 0 64 0 hreach ⟨by decide, by decide⟩ hreach, hdome 0 64 0 hreach (by decide) hreach,
    hcylinder Vector3f.zero 0 ⟨by decide, by decide⟩ ⟨by decide, by decide⟩ ⟨by decide, by decide⟩⟩

/-- A cell of a shape that a call does not visit stays air in an empty world. -/
theorem missing_cell {call : Call} {S : Pos → Prop} {c : Pos} (hc : S c) (hnot : c ∉ call.visited) :
    ∃ n s' log, call.run managerArea.recorded ⟨1, 0⟩ (opened ∅, []) = .ok n (s', log) ∧
      ¬ Sets log S ⟨1, 0⟩ ∧ Shows s' c ⟨0, 0⟩ := by
  obtain ⟨s', hrun, hs', hshown⟩ := Call.run_recorded_ok (sound_opened recordsOk_empty) call ⟨1, 0⟩
  refine ⟨_, s', _, hrun, fun hsets => ?_, (shows_iff hs').mpr ?_⟩
  · exact hnot ((sets_iff.mp hsets c).mpr hc)
  · rw [hshown, afterPut_of_not_inStale (not_inStale_of_attached (attached_opened ∅) c),
      if_neg fun h => hnot h.1, shown_of_attached (attached_opened ∅), blocksOf_empty]

/-- In an empty world the three shapes lack a cell at the end of an axis. -/
theorem not_round_shapes :
    (∃ n s' log, (Call.makeSphere 0 64 0 1 false).run managerArea.recorded ⟨1, 0⟩ (opened ∅, []) =
      .ok n (s', log) ∧ ¬ Sets log (Sphere 0 64 0 1 false) ⟨1, 0⟩ ∧ Shows s' ⟨1, 64, 0⟩ ⟨0, 0⟩) ∧
    (∃ n s' log, (Call.makeDome 0 64 0 1 false).run managerArea.recorded ⟨1, 0⟩ (opened ∅, []) =
      .ok n (s', log) ∧ ¬ Sets log (Dome 0 64 0 1 false) ⟨1, 0⟩ ∧ Shows s' ⟨1, 64, 0⟩ ⟨0, 0⟩) ∧
    ∃ n s' log, (Call.makeCylinder Vector3f.zero 1 1 false).run managerArea.recorded ⟨1, 0⟩
      (opened ∅, []) = .ok n (s', log) ∧ ¬ Sets log (Cylinder 0 0 0 1 1 false) ⟨1, 0⟩ ∧
        Shows s' ⟨1, 0, 0⟩ ⟨0, 0⟩ :=
  ⟨missing_cell (by decide) (by decide), missing_cell (by decide) (by decide),
    missing_cell (by decide) (by decide)⟩

end WorldToPE.GeoUtils
