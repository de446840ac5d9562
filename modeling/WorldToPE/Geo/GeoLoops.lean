import WorldToPE.Geo.GeoUtils

/-!
# WorldToPE.Geo.GeoLoops — the cells that the functions of `GeoUtils` visit

Each function of `GeoUtils` is a nest of loops over cells.  For each of them the list of these cells is
given, in the order of the loops, so that the function is one pass over the list.

* `mem_grid`, `nodup_grid`, `length_grid`: the cells of three nested loops.
* `mem_cellsOf`, `nodup_cellsOf`, `length_cellsOf`: the cells of a box.
* `setBlocks_eq`, `replaceBlocks_eq`, `countBlocks_eq`: the functions that work on a box.
* `makeSphere_eq`, `makeDome_eq`, `makeCylinder_eq`, `makePyramid_eq`: the builders place the block at
  the cells of a list and return the length of the list.
-/

namespace WorldToPE.GeoUtils

open Java Run

variable {σ : Type} (mgr : AreaBlockAccess σ)

/-! ## Loops over cells -/

/-- The cells of three nested loops, `x` outside, `y` inside. -/
def grid (xs zs ys : List Int32) : List Pos :=
  xs.flatMap fun x => zs.flatMap fun z => ys.map fun y => ⟨x, y, z⟩

theorem mem_grid {xs zs ys : List Int32} {c : Pos} :
    c ∈ grid xs zs ys ↔ c.x ∈ xs ∧ c.z ∈ zs ∧ c.y ∈ ys := by
  simp only [grid, List.mem_flatMap, List.mem_map]
  constructor
  · rintro ⟨x, hx, z, hz, y, hy, rfl⟩
    exact ⟨hx, hz, hy⟩
  · rintro ⟨hx, hz, hy⟩
    exact ⟨c.x, hx, c.z, hz, c.y, hy, rfl⟩

theorem length_grid (xs zs ys : List Int32) :
    (grid xs zs ys).length = xs.length * (zs.length * ys.length) := by
  simp [grid, List.length_flatMap]

theorem nodup_grid {xs zs ys : List Int32} (hx : xs.Nodup) (hz : zs.Nodup) (hy : ys.Nodup) :
    (grid xs zs ys).Nodup := by
  have hrow : ∀ x z, (ys.map fun y => (⟨x, y, z⟩ : Pos)).Nodup := fun x z =>
    hy.map fun y y' h => (Pos.mk.inj h).2.1
  have hplane : ∀ x, (zs.flatMap fun z => ys.map fun y => (⟨x, y, z⟩ : Pos)).Nodup := by
    intro x
    refine List.nodup_flatMap.mpr ⟨fun z _ => hrow x z, hz.imp fun hne c h h' => ?_⟩
    obtain ⟨y, -, rfl⟩ := List.mem_map.mp h
    obtain ⟨y', -, h'⟩ := List.mem_map.mp h'
    exact hne (Pos.mk.inj h').2.2.symm
  refine List.nodup_flatMap.mpr ⟨fun x _ => hplane x, hx.imp fun hne c h h' => ?_⟩
  simp only [List.mem_flatMap, List.mem_map] at h h'
  obtain ⟨z, -, y, -, rfl⟩ := h
  obtain ⟨z', -, y', -, h'⟩ := h'
  exact hne (Pos.mk.inj h').1.symm

theorem foldlM_grid {β : Type} (xs zs ys : List Int32) (f : β → Pos → EStateM Exn σ β) (b : β) :
    (grid xs zs ys).foldlM f b =
      xs.foldlM (fun b x => zs.foldlM (fun b z => ys.foldlM (fun b y => f b ⟨x, y, z⟩) b) b) b := by
  simp only [grid, foldlM_flatMap, List.foldlM_map]

/-- The cells of a box, in the order of the loops. -/
def cellsOf (R : CuboidRegion) : List Pos :=
  grid (intRange R.x (R.x + R.width)) (intRange R.z (R.z + R.length)) (intRange R.y (R.y + R.height))

theorem mem_cellsOf {R : CuboidRegion} {c : Pos} : c ∈ cellsOf R ↔ R.Lies c := by
  rw [CuboidRegion.lies_iff, Axis.forall, cellsOf, mem_grid, mem_intRange, mem_intRange, mem_intRange]
  show _ ∧ _ ∧ _ ↔ _ ∧ _ ∧ _
  exact and_congr_right fun _ => and_comm

theorem nodup_cellsOf (R : CuboidRegion) : (cellsOf R).Nodup :=
  nodup_grid (nodup_intRange _ _) (nodup_intRange _ _) (nodup_intRange _ _)

theorem length_cellsOf_ranges (R : CuboidRegion) : (cellsOf R).length =
    (intRange (R.start .x) (R.far .x)).length * ((intRange (R.start .z) (R.far .z)).length *
      (intRange (R.start .y) (R.far .y)).length) :=
  length_grid _ _ _

/-- A box has as many cells as its volume says. -/
theorem length_cellsOf {R : CuboidRegion} (hfits : R.Fits) (hsize : ∀ a, 0 ≤ (R.size a).toInt) :
    ((cellsOf R).length : ℤ) = R.width.toInt * R.height.toInt * R.length.toInt := by
  have hrange : ∀ a, ((intRange (R.start a) (R.far a)).length : ℤ) = (R.size a).toInt := by
    intro a
    have hfar := CuboidRegion.toInt_far hfits (hsize a)
    have h0 := hsize a
    rw [length_intRange, hfar]
    omega
  have hx := hrange .x
  have hy := hrange .y
  have hz := hrange .z
  rw [length_cellsOf_ranges]
  push_cast
  rw [hx, hy, hz]
  show R.width.toInt * (R.length.toInt * R.height.toInt) = _
  ring

/-! ## The builders as lists of cells -/

/-- The builder's work on one cell, with `n` blocks placed so far. -/
def visit (toKey : MaterialKey) (c : Pos) (p : Prop) [Decidable p] (n : Int32) : EStateM Exn σ Int32 :=
  if p then do
    put mgr toKey.block c
    return n + 1
  else return n

/-- Setting the block at a list of cells, and their number. -/
def build (toKey : MaterialKey) (cells : List Pos) : EStateM Exn σ Int32 := do
  putAll mgr (fun _ => toKey.block) cells
  return Int32.ofNat cells.length

/-- The round of a loop that may place a block. -/
theorem round_eq (toKey : MaterialKey) (x y z : Int32) (p : Prop) [Decidable p] (n : Int32) :
    (if p then do
        mgr.setBlockTypeId x y z toKey.typeId.toInt32
        mgr.setBlockData x y z toKey.damage.toInt32
        pure (ForInStep.yield (n + 1))
      else pure (ForInStep.yield n)) =
    (do
      let n' ← visit mgr toKey ⟨x, y, z⟩ p n
      pure (ForInStep.yield n')) := by
  unfold visit put
  split <;> simp [MaterialKey.block]

theorem foldlM_visit {α : Type} (toKey : MaterialKey) (g : α → Pos) (p : α → Prop) [DecidablePred p]
    (l : List α) (n : Int32) : l.foldlM (fun n a => visit mgr toKey (g a) (p a) n) n = (do
      putAll mgr (fun _ => toKey.block) ((l.filter p).map g)
      return n + Int32.ofNat (l.filter p).length) := by
  induction l generalizing n with
  | nil => simp [putAll]
  | cons a l ih =>
    rw [List.foldlM_cons]
    by_cases h : p a
    · have hf : (a :: l).filter p = a :: l.filter p := by simp [h]
      rw [hf, visit, if_pos h, List.map_cons, List.length_cons, putAll]
      simp only [bind_assoc, pure_bind, ih]
      congr 1
      funext _
      congr 1
      funext _
      rw [Nat.add_comm, Int32.ofNat_add, ← Int32.add_assoc]
      rfl
    · have hf : (a :: l).filter p = l.filter p := by simp [h]
      rw [hf, visit, if_neg h, pure_bind, ih]

/-- A cell by its offset from a center. -/
def offset (centerX centerY centerZ : Int32) (c : Pos) : Pos :=
  ⟨centerX + c.x, centerY + c.y, centerZ + c.z⟩

theorem offset_injective (centerX centerY centerZ : Int32) :
    Function.Injective (offset centerX centerY centerZ) := by
  intro c d h
  obtain ⟨hx, hy, hz⟩ := Pos.mk.inj h
  cases c
  cases d
  simp only [Int32.add_right_inj] at hx hy hz
  rw [hx, hy, hz]

theorem toInt_offset {p d : Pos} {a : Axis} (h1 : -2 ^ 31 ≤ (p.on a).toInt + (d.on a).toInt)
    (h2 : (p.on a).toInt + (d.on a).toInt < 2 ^ 31) :
    ((offset p.x p.y p.z d).on a).toInt = (p.on a).toInt + (d.on a).toInt := by
  cases a <;> exact toInt_add_of_fits h1 h2

/-- The squared distance of an offset. -/
def dist2 (c : Pos) : ℤ := pow2 c.x + pow2 c.y + pow2 c.z

/-- The offsets that `makeSphere` visits: the loops stop before `radius`. -/
def sphereCells (radius : Int32) (hollow : Bool) : List Pos :=
  (grid (intRange (-radius) radius) (intRange (-radius) radius) (intRange (-radius) radius)).filter
    fun c => OnShape (dist2 c) radius hollow

def domeCells (radius : Int32) (hollow : Bool) : List Pos :=
  (grid (intRange (-radius) radius) (intRange (-radius) radius) (intRange 0 radius)).filter
    fun c => OnShape (dist2 c) radius hollow

/-- The cells that `makeCylinder` visits, by their offset in `x` and `z` and by their height. -/
def cylinderCells (centerY radius height : Int32) (hollow : Bool) : List Pos :=
  (grid (intRange (-radius) radius) (intRange (-radius) radius)
    (intRange centerY (centerY + height))).filter fun c => OnShape (pow2 c.x + pow2 c.z) radius hollow

/-- The offsets that `makePyramid` visits, from the bottom layer up. -/
def pyramidCells (height : Int32) (hollow : Bool) : List Pos :=
  ((intRange 0 (height + 1)).flatMap fun y =>
    grid (intRange (-(height - y) + 1) (height - y)) (intRange (-(height - y) + 1) (height - y)) [y]).filter
      fun c => OnLayer (height - c.y) c.x c.z hollow

theorem makeSphere_eq (centerX centerY centerZ radius : Int32) (toKey : MaterialKey) (hollow : Bool) :
    makeSphere mgr centerX centerY centerZ radius toKey hollow =
      build mgr toKey ((sphereCells radius hollow).map (offset centerX centerY centerZ)) := by
  unfold makeSphere
  simp only [round_eq, forIn_yield, bind_pure]
  have h := foldlM_visit mgr toKey (offset centerX centerY centerZ)
    (fun c => OnShape (dist2 c) radius hollow)
    (grid (intRange (-radius) radius) (intRange (-radius) radius) (intRange (-radius) radius)) 0
  rw [foldlM_grid] at h
  refine h.trans ?_
  simp [build, sphereCells]

theorem makeDome_eq (centerX centerY centerZ radius : Int32) (toKey : MaterialKey) (hollow : Bool) :
    makeDome mgr centerX centerY centerZ radius toKey hollow =
      build mgr toKey ((domeCells radius hollow).map (offset centerX centerY centerZ)) := by
  unfold makeDome
  simp only [round_eq, forIn_yield, bind_pure]
  have h := foldlM_visit mgr toKey (offset centerX centerY centerZ)
    (fun c => OnShape (dist2 c) radius hollow)
    (grid (intRange (-radius) radius) (intRange (-radius) radius) (intRange 0 radius)) 0
  rw [foldlM_grid] at h
  refine h.trans ?_
  simp [build, domeCells]

theorem makeCylinder_eq (center : Vector3f) (radius height : Int32) (toKey : MaterialKey)
    (hollow : Bool) : makeCylinder mgr center radius height toKey hollow =
      build mgr toKey ((cylinderCells center.getBlockY radius height hollow).map
        (offset center.getBlockX 0 center.getBlockZ)) := by
  have hcolumn : ∀ x z n, (if OnShape (pow2 x + pow2 z) radius hollow then do
        let n' ← (intRange center.getBlockY (center.getBlockY + height)).foldlM (fun n y =>
          visit mgr toKey ⟨center.getBlockX + x, y, center.getBlockZ + z⟩ True n) n
        pure (ForInStep.yield n')
      else pure (ForInStep.yield n)) = (do
        let n' ← (intRange center.getBlockY (center.getBlockY + height)).foldlM (fun n y =>
          visit mgr toKey ⟨center.getBlockX + x, y, center.getBlockZ + z⟩
            (OnShape (pow2 x + pow2 z) radius hollow) n) n
        pure (ForInStep.yield n')) := by
    intro x z n
    by_cases h : OnShape (pow2 x + pow2 z) radius hollow
    · simp only [visit, if_pos h, if_true]
    · rw [if_neg h]
      simp [visit, h]
  have hround : ∀ x y z (n : Int32), (do
        mgr.setBlockTypeId x y z toKey.typeId.toInt32
        mgr.setBlockData x y z toKey.damage.toInt32
        pure (ForInStep.yield (n + 1))) = (do
        let n' ← visit mgr toKey ⟨x, y, z⟩ True n
        pure (ForInStep.yield n')) := fun x y z n => round_eq mgr toKey x y z True n
  unfold makeCylinder
  simp only [hround, forIn_yield, hcolumn, bind_pure]
  have h := foldlM_visit mgr toKey (offset center.getBlockX 0 center.getBlockZ)
    (fun c => OnShape (pow2 c.x + pow2 c.z) radius hollow)
    (grid (intRange (-radius) radius) (intRange (-radius) radius)
      (intRange center.getBlockY (center.getBlockY + height))) 0
  rw [foldlM_grid] at h
  simp only [offset, Int32.zero_add] at h
  refine h.trans ?_
  simp [build, cylinderCells]

theorem makePyramid_eq (centerX centerY centerZ height : Int32) (toKey : MaterialKey) (hollow : Bool) :
    makePyramid mgr centerX centerY centerZ height toKey hollow =
      build mgr toKey ((pyramidCells height hollow).map (offset centerX centerY centerZ)) := by
  unfold makePyramid
  simp only [round_eq, forIn_yield, bind_pure]
  have h := foldlM_visit mgr toKey (offset centerX centerY centerZ)
    (fun c => OnLayer (height - c.y) c.x c.z hollow) ((intRange 0 (height + 1)).flatMap fun y =>
      grid (intRange (-(height - y) + 1) (height - y)) (intRange (-(height - y) + 1) (height - y)) [y]) 0
  simp only [foldlM_flatMap, foldlM_grid, List.foldlM_cons, List.foldlM_nil, bind_pure] at h
  refine h.trans ?_
  simp [build, pyramidCells]

theorem setBlocks_eq (region : CuboidRegion) (toKey : MaterialKey) :
    setBlocks mgr region toKey = putAll mgr (fun _ => toKey.block) (cellsOf region) := by
  have hround : ∀ x y z, (do
        mgr.setBlockTypeId x y z toKey.typeId.toInt32
        mgr.setBlockData x y z toKey.damage.toInt32
        pure (ForInStep.yield PUnit.unit)) = (do
        let u ← put mgr toKey.block ⟨x, y, z⟩
        pure (ForInStep.yield u)) := by
    intro x y z
    simp [put, MaterialKey.block]
  have hall : ∀ cells : List Pos, cells.foldlM (fun _ c => put mgr toKey.block c) PUnit.unit =
      putAll mgr (fun _ => toKey.block) cells := by
    intro cells
    induction cells with
    | nil => rfl
    | cons c cells ih =>
      rw [List.foldlM_cons, putAll]
      congr 1
      funext _
      exact ih
  unfold setBlocks
  simp only [hround, forIn_yield, bind_pure_unit]
  rw [← hall, cellsOf, foldlM_grid]

/-- The round of `replaceBlocks` at a cell. -/
def replaceAt (fromKey toKey : MaterialKey) (n : Int32) (c : Pos) : EStateM Exn σ Int32 := do
  let type := (← mgr.getBlockTypeId c.x c.y c.z).toInt16
  let data := (← mgr.getBlockData c.x c.y c.z).toInt16
  visit mgr toKey c (fromKey.Matches type data) n

theorem replaceBlocks_eq (region : CuboidRegion) (fromKey toKey : MaterialKey) :
    replaceBlocks mgr region fromKey toKey =
      (cellsOf region).foldlM (replaceAt mgr fromKey toKey) 0 := by
  have hround : ∀ x y z (n : Int32), (do
        let type ← mgr.getBlockTypeId x y z
        let data ← mgr.getBlockData x y z
        if fromKey.Matches type.toInt16 data.toInt16 then do
          mgr.setBlockTypeId x y z toKey.typeId.toInt32
          mgr.setBlockData x y z toKey.damage.toInt32
          pure (ForInStep.yield (n + 1))
        else pure (ForInStep.yield n)) = (do
        let n' ← replaceAt mgr fromKey toKey n ⟨x, y, z⟩
        pure (ForInStep.yield n')) := by
    intro x y z n
    simp only [replaceAt, bind_assoc, round_eq]
  unfold replaceBlocks
  simp only [hround, forIn_yield, bind_pure]
  rw [cellsOf, foldlM_grid]

/-- The round of `countBlocks` at a cell. -/
def countAt (counts : Std.HashMap MaterialKey MaterialCount) (c : Pos) :
    EStateM Exn σ (Std.HashMap MaterialKey MaterialCount) := do
  let typeId := (← mgr.getBlockTypeId c.x c.y c.z).toInt16
  let damage := (← mgr.getBlockData c.x c.y c.z).toInt16
  return counted counts ⟨typeId, damage⟩

theorem countBlocks_eq (region : CuboidRegion) :
    countBlocks mgr region = (cellsOf region).foldlM (countAt mgr) ∅ := by
  have hround : ∀ x y z (counts : Std.HashMap MaterialKey MaterialCount), (do
        let typeId ← mgr.getBlockTypeId x y z
        let damage ← mgr.getBlockData x y z
        pure (ForInStep.yield (counted counts ⟨typeId.toInt16, damage.toInt16⟩))) = (do
        let counts' ← countAt mgr counts ⟨x, y, z⟩
        pure (ForInStep.yield counts')) := by
    intro x y z counts
    simp only [countAt, bind_assoc, pure_bind]
  unfold countBlocks
  simp only [hround, forIn_yield, bind_pure]
  rw [cellsOf, foldlM_grid]

end WorldToPE.GeoUtils
