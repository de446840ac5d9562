import WorldToPE.Geo.HollowCuboid

/-!
# WorldToPE.Geo.ReportedCount — the counts that the builders return

The builders count the blocks they place.  `makeSphere`, `makeDome`, `makeCylinder` and `makePyramid` count
while they visit the cells, each of them once; `makeHollowCuboid` adds the volumes of its six slabs, which
have the edges of the box in common.

* `AreaBlockAccess.traced`: an area that keeps the cells on which `setBlockTypeId` is called;
  `putAll_traced`: for a pass these are the cells of its list.
* `nodup_shellCells_iff`: the slabs are disjoint if and only if the box is empty.
* `reportedCount_iff`: when the count is the number of cells.
-/

namespace WorldToPE

open Java Run

/-! ## Calls that are kept -/

section Traced

variable {σ : Type} (mgr : AreaBlockAccess σ)

/-- The area together with the cells on which `setBlockTypeId` was called. -/
def AreaBlockAccess.traced : AreaBlockAccess (σ × List Pos) where
  getBlockTypeId x y z := onFst (mgr.getBlockTypeId x y z)
  getBlockData x y z := onFst (mgr.getBlockData x y z)
  setBlockTypeId x y z type := do
    onSnd (modify fun log => log ++ [⟨x, y, z⟩])
    onFst (mgr.setBlockTypeId x y z type)
  setBlockData x y z data := onFst (mgr.setBlockData x y z data)

/-- Of a call the cell, if it sets a type. -/
def typeCells : Edit → List Pos
  | .setBlockTypeId d _ => [d]
  | .setBlockData _ _ => []

theorem traced_eq : mgr.traced = mgr.logged typeCells := by
  -- a call that sets data adds nothing
  have hdata : ∀ x y z data, onFst (mgr.setBlockData x y z data) =
      (do onSnd (modify fun log => log ++ typeCells (.setBlockData ⟨x, y, z⟩ data))
          onFst (mgr.setBlockData x y z data) : EStateM Exn (σ × List Pos) Unit) := by
    intro x y z data
    funext p
    have hnil : onSnd (modify fun log => log ++ typeCells (.setBlockData ⟨x, y, z⟩ data)) p =
        (.ok () p : EStateM.Result Exn (σ × List Pos) PUnit) :=
      onSnd_of_ok (by rw [modify_apply, typeCells, List.append_nil]) p.1
    rw [bind_of_ok hnil]
  unfold AreaBlockAccess.traced AreaBlockAccess.logged
  congr 1
  funext x y z data
  exact hdata x y z data

variable {mgr}

/-- **The cells that are kept** are those of the list, in its order. -/
theorem putAll_traced {s s' : σ} {b : Pos → Block} {cells log log' : List Pos} :
    putAll mgr.traced b cells (s, log) = .ok () (s', log') ↔
      putAll mgr b cells s = .ok () s' ∧ log' = log ++ cells := by
  have hcells : (cells.flatMap fun c => (editsAt (b c) c).flatMap typeCells) = cells := by
    simp [editsAt, typeCells]
  rw [traced_eq, putAll_logged, hcells]

end Traced

namespace GeoUtils

open ChunkManager CuboidRegion

/-! ## The slabs of a hollow box -/

/-- Half the surface of a box. -/
def halfSurface (width height length : ℤ) : ℤ := width * length + height * length + width * height

section Slabs

variable {R : CuboidRegion} (hfit : SlabsFit R)
include hfit

/-- The number of coordinates on an axis. -/
theorem length_extent (a : Axis) :
    ((intRange (R.start a) (R.far a)).length : ℤ) = max 0 (R.size a).toInt := by
  rw [length_intRange, toInt_far_of_fit hfit a]
  omega

/-- The same for a slab: there is one coordinate across it. -/
theorem length_extent_slab {v : Int32} (hv : v.toInt + 1 < 2 ^ 31) (a b : Axis) :
    ((intRange ((R.slab v a).start b) ((R.slab v a).far b)).length : ℤ) =
      if b = a then 1 else max 0 (R.size b).toInt := by
  split_ifs with hb
  · subst hb
    rw [start_slab, far_slab, length_intRange, toInt_succ hv]
    omega
  · rw [start_slab_of_ne hb, far_slab_of_ne hb, length_extent hfit b]

theorem length_slab {v : Int32} (hv : v.toInt + 1 < 2 ^ 31) (a : Axis) :
    ((cellsOf (R.slab v a)).length : ℤ) = (if Axis.x = a then 1 else max 0 R.width.toInt) *
      ((if Axis.z = a then 1 else max 0 R.length.toInt) *
        if Axis.y = a then 1 else max 0 R.height.toInt) := by
  rw [length_cellsOf_ranges]
  push_cast
  rw [length_extent_slab hfit hv, length_extent_slab hfit hv, length_extent_slab hfit hv]
  rfl

theorem length_shellCells : ((shellCells R).length : ℤ) =
    2 * halfSurface (max 0 R.width.toInt) (max 0 R.height.toInt) (max 0 R.length.toInt) := by
  simp only [shellCells, List.flatMap_cons, List.flatMap_nil, List.append_nil, List.length_append]
  push_cast
  have hslabs : ∀ a, ((slabCells R a).length : ℤ) =
      2 * (cellsOf (R.slab (R.start a) a)).length := by
    intro a
    obtain ⟨h1, -, h2⟩ := hfit a
    have hlast : (R.last a).toInt + 1 < 2 ^ 31 := by
      rw [toInt_last_of_fit hfit a]
      omega
    rw [slabCells, List.length_append]
    push_cast
    rw [length_slab hfit h1, length_slab hfit hlast]
    ring
  rw [hslabs, hslabs, hslabs, length_slab hfit (hfit .y).1, length_slab hfit (hfit .x).1,
    length_slab hfit (hfit .z).1, halfSurface]
  simp only [reduceCtorEq, if_true, if_false]
  ring

/-- A slab across an axis of an empty box has cells only if the other sizes are positive. -/
theorem slabCells_of_empty {a d : Axis} (hd : (R.size d).toInt ≤ 0) (hne : d ≠ a) :
    slabCells R a = [] := by
  have hnil : ∀ v, cellsOf (R.slab v a) = [] := by
    intro v
    refine List.eq_nil_iff_forall_not_mem.mpr fun c hc => ?_
    have h := lies_iff.mp (mem_cellsOf.mp hc) d
    rw [start_slab_of_ne hne, far_slab_of_ne hne, toInt_far_of_fit hfit d] at h
    omega
  rw [slabCells, hnil, hnil, List.append_nil]

/-- The slabs across an empty axis are beside each other. -/
theorem nodup_slabCells {d : Axis} (hd : (R.size d).toInt ≤ 0) : (slabCells R d).Nodup := by
  have hon : ∀ {v : Int32}, v.toInt + 1 < 2 ^ 31 → ∀ {c}, c ∈ cellsOf (R.slab v d) →
      (c.on d).toInt = v.toInt := by
    intro v hv c hc
    have h := lies_iff.mp (mem_cellsOf.mp hc) d
    rw [start_slab, far_slab, toInt_succ hv] at h
    omega
  have hlast := toInt_last_of_fit hfit d
  obtain ⟨h1, h2, h3⟩ := hfit d
  refine List.nodup_append'.mpr ⟨nodup_cellsOf _, nodup_cellsOf _, fun c hc hc' => ?_⟩
  have e1 := hon h1 hc
  have e2 := hon (by omega) hc'
  omega

/-- **The slabs are disjoint** if and only if the box is empty: else they share a corner. -/
theorem nodup_shellCells_iff : (shellCells R).Nodup ↔ ¬ R.Positive := by
  constructor
  · intro h hpos
    have hfits : R.Fits := fun a => (hfit a).2.2
    have hcorner : R.Lies ⟨R.x, R.y, R.z⟩ := by
      rw [lies_iff]
      intro a
      have h1 := hpos a
      have hon : Pos.on ⟨R.x, R.y, R.z⟩ a = R.start a := by
        cases a <;> rfl
      rw [hon, toInt_far_of_fit hfit a]
      omega
    have hdisj := (List.pairwise_cons.mp (List.nodup_flatMap.mp h).2).1 .x List.mem_cons_self
    refine hdisj (a := ⟨R.x, R.y, R.z⟩) ?_ ?_
    · exact (mem_slabCells hpos hfits .y).mpr ⟨hcorner, Or.inl rfl⟩
    · exact (mem_slabCells hpos hfits .x).mpr ⟨hcorner, Or.inl rfl⟩
  · intro hpos
    obtain ⟨d, hd⟩ := not_forall.mp hpos
    have hd' : (R.size d).toInt ≤ 0 := not_lt.mp hd
    have haxes : [Axis.y, Axis.x, Axis.z].Nodup := by decide
    refine List.nodup_flatMap.mpr ⟨fun a _ => ?_, haxes.pairwise_of_forall_ne fun a _ b _ hab => ?_⟩
    · by_cases ha : d = a
      · rw [← ha]
        exact nodup_slabCells hfit hd'
      · rw [slabCells_of_empty hfit hd' ha]
        exact List.nodup_nil
    · -- only the slabs across `d` have cells
      intro c hca hcb
      by_cases ha : d = a
      · have hb : d ≠ b := fun h => hab (ha.symm.trans h)
        rw [slabCells_of_empty hfit hd' hb] at hcb
        exact List.not_mem_nil hcb
      · rw [slabCells_of_empty hfit hd' ha] at hca
        exact List.not_mem_nil hca

end Slabs

/-- The count of `makeHollowCuboid` is the surface of the box. -/
theorem toInt_slabCount {R : CuboidRegion}
    (h1 : -2 ^ 31 ≤ 2 * halfSurface R.width.toInt R.height.toInt R.length.toInt)
    (h2 : 2 * halfSurface R.width.toInt R.height.toInt R.length.toInt < 2 ^ 31) :
    (slabCount R).toInt = 2 * halfSurface R.width.toInt R.height.toInt R.length.toInt := by
  have hcount : slabCount R =
      Int32.ofInt (2 * halfSurface R.width.toInt R.height.toInt R.length.toInt) := by
    have htwo : Int32.ofInt 2 = 2 := rfl
    simp only [halfSurface, Int32.ofInt_mul, Int32.ofInt_add, Int32.ofInt_toInt, htwo]
    show R.width * 1 * R.length * 2 + 1 * R.height * R.length * 2 + R.width * R.height * 1 * 2 = _
    grind
  rw [hcount, Int32.toInt_ofInt_of_le h1 h2]

/-! ## The builders -/

namespace Call

/-- The `int`s that the count depends on do not overflow: the counter, for a pyramid also the number of its
layers, for a hollow box its corners and its surface. -/
def Fits : Call → Prop
  | .makeHollowCuboid R => SlabsFit R ∧
      -2 ^ 31 ≤ 2 * halfSurface R.width.toInt R.height.toInt R.length.toInt ∧
      2 * halfSurface R.width.toInt R.height.toInt R.length.toInt < 2 ^ 31
  | .makePyramid x y z height hollow =>
      height.toInt + 1 < 2 ^ 31 ∧ (Call.makePyramid x y z height hollow).visited.length < 2 ^ 31
  | call => call.visited.length < 2 ^ 31

/-- Only of a hollow box is this false in general: it is true of boxes that are empty and whose surface is
as if negative sizes were zero. -/
def CountsOnce : Call → Prop
  | .makeHollowCuboid R => ¬ R.Positive ∧
      halfSurface R.width.toInt R.height.toInt R.length.toInt =
        halfSurface (max 0 R.width.toInt) (max 0 R.height.toInt) (max 0 R.length.toInt)
  | _ => True

end Call

theorem nodup_filter_grid {xs zs ys : List Int32} (hx : xs.Nodup) (hz : zs.Nodup) (hy : ys.Nodup)
    (p : Pos → Bool) (x y z : Int32) : (((grid xs zs ys).filter p).map (offset x y z)).Nodup :=
  ((nodup_grid hx hz hy).filter p).map (offset_injective x y z)

/-- The layers of a pyramid have no cell in common. -/
theorem nodup_pyramidCells (height : Int32) (hollow : Bool) : (pyramidCells height hollow).Nodup := by
  refine List.Nodup.filter _ (List.nodup_flatMap.mpr ⟨fun y _ => ?_, ?_⟩)
  · exact nodup_grid (nodup_intRange _ _) (nodup_intRange _ _) (List.nodup_singleton y)
  · refine (nodup_intRange _ _).imp fun hne c h h' => ?_
    have e1 := List.mem_singleton.mp (mem_grid.mp h).2.2
    have e2 := List.mem_singleton.mp (mem_grid.mp h').2.2
    exact hne (e1.symm.trans e2)

/-- A count of visits is true if no cell is visited twice. -/
theorem toInt_ofNat_length {cells : List Pos} (hnodup : cells.Nodup) (hlen : cells.length < 2 ^ 31) :
    (Int32.ofNat cells.length).toInt = cells.toFinset.card := by
  rw [Int32.toInt_ofNat_of_lt hlen, List.toFinset_card_of_nodup hnodup]

theorem count_eq_iff {call : Call} (h : call.Fits) :
    call.count.toInt = call.visited.toFinset.card ↔ call.CountsOnce := by
  cases call with
  | makeSphere x y z radius hollow =>
    refine iff_of_true (toInt_ofNat_length ?_ h) trivial
    exact nodup_filter_grid (nodup_intRange _ _) (nodup_intRange _ _) (nodup_intRange _ _) _ x y z
  | makeDome x y z radius hollow =>
    refine iff_of_true (toInt_ofNat_length ?_ h) trivial
    exact nodup_filter_grid (nodup_intRange _ _) (nodup_intRange _ _) (nodup_intRange _ _) _ x y z
  | makePyramid x y z height hollow =>
    refine iff_of_true (toInt_ofNat_length ?_ h.2) trivial
    exact (nodup_pyramidCells height hollow).map (offset_injective x y z)
  | makeCylinder center radius height hollow =>
    refine iff_of_true (toInt_ofNat_length ?_ h) trivial
    exact nodup_filter_grid (nodup_intRange _ _) (nodup_intRange _ _) (nodup_intRange _ _) _ _ _ _
  | makeHollowCuboid R =>
    obtain ⟨hfit, h1, h2⟩ := h
    have hlen := length_shellCells hfit
    have hnodup := nodup_shellCells_iff hfit
    show (slabCount R).toInt = (shellCells R).toFinset.card ↔ _ ∧ _
    rw [toInt_slabCount h1 h2]
    by_cases hpos : R.Positive
    · -- a corner is visited more than once, so that there are fewer cells than visits
      have hlt : (shellCells R).toFinset.card < (shellCells R).length := by
        rw [List.card_toFinset]
        refine lt_of_le_of_ne (List.dedup_sublist _).length_le fun heq => ?_
        exact hnodup.mp (List.dedup_eq_self.mp ((List.dedup_sublist _).eq_of_length heq)) hpos
      have hsize : ∀ a, max 0 (R.size a).toInt = (R.size a).toInt := fun a => max_eq_right (hpos a).le
      have hx := hsize .x
      have hy := hsize .y
      have hz := hsize .z
      simp only [size] at hx hy hz
      rw [hx, hy, hz] at hlen
      exact iff_of_false (by omega) fun h => h.1 hpos
    · rw [List.toFinset_card_of_nodup (hnodup.mpr hpos), hlen, and_iff_right hpos]
      exact mul_right_inj' two_ne_zero

/-- A call that returns has visited its cells and returns its count. -/
theorem Call.of_run_traced {σ : Type} {mgr : AreaBlockAccess σ} {call : Call} {toKey : MaterialKey}
    {s s' : σ} {n : Int32} {log : List Pos}
    (h : call.run mgr.traced toKey (s, []) = .ok n (s', log)) : n = call.count ∧ log = call.visited := by
  rw [run_eq] at h
  obtain ⟨_, ⟨t, log1⟩, h1, h2⟩ := bind_eq_ok.mp h
  obtain ⟨rfl, hst⟩ := EStateM.Result.ok.inj h2
  exact ⟨rfl, (Prod.mk.inj hst).2.symm.trans (putAll_traced.mp h1).2⟩

/-- In a world that is sound every call returns, whatever its shortcut is. -/
theorem Call.run_traced_ok {s : ChunkManager} (hs : Sound s) (call : Call) (toKey : MaterialKey) :
    ∃ s', call.run managerArea.traced toKey (s, []) = .ok call.count (s', call.visited) := by
  obtain ⟨s', h, -⟩ := hs.putAll_shown (fun _ => toKey.block) call.visited
  refine ⟨s', ?_⟩
  rw [run_eq]
  exact bind_of_ok (putAll_traced.mpr ⟨h, rfl⟩)

/-- **The reported count** is the number of the cells on which `setBlockTypeId` was called, if and only if
the call is not one for a hollow box, or is one for an empty box whose surface is as if negative sizes were
zero: for every area, if the call returns; and in every world reached on a readable database it does. -/
theorem reportedCount_iff (call : Call) (hfits : call.Fits) (toKey : MaterialKey) :
    (∀ (σ : Type) (mgr : AreaBlockAccess σ) (s s' : σ) (n : Int32) (log : List Pos),
      call.run mgr.traced toKey (s, []) = .ok n (s', log) →
        (n.toInt = log.toFinset.card ↔ call.CountsOnce)) ∧
    ∀ s, Reached s → ∃ n s' log, call.run managerArea.traced toKey (s, []) = .ok n (s', log) := by
  constructor
  · intro σ mgr s s' n log h
    obtain ⟨rfl, rfl⟩ := Call.of_run_traced h
    exact count_eq_iff hfits
  · intro s hs
    obtain ⟨s', h⟩ := Call.run_traced_ok hs.sound call toKey
    exact ⟨_, s', _, h⟩

/-- A ball of radius 1: the count of its cells is returned. -/
theorem reportedCount_ball : ∃ n s' log,
    (Call.makeSphere 0 64 0 1 false).run managerArea.traced ⟨1, 0⟩ (oneBlock, []) = .ok n (s', log) ∧
      n.toInt = log.toFinset.card := by
  obtain ⟨htrue, hreturns⟩ := reportedCount_iff (.makeSphere 0 64 0 1 false)
    (show ((sphereCells 1 false).map _).length < 2 ^ 31 by decide) ⟨1, 0⟩
  obtain ⟨n, s', log, h⟩ := hreturns oneBlock oneBlock_spec.1
  exact ⟨n, s', log, h, (htrue _ _ _ _ _ _ h).mpr trivial⟩

/-- The surface of one block is 6. -/
theorem not_reportedCount_block : Reached (opened ∅) ∧ (Call.makeHollowCuboid ⟨0, 64, 0, 1, 1, 1⟩).Fits ∧
    ∃ n s' log, (Call.makeHollowCuboid ⟨0, 64, 0, 1, 1, 1⟩).run managerArea.traced ⟨1, 0⟩ (opened ∅, []) =
      .ok n (s', log) ∧ n = 6 ∧ log.toFinset = {⟨0, 64, 0⟩} := by
  have hs := reached_opened recordsOk_empty
  obtain ⟨s', h⟩ := Call.run_traced_ok hs.sound (.makeHollowCuboid ⟨0, 64, 0, 1, 1, 1⟩) ⟨1, 0⟩
  exact ⟨hs, ⟨fun a => by cases a <;> decide, by decide, by decide⟩, _, s', _, h, by decide, by decide⟩

end GeoUtils

end WorldToPE
