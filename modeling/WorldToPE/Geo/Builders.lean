import WorldToPE.Geo.GeoLoops
import WorldToPE.Geo.Edits
import WorldToPE.Geo.Shortcut

/-!
# WorldToPE.Geo.Builders — the calls of the builders

The five builders of `GeoUtils` as data.  Each of them sets one block at the cells of a list and returns a
number.

* `makeHollowCuboid_eq`: the six slabs of a hollow box as one list of cells.
* `Call.run_eq`: every builder is one pass over a list of cells.
* `Call.makesIff`: when the cells that a builder sets are those of a shape.
-/

namespace WorldToPE

open Java Run

namespace CuboidRegion

variable (R : CuboidRegion)

/-- The last coordinate of a box. -/
def last (a : Axis) : Int32 := R.start a + R.size a - 1

/-- The box with size 1 on an axis, at `v`. -/
def slab (v : Int32) : Axis → CuboidRegion
  | .x => { R with x := v, width := 1 }
  | .y => { R with y := v, height := 1 }
  | .z => { R with z := v, length := 1 }

end CuboidRegion

namespace GeoUtils

open ChunkManager CuboidRegion

/-! ## The slabs as one list -/

/-- The cells of both slabs across an axis. -/
def slabCells (R : CuboidRegion) (a : Axis) : List Pos :=
  cellsOf (R.slab (R.start a) a) ++ cellsOf (R.slab (R.last a) a)

/-- The cells that `makeHollowCuboid` visits: bottom and top, left and right, front and back. -/
def shellCells (R : CuboidRegion) : List Pos := [Axis.y, Axis.x, Axis.z].flatMap (slabCells R)

/-- What `makeHollowCuboid` returns. -/
def slabCount (R : CuboidRegion) : Int32 :=
  (R.slab (R.last .y) .y).getBlockCount * 2 + (R.slab (R.last .x) .x).getBlockCount * 2 +
    (R.slab (R.last .z) .z).getBlockCount * 2

theorem makeHollowCuboid_eq {σ : Type} (mgr : AreaBlockAccess σ) (R : CuboidRegion) (toKey : MaterialKey) :
    makeHollowCuboid mgr R toKey = (do
      putAll mgr (fun _ => toKey.block) (shellCells R)
      return slabCount R) := by
  unfold makeHollowCuboid
  simp only [setBlocks_eq, shellCells, slabCells, List.flatMap_cons, List.flatMap_nil, List.append_nil,
    putAll_append, bind_assoc]
  simp only [slabCount, Int32.zero_add]
  rfl

/-! ## The calls -/

/-- A call of a builder, without its area and its key. -/
inductive Call
  | makeSphere (centerX centerY centerZ radius : Int32) (hollow : Bool)
  | makeDome (centerX centerY centerZ radius : Int32) (hollow : Bool)
  | makeHollowCuboid (region : CuboidRegion)
  | makePyramid (centerX centerY centerZ height : Int32) (hollow : Bool)
  | makeCylinder (center : Vector3f) (radius height : Int32) (hollow : Bool)

namespace Call

def run {σ : Type} (mgr : AreaBlockAccess σ) (toKey : MaterialKey) : Call → EStateM Exn σ Int32
  | .makeSphere x y z radius hollow => GeoUtils.makeSphere mgr x y z radius toKey hollow
  | .makeDome x y z radius hollow => GeoUtils.makeDome mgr x y z radius toKey hollow
  | .makeHollowCuboid region => GeoUtils.makeHollowCuboid mgr region toKey
  | .makePyramid x y z height hollow => GeoUtils.makePyramid mgr x y z height toKey hollow
  | .makeCylinder center radius height hollow =>
    GeoUtils.makeCylinder mgr center radius height toKey hollow

/-- The cells that the call visits, in the order of the visits. -/
def visited : Call → List Pos
  | .makeSphere x y z radius hollow => (sphereCells radius hollow).map (offset x y z)
  | .makeDome x y z radius hollow => (domeCells radius hollow).map (offset x y z)
  | .makeHollowCuboid region => shellCells region
  | .makePyramid x y z height hollow => (pyramidCells height hollow).map (offset x y z)
  | .makeCylinder center radius height hollow =>
    (cylinderCells center.getBlockY radius height hollow).map (offset center.getBlockX 0 center.getBlockZ)

def count : Call → Int32
  | .makeHollowCuboid region => slabCount region
  | call => Int32.ofNat call.visited.length

theorem run_eq {σ : Type} (mgr : AreaBlockAccess σ) (toKey : MaterialKey) (call : Call) :
    call.run mgr toKey = (do
      putAll mgr (fun _ => toKey.block) call.visited
      return call.count) := by
  cases call with
  | makeSphere x y z radius hollow => exact makeSphere_eq mgr x y z radius toKey hollow
  | makeDome x y z radius hollow => exact makeDome_eq mgr x y z radius toKey hollow
  | makeHollowCuboid region => exact makeHollowCuboid_eq mgr region toKey
  | makePyramid x y z height hollow => exact makePyramid_eq mgr x y z height toKey hollow
  | makeCylinder center radius height hollow => exact makeCylinder_eq mgr center radius height toKey hollow

theorem flatMap_edits (toKey : MaterialKey) (cells : List Pos) :
    (cells.flatMap fun c => (editsAt toKey.block c).flatMap fun e => [e]) =
      cells.flatMap (editsAt toKey.block) := by
  simp only [List.flatMap_singleton']

/-- A call that returns has set the block at its cells. -/
theorem of_run_recorded {σ : Type} {mgr : AreaBlockAccess σ} {call : Call} {toKey : MaterialKey}
    {s s' : σ} {n : Int32} {log : List Edit}
    (h : call.run mgr.recorded toKey (s, []) = .ok n (s', log)) :
    log = call.visited.flatMap (editsAt toKey.block) := by
  rw [run_eq] at h
  obtain ⟨_, ⟨t, log1⟩, h1, h2⟩ := bind_eq_ok.mp h
  obtain ⟨-, hst⟩ := EStateM.Result.ok.inj h2
  obtain ⟨-, hlog⟩ := putAll_logged.mp h1
  rw [← (Prod.mk.inj hst).2, hlog, flatMap_edits, List.nil_append]

/-- **In a world that is sound every call returns**, whatever its shortcut is. -/
theorem run_recorded_ok {s : ChunkManager} (hs : Sound s) (call : Call) (toKey : MaterialKey) :
    ∃ s', call.run managerArea.recorded toKey (s, []) =
        .ok call.count (s', call.visited.flatMap (editsAt toKey.block)) ∧
      Sound s' ∧ s'.shown = s.afterPut (fun _ => toKey.block) call.visited := by
  obtain ⟨s', h, hs', hshown⟩ := hs.putAll_shown (fun _ => toKey.block) call.visited
  have hlog : call.visited.flatMap (editsAt toKey.block) =
      [] ++ call.visited.flatMap fun c => (editsAt toKey.block c).flatMap fun e => [e] := by
    rw [flatMap_edits, List.nil_append]
  refine ⟨s', ?_, hs', hshown⟩
  rw [run_eq]
  exact bind_of_ok (putAll_logged.mpr ⟨h, hlog⟩)

/-- The call sets the block at the cells of `S`, at all of them and at no others, if and only if `P` holds: on
every area, if it returns; and in every world reached on a readable database it does. -/
def MakesIff (call : Call) (toKey : MaterialKey) (S : Pos → Prop) (P : Prop) : Prop :=
  (∀ (σ : Type) (mgr : AreaBlockAccess σ) (s s' : σ) (n : Int32) (log : List Edit),
    call.run mgr.recorded toKey (s, []) = .ok n (s', log) → (Sets log S toKey.block ↔ P)) ∧
  ∀ s, Reached s → ∃ n s' log, call.run managerArea.recorded toKey (s, []) = .ok n (s', log)

/-- **What a builder makes** is decided by the cells that it visits. -/
theorem makesIff {call : Call} {S : Pos → Prop} {P : Prop} (toKey : MaterialKey)
    (h : (∀ c, c ∈ call.visited ↔ S c) ↔ P) : call.MakesIff toKey S P := by
  refine ⟨fun σ mgr s s' n log hrun => ?_, fun s hs => ?_⟩
  · rw [of_run_recorded hrun, sets_iff, h]
  · obtain ⟨s', hrun, -⟩ := run_recorded_ok hs.sound call toKey
    exact ⟨_, s', _, hrun⟩

end Call

end GeoUtils

end WorldToPE
