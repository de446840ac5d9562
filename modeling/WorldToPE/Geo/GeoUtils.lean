import WorldToPE.Geo.AreaBlockAccess
import WorldToPE.Data.Entity

/-!
# WorldToPE.Geo.GeoUtils — counting, replacing and building

`geo/GeoUtils.java`, for any area.  A region that is passed is only read: `new CuboidRegion(region)` is a
copy, and `makeHollowCuboid` changes its copies.

Distances are sums of two or three squares of `int`s.  In the source they are `double`s, which hold such
a sum exactly while it is below `2 ^ 53`, as it is for radii whose square is an `int`.
-/

namespace WorldToPE

open Java Run

def Vector3f.getBlockX (v : Vector3f) : Int32 := v.x.toInt32
def Vector3f.getBlockY (v : Vector3f) : Int32 := v.y.toInt32
def Vector3f.getBlockZ (v : Vector3f) : Int32 := v.z.toInt32

structure MaterialCount where
  key : MaterialKey
  count : Int32
deriving DecidableEq, Repr

namespace GeoUtils

variable {σ : Type} (mgr : AreaBlockAccess σ)

/-- One more block of the kind `key`. -/
def counted (counts : Std.HashMap MaterialKey MaterialCount) (key : MaterialKey) :
    Std.HashMap MaterialKey MaterialCount :=
  match counts[key]? with
  | none => counts.insert key ⟨key, 1⟩
  | some oldCount => counts.insert key { oldCount with count := oldCount.count + 1 }

def countBlocks (region : CuboidRegion) : EStateM Exn σ (Std.HashMap MaterialKey MaterialCount) := do
  let mut counts : Std.HashMap MaterialKey MaterialCount := ∅
  for x in intRange region.x (region.x + region.width) do
    for z in intRange region.z (region.z + region.length) do
      for y in intRange region.y (region.y + region.height) do
        let typeId := (← mgr.getBlockTypeId x y z).toInt16
        let damage := (← mgr.getBlockData x y z).toInt16
        counts := counted counts ⟨typeId, damage⟩
  return counts

def replaceBlocks (region : CuboidRegion) (fromKey toKey : MaterialKey) : EStateM Exn σ Int32 := do
  let mut replacedCount : Int32 := 0
  for x in intRange region.x (region.x + region.width) do
    for z in intRange region.z (region.z + region.length) do
      for y in intRange region.y (region.y + region.height) do
        let type := (← mgr.getBlockTypeId x y z).toInt16
        let data := (← mgr.getBlockData x y z).toInt16
        if fromKey.Matches type data then
          mgr.setBlockTypeId x y z toKey.typeId.toInt32
          mgr.setBlockData x y z toKey.damage.toInt32
          replacedCount := replacedCount + 1
  return replacedCount

def setBlocks (region : CuboidRegion) (toKey : MaterialKey) : EStateM Exn σ Unit := do
  for x in intRange region.x (region.x + region.width) do
    for z in intRange region.z (region.z + region.length) do
      for y in intRange region.y (region.y + region.height) do
        mgr.setBlockTypeId x y z toKey.typeId.toInt32
        mgr.setBlockData x y z toKey.damage.toInt32

/-- `Math.pow((double) k, 2)`. -/
def pow2 (k : Int32) : ℤ := k.toInt ^ 2

/-- The test of the round builders on the squared distance. -/
def OnShape (distFromCenter : ℤ) (radius : Int32) (hollow : Bool) : Prop :=
  let radiusSquared := radius * radius
  let hollowRadiusSquared := (radius - 1) * (radius - 1)
  distFromCenter ≤ radiusSquared.toInt ∧
    (hollow = false ∨ distFromCenter ≥ hollowRadiusSquared.toInt)

instance (distFromCenter : ℤ) (radius : Int32) (hollow : Bool) :
    Decidable (OnShape distFromCenter radius hollow) := inferInstanceAs (Decidable (_ ∧ _))

def makeSphere (centerX centerY centerZ radius : Int32) (toKey : MaterialKey) (hollow : Bool) :
    EStateM Exn σ Int32 := do
  let mut replacedCount : Int32 := 0
  for x in intRange (-radius) radius do
    for z in intRange (-radius) radius do
      for y in intRange (-radius) radius do
        let distFromCenter := pow2 x + pow2 y + pow2 z
        if OnShape distFromCenter radius hollow then
          mgr.setBlockTypeId (centerX + x) (centerY + y) (centerZ + z) toKey.typeId.toInt32
          mgr.setBlockData (centerX + x) (centerY + y) (centerZ + z) toKey.damage.toInt32
          replacedCount := replacedCount + 1
  return replacedCount

/-- `makeSphere` with a vector as its center. -/
def makeSphereAt (center : Vector3f) (radius : Int32) (toKey : MaterialKey) (hollow : Bool) :
    EStateM Exn σ Int32 :=
  makeSphere mgr center.getBlockX center.getBlockY center.getBlockZ radius toKey hollow

def makeDome (centerX centerY centerZ radius : Int32) (toKey : MaterialKey) (hollow : Bool) :
    EStateM Exn σ Int32 := do
  let mut replacedCount : Int32 := 0
  for x in intRange (-radius) radius do
    for z in intRange (-radius) radius do
      for y in intRange 0 radius do
        let distFromCenter := pow2 x + pow2 y + pow2 z
        if OnShape distFromCenter radius hollow then
          mgr.setBlockTypeId (centerX + x) (centerY + y) (centerZ + z) toKey.typeId.toInt32
          mgr.setBlockData (centerX + x) (centerY + y) (centerZ + z) toKey.damage.toInt32
          replacedCount := replacedCount + 1
  return replacedCount

/-- `makeDome` with a vector as its center. -/
def makeDomeAt (center : Vector3f) (radius : Int32) (toKey : MaterialKey) (hollow : Bool) :
    EStateM Exn σ Int32 :=
  makeDome mgr center.getBlockX center.getBlockY center.getBlockZ radius toKey hollow

def makeHollowCuboid (region : CuboidRegion) (toKey : MaterialKey) : EStateM Exn σ Int32 := do
  let mut replacedCount : Int32 := 0
  let mut temp : CuboidRegion := region
  temp := { temp with height := 1 }
  -- bottom
  setBlocks mgr temp toKey
  temp := { temp with y := region.y + region.height - 1 }
  -- top
  setBlocks mgr temp toKey
  replacedCount := replacedCount + temp.getBlockCount * 2
  temp := region
  temp := { temp with width := 1 }
  -- left
  setBlocks mgr temp toKey
  temp := { temp with x := region.x + region.width - 1 }
  -- right
  setBlocks mgr temp toKey
  replacedCount := replacedCount + temp.getBlockCount * 2
  temp := region
  temp := { temp with length := 1 }
  -- front
  setBlocks mgr temp toKey
  temp := { temp with z := region.z + region.length - 1 }
  -- back
  setBlocks mgr temp toKey
  replacedCount := replacedCount + temp.getBlockCount * 2
  return replacedCount

/-- The test of `makePyramid` in a layer with half-width `s`. -/
def OnLayer (s x z : Int32) (hollow : Bool) : Prop :=
  let sh := s - 1
  hollow = false ∨ x ≤ -sh + 1 ∨ x ≥ sh ∨ z ≤ -sh + 1 ∨ z ≥ sh

instance (s x z : Int32) (hollow : Bool) : Decidable (OnLayer s x z hollow) :=
  inferInstanceAs (Decidable (_ ∨ _))

/-- `makePyramid`, for a height below the greatest `int`: the loop `y <= height` of the source does not
end for that one. -/
def makePyramid (centerX centerY centerZ height : Int32) (toKey : MaterialKey) (hollow : Bool) :
    EStateM Exn σ Int32 := do
  let mut replacedCount : Int32 := 0
  for y in intRange 0 (height + 1) do
    let s := height - y
    for x in intRange (-s + 1) s do
      for z in intRange (-s + 1) s do
        if OnLayer s x z hollow then
          mgr.setBlockTypeId (centerX + x) (centerY + y) (centerZ + z) toKey.typeId.toInt32
          mgr.setBlockData (centerX + x) (centerY + y) (centerZ + z) toKey.damage.toInt32
          replacedCount := replacedCount + 1
  return replacedCount

/-- `makePyramid` with a vector as its center. -/
def makePyramidAt (center : Vector3f) (height : Int32) (toKey : MaterialKey) (hollow : Bool) :
    EStateM Exn σ Int32 :=
  makePyramid mgr center.getBlockX center.getBlockY center.getBlockZ height toKey hollow

def makeCylinder (center : Vector3f) (radius height : Int32) (toKey : MaterialKey) (hollow : Bool) :
    EStateM Exn σ Int32 := do
  let centerX := center.getBlockX
  let centerY := center.getBlockY
  let centerZ := center.getBlockZ
  let mut replacedCount : Int32 := 0
  for x in intRange (-radius) radius do
    for z in intRange (-radius) radius do
      let distFromCenter := pow2 x + pow2 z
      if OnShape distFromCenter radius hollow then
        for y in intRange centerY (centerY + height) do
          mgr.setBlockTypeId (centerX + x) y (centerZ + z) toKey.typeId.toInt32
          mgr.setBlockData (centerX + x) y (centerZ + z) toKey.damage.toInt32
          replacedCount := replacedCount + 1
  return replacedCount

end GeoUtils

end WorldToPE
