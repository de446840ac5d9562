import WorldToPE.Data.EntityStore

/-!
# WorldToPE.Data.TileEntity — tile entities and their compounds

The `tileentity` package with its stores.  The class of a tile entity is found by its id, in any
letter case; an id without a class gives a plain `TileEntity`.
-/

namespace WorldToPE

open Java

/-- The fields of `MobSpawnerTileEntity`. -/
structure SpawnerFields where
  delay : Int16
  entityId : Int32
  maxNearbyEntities : Int16
  maxSpawnDelay : Int16
  minSpawnDelay : Int16
  requiredPlayerRange : Int16
  spawnCount : Int16
  spawnRange : Int16
deriving DecidableEq

/-- The fields of a tile entity that its class adds to those of `TileEntity`.  The items of a container
are `null` at first. -/
inductive TileFields
  | tile
  | chest (items : Option (List InventorySlot)) (pairx pairz : Int32)
  | furnace (items : Option (List InventorySlot)) (burnTime cookTime : Int16)
  | netherReactor (isInitialized : Bool) (progress : Int16) (hasFinished : Bool)
  | sign (lines : Vector String 4)
  | mobSpawner (s : SpawnerFields)

structure TileEntity where
  id : Option String
  x : Int32
  y : Int32
  z : Int32
  fields : TileFields

namespace TileFields

/-- The items, if the object is a `ContainerTileEntity`. -/
def items? : TileFields → Option (Option (List InventorySlot))
  | .chest items _ _ => some items
  | .furnace items _ _ => some items
  | _ => none

def setItems : TileFields → List InventorySlot → TileFields
  | .chest _ px pz, items => .chest (some items) px pz
  | .furnace _ b c, items => .furnace (some items) b c
  | f, _ => f

end TileFields

namespace NBTConverter

/-! ## The layers of the stores -/

/-- A class of a tile entity store, as `StoreLayer`. -/
structure TileStoreLayer where
  load : TileFields → Tag → Except Exn (Option TileFields)
  save : TileFields → Except Exn (List Tag)

def containerLayer : TileStoreLayer where
  load f t := do
    let _ ← castTo f.items?
    if t.name = "Items" then return f.setItems (← readInventory t) else return none
  save f := do
    match ← castTo f.items? with
    | some items => return [writeInventory items "Items"]
    | none => throw .nullPointer

def chestLayer : TileStoreLayer where
  load
    | .chest items pairx pairz, t => do
      if t.name = "pairx" then return some (.chest items (← intOf t) pairz)
      else if t.name = "pairz" then return some (.chest items pairx (← intOf t))
      else return none
    | _, _ => throw .classCast
  save
    | .chest _ pairx pairz =>
      return if pairx ≠ -65535 then [.int "pairx" pairx, .int "pairz" pairz] else []
    | _ => throw .classCast

def furnaceLayer : TileStoreLayer where
  load
    | .furnace items burnTime cookTime, t => do
      if t.name = "BurnTime" then return some (.furnace items (← shortOf t) cookTime)
      else if t.name = "CookTime" then return some (.furnace items burnTime (← shortOf t))
      else return none
    | _, _ => throw .classCast
  save
    | .furnace _ burnTime cookTime => return [.short "BurnTime" burnTime, .short "CookTime" cookTime]
    | _ => throw .classCast

def netherReactorLayer : TileStoreLayer where
  load
    | .netherReactor isInitialized progress hasFinished, t => do
      if t.name = "HasFinished" then
        return some (.netherReactor isInitialized progress (← flagOf t))
      else if t.name = "IsInitialized" then
        return some (.netherReactor (← flagOf t) progress hasFinished)
      else if t.name = "Progress" then
        return some (.netherReactor isInitialized (← shortOf t) hasFinished)
      else return none
    | _, _ => throw .classCast
  save
    | .netherReactor isInitialized progress hasFinished =>
      return [flagTag "HasFinished" hasFinished, flagTag "IsInitialized" isInitialized,
        .short "Progress" progress]
    | _ => throw .classCast

def signLayer : TileStoreLayer where
  load
    | .sign lines, t => do
      if t.name = "Text1" then return some (.sign (lines.set 0 (← Tag.asString (some t))))
      else if t.name = "Text2" then return some (.sign (lines.set 1 (← Tag.asString (some t))))
      else if t.name = "Text3" then return some (.sign (lines.set 2 (← Tag.asString (some t))))
      else if t.name = "Text4" then return some (.sign (lines.set 3 (← Tag.asString (some t))))
      else return none
    | _, _ => throw .classCast
  save
    | .sign lines => return [.string "Text1" lines[0], .string "Text2" lines[1],
        .string "Text3" lines[2], .string "Text4" lines[3]]
    | _ => throw .classCast

def mobSpawnerLayer : TileStoreLayer where
  load
    | .mobSpawner s, t => do
      if t.name = "Delay" then return some (.mobSpawner { s with delay := ← shortOf t })
      else if t.name = "EntityId" then return some (.mobSpawner { s with entityId := ← intOf t })
      else if t.name = "MaxNearbyEntities" then
        return some (.mobSpawner { s with maxNearbyEntities := ← shortOf t })
      else if t.name = "MaxSpawnDelay" then
        return some (.mobSpawner { s with maxSpawnDelay := ← shortOf t })
      else if t.name = "MinSpawnDelay" then
        return some (.mobSpawner { s with minSpawnDelay := ← shortOf t })
      else if t.name = "RequiredPlayerRange" then
        return some (.mobSpawner { s with requiredPlayerRange := ← shortOf t })
      else if t.name = "SpawnCount" then return some (.mobSpawner { s with spawnCount := ← shortOf t })
      else if t.name = "SpawnRange" then return some (.mobSpawner { s with spawnRange := ← shortOf t })
      else return none
    | _, _ => throw .classCast
  save
    | .mobSpawner s => return [.short "Delay" s.delay, .int "EntityId" s.entityId,
        .short "MaxNearbyEntities" s.maxNearbyEntities, .short "MaxSpawnDelay" s.maxSpawnDelay,
        .short "MinSpawnDelay" s.minSpawnDelay, .short "RequiredPlayerRange" s.requiredPlayerRange,
        .short "SpawnCount" s.spawnCount, .short "SpawnRange" s.spawnRange]
    | _ => throw .classCast

/-! ## Classes and stores by id -/

/-- The upper case of a character as far as the ids below need it: of the letters behind `z` only
`U+0131`, `U+017F`, `U+FB05` and `U+FB06` have an upper case that occurs in them. -/
def upperChar (c : Char) : List Char :=
  if c.val = 0x131 then ['I']
  else if c.val = 0x17F then ['S']
  else if c.val = 0xFB05 ∨ c.val = 0xFB06 then ['S', 'T']
  else [c.toUpper]

/-- `id.toUpperCase()`. -/
def upperCase (id : String) : String := String.ofList (id.toList.flatMap upperChar)

/-- A store: the layers above `TileEntityStore`, from the base up. -/
abbrev TileEntityStore := List TileStoreLayer

def ContainerTileEntityStore : TileEntityStore := [containerLayer]
def FurnaceTileEntityStore : TileEntityStore := ContainerTileEntityStore ++ [furnaceLayer]
def ChestTileEntityStore : TileEntityStore := ContainerTileEntityStore ++ [chestLayer]
def NetherReactorTileEntityStore : TileEntityStore := [netherReactorLayer]
def SignTileEntityStore : TileEntityStore := [signLayer]
def MobSpawnerTileEntityStore : TileEntityStore := [mobSpawnerLayer]

/-- `TileEntityStoreLookupService`: the store and the fields of a new object of the class. -/
def tileStores : List (String × TileEntityStore × TileFields) := [
  ("FURNACE", FurnaceTileEntityStore, .furnace none 0 0),
  ("CHEST", ChestTileEntityStore, .chest none (-65535) (-65535)),
  ("NETHERREACTOR", NetherReactorTileEntityStore, .netherReactor false 0 false),
  ("SIGN", SignTileEntityStore, .sign (Vector.replicate 4 "")),
  ("MOBSPAWNER", MobSpawnerTileEntityStore, .mobSpawner ⟨20, 0, 6, 200, 200, 16, 4, 4⟩)]

/-- `getStoreById`, or the default store. -/
def tileStoreById (id : String) : TileEntityStore :=
  match tileStores.find? fun p => p.1 = upperCase id with
  | some p => p.2.1
  | none => []

def createTileEntityById (id : String) : TileEntity :=
  match tileStores.find? fun p => p.1 = upperCase id with
  | some p => ⟨none, 0, 0, 0, p.2.2⟩
  | none => ⟨none, 0, 0, 0, .tile⟩

/-! ## Loading and saving -/

/-- The layers of a store, from the most derived one down. -/
def loadTileLayers (f : TileFields) (t : Tag) : List TileStoreLayer → Except Exn (Option TileFields)
  | [] => return none
  | layer :: layers => do
    match ← layer.load f t with
    | some f' => return some f'
    | none => loadTileLayers f t layers

/-- `loadTag` of a store. -/
def loadTileTag (store : TileEntityStore) (e : TileEntity) (t : Tag) : Except Exn TileEntity := do
  match ← loadTileLayers e.fields t store.reverse with
  | some f => return { e with fields := f }
  | none =>
    if t.name = "x" then return { e with x := ← intOf t }
    else if t.name = "y" then return { e with y := ← intOf t }
    else if t.name = "z" then return { e with z := ← intOf t }
    else if t.name = "id" then return { e with id := some (← Tag.asString (some t)) }
    else return e

def readTileEntity (id : String) (tags : List Tag) : Except Exn TileEntity :=
  tags.foldlM (loadTileTag (tileStoreById id)) { createTileEntityById id with id := some id }

/-- `readSingleTileEntity((CompoundTag) tag)`: `null` if there is no id. -/
def readSingleTileEntity (tag : Tag) : Except Exn (Option TileEntity) := do
  let tags ← Tag.asCompound (some tag)
  match tags.find? fun t => t.name = "id" with
  | none => return none
  | some t => return some (← readTileEntity (← Tag.asString (some t)) tags)

def writeTileEntity (e : TileEntity) : Except Exn Tag := do
  match e.id with
  | none => throw .nullPointer
  | some id =>
    let own ← (tileStoreById id).mapM fun layer => layer.save e.fields
    return .compound "" (sortByName
      ([.string "id" id, .int "x" e.x, .int "y" e.y, .int "z" e.z] ++ own.flatten))

/-! ## The components of an object -/

/-- The tags that the store of the class adds to those of `TileEntityStore`. -/
def ownTileTags : TileFields → List Tag
  | .tile => []
  | .chest i px pz => [writeInventory (i.getD []) "Items"] ++
      if px ≠ -65535 then [.int "pairx" px, .int "pairz" pz] else []
  | .furnace i b c => [writeInventory (i.getD []) "Items", .short "BurnTime" b, .short "CookTime" c]
  | .netherReactor i p f => [flagTag "HasFinished" f, flagTag "IsInitialized" i, .short "Progress" p]
  | .sign l => [.string "Text1" l[0], .string "Text2" l[1], .string "Text3" l[2], .string "Text4" l[3]]
  | .mobSpawner s => [.short "Delay" s.delay, .int "EntityId" s.entityId,
      .short "MaxNearbyEntities" s.maxNearbyEntities, .short "MaxSpawnDelay" s.maxSpawnDelay,
      .short "MinSpawnDelay" s.minSpawnDelay, .short "RequiredPlayerRange" s.requiredPlayerRange,
      .short "SpawnCount" s.spawnCount, .short "SpawnRange" s.spawnRange]

end NBTConverter

namespace TileFields

/-- The fields `f` in the components that have been read, those of a new object in the others. -/
def blend : TileFields → (String → Bool) → TileFields
  | .tile, _ => .tile
  | .chest i px pz, s => .chest (cond (s "Items") i none) (cond (s "pairx") px (-65535))
      (cond (s "pairz") pz (-65535))
  | .furnace i b c, s => .furnace (cond (s "Items") i none) (cond (s "BurnTime") b 0)
      (cond (s "CookTime") c 0)
  | .netherReactor i p f, s => .netherReactor (cond (s "IsInitialized") i false)
      (cond (s "Progress") p 0) (cond (s "HasFinished") f false)
  | .sign l, s => .sign #v[cond (s "Text1") l[0] "", cond (s "Text2") l[1] "",
      cond (s "Text3") l[2] "", cond (s "Text4") l[3] ""]
  | .mobSpawner f, s => .mobSpawner {
      delay := cond (s "Delay") f.delay 20
      entityId := cond (s "EntityId") f.entityId 0
      maxNearbyEntities := cond (s "MaxNearbyEntities") f.maxNearbyEntities 6
      maxSpawnDelay := cond (s "MaxSpawnDelay") f.maxSpawnDelay 200
      minSpawnDelay := cond (s "MinSpawnDelay") f.minSpawnDelay 200
      requiredPlayerRange := cond (s "RequiredPlayerRange") f.requiredPlayerRange 16
      spawnCount := cond (s "SpawnCount") f.spawnCount 4
      spawnRange := cond (s "SpawnRange") f.spawnRange 4 }

end TileFields

end WorldToPE
