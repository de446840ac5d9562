import WorldToPE.Data.Entity
import Mathlib.Data.List.Sort

/-!
# WorldToPE.Data.EntityStore — entities as NBT compounds

The stores of `io/nbt/entity` and `readEntity` / `writeEntity` of `NBTConverter`.  A store is a chain
of classes, each of which handles some tags and leaves the others to the class it extends; a class of
the chain is a `StoreLayer`.  Every layer first casts the entity to the class it is for.
-/

namespace WorldToPE

open Java

/-! ## Access to the fields of a class -/

namespace Fields

variable {k : Kind}

/-- The fields of `LivingEntity`, if the object is one. -/
def living? : Fields k → Option LivingFields
  | .living l => some l
  | .animal l _ => some l
  | .sheep l _ _ _ => some l
  | .monster l _ => some l
  | .enderman l _ _ _ => some l
  | .pigZombie l _ _ => some l
  | .player l _ => some l
  | _ => none

def setLiving : Fields k → LivingFields → Fields k
  | .living _, l => .living l
  | .animal _ a, l => .animal l a
  | .sheep _ a c s, l => .sheep l a c s
  | .monster _ n, l => .monster l n
  | .enderman _ n c d, l => .enderman l n c d
  | .pigZombie _ n a, l => .pigZombie l n a
  | .player _ p, l => .player l p
  | f, _ => f

/-- The field of `Monster`, if the object is one. -/
def spawnedAtNight? : Fields k → Option Bool
  | .monster _ n => some n
  | .enderman _ n _ _ => some n
  | .pigZombie _ n _ => some n
  | _ => none

def setSpawnedAtNight : Fields k → Bool → Fields k
  | .monster l _, n => .monster l n
  | .enderman l _ c d, n => .enderman l n c d
  | .pigZombie l _ a, n => .pigZombie l n a
  | f, _ => f

/-- The fields of `Animal`, if the object is one. -/
def animal? : Fields k → Option AnimalFields
  | .animal _ a => some a
  | .sheep _ a _ _ => some a
  | _ => none

def setAnimal : Fields k → AnimalFields → Fields k
  | .animal l _, a => .animal l a
  | .sheep l _ c s, a => .sheep l a c s
  | f, _ => f

/-- The fields of `Projectile`, if the object is one. -/
def projectile? : Fields k → Option ProjectileFields
  | .projectile p => some p
  | .arrow p _ _ => some p
  | _ => none

def setProjectile : Fields k → ProjectileFields → Fields k
  | .projectile _, p => .projectile p
  | .arrow _ d s, p => .arrow p d s
  | f, _ => f

end Fields

/-- A cast to the class that declares the given fields. -/
def castTo {α : Type} : Option α → Except Exn α
  | some a => .ok a
  | none => .error .classCast

namespace NBTConverter

/-! ## Values in tags -/

def byteOf (t : Tag) : Except Exn UInt8 := Tag.asByte (some t)

def shortOf (t : Tag) : Except Exn Int16 := Tag.asShort (some t)

def intOf (t : Tag) : Except Exn Int32 := Tag.asInt (some t)

/-- `value != 0` for a byte tag. -/
def flagOf (t : Tag) : Except Exn Bool := return (← byteOf t) ≠ 0

/-- `value > 0` for a byte tag. -/
def positiveOf (t : Tag) : Except Exn Bool := return widen (← byteOf t) > 0

def flagTag (name : String) (b : Bool) : Tag := .byte name (if b then 1 else 0)

/-- `((FloatTag) tags.get(i)).getValue()`. -/
def floatAt (tags : List Tag) (i : ℕ) : Except Exn JFloat :=
  match tags[i]? with
  | some t => Tag.asFloat (some t)
  | none => .error .indexOutOfBounds

def readVector (tag : Tag) : Except Exn Vector3f := do
  let tags ← Tag.asList (some tag)
  return ⟨← floatAt tags 0, ← floatAt tags 1, ← floatAt tags 2⟩

def writeVector (vector : Vector3f) (tagName : String) : Tag :=
  .list tagName .float [.float "" vector.x, .float "" vector.y, .float "" vector.z]

/-- The `Rotation` tag. -/
def writeRotation (yaw pitch : JFloat) : Tag :=
  .list "Rotation" .float [.float "" yaw, .float "" pitch]

@[simp] theorem name_flagTag (name : String) (b : Bool) : (flagTag name b).name = name := rfl

@[simp] theorem name_writeVector (v : Vector3f) (name : String) : (writeVector v name).name = name := rfl

@[simp] theorem name_writeRotation (yaw pitch : JFloat) :
    (writeRotation yaw pitch).name = "Rotation" := rfl

/-- `Collections.sort` by name; the sort is stable. -/
def sortByName (tags : List Tag) : List Tag := tags.insertionSort fun a b => a.name ≤ b.name

theorem mem_sortByName {t : Tag} {ts : List Tag} : t ∈ sortByName ts ↔ t ∈ ts :=
  (List.perm_insertionSort _ ts).mem_iff

/-- A tag whose name no other tag has is found by its name. -/
theorem find_sortByName {a : Tag} {ts : List Tag} {n : String} (hn : a.name = n) (ha : a ∈ ts)
    (hu : ∀ t ∈ ts, t.name = n → t = a) : (sortByName ts).find? (fun t => t.name = n) = some a := by
  cases hfind : (sortByName ts).find? (fun t => t.name = n) with
  | none =>
    have := List.find?_eq_none.mp hfind a (mem_sortByName.mpr ha)
    simp [hn] at this
  | some t =>
    have hname : t.name = n := by simpa using List.find?_some hfind
    rw [hu t (mem_sortByName.mp (List.mem_of_find?_eq_some hfind)) hname]

/-- Sorted tags with distinct names have strictly increasing names. -/
theorem names_sortByName {ts : List Tag} (h : (ts.map Tag.name).Nodup) :
    ((sortByName ts).map Tag.name).Pairwise (· < ·) := by
  have htotal : Std.Total fun a b : Tag => a.name ≤ b.name := ⟨fun a b => String.le_total a.name b.name⟩
  have htrans : IsTrans Tag fun a b => a.name ≤ b.name := ⟨fun a b c => String.le_trans⟩
  have hle : ((sortByName ts).map Tag.name).Pairwise (· ≤ ·) :=
    List.pairwise_map.mpr (List.pairwise_insertionSort _ ts)
  have hne : ((sortByName ts).map Tag.name).Pairwise (· ≠ ·) :=
    ((List.perm_insertionSort _ ts).map Tag.name).nodup_iff.mpr h
  exact (hle.and hne).imp fun {a b} h => by
    by_contra hlt
    exact h.2 (String.le_antisymm h.1 (String.not_lt.mp hlt))

/-! ## The layers of the stores -/

/-- A class of a store: `load` gives `none` for a tag that is left to the class it extends, `save` is
what is added to the tags of that class. -/
structure StoreLayer where
  load : {k : Kind} → Fields k → Tag → Except Exn (Option (Fields k))
  save : {k : Kind} → Fields k → Except Exn (List Tag)

def livingLayer : StoreLayer where
  load f t := do
    let l ← castTo f.living?
    if t.name = "AttackTime" then return f.setLiving { l with attackTime := ← shortOf t }
    else if t.name = "DeathTime" then return f.setLiving { l with deathTime := ← shortOf t }
    else if t.name = "Health" then return f.setLiving { l with health := ← shortOf t }
    else if t.name = "HurtTime" then return f.setLiving { l with hurtTime := ← shortOf t }
    else if t.name = "SpawnedByNight" then
      match f.spawnedAtNight? with
      | some _ => return f.setSpawnedAtNight (← flagOf t)
      | none => return f
    else if t.name = "Persistent" then return f.setLiving { l with persistent := ← flagOf t }
    else return none
  save f := do
    let l ← castTo f.living?
    let night := match f.spawnedAtNight? with
      | some n => [flagTag "SpawnedByNight" n]
      | none => []
    return [.short "AttackTime" l.attackTime, .short "DeathTime" l.deathTime,
      .short "Health" l.health, .short "HurtTime" l.hurtTime] ++ night ++
      [flagTag "Persistent" l.persistent]

def animalLayer : StoreLayer where
  load f t := do
    let a ← castTo f.animal?
    if t.name = "Age" then return f.setAnimal { a with age := ← intOf t }
    else if t.name = "InLove" then return f.setAnimal { a with inLove := ← intOf t }
    else return none
  save f := do
    let a ← castTo f.animal?
    return [.int "Age" a.age, .int "InLove" a.inLove]

def sheepLayer : StoreLayer where
  load
    | .sheep l a color sheared, t => do
      if t.name = "Color" then return some (.sheep l a (← byteOf t) sheared)
      else if t.name = "Sheared" then return some (.sheep l a color (← positiveOf t))
      else return none
    | _, _ => throw .classCast
  save
    | .sheep _ _ color sheared => return [.byte "Color" color, flagTag "Sheared" sheared]
    | _ => throw .classCast

def pigZombieLayer : StoreLayer where
  load
    | .pigZombie l n _, t => do
      if t.name = "Anger" then return some (.pigZombie l n (← shortOf t)) else return none
    | _, _ => throw .classCast
  save
    | .pigZombie _ _ anger => return [.short "Anger" anger]
    | _ => throw .classCast

def endermanLayer : StoreLayer where
  load
    | .enderman l n carried carriedData, t => do
      if t.name = "carried" then return some (.enderman l n (← shortOf t) carriedData)
      else if t.name = "carriedData" then return some (.enderman l n carried (← shortOf t))
      else return none
    | _, _ => throw .classCast
  save
    | .enderman _ _ carried carriedData =>
      return [.short "carried" carried, .short "carriedData" carriedData]
    | _ => throw .classCast

def itemLayer : StoreLayer where
  load
    | .item age health stack, t => do
      if t.name = "Age" then return some (.item (← shortOf t) health stack)
      else if t.name = "Health" then return some (.item age (← shortOf t) stack)
      else if t.name = "Item" then
        return some (.item age health (← readItemStack (← Tag.asCompound (some t))))
      else return none
    | _, _ => throw .classCast
  save
    | .item age health stack =>
      return [.short "Age" age, .short "Health" health, writeItemStack stack "Item"]
    | _ => throw .classCast

def tntPrimedLayer : StoreLayer where
  load
    | .tntPrimed _, t => do
      if t.name = "Fuse" then return some (.tntPrimed (← byteOf t)) else return none
    | _, _ => throw .classCast
  save
    | .tntPrimed fuse => return [.byte "Fuse" fuse]
    | _ => throw .classCast

def fallingBlockLayer : StoreLayer where
  load
    | .fallingBlock blockId blockData time, t => do
      if t.name = "Tile" then
        return some (.fallingBlock (widen (← byteOf t) &&& 255) blockData time)
      else if t.name = "Data" then return some (.fallingBlock blockId (← byteOf t) time)
      else if t.name = "Time" then
        return some (.fallingBlock blockId blockData (widen (← byteOf t) &&& 255))
      else return none
    | _, _ => throw .classCast
  save
    | .fallingBlock blockId blockData time =>
      return [.byte "Data" blockData, .byte "Tile" (narrow blockId), .byte "Time" (narrow time)]
    | _ => throw .classCast

def projectileLayer : StoreLayer where
  load f t := do
    let p ← castTo f.projectile?
    if t.name = "inGround" then return f.setProjectile { p with inGround := ← flagOf t }
    else if t.name = "inTile" then return f.setProjectile { p with inTile := ← byteOf t }
    else if t.name = "shake" then return f.setProjectile { p with shake := ← byteOf t }
    else if t.name = "xTile" then return f.setProjectile { p with xTile := ← shortOf t }
    else if t.name = "yTile" then return f.setProjectile { p with yTile := ← shortOf t }
    else if t.name = "zTile" then return f.setProjectile { p with zTile := ← shortOf t }
    else return none
  save f := do
    let p ← castTo f.projectile?
    return [flagTag "inGround" p.inGround, .byte "inTile" p.inTile, .byte "shake" p.shake,
      .short "xTile" p.xTile, .short "yTile" p.yTile, .short "zTile" p.zTile]

def arrowLayer : StoreLayer where
  load
    | .arrow p inData player, t => do
      if t.name = "inData" then return some (.arrow p (← byteOf t) player)
      else if t.name = "player" then return some (.arrow p inData (← flagOf t))
      else return none
    | _, _ => throw .classCast
  save
    | .arrow _ inData player => return [.byte "inData" inData, flagTag "player" player]
    | _ => throw .classCast

def paintingLayer : StoreLayer where
  load
    | .painting art bc direction, t => do
      if t.name = "Dir" then return some (.painting art bc (← byteOf t))
      else if t.name = "Motive" then
        return some (.painting (← Tag.asString (some t)) bc direction)
      else if t.name = "TileX" then
        return some (.painting art { bc with x := JFloat.ofInt32 (← intOf t) } direction)
      else if t.name = "TileY" then
        return some (.painting art { bc with y := JFloat.ofInt32 (← intOf t) } direction)
      else if t.name = "TileZ" then
        return some (.painting art { bc with z := JFloat.ofInt32 (← intOf t) } direction)
      else return none
    | _, _ => throw .classCast
  save
    | .painting art bc direction => return [.byte "Dir" direction, .string "Motive" art,
        .int "TileX" bc.x.toInt32, .int "TileY" bc.y.toInt32, .int "TileZ" bc.z.toInt32]
    | _ => throw .classCast

def minecartLayer : StoreLayer where
  load
    | .minecart, _ => return none
    | _, _ => throw .classCast
  save
    | .minecart => return []
    | _ => throw .classCast

/-- A store: the layers above `EntityStore`, from the base up. -/
abbrev EntityStore := List StoreLayer

def LivingEntityStore : EntityStore := [livingLayer]
def AnimalEntityStore : EntityStore := LivingEntityStore ++ [animalLayer]
def SheepEntityStore : EntityStore := AnimalEntityStore ++ [sheepLayer]
def PigZombieEntityStore : EntityStore := LivingEntityStore ++ [pigZombieLayer]
def EndermanEntityStore : EntityStore := LivingEntityStore ++ [endermanLayer]
def ItemEntityStore : EntityStore := [itemLayer]
def TNTPrimedEntityStore : EntityStore := [tntPrimedLayer]
def FallingBlockEntityStore : EntityStore := [fallingBlockLayer]
def ProjectileEntityStore : EntityStore := [projectileLayer]
def ArrowEntityStore : EntityStore := ProjectileEntityStore ++ [arrowLayer]
def PaintingEntityStore : EntityStore := [paintingLayer]
def MinecartEntityStore : EntityStore := [minecartLayer]

/-- `EntityStoreLookupService.idMap`. -/
def entityStores : List (Int32 × EntityStore) := [
  (10, AnimalEntityStore), (11, AnimalEntityStore), (12, AnimalEntityStore), (13, SheepEntityStore),
  (14, AnimalEntityStore), (15, AnimalEntityStore), (16, AnimalEntityStore), (17, AnimalEntityStore),
  (18, AnimalEntityStore), (19, LivingEntityStore), (32, LivingEntityStore), (33, LivingEntityStore),
  (34, LivingEntityStore), (35, LivingEntityStore), (36, PigZombieEntityStore),
  (37, LivingEntityStore), (38, EndermanEntityStore), (39, LivingEntityStore),
  (40, LivingEntityStore), (41, LivingEntityStore), (42, LivingEntityStore), (64, ItemEntityStore),
  (65, TNTPrimedEntityStore), (66, FallingBlockEntityStore), (80, ArrowEntityStore),
  (81, ProjectileEntityStore), (82, ProjectileEntityStore), (83, PaintingEntityStore),
  (84, MinecartEntityStore), (85, []), (87, ProjectileEntityStore), (90, []),
  (96, MinecartEntityStore), (97, MinecartEntityStore), (98, MinecartEntityStore)]

/-- The store for an id; the default is `EntityStore` itself. -/
def storeById (id : Int32) : EntityStore :=
  match entityStores.find? fun p => p.1 = id with
  | some p => p.2
  | none => []

/-! ## Loading -/

/-- The layers of a store, from the most derived one down. -/
def loadLayers {k : Kind} (f : Fields k) (t : Tag) : List StoreLayer → Except Exn (Option (Fields k))
  | [] => return none
  | layer :: layers => do
    match ← layer.load f t with
    | some f' => return some f'
    | none => loadLayers f t layers

/-- `EntityStore.loadTag`; `riding` is what reading the tag as an entity gives. -/
def loadBaseTag (e : Entity) (t : Tag) (riding : Except Exn (Option Entity)) : Except Exn Entity := do
  let b := e.base
  if t.name = "Pos" then return e.setBase { b with location := ← readVector t }
  else if t.name = "Motion" then return e.setBase { b with motion := ← readVector t }
  else if t.name = "Air" then return e.setBase { b with air := ← shortOf t }
  else if t.name = "Fire" then return e.setBase { b with fire := ← shortOf t }
  else if t.name = "FallDistance" then
    return e.setBase { b with fallDistance := ← Tag.asFloat (some t) }
  else if t.name = "Riding" then return e.setRiding (← riding)
  else if t.name = "Rotation" then
    let tags ← Tag.asList (some t)
    return e.setBase { b with yaw := ← floatAt tags 0, pitch := ← floatAt tags 1 }
  else if t.name = "OnGround" then return e.setBase { b with onGround := ← positiveOf t }
  else return e

/-- `loadTag` of a store. -/
def loadTag (store : EntityStore) (e : Entity) (t : Tag) (riding : Except Exn (Option Entity)) :
    Except Exn Entity :=
  match e with
  | .mk c i b f r => do
    match ← loadLayers f t store.reverse with
    | some f' => return .mk c i b f' r
    | none => loadBaseTag (.mk c i b f r) t riding

mutual

/-- `readSingleEntity((CompoundTag) tag)`: `null` if there is no id. -/
def readSingleEntity : Tag → Except Exn (Option Entity)
  | .compound _ tags =>
    match tags.find? fun t => t.name = "id" with
    | none => return none
    | some t => do
      let id ← Tag.asInt (some t)
      let e ← loadTags (storeById id) tags ((createEntityById id).setTypeId id)
      return some e
  | _ => throw .classCast

/-- The loop of `EntityStore.load`. -/
def loadTags (store : EntityStore) : List Tag → Entity → Except Exn Entity
  | [], e => return e
  | t :: ts, e => do
    let e ← loadTag store e t (readSingleEntity t)
    loadTags store ts e

end

/-! ## Saving -/

/-- `EntityStore.save`, given the tag of the entity ridden. -/
def saveBase (typeId : Int32) (b : EntityBase) (riding : List Tag) : List Tag :=
  [.short "Air" b.air, .float "FallDistance" b.fallDistance, .short "Fire" b.fire,
    writeVector b.motion "Motion", writeVector b.location "Pos"] ++ riding ++
    [writeRotation b.yaw b.pitch, flagTag "OnGround" b.onGround, .int "id" typeId]

/-- `save` of a store. -/
def saveTags {k : Kind} (typeId : Int32) (b : EntityBase) (f : Fields k) (riding : List Tag) :
    Except Exn (List Tag) := do
  let own ← (storeById typeId).mapM fun layer => layer.save f
  return saveBase typeId b riding ++ own.flatten

def writeEntity : Entity → String → Except Exn Tag
  | .mk _ i b f none, tagName => do
    let tags ← saveTags i b f []
    return .compound tagName (sortByName tags)
  | .mk _ i b f (some r), tagName => do
    let riding ← writeEntity r "Riding"
    let tags ← saveTags i b f [riding]
    return .compound tagName (sortByName tags)

end NBTConverter

end WorldToPE
