import WorldToPE.Data.EntityStore

/-!
# WorldToPE.Data.Player — the player as an NBT compound

`readPlayer` and `writePlayer` of `NBTConverter`.  The player has a hand-written reader and a
hand-written writer of its own and does not go through the stores of the entities.  The type id and
`persistent` are neither read nor written.
-/

namespace WorldToPE

open Java

/-- The static type `Player`: an entity of that class, with its fields in place. -/
structure Player where
  base : EntityBase
  living : LivingFields
  fields : PlayerFields
  riding : Option Entity

/-- `new Player()`. -/
def Player.initial : Player :=
  ⟨EntityBase.initial, LivingFields.initial .Player, PlayerFields.initial, none⟩

/-- `initForGameType`. -/
def PlayerAbilities.initForGameType (a : PlayerAbilities) (gameType : Int32) : PlayerAbilities :=
  let creative := decide (gameType = 1)
  { invulnerable := creative, instabuild := creative, mayFly := creative, flying := a.flying && creative }

namespace NBTConverter

/-! ## Abilities -/

/-- One round of the loop of `readAbilities`; a tag that is not a byte is skipped. -/
def readAbilitiesTag (abilities : PlayerAbilities) : Tag → PlayerAbilities
  | .byte n v =>
    let value := decide (v ≠ 0)
    if n = "flying" then { abilities with flying := value }
    else if n = "instabuild" then { abilities with instabuild := value }
    else if n = "invulnerable" then { abilities with invulnerable := value }
    else if n = "mayfly" then { abilities with mayFly := value }
    else abilities
  | _ => abilities

def readAbilities (tag : Tag) (abilities : PlayerAbilities) : Except Exn PlayerAbilities := do
  let tags ← Tag.asCompound (some tag)
  return tags.foldl readAbilitiesTag abilities

def writeAbilities (abilities : PlayerAbilities) (name : String) : Tag :=
  .compound name [flagTag "flying" abilities.flying, flagTag "instabuild" abilities.instabuild,
    flagTag "invulnerable" abilities.invulnerable, flagTag "mayfly" abilities.mayFly]

@[simp] theorem name_writeAbilities (abilities : PlayerAbilities) (name : String) :
    (writeAbilities abilities name).name = name := rfl

/-! ## The player -/

/-- One round of the loop of `readPlayer`. -/
def readPlayerTag (player : Player) (tag : Tag) : Except Exn Player := do
  let b := player.base
  let l := player.living
  let p := player.fields
  let name := tag.name
  if name = "Pos" then return { player with base := { b with location := ← readVector tag } }
  else if name = "Motion" then return { player with base := { b with motion := ← readVector tag } }
  else if name = "Air" then return { player with base := { b with air := ← shortOf tag } }
  else if name = "Fire" then return { player with base := { b with fire := ← shortOf tag } }
  else if name = "FallDistance" then
    return { player with base := { b with fallDistance := ← Tag.asFloat (some tag) } }
  else if name = "Rotation" then
    let rotationTags ← Tag.asList (some tag)
    return { player with
      base := { b with yaw := ← floatAt rotationTags 0, pitch := ← floatAt rotationTags 1 } }
  else if name = "OnGround" then
    return { player with base := { b with onGround := ← positiveOf tag } }
  else if name = "AttackTime" then
    return { player with living := { l with attackTime := ← shortOf tag } }
  else if name = "DeathTime" then
    return { player with living := { l with deathTime := ← shortOf tag } }
  else if name = "Health" then return { player with living := { l with health := ← shortOf tag } }
  else if name = "HurtTime" then return { player with living := { l with hurtTime := ← shortOf tag } }
  else if name = "Armor" then
    return { player with fields := { p with armorSlots := some (← readArmor tag) } }
  else if name = "BedPositionX" then
    return { player with fields := { p with bedPositionX := ← intOf tag } }
  else if name = "BedPositionY" then
    return { player with fields := { p with bedPositionY := ← intOf tag } }
  else if name = "BedPositionZ" then
    return { player with fields := { p with bedPositionZ := ← intOf tag } }
  else if name = "Dimension" then return { player with fields := { p with dimension := ← intOf tag } }
  else if name = "Inventory" then
    return { player with fields := { p with inventory := some (← readInventory tag) } }
  else if name = "Score" then return { player with fields := { p with score := ← intOf tag } }
  else if name = "Sleeping" then return { player with fields := { p with sleeping := ← flagOf tag } }
  else if name = "SleepTimer" then
    return { player with fields := { p with sleepTimer := ← shortOf tag } }
  else if name = "SpawnX" then return { player with fields := { p with spawnX := ← intOf tag } }
  else if name = "SpawnY" then return { player with fields := { p with spawnY := ← intOf tag } }
  else if name = "SpawnZ" then return { player with fields := { p with spawnZ := ← intOf tag } }
  else if name = "abilities" then
    return { player with fields := { p with abilities := ← readAbilities tag p.abilities } }
  else if name = "Riding" then return { player with riding := ← readSingleEntity tag }
  else return player

/-- `readPlayer((CompoundTag) tag)`. -/
def readPlayer (compoundTag : Tag) : Except Exn Player := do
  let tags ← Tag.asCompound (some compoundTag)
  tags.foldlM readPlayerTag Player.initial

/-- The tags of `writePlayer` before they are sorted, given those for the armor and the entity
ridden. -/
def playerTags (b : EntityBase) (l : LivingFields) (p : PlayerFields)
    (inventory : List InventorySlot) (armor riding : List Tag) : List Tag :=
  [.short "Air" b.air, .float "FallDistance" b.fallDistance, .short "Fire" b.fire,
    writeVector b.motion "Motion", writeVector b.location "Pos", writeRotation b.yaw b.pitch,
    flagTag "OnGround" b.onGround, .short "AttackTime" l.attackTime, .short "DeathTime" l.deathTime,
    .short "Health" l.health, .short "HurtTime" l.hurtTime] ++ armor ++
    [.int "BedPositionX" p.bedPositionX, .int "BedPositionY" p.bedPositionY,
      .int "BedPositionZ" p.bedPositionZ, .int "Dimension" p.dimension,
      writeInventory inventory "Inventory", .int "Score" p.score, flagTag "Sleeping" p.sleeping,
      .short "SleepTimer" p.sleepTimer, .int "SpawnX" p.spawnX, .int "SpawnY" p.spawnY,
      .int "SpawnZ" p.spawnZ, writeAbilities p.abilities "abilities"] ++ riding

def ridingTags : Option Entity → Except Exn (List Tag)
  | some r => do
    let riding ← writeEntity r "Riding"
    return [riding]
  | none => return []

def armorTags : Option (List ItemStack) → List Tag
  | some slots => [writeArmor slots "Armor"]
  | none => []

/-- `writePlayer`; its last argument is not used.  A `null` inventory is dereferenced. -/
def writePlayer (player : Player) (name : String) (_writeId : Bool) : Except Exn Tag := do
  match player.fields.inventory with
  | none => throw .nullPointer
  | some inventory => do
    let riding ← ridingTags player.riding
    return .compound name (sortByName (playerTags player.base player.living player.fields inventory
      (armorTags player.fields.armorSlots) riding))

end NBTConverter

end WorldToPE
