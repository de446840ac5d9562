import WorldToPE.Data.Item

/-!
# WorldToPE.Data.Entity — entities

The classes of the `entity` package.  A class decides which fields an object has (`Kind`, `Fields`);
the fields are indexed by it, so that an object cannot have fields that its class does not declare.
`createEntityById` is the table of `EntityType`, in which a later entry replaces an earlier one.
-/

namespace WorldToPE

open Java

structure Vector3f where
  x : JFloat
  y : JFloat
  z : JFloat
deriving DecidableEq

def Vector3f.zero : Vector3f := ⟨JFloat.zero, JFloat.zero, JFloat.zero⟩

/-! ## Fields -/

/-- The fields of `Entity` itself, without the type id and the entity ridden. -/
structure EntityBase where
  air : Int16
  fallDistance : JFloat
  fire : Int16
  location : Vector3f
  motion : Vector3f
  onGround : Bool
  pitch : JFloat
  yaw : JFloat
deriving DecidableEq

def EntityBase.initial : EntityBase :=
  ⟨300, JFloat.zero, 0, Vector3f.zero, Vector3f.zero, false, JFloat.zero, JFloat.zero⟩

/-- The fields of `LivingEntity`. -/
structure LivingFields where
  attackTime : Int16
  deathTime : Int16
  health : Int16
  hurtTime : Int16
  persistent : Bool
deriving DecidableEq

/-- The fields of `Animal`. -/
structure AnimalFields where
  age : Int32
  inLove : Int32
deriving DecidableEq

/-- The fields of `Projectile`. -/
structure ProjectileFields where
  inGround : Bool
  inTile : UInt8
  shake : UInt8
  xTile : Int16
  yTile : Int16
  zTile : Int16
deriving DecidableEq

/-- The fields of `PlayerAbilities` that are stored. -/
structure PlayerAbilities where
  flying : Bool
  instabuild : Bool
  invulnerable : Bool
  mayFly : Bool
deriving DecidableEq

/-- The fields of `Player`; the armor and the inventory are `null` at first. -/
structure PlayerFields where
  abilities : PlayerAbilities
  armorSlots : Option (List ItemStack)
  bedPositionX : Int32
  bedPositionY : Int32
  bedPositionZ : Int32
  dimension : Int32
  inventory : Option (List InventorySlot)
  score : Int32
  sleepTimer : Int16
  sleeping : Bool
  spawnX : Int32
  spawnY : Int32
  spawnZ : Int32

def PlayerFields.initial : PlayerFields :=
  ⟨⟨false, false, false, false⟩, none, 0, 0, 0, 0, none, 0, 0, false, 0, 64, 0⟩

/-- The classes that declare fields, or that a store casts to. -/
inductive Kind
  | entity
  | living
  | animal
  | sheep
  | monster
  | enderman
  | pigZombie
  | player
  | item
  | tntPrimed
  | fallingBlock
  | projectile
  | arrow
  | painting
  | minecart
deriving DecidableEq, Repr

/-- The declared and inherited fields of an object, except those of `Entity`. -/
inductive Fields : Kind → Type
  | entity : Fields .entity
  | living (l : LivingFields) : Fields .living
  | animal (l : LivingFields) (a : AnimalFields) : Fields .animal
  | sheep (l : LivingFields) (a : AnimalFields) (color : UInt8) (sheared : Bool) : Fields .sheep
  | monster (l : LivingFields) (spawnedAtNight : Bool) : Fields .monster
  | enderman (l : LivingFields) (spawnedAtNight : Bool) (carried carriedData : Int16) :
      Fields .enderman
  | pigZombie (l : LivingFields) (spawnedAtNight : Bool) (anger : Int16) : Fields .pigZombie
  | player (l : LivingFields) (p : PlayerFields) : Fields .player
  -- `stack` is `null` until it is asked for; it is then created as the empty stack
  | item (age health : Int16) (stack : ItemStack) : Fields .item
  | tntPrimed (fuse : UInt8) : Fields .tntPrimed
  | fallingBlock (blockId : Int32) (blockData : UInt8) (time : Int32) : Fields .fallingBlock
  | projectile (p : ProjectileFields) : Fields .projectile
  | arrow (p : ProjectileFields) (inData : UInt8) (player : Bool) : Fields .arrow
  | painting (artType : String) (blockCoordinates : Vector3f) (direction : UInt8) : Fields .painting
  | minecart : Fields .minecart

/-! ## Classes -/

/-- The classes that can be instantiated. -/
inductive EntityClass
  | Entity | Animal | Arrow | Bat | Blaze | Boat | CaveSpider | Chicken | Cow | Creeper | Donkey | Egg
  | ElderGuardian | Enderdragon | Enderman | Endermite | ExperienceOrb | ExperiencePotion
  | FallingBlock | Fireball | FishingHook | Ghast | Guard | Horse | Husk | IronGolem | Item | LavaSlime
  | LightningBolt | Minecart | MinecartChest | MinecartHopper | MinecartTNT | Mule | MushroomCow
  | Ocelot | Painting | Pig | PigZombie | Player | PolarBear | Rabbit | Sheep | Shulker | Silverfish
  | Skeleton | SkeletonHorse | Slime | SmallFireball | SnowGolem | Snowball | Spider | Squid | Stray
  | TNTPrimed | ThrownEnderPearl | ThrownPotion | TripodCamera | Villager | Witch | Wolf | Zombie
  | ZombieHorse | ZombieVillager
deriving DecidableEq, Repr

namespace EntityClass

def kind : EntityClass → Kind
  | .Arrow => .arrow
  | .Enderman => .enderman
  | .FallingBlock => .fallingBlock
  | .Item => .item
  | .Painting => .painting
  | .PigZombie => .pigZombie
  | .Player => .player
  | .Sheep => .sheep
  | .TNTPrimed => .tntPrimed
  | .Minecart | .MinecartChest | .MinecartHopper | .MinecartTNT => .minecart
  | .Egg | .ExperiencePotion | .Snowball | .ThrownEnderPearl | .ThrownPotion => .projectile
  | .Entity | .Boat | .ExperienceOrb | .Fireball | .FishingHook | .LightningBolt | .SmallFireball =>
    .entity
  | .Bat | .Ghast | .IronGolem | .Ocelot | .SnowGolem | .TripodCamera => .living
  | .Blaze | .CaveSpider | .Creeper | .LavaSlime | .Silverfish | .Skeleton | .Slime | .Spider
  | .Witch | .Zombie | .ZombieVillager => .monster
  | .Animal | .Chicken | .Cow | .Donkey | .ElderGuardian | .Enderdragon | .Endermite | .Guard | .Horse
  | .Husk | .Mule | .MushroomCow | .Pig | .PolarBear | .Rabbit | .Shulker | .SkeletonHorse | .Squid
  | .Stray | .Villager | .Wolf | .ZombieHorse => .animal

/-- `getMaxHealth()`. -/
def maxHealth : EntityClass → Int16
  | .Chicken => 4
  | .Sheep | .Silverfish => 8
  | .Creeper | .PigZombie | .Skeleton | .Spider | .CaveSpider | .Zombie | .ZombieVillager => 20
  | .Enderman => 40
  | _ => 10

end EntityClass

/-- An entity object. -/
inductive Entity
  | mk (cls : EntityClass) (typeId : Int32) (base : EntityBase) (fields : Fields cls.kind)
      (riding : Option Entity)

namespace Entity

def cls : Entity → EntityClass
  | mk c _ _ _ _ => c

/-- `getEntityTypeId()`. -/
def typeId : Entity → Int32
  | mk _ i _ _ _ => i

def base : Entity → EntityBase
  | mk _ _ b _ _ => b

def fields : (e : Entity) → Fields e.cls.kind
  | mk _ _ _ f _ => f

def riding : Entity → Option Entity
  | mk _ _ _ _ r => r

def setTypeId : Entity → Int32 → Entity
  | mk c _ b f r, i => mk c i b f r

def setBase : Entity → EntityBase → Entity
  | mk c i _ f r, b => mk c i b f r

def setRiding : Entity → Option Entity → Entity
  | mk c i b f _, r => mk c i b f r

end Entity

/-! ## Creating entities -/

def LivingFields.initial (cls : EntityClass) : LivingFields := ⟨0, 0, cls.maxHealth, 0, false⟩

/-- The fields of a new object. -/
def Fields.initial (cls : EntityClass) : (k : Kind) → Fields k
  | .entity => .entity
  | .living => .living (LivingFields.initial cls)
  | .animal => .animal (LivingFields.initial cls) ⟨0, 0⟩
  | .sheep => .sheep (LivingFields.initial cls) ⟨0, 0⟩ 0 false
  | .monster => .monster (LivingFields.initial cls) true
  | .enderman => .enderman (LivingFields.initial cls) true 0 0
  | .pigZombie => .pigZombie (LivingFields.initial cls) true 0
  | .player => .player (LivingFields.initial cls) PlayerFields.initial
  | .item => .item 0 5 NBTConverter.emptyStack
  | .tntPrimed => .tntPrimed 0
  | .fallingBlock => .fallingBlock 12 0 0
  | .projectile => .projectile ⟨false, 0, 0, 0, 0, 0⟩
  | .arrow => .arrow ⟨false, 0, 0, 0, 0, 0⟩ 0 false
  | .painting => .painting "Alban" Vector3f.zero 0
  | .minecart => .minecart

/-- The constructor of the class. -/
def Entity.new (cls : EntityClass) : Entity :=
  .mk cls 0 EntityBase.initial (Fields.initial cls cls.kind) none

/-- The constants of `EntityType`, except `UNKNOWN`, which has no class. -/
def entityTypes : List (Int32 × EntityClass) := [
  (10, .Chicken), (11, .Cow), (12, .Pig), (13, .Sheep), (14, .Wolf), (15, .Villager),
  (16, .MushroomCow), (17, .Squid), (18, .Rabbit), (19, .Bat), (20, .IronGolem), (21, .SnowGolem),
  (21, .Ocelot), (32, .Zombie), (33, .Creeper), (34, .Skeleton), (35, .Spider), (36, .PigZombie),
  (37, .Slime), (38, .Enderman), (39, .Silverfish), (40, .CaveSpider), (41, .Ghast),
  (42, .LavaSlime), (43, .Blaze), (44, .ZombieVillager), (45, .Witch), (64, .Item),
  (65, .TNTPrimed), (66, .FallingBlock), (68, .ExperiencePotion), (69, .ExperienceOrb),
  (77, .FishingHook), (80, .Arrow), (81, .Snowball), (82, .Egg), (83, .Painting), (84, .Minecart),
  (85, .Fireball), (86, .ThrownPotion), (87, .ThrownEnderPearl), (90, .Boat), (93, .LightningBolt),
  (94, .SmallFireball), (95, .TripodCamera), (96, .MinecartHopper), (97, .MinecartTNT),
  (98, .MinecartChest), (63, .Player), (46, .Stray), (47, .Husk), (23, .Horse),
  (26, .SkeletonHorse), (27, .ZombieHorse), (25, .Mule), (24, .Donkey), (49, .Guard),
  (50, .ElderGuardian), (52, .ElderGuardian), (55, .Endermite), (54, .Shulker), (28, .PolarBear),
  (53, .Enderdragon), (104, .Animal), (57, .Animal), (29, .Animal), (105, .Animal), (21278, .Animal),
  (9072, .Animal), (9069, .Animal), (9068, .Animal), (9071, .Animal), (8991, .Animal),
  (4938, .Animal), (199534, .Animal), (68410, .Animal), (4977, .Animal), (21323, .Animal)]

/-- `EntityType.getById(id).getEntityClass()`. -/
def entityClassById (id : Int32) : Option EntityClass :=
  (entityTypes.reverse.find? fun p => p.1 = id).map Prod.snd

def createEntityById (id : Int32) : Entity :=
  if id = 10 then Entity.new .Chicken
  else if id = 11 then Entity.new .Cow
  else if id = 12 then Entity.new .Pig
  else if id = 13 then Entity.new .Sheep
  else if id = 32 then Entity.new .Zombie
  else if id = 64 then Entity.new .Item
  else match entityClassById id with
    | some cls => Entity.new cls
    | none => Entity.new .Entity

-- the later of two types with one id is found, and an unknown id gives a plain entity
example : [21, 80, 7, -1].map (fun id => (createEntityById id).cls) =
    [.Ocelot, .Arrow, .Entity, .Entity] := by decide

end WorldToPE
