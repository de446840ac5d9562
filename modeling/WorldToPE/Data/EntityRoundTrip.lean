import WorldToPE.Data.EntityStore
import WorldToPE.Lib.Named

/-!
# WorldToPE.Data.EntityRoundTrip — which entities are read back as they were written

The tags of an entity are sorted by name and each is handed to the store of the type id, so the order of
the tags does not matter: a tag sets the component that its name stands for, in the class fields
(`loadLayers_own`) or in the fields of `Entity` (`loadBaseTag_blend`).

* `storeById_eq`: where a type id has a store, it is the store of the class that the id creates.
* `readSingleEntity_writeEntity`: what is read back, for every entity and whatever it rides; an entity
  whose id has no store comes back with the class fields of a new object.
* `roundTrips_iff`: the entities that survive.
-/

namespace WorldToPE

open Java Named

/-! ## Fields read so far -/

/-- `b` in the components that have been read, `b₀` in the others. -/
def EntityBase.blend (b₀ b : EntityBase) (seen : String → Bool) : EntityBase where
  air := cond (seen "Air") b.air b₀.air
  fallDistance := cond (seen "FallDistance") b.fallDistance b₀.fallDistance
  fire := cond (seen "Fire") b.fire b₀.fire
  location := cond (seen "Pos") b.location b₀.location
  motion := cond (seen "Motion") b.motion b₀.motion
  onGround := cond (seen "OnGround") b.onGround b₀.onGround
  pitch := cond (seen "Rotation") b.pitch b₀.pitch
  yaw := cond (seen "Rotation") b.yaw b₀.yaw

def LivingFields.blend (l₀ l : LivingFields) (seen : String → Bool) : LivingFields where
  attackTime := cond (seen "AttackTime") l.attackTime l₀.attackTime
  deathTime := cond (seen "DeathTime") l.deathTime l₀.deathTime
  health := cond (seen "Health") l.health l₀.health
  hurtTime := cond (seen "HurtTime") l.hurtTime l₀.hurtTime
  persistent := cond (seen "Persistent") l.persistent l₀.persistent

def AnimalFields.blend (a₀ a : AnimalFields) (seen : String → Bool) : AnimalFields where
  age := cond (seen "Age") a.age a₀.age
  inLove := cond (seen "InLove") a.inLove a₀.inLove

def ProjectileFields.blend (p₀ p : ProjectileFields) (seen : String → Bool) : ProjectileFields where
  inGround := cond (seen "inGround") p.inGround p₀.inGround
  inTile := cond (seen "inTile") p.inTile p₀.inTile
  shake := cond (seen "shake") p.shake p₀.shake
  xTile := cond (seen "xTile") p.xTile p₀.xTile
  yTile := cond (seen "yTile") p.yTile p₀.yTile
  zTile := cond (seen "zTile") p.zTile p₀.zTile

namespace Fields

variable {k : Kind}

/-- The fields `f` in the components that have been read, `f₀` in the others. -/
def blend : Fields k → Fields k → (String → Bool) → Fields k
  | .entity, .entity, _ => .entity
  | .living l₀, .living l, s => .living (l₀.blend l s)
  | .animal l₀ a₀, .animal l a, s => .animal (l₀.blend l s) (a₀.blend a s)
  | .sheep l₀ a₀ c₀ h₀, .sheep l a c h, s =>
    .sheep (l₀.blend l s) (a₀.blend a s) (cond (s "Color") c c₀) (cond (s "Sheared") h h₀)
  | .monster l₀ n₀, .monster l n, s => .monster (l₀.blend l s) (cond (s "SpawnedByNight") n n₀)
  | .enderman l₀ n₀ c₀ d₀, .enderman l n c d, s =>
    .enderman (l₀.blend l s) (cond (s "SpawnedByNight") n n₀) (cond (s "carried") c c₀)
      (cond (s "carriedData") d d₀)
  | .pigZombie l₀ n₀ a₀, .pigZombie l n a, s =>
    .pigZombie (l₀.blend l s) (cond (s "SpawnedByNight") n n₀) (cond (s "Anger") a a₀)
  -- no tag sets the fields of a player here
  | .player l₀ p₀, .player _ _, _ => .player l₀ p₀
  | .item a₀ h₀ i₀, .item a h i, s =>
    .item (cond (s "Age") a a₀) (cond (s "Health") h h₀) (cond (s "Item") i i₀)
  | .tntPrimed f₀, .tntPrimed f, s => .tntPrimed (cond (s "Fuse") f f₀)
  | .fallingBlock i₀ d₀ t₀, .fallingBlock i d t, s =>
    .fallingBlock (cond (s "Tile") i i₀) (cond (s "Data") d d₀) (cond (s "Time") t t₀)
  | .projectile p₀, .projectile p, s => .projectile (p₀.blend p s)
  | .arrow p₀ d₀ b₀, .arrow p d b, s =>
    .arrow (p₀.blend p s) (cond (s "inData") d d₀) (cond (s "player") b b₀)
  | .painting a₀ c₀ d₀, .painting a c d, s =>
    .painting (cond (s "Motive") a a₀) ⟨cond (s "TileX") c.x c₀.x, cond (s "TileY") c.y c₀.y,
      cond (s "TileZ") c.z c₀.z⟩ (cond (s "Dir") d d₀)
  | .minecart, .minecart, _ => .minecart

/-- The fields as far as they are stored: tags of an item that are not known are dropped, and the
coordinates of a painting go through `int`. -/
def typed : Fields k → Fields k
  | .player l p => .player l { p with
      armorSlots := p.armorSlots.map (List.map ItemStack.typed)
      inventory := p.inventory.map (List.map InventorySlot.typed) }
  | .item a h i => .item a h i.typed
  | .painting a c d => .painting a ⟨c.x.unsignZero, c.y.unsignZero, c.z.unsignZero⟩ d
  | f => f

/-- The numbers that are stored in a narrower type fit in it. -/
def InRange : Fields k → Prop
  | .item _ _ i => i.Small
  | .fallingBlock i _ t => (0 ≤ i.toInt ∧ i.toInt ≤ 255) ∧ 0 ≤ t.toInt ∧ t.toInt ≤ 255
  | .painting _ c _ => ∀ f ∈ [c.x, c.y, c.z], ∃ n : Int32, n.toInt.natAbs ≤ 2 ^ 24 ∧
      f.unsignZero = JFloat.ofInt32 n
  | _ => True

end Fields

namespace NBTConverter

/-! ## The store of a class -/

/-- The store that the lookup service has for the classes of a kind. -/
def storeFor : Kind → EntityStore
  | .living | .monster => LivingEntityStore
  | .animal => AnimalEntityStore
  | .sheep => SheepEntityStore
  | .enderman => EndermanEntityStore
  | .pigZombie => PigZombieEntityStore
  | .item => ItemEntityStore
  | .tntPrimed => TNTPrimedEntityStore
  | .fallingBlock => FallingBlockEntityStore
  | .projectile => ProjectileEntityStore
  | .arrow => ArrowEntityStore
  | .painting => PaintingEntityStore
  | .minecart => MinecartEntityStore
  | .entity | .player => []

/-- The lookup service has an entry for the id. -/
def Registered (id : Int32) : Prop := ∃ p ∈ entityStores, p.1 = id

instance (id : Int32) : Decidable (Registered id) := inferInstanceAs (Decidable (∃ p ∈ entityStores, p.1 = id))

/-- **The tables agree**: an id with an entry in the lookup service has the store of the class that
`createEntityById` makes for it. -/
theorem storeById_eq {id : Int32} (h : Registered id) :
    storeById id = storeFor (createEntityById id).cls.kind ∧
      (createEntityById id).cls.kind ≠ .player := by
  obtain ⟨p, hp, rfl⟩ := h
  simp only [entityStores, List.mem_cons, List.not_mem_nil, or_false] at hp
  rcases hp with rfl | rfl | rfl | rfl | rfl | rfl | rfl | rfl | rfl | rfl | rfl | rfl | rfl | rfl | rfl |
    rfl | rfl | rfl | rfl | rfl | rfl | rfl | rfl | rfl | rfl | rfl | rfl | rfl | rfl | rfl | rfl | rfl |
    rfl | rfl | rfl <;> exact ⟨rfl, nofun⟩

theorem storeById_of_not_registered {id : Int32} (h : ¬Registered id) : storeById id = [] := by
  unfold storeById
  rw [List.find?_eq_none.mpr]
  intro p hp hid
  exact h ⟨p, hp, by simpa using hid⟩

theorem new_cls_createEntityById (id : Int32) :
    createEntityById id = Entity.new (createEntityById id).cls := by
  unfold createEntityById
  split_ifs
  any_goals rfl
  split <;> rfl

/-! ## The tags of a class -/

def livingTags (l : LivingFields) (night : List Tag) : List Tag :=
  [.short "AttackTime" l.attackTime, .short "DeathTime" l.deathTime, .short "Health" l.health,
    .short "HurtTime" l.hurtTime] ++ night ++ [flagTag "Persistent" l.persistent]

def animalTags (a : AnimalFields) : List Tag := [.int "Age" a.age, .int "InLove" a.inLove]

def projectileTags (p : ProjectileFields) : List Tag :=
  [flagTag "inGround" p.inGround, .byte "inTile" p.inTile, .byte "shake" p.shake,
    .short "xTile" p.xTile, .short "yTile" p.yTile, .short "zTile" p.zTile]

variable {k : Kind}

/-- The tags that the store of the class adds to those of `EntityStore`. -/
def ownTags : Fields k → List Tag
  | .entity | .player _ _ | .minecart => []
  | .living l => livingTags l []
  | .animal l a => livingTags l [] ++ animalTags a
  | .sheep l a color sheared =>
    livingTags l [] ++ animalTags a ++ [.byte "Color" color, flagTag "Sheared" sheared]
  | .monster l n => livingTags l [flagTag "SpawnedByNight" n]
  | .enderman l n c d => livingTags l [flagTag "SpawnedByNight" n] ++
    [.short "carried" c, .short "carriedData" d]
  | .pigZombie l n a => livingTags l [flagTag "SpawnedByNight" n] ++ [.short "Anger" a]
  | .item a h i => [.short "Age" a, .short "Health" h, writeItemStack i "Item"]
  | .tntPrimed f => [.byte "Fuse" f]
  | .fallingBlock i d t => [.byte "Data" d, .byte "Tile" (narrow i), .byte "Time" (narrow t)]
  | .projectile p => projectileTags p
  | .arrow p d b => projectileTags p ++ [.byte "inData" d, flagTag "player" b]
  | .painting a c d => [.byte "Dir" d, .string "Motive" a, .int "TileX" c.x.toInt32,
      .int "TileY" c.y.toInt32, .int "TileZ" c.z.toInt32]

theorem mapM_save (f : Fields k) :
    ∃ own, (storeFor k).mapM (fun layer => layer.save f) = .ok own ∧ own.flatten = ownTags f := by
  cases f <;> exact ⟨_, rfl, rfl⟩

/-! ## One tag -/

theorem mem_livingTags {t u : Tag} {l : LivingFields} :
    t ∈ livingTags l [u] ↔ t ∈ livingTags l [] ∨ t = u := by
  simp only [livingTags, List.mem_append, List.mem_cons, List.not_mem_nil, or_false]
  tauto

theorem widen_narrow_and {n : Int32} (h0 : 0 ≤ n.toInt) (h1 : n.toInt ≤ 255) :
    widen (narrow n) &&& 255 = n := by
  have hn := toNat_narrow n
  have hw := toInt_widen (narrow n)
  apply Int32.toInt_inj.mp
  rw [show (255 : Int32) = Int32.ofNat (2 ^ 8 - 1) from rfl, toInt_and_mask _ 8 (by norm_num)]
  split at hw <;> omega

section OneTag

variable {f₀ f : Fields k} {t : Tag}

/-- The fields of `LivingEntity`, in every class that has a store. -/
theorem loadLayers_living {l : LivingFields} (hl : f.living? = some l) (hk : k ≠ .player)
    (ht : t ∈ livingTags l []) (seen : String → Bool) :
    loadLayers (f₀.blend f.typed seen) t (storeFor k).reverse =
      .ok (some (f₀.blend f.typed (mark t.name seen))) := by
  obtain ⟨attack, death, health, hurt, persistent⟩ := l
  simp only [livingTags, List.append_nil, List.mem_append, List.mem_cons, List.not_mem_nil, or_false,
    or_assoc] at ht
  cases f with
  | living | animal | sheep | monster | enderman | pigZombie =>
    cases f₀
    obtain rfl := Option.some.inj hl
    rcases ht with rfl | rfl | rfl | rfl | rfl
    · rfl
    · rfl
    · rfl
    · rfl
    · cases persistent <;> rfl
  | player => exact absurd rfl hk
  | _ => cases hl

theorem loadLayers_night {night : Bool} (hn : f.spawnedAtNight? = some night) (seen : String → Bool) :
    loadLayers (f₀.blend f.typed seen) (flagTag "SpawnedByNight" night) (storeFor k).reverse =
      .ok (some (f₀.blend f.typed (mark "SpawnedByNight" seen))) := by
  cases f with
  | monster | enderman | pigZombie =>
    cases f₀
    cases night <;> (obtain rfl := Option.some.inj hn; rfl)
  | _ => cases hn

theorem loadLayers_animal {a : AnimalFields} (ha : f.animal? = some a) (ht : t ∈ animalTags a)
    (seen : String → Bool) :
    loadLayers (f₀.blend f.typed seen) t (storeFor k).reverse =
      .ok (some (f₀.blend f.typed (mark t.name seen))) := by
  simp only [animalTags, List.mem_cons, List.not_mem_nil, or_false] at ht
  cases f with
  | animal | sheep =>
    cases f₀
    obtain rfl := Option.some.inj ha
    rcases ht with rfl | rfl
    · rfl
    · rfl
  | _ => cases ha

theorem loadLayers_projectile {p : ProjectileFields} (hp : f.projectile? = some p)
    (ht : t ∈ projectileTags p) (seen : String → Bool) :
    loadLayers (f₀.blend f.typed seen) t (storeFor k).reverse =
      .ok (some (f₀.blend f.typed (mark t.name seen))) := by
  obtain ⟨inGround, inTile, shake, xTile, yTile, zTile⟩ := p
  simp only [projectileTags, List.mem_cons, List.not_mem_nil, or_false] at ht
  cases f with
  | projectile | arrow =>
    cases f₀
    obtain rfl := Option.some.inj hp
    rcases ht with rfl | rfl | rfl | rfl | rfl | rfl
    · cases inGround <;> rfl
    · rfl
    · rfl
    · rfl
    · rfl
    · rfl
  | _ => cases hp

theorem loadLayers_item {i₀ : Fields .item} {age health : Int16} {stack : ItemStack} (hs : stack.Small)
    (ht : t ∈ ownTags (.item age health stack)) (seen : String → Bool) :
    loadLayers (i₀.blend (.item age health stack.typed) seen) t [itemLayer] =
      .ok (some (i₀.blend (.item age health stack.typed) (mark t.name seen))) := by
  have hload (a h : Int16) (s : ItemStack) : itemLayer.load (.item a h s) (writeItemStack stack "Item") =
      .ok (some (.item a h stack.typed)) := by
    show (readItemStack [.byte "Count" (narrow stack.amount), .short "Damage" stack.durability,
      .short "id" stack.id] >>= fun i => Except.ok (some (Fields.item a h i))) = _
    rw [readItemStack_write hs]
    rfl
  simp only [ownTags, List.mem_cons, List.not_mem_nil, or_false] at ht
  cases i₀
  rcases ht with rfl | rfl | rfl
  · rfl
  · rfl
  · show itemLayer.load (.item _ _ _) (writeItemStack stack "Item") >>= _ = _
    rw [hload]
    rfl

theorem loadLayers_fallingBlock {b₀ : Fields .fallingBlock} {blockId time : Int32} {blockData : UInt8}
    (hr : (Fields.fallingBlock blockId blockData time).InRange)
    (ht : t ∈ ownTags (.fallingBlock blockId blockData time)) (seen : String → Bool) :
    loadLayers (b₀.blend (.fallingBlock blockId blockData time) seen) t [fallingBlockLayer] =
      .ok (some (b₀.blend (.fallingBlock blockId blockData time) (mark t.name seen))) := by
  have htile := widen_narrow_and hr.1.1 hr.1.2
  have htime := widen_narrow_and hr.2.1 hr.2.2
  simp only [ownTags, List.mem_cons, List.not_mem_nil, or_false] at ht
  cases b₀
  rcases ht with rfl | rfl | rfl
  · rfl
  · show Except.ok (some (Fields.fallingBlock (widen (narrow blockId) &&& 255) _ _)) = _
    rw [htile]
    rfl
  · show Except.ok (some (Fields.fallingBlock _ _ (widen (narrow time) &&& 255))) = _
    rw [htime]
    rfl

theorem ofInt32_toInt32 {f : JFloat} {n : Int32} (hn : n.toInt.natAbs ≤ 2 ^ 24)
    (h : f.unsignZero = JFloat.ofInt32 n) : JFloat.ofInt32 f.toInt32 = f.unsignZero := by
  rw [← JFloat.toInt32_unsignZero, h, JFloat.toInt32_ofInt32 hn]

theorem loadLayers_painting {p₀ : Fields .painting} {art : String} {c : Vector3f} {direction : UInt8}
    (hr : (Fields.painting art c direction).InRange) (ht : t ∈ ownTags (.painting art c direction))
    (seen : String → Bool) :
    loadLayers (p₀.blend (Fields.painting art c direction).typed seen) t [paintingLayer] =
      .ok (some (p₀.blend (Fields.painting art c direction).typed (mark t.name seen))) := by
  have hc : ∀ f ∈ [c.x, c.y, c.z], JFloat.ofInt32 f.toInt32 = f.unsignZero := by
    intro f hf
    obtain ⟨n, hn, h⟩ := hr f hf
    exact ofInt32_toInt32 hn h
  simp only [List.forall_mem_cons] at hc
  obtain ⟨hx, hy, hz, -⟩ := hc
  simp only [ownTags, List.mem_cons, List.not_mem_nil, or_false] at ht
  cases p₀
  rcases ht with rfl | rfl | rfl | rfl | rfl
  · rfl
  · rfl
  · show Except.ok (some (Fields.painting _ ⟨JFloat.ofInt32 c.x.toInt32, _, _⟩ _)) = _
    rw [hx]
    rfl
  · show Except.ok (some (Fields.painting _ ⟨_, JFloat.ofInt32 c.y.toInt32, _⟩ _)) = _
    rw [hy]
    rfl
  · show Except.ok (some (Fields.painting _ ⟨_, _, JFloat.ofInt32 c.z.toInt32⟩ _)) = _
    rw [hz]
    rfl

/-- **A tag of the class sets its component.** -/
theorem loadLayers_own (hf : f.InRange) (ht : t ∈ ownTags f) (seen : String → Bool) :
    loadLayers (f₀.blend f.typed seen) t (storeFor k).reverse =
      .ok (some (f₀.blend f.typed (mark t.name seen))) := by
  cases f with
  | entity | player | minecart => cases ht
  | living l => exact loadLayers_living (f := .living l) rfl nofun ht seen
  | animal l a =>
    rcases List.mem_append.mp ht with ht | ht
    · exact loadLayers_living (f := .animal l a) rfl nofun ht seen
    · exact loadLayers_animal (f := .animal l a) rfl ht seen
  | sheep l a color sheared =>
    rcases List.mem_append.mp ht with ht | ht
    · rcases List.mem_append.mp ht with ht | ht
      · exact loadLayers_living (f := .sheep l a color sheared) rfl nofun ht seen
      · exact loadLayers_animal (f := .sheep l a color sheared) rfl ht seen
    · simp only [List.mem_cons, List.not_mem_nil, or_false] at ht
      cases f₀
      rcases ht with rfl | rfl
      · rfl
      · cases sheared <;> rfl
  | monster l night =>
    rcases mem_livingTags.mp ht with ht | rfl
    · exact loadLayers_living (f := .monster l night) rfl nofun ht seen
    · exact loadLayers_night (f := .monster l night) rfl seen
  | enderman l night carried carriedData =>
    rcases List.mem_append.mp ht with ht | ht
    · rcases mem_livingTags.mp ht with ht | rfl
      · exact loadLayers_living (f := .enderman l night carried carriedData) rfl nofun ht seen
      · exact loadLayers_night (f := .enderman l night carried carriedData) rfl seen
    · simp only [List.mem_cons, List.not_mem_nil, or_false] at ht
      cases f₀
      rcases ht with rfl | rfl
      · rfl
      · rfl
  | pigZombie l night anger =>
    rcases List.mem_append.mp ht with ht | ht
    · rcases mem_livingTags.mp ht with ht | rfl
      · exact loadLayers_living (f := .pigZombie l night anger) rfl nofun ht seen
      · exact loadLayers_night (f := .pigZombie l night anger) rfl seen
    · obtain rfl := List.mem_singleton.mp ht
      cases f₀
      rfl
  | item age health stack => exact loadLayers_item hf ht seen
  | tntPrimed fuse =>
    obtain rfl := List.mem_singleton.mp ht
    cases f₀
    rfl
  | fallingBlock blockId blockData time => exact loadLayers_fallingBlock hf ht seen
  | projectile p => exact loadLayers_projectile (f := .projectile p) rfl ht seen
  | arrow p inData player =>
    rcases List.mem_append.mp ht with ht | ht
    · exact loadLayers_projectile (f := .arrow p inData player) rfl ht seen
    · simp only [List.mem_cons, List.not_mem_nil, or_false] at ht
      cases f₀
      rcases ht with rfl | rfl
      · rfl
      · cases player <;> rfl
  | painting art c direction => exact loadLayers_painting hf ht seen

end OneTag

/-! ## Tags of the class and tags of `Entity` -/

/-- The names of `EntityStore`. -/
def baseNames : List String :=
  ["Air", "FallDistance", "Fire", "Motion", "Pos", "Riding", "Rotation", "OnGround", "id"]

/-- The names of the other stores. -/
def ownNames : List String :=
  ["AttackTime", "DeathTime", "Health", "HurtTime", "Persistent", "SpawnedByNight", "Age", "InLove",
    "Color", "Sheared", "carried", "carriedData", "Anger", "Item", "Fuse", "Tile", "Data", "Time",
    "inGround", "inTile", "shake", "xTile", "yTile", "zTile", "inData", "player", "Motive", "TileX",
    "TileY", "TileZ", "Dir"]

theorem ownNames_ne_baseNames : ∀ m ∈ ownNames, ∀ n ∈ baseNames, m ≠ n := by decide +kernel

def livingNames (night : List String) : List String :=
  ["AttackTime", "DeathTime", "Health", "HurtTime"] ++ night ++ ["Persistent"]

def projectileNames : List String := ["inGround", "inTile", "shake", "xTile", "yTile", "zTile"]

/-- The names of the tags of a class. -/
def namesOf : Kind → List String
  | .entity | .player | .minecart => []
  | .living => livingNames []
  | .animal => livingNames [] ++ ["Age", "InLove"]
  | .sheep => livingNames [] ++ ["Age", "InLove"] ++ ["Color", "Sheared"]
  | .monster => livingNames ["SpawnedByNight"]
  | .enderman => livingNames ["SpawnedByNight"] ++ ["carried", "carriedData"]
  | .pigZombie => livingNames ["SpawnedByNight"] ++ ["Anger"]
  | .item => ["Age", "Health", "Item"]
  | .tntPrimed => ["Fuse"]
  | .fallingBlock => ["Data", "Tile", "Time"]
  | .projectile => projectileNames
  | .arrow => projectileNames ++ ["inData", "player"]
  | .painting => ["Dir", "Motive", "TileX", "TileY", "TileZ"]

theorem names_ownTags (f : Fields k) : (ownTags f).map Tag.name = namesOf k := by
  cases f <;> rfl

theorem namesOf_subset (k : Kind) : ∀ n ∈ namesOf k, n ∈ ownNames := by
  cases k <;> decide +kernel

theorem name_mem_ownNames {f : Fields k} {t : Tag} (ht : t ∈ ownTags f) : t.name ∈ ownNames := by
  apply namesOf_subset k
  rw [← names_ownTags f]
  exact List.mem_map_of_mem ht

theorem mark_of_ne {m n : String} (h : m ≠ n) (seen : String → Bool) : mark n seen m = seen m := by
  simp [mark, h]

theorem blend_mark_base {n : String} (hn : n ∈ baseNames) (f₀ f : Fields k) (seen : String → Bool) :
    f₀.blend f (mark n seen) = f₀.blend f seen := by
  have h : ∀ m ∈ ownNames, mark n seen m = seen m :=
    fun m hm => mark_of_ne (ownNames_ne_baseNames m hm n hn) seen
  simp only [ownNames, List.forall_mem_cons] at h
  cases f <;> cases f₀ <;>
    simp only [Fields.blend, LivingFields.blend, AnimalFields.blend, ProjectileFields.blend, h]

theorem blend_mark_own {n : String} (hn : n ∈ ownNames) (b₀ b : EntityBase) (seen : String → Bool) :
    b₀.blend b (mark n seen) = b₀.blend b seen ∧ mark n seen "Riding" = seen "Riding" := by
  have h : ∀ m ∈ baseNames, mark n seen m = seen m :=
    fun m hm => mark_of_ne (ownNames_ne_baseNames n hn m hm).symm seen
  simp only [baseNames, List.forall_mem_cons] at h
  exact ⟨by simp only [EntityBase.blend, h], by simp only [h]⟩

/-- The store of the class leaves the tags of `Entity` alone. -/
theorem loadLayers_base (f : Fields k) {t : Tag} (ht : t.name ∈ baseNames) :
    loadLayers f t (storeFor k).reverse = .ok none := by
  have h : ∀ m ∈ ownNames, t.name ≠ m := fun m hm => (ownNames_ne_baseNames m hm _ ht).symm
  simp only [ownNames, List.forall_mem_cons] at h
  cases f <;>
    simp [loadLayers, storeFor, LivingEntityStore, AnimalEntityStore, SheepEntityStore,
      EndermanEntityStore, PigZombieEntityStore, ItemEntityStore, TNTPrimedEntityStore,
      FallingBlockEntityStore, ProjectileEntityStore, ArrowEntityStore, PaintingEntityStore,
      MinecartEntityStore, livingLayer, animalLayer, sheepLayer, endermanLayer, pigZombieLayer,
      itemLayer, tntPrimedLayer, fallingBlockLayer, projectileLayer, arrowLayer, paintingLayer,
      minecartLayer, castTo, Fields.living?, Fields.animal?, Fields.projectile?, h, pure, Except.pure,
      bind, Except.bind]

/-- Once every name of the class has been seen, the fields are complete. -/
theorem blend_own (hk : k ≠ .player) {f₀ f : Fields k} {seen : String → Bool}
    (h : ∀ n ∈ namesOf k, seen n = true) : f₀.blend f seen = f := by
  cases f with
  | player => exact absurd rfl hk
  | _ =>
    cases f₀
    simp only [namesOf, livingNames, projectileNames, List.cons_append, List.nil_append, List.forall_mem_cons] at h
    simp only [Fields.blend, LivingFields.blend, AnimalFields.blend, ProjectileFields.blend, h, cond_true]

theorem blend_self (f : Fields k) (seen : String → Bool) : f.blend f seen = f := by
  cases f <;> simp only [Fields.blend, LivingFields.blend, AnimalFields.blend, ProjectileFields.blend,
    Bool.cond_self]

theorem blend_none (f₀ f : Fields k) : f₀.blend f (fun _ => false) = f₀ := by
  cases f₀ <;> cases f <;> rfl

theorem blend_base {b₀ b : EntityBase} {seen : String → Bool}
    (h : ∀ n ∈ baseNames, n ≠ "Riding" → seen n = true) : b₀.blend b seen = b := by
  simp only [baseNames, List.forall_mem_cons] at h
  simp [EntityBase.blend, h]

/-! ## The whole entity -/

theorem loadTags_eq (store : EntityStore) : ∀ (ts : List Tag) (e : Entity),
    loadTags store ts e = ts.foldlM (fun e t => loadTag store e t (readSingleEntity t)) e
  | [], e => by rw [loadTags, List.foldlM_nil]
  | t :: ts, e => by
    rw [loadTags, List.foldlM_cons]
    congr 1
    funext e
    exact loadTags_eq store ts e

section Whole

variable {c : EntityClass} {i : Int32} {b : EntityBase} {f₀ f : Fields c.kind} {r : Option Entity}
  {riding own : List Tag} {store : EntityStore}

/-- The entity as it is after the names that have been seen. -/
def partly (c : EntityClass) (i : Int32) (b : EntityBase) (f₀ f : Fields c.kind) (r : Option Entity)
    (seen : String → Bool) : Entity :=
  .mk c i (EntityBase.initial.blend b seen) (f₀.blend f seen) (cond (seen "Riding") r none)

theorem mem_saveBase {t : Tag} : t ∈ saveBase i b riding ↔ t ∈ saveBase i b [] ∨ t ∈ riding := by
  simp only [saveBase, List.mem_append, List.mem_cons, List.not_mem_nil, or_false]
  tauto

theorem name_mem_baseNames {t : Tag} (hr : ∀ t ∈ riding, t.name = "Riding")
    (ht : t ∈ saveBase i b riding) : t.name ∈ baseNames := by
  rcases mem_saveBase.mp ht with ht | ht
  · have hnames : (saveBase i b []).map Tag.name =
        ["Air", "FallDistance", "Fire", "Motion", "Pos", "Rotation", "OnGround", "id"] := rfl
    have hmem := List.mem_map_of_mem (f := Tag.name) ht
    rw [hnames] at hmem
    exact (by decide +kernel : ∀ n ∈ ["Air", "FallDistance", "Fire", "Motion", "Pos", "Rotation",
      "OnGround", "id"], n ∈ baseNames) _ hmem
  · rw [hr t ht]
    decide +kernel

theorem loadBaseTag_onGround (e : Entity) (g : Bool) (x : Except Exn (Option Entity)) :
    loadBaseTag e (flagTag "OnGround" g) x = .ok (e.setBase { e.base with onGround := g }) := by
  cases g <;> rfl

/-- A tag of `Entity` sets its component; the entity ridden is read from its own tag. -/
theorem loadBaseTag_blend (F : Fields c.kind) {t : Tag} {x : Except Exn (Option Entity)}
    (hr : ∀ t ∈ riding, t.name = "Riding") (ht : t ∈ saveBase i b riding)
    (hx : t ∈ riding → x = .ok r) (seen : String → Bool) :
    loadBaseTag (.mk c i (EntityBase.initial.blend b seen) F (cond (seen "Riding") r none)) t x =
      .ok (.mk c i (EntityBase.initial.blend b (mark t.name seen)) F
        (cond (mark t.name seen "Riding") r none)) := by
  rcases mem_saveBase.mp ht with h | h
  · simp only [saveBase, List.append_nil, List.mem_append, List.mem_cons, List.not_mem_nil, or_false,
      or_assoc] at h
    rcases h with rfl | rfl | rfl | rfl | rfl | rfl | rfl | rfl
    · rfl
    · rfl
    · rfl
    · rfl
    · rfl
    · rfl
    · rw [loadBaseTag_onGround]
      rfl
    · rfl
  · have hname := hr t h
    have hread : loadBaseTag (.mk c i (EntityBase.initial.blend b seen) F (cond (seen "Riding") r none)) t
        (.ok r) = .ok (.mk c i (EntityBase.initial.blend b seen) F r) := by
      simp [loadBaseTag, hname, Entity.setRiding, bind, Except.bind, pure, Except.pure]
    rw [hx h, hread, hname]
    rfl

/-- The id is found among the tags. -/
theorem find_id (hr : ∀ t ∈ riding, t.name = "Riding") (hown : ∀ t ∈ own, t.name ∈ ownNames) :
    (sortByName (saveBase i b riding ++ own)).find? (fun t => t.name = "id") = some (.int "id" i) := by
  have hmem : Tag.int "id" i ∈ saveBase i b riding := by simp [saveBase]
  refine find_sortByName rfl (List.mem_append_left _ hmem) fun t ht hid => ?_
  rcases List.mem_append.mp ht with h | h
  · rcases mem_saveBase.mp h with h | h
    · simp only [saveBase, List.append_nil, List.mem_append, List.mem_cons, List.not_mem_nil, or_false,
        or_assoc] at h
      rcases h with rfl | rfl | rfl | rfl | rfl | rfl | rfl | rfl
      any_goals simp [Tag.name, writeVector, writeRotation, flagTag] at hid
      rfl
    · rw [hr t h] at hid
      simp at hid
  · exact absurd hid (ownNames_ne_baseNames _ (hown t h) _ (by decide +kernel))

theorem loadTag_of_some {F F' : Fields c.kind} {t : Tag} (x : Except Exn (Option Entity))
    (h : loadLayers F t store.reverse = .ok (some F')) :
    loadTag store (.mk c i b F r) t x = .ok (.mk c i b F' r) := by
  unfold loadTag
  simp only
  rw [h]
  rfl

theorem loadTag_of_none {F : Fields c.kind} {t : Tag} (x : Except Exn (Option Entity))
    (h : loadLayers F t store.reverse = .ok none) :
    loadTag store (.mk c i b F r) t x = loadBaseTag (.mk c i b F r) t x := by
  unfold loadTag
  simp only
  rw [h]
  rfl

variable (hr : ∀ t ∈ riding, t.name = "Riding" ∧ readSingleEntity t = .ok r)
  (hown : ∀ t ∈ own, t.name ∈ ownNames ∧ ∀ seen, loadLayers (f₀.blend f seen) t store.reverse =
    .ok (some (f₀.blend f (mark t.name seen))))
  (hbase : ∀ t : Tag, t.name ∈ baseNames → ∀ F : Fields c.kind, loadLayers F t store.reverse = .ok none)
include hr hown hbase

/-- **Each tag sets its component.** -/
theorem loadTag_partly {t : Tag} (ht : t ∈ saveBase i b riding ++ own) (seen : String → Bool) :
    loadTag store (partly c i b f₀ f r seen) t (readSingleEntity t) =
      .ok (partly c i b f₀ f r (mark t.name seen)) := by
  unfold partly
  rcases List.mem_append.mp ht with h | h
  · have hname := name_mem_baseNames (fun t ht => (hr t ht).1) h
    rw [loadTag_of_none _ (hbase t hname _), blend_mark_base hname]
    exact loadBaseTag_blend _ (fun t ht => (hr t ht).1) h (fun ht => (hr t ht).2) seen
  · obtain ⟨hname, hload⟩ := hown t h
    obtain ⟨hb, hri⟩ := blend_mark_own hname EntityBase.initial b seen
    rw [loadTag_of_some _ (hload seen), hb, hri]

/-- The sorted tags give the entity in which every name has been seen. -/
theorem loadTags_sorted :
    ∃ seen : String → Bool, loadTags store (sortByName (saveBase i b riding ++ own))
        (.mk c i EntityBase.initial f₀ none) = .ok (partly c i b f₀ f r seen) ∧
      ∀ t ∈ saveBase i b riding ++ own, seen t.name = true := by
  set ts := saveBase i b riding ++ own with hts
  have hstart : Entity.mk c i EntityBase.initial f₀ none = partly c i b f₀ f r fun _ => false := by
    unfold partly
    rw [blend_none]
    rfl
  have hblend : ∀ t ∈ sortByName ts, ∀ seen,
      loadTag store (partly c i b f₀ f r seen) t (readSingleEntity t) =
        .ok (partly c i b f₀ f r (mark t.name seen)) :=
    fun t ht => loadTag_partly hr hown hbase (mem_sortByName.mp ht)
  refine ⟨marks Tag.name (sortByName ts) fun _ => false, ?_, ?_⟩
  · rw [loadTags_eq, hstart, foldlM_blend hblend]
  · intro t ht
    exact marks_eq_true_iff.mpr (.inl ⟨t, mem_sortByName.mpr ht, rfl⟩)

/-- The entity is complete in the end. -/
theorem loadTags_complete (hnone : riding = [] → r = none)
    (hall : ∀ seen : String → Bool, (∀ t ∈ own, seen t.name = true) → f₀.blend f seen = f) :
    loadTags store (sortByName (saveBase i b riding ++ own)) (.mk c i EntityBase.initial f₀ none) =
      .ok (.mk c i b f r) := by
  obtain ⟨seen, hload, hseen⟩ := loadTags_sorted (i := i) (b := b) hr hown hbase
  have hsaved : ∀ t ∈ saveBase i b riding, seen t.name = true :=
    fun t ht => hseen t (List.mem_append_left _ ht)
  have hb : EntityBase.initial.blend b seen = b := by
    apply blend_base
    intro n hn hne
    have hnames : ∀ n ∈ baseNames, n ≠ "Riding" → n ∈ (saveBase i b []).map Tag.name := by
      show ∀ n ∈ baseNames, n ≠ "Riding" →
        n ∈ ["Air", "FallDistance", "Fire", "Motion", "Pos", "Rotation", "OnGround", "id"]
      decide +kernel
    obtain ⟨t, ht, rfl⟩ := List.mem_map.mp (hnames n hn hne)
    exact hsaved t (mem_saveBase.mpr (.inl ht))
  have hri : cond (seen "Riding") r none = r := by
    cases hriding : riding with
    | nil => rw [hnone hriding, Bool.cond_self]
    | cons t ts =>
      have ht : t ∈ riding := by simp [hriding]
      have hs := hsaved t (mem_saveBase.mpr (.inr ht))
      rw [(hr t ht).1] at hs
      rw [hs, cond_true]
  rw [hload, partly, hb, hall seen fun t ht => hseen t (List.mem_append_right _ ht), hri]

end Whole

end NBTConverter

open NBTConverter

namespace Entity

/-- The entity as far as it is stored, with what it rides. -/
def typed : Entity → Entity
  | mk c i b f none => mk c i b f.typed none
  | mk c i b f (some r) => mk c i b f.typed (some r.typed)

/-- Each entity of the chain has the class of its id, and numbers that can be stored. -/
def Valid : Entity → Prop
  | mk c i _ f none => c = (createEntityById i).cls ∧ f.InRange
  | mk c i _ f (some r) => (c = (createEntityById i).cls ∧ f.InRange) ∧ r.Valid

/-- Each entity of the chain has an id with a store, or the class fields of a new object. -/
def Kept : Entity → Prop
  | mk c i _ f none => Registered i ∨ f.typed = Fields.initial c c.kind
  | mk c i _ f (some r) => (Registered i ∨ f.typed = Fields.initial c c.kind) ∧ r.Kept

/-- The class fields after writing and reading. -/
def keptFields (c : EntityClass) (i : Int32) (f : Fields c.kind) : Fields c.kind :=
  if Registered i then f.typed else Fields.initial c c.kind

/-- The entity after writing and reading. -/
def reread : Entity → Entity
  | mk c i b f none => mk c i b (keptFields c i f) none
  | mk c i b f (some r) => mk c i b (keptFields c i f) (some r.reread)

end Entity

namespace NBTConverter

theorem readSingleEntity_compound {i : Int32} {tags : List Tag} {e : Entity} (name : String)
    (hid : tags.find? (fun t => t.name = "id") = some (.int "id" i))
    (hload : loadTags (storeById i) tags (.mk (createEntityById i).cls i EntityBase.initial
      (Fields.initial (createEntityById i).cls (createEntityById i).cls.kind) none) = .ok e) :
    readSingleEntity (.compound name tags) = .ok (some e) := by
  have hnew : (createEntityById i).setTypeId i = .mk (createEntityById i).cls i EntityBase.initial
      (Fields.initial (createEntityById i).cls (createEntityById i).cls.kind) none := by
    conv_lhs => rw [new_cls_createEntityById i]
    rfl
  rw [readSingleEntity, hid]
  show (loadTags (storeById i) tags ((createEntityById i).setTypeId i) >>= fun e =>
    Except.ok (some e)) = _
  rw [hnew, hload]
  rfl

/-- One entity, given what reading the tag of the entity ridden gives. -/
theorem readSingleEntity_saveTags {c : EntityClass} {i : Int32} {b : EntityBase} {f : Fields c.kind}
    {r : Option Entity} (riding : List Tag) (hc : c = (createEntityById i).cls) (hf : f.InRange)
    (hr : ∀ t ∈ riding, t.name = "Riding" ∧ readSingleEntity t = .ok r) (hnone : riding = [] → r = none)
    (name : String) :
    ∃ tags, saveTags i b f riding = .ok tags ∧
      readSingleEntity (.compound name (sortByName tags)) =
        .ok (some (.mk c i b (Entity.keptFields c i f) r)) := by
  subst hc
  have hrname : ∀ t ∈ riding, t.name = "Riding" := fun t ht => (hr t ht).1
  by_cases hreg : Registered i
  · obtain ⟨hstore, hk⟩ := storeById_eq hreg
    obtain ⟨own, hown, hflat⟩ := mapM_save f
    have hnames : ∀ t ∈ ownTags f, t.name ∈ ownNames := fun t ht => name_mem_ownNames ht
    refine ⟨saveBase i b riding ++ ownTags f, ?_, ?_⟩
    · rw [saveTags, hstore, hown, ← hflat]
      rfl
    · apply readSingleEntity_compound name (find_id hrname hnames)
      rw [Entity.keptFields, if_pos hreg, hstore]
      refine loadTags_complete hr (fun t ht => ⟨hnames t ht, loadLayers_own hf ht⟩)
        (fun t ht F => loadLayers_base F ht) hnone ?_
      intro seen hseen
      apply blend_own hk
      intro n hn
      rw [← names_ownTags f] at hn
      obtain ⟨t, ht, rfl⟩ := List.mem_map.mp hn
      exact hseen t ht
  · have hstore := storeById_of_not_registered hreg
    refine ⟨saveBase i b riding ++ [], ?_, ?_⟩
    · rw [saveTags, hstore]
      rfl
    · apply readSingleEntity_compound name (find_id hrname fun t (ht : t ∈ []) => nomatch ht)
      rw [Entity.keptFields, if_neg hreg, hstore]
      exact loadTags_complete hr nofun (fun t ht F => rfl) hnone fun seen _ => blend_self _ seen

/-- **What is read back**, for every entity and whatever it rides. -/
theorem readSingleEntity_writeEntity : ∀ (e : Entity), e.Valid → ∀ name,
    ∃ tags, writeEntity e name = .ok (.compound name tags) ∧
      readSingleEntity (.compound name tags) = .ok (some e.reread)
  | .mk c i b f none, h, name => by
    obtain ⟨tags, hsave, hread⟩ := readSingleEntity_saveTags (b := b) (r := none) [] h.1 h.2
      nofun (fun _ => rfl) name
    refine ⟨sortByName tags, ?_, hread⟩
    rw [writeEntity, hsave]
    rfl
  | .mk c i b f (some r), h, name => by
    obtain ⟨rtags, hrwrite, hrread⟩ := readSingleEntity_writeEntity r h.2 "Riding"
    obtain ⟨tags, hsave, hread⟩ := readSingleEntity_saveTags (b := b) (r := some r.reread)
      [.compound "Riding" rtags] h.1.1 h.1.2
      (fun t ht => by
        obtain rfl := List.mem_singleton.mp ht
        exact ⟨rfl, hrread⟩)
      nofun name
    refine ⟨sortByName tags, ?_, hread⟩
    rw [writeEntity, hrwrite]
    show (saveTags i b f [.compound "Riding" rtags] >>= fun tags => _) = _
    rw [hsave]
    rfl

/-! ## The entities that survive -/

theorem typed_initial (c : EntityClass) (k : Kind) : (Fields.initial c k).typed = Fields.initial c k := by
  cases k <;> rfl

theorem unsignZero_unsignZero (f : JFloat) : f.unsignZero.unsignZero = f.unsignZero := by
  unfold JFloat.unsignZero
  by_cases h : f.bits = 0x80000000
  · rw [if_pos h]
    rfl
  · rw [if_neg h, if_neg h]

theorem typed_typed {k : Kind} (f : Fields k) : f.typed.typed = f.typed := by
  cases f with
  | player l p =>
    have hi : InventorySlot.typed ∘ InventorySlot.typed = InventorySlot.typed := rfl
    have ha : ItemStack.typed ∘ ItemStack.typed = ItemStack.typed := rfl
    simp [Fields.typed, hi, ha]
  | painting a c d => simp [Fields.typed, unsignZero_unsignZero]
  | _ => rfl

theorem typed_keptFields_iff {c : EntityClass} {i : Int32} {f : Fields c.kind} :
    (Entity.keptFields c i f).typed = f.typed ↔ Registered i ∨ f.typed = Fields.initial c c.kind := by
  unfold Entity.keptFields
  by_cases h : Registered i
  · rw [if_pos h, typed_typed]
    exact ⟨fun _ => .inl h, fun _ => rfl⟩
  · rw [if_neg h, typed_initial]
    exact ⟨fun he => .inr he.symm, fun hk => (hk.resolve_left h).symm⟩

theorem typed_reread_iff : ∀ e : Entity, e.reread.typed = e.typed ↔ e.Kept
  | .mk c i b f none => by
    simp only [Entity.reread, Entity.typed, Entity.Kept, Entity.mk.injEq, heq_eq_eq, true_and, and_true]
    exact typed_keptFields_iff
  | .mk c i b f (some r) => by
    simp only [Entity.reread, Entity.typed, Entity.Kept, Entity.mk.injEq, heq_eq_eq, true_and,
      Option.some.injEq]
    exact and_congr typed_keptFields_iff (typed_reread_iff r)

/-- Writing and reading gives an entity of the same class with the same fields. -/
def RoundTrips (e : Entity) (name : String) : Prop :=
  ∃ e', (writeEntity e name >>= readSingleEntity) = .ok (some e') ∧ e'.typed = e.typed

theorem roundTrips_iff_reread {e : Entity} (he : e.Valid) (name : String) :
    RoundTrips e name ↔ e.reread.typed = e.typed := by
  obtain ⟨tags, hwrite, hread⟩ := readSingleEntity_writeEntity e he name
  have hboth : (writeEntity e name >>= readSingleEntity) = .ok (some e.reread) := by
    rw [hwrite]
    exact hread
  constructor
  · rintro ⟨e', he', htyped⟩
    rw [hboth] at he'
    obtain rfl := Option.some.inj (Except.ok.inj he')
    exact htyped
  · intro h
    exact ⟨e.reread, hboth, h⟩

/-- **The entities that survive writing and reading** are those in which every entity of the riding chain
has a type id that the lookup service of the stores knows, or nothing to lose in its class fields. -/
theorem roundTrips_iff (e : Entity) (he : e.Valid) (name : String) : RoundTrips e name ↔ e.Kept :=
  (roundTrips_iff_reread he name).trans (typed_reread_iff e)

/-- A shorn sheep in a minecart. -/
def shornSheep : Entity :=
  .mk .Sheep 13 { EntityBase.initial with air := 7 } (.sheep ⟨0, 0, 5, 2, true⟩ ⟨-24000, 0⟩ 14 true)
    (some (.mk .Minecart 84 EntityBase.initial .minecart none))

theorem roundTrips_shornSheep : shornSheep.Valid ∧ RoundTrips shornSheep "" := by
  have hvalid : shornSheep.Valid := ⟨⟨rfl, trivial⟩, rfl, trivial⟩
  exact ⟨hvalid, (roundTrips_iff shornSheep hvalid "").mpr ⟨.inl (by decide), .inl (by decide)⟩⟩

/-- An iron golem that has lost health.  The lookup service has no store for iron golems. -/
def hurtGolem : Entity := .mk .IronGolem 20 EntityBase.initial (.living ⟨0, 0, 3, 0, false⟩) none

theorem not_roundTrips_hurtGolem : hurtGolem.Valid ∧ ¬RoundTrips hurtGolem "" := by
  have hvalid : hurtGolem.Valid := ⟨rfl, trivial⟩
  refine ⟨hvalid, fun h => ?_⟩
  rcases (typed_reread_iff _).mp ((roundTrips_iff_reread hvalid "").mp h) with h | h
  · exact absurd h (by decide)
  · injection h with h
    exact absurd h (by decide)

end NBTConverter

end WorldToPE
