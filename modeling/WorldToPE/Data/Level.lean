import WorldToPE.Data.Player
import WorldToPE.LevelDB.DBKey
import WorldToPE.Nbt.RoundTrip

/-!
# WorldToPE.Data.Level — `level.dat` and the record of the local player

`LevelDataConverter.read` and `write`: a level is stored as one little-endian compound behind a header
of eight bytes, and its player once more in the database, if there is one.

`writeLevel` stores `dayCycleStopTime` as a `LongTag` and `readLevel` casts it to `IntTag`, so a file
that was written is never read again (`read_fails`); `Dimension` and `Generator` are read but not
written.
-/

namespace WorldToPE

open Java Run DataStream

/-- `Level`, without the lists of entities and the extra tags, which are not part of `level.dat`. -/
structure Level where
  dayCycleStopTime : Int32
  dimension : Int32
  gameType : Int32
  generator : Int32
  lastPlayed : Int64
  levelName : Option String
  platform : Int32
  player : Option Player
  randomSeed : Int64
  sizeOnDisk : Int64
  spawnMobs : Bool
  spawnX : Int32
  spawnY : Int32
  spawnZ : Int32
  storageVersion : Int32
  time : Int64

/-- `new Level()`. -/
def Level.initial : Level where
  dayCycleStopTime := -1
  dimension := 0
  gameType := 0
  generator := 0
  lastPlayed := 0
  levelName := none
  platform := 0
  player := none
  randomSeed := 0
  sizeOnDisk := 0
  spawnMobs := true
  spawnX := 0
  spawnY := 0
  spawnZ := 0
  storageVersion := 0
  time := 0

/-- Equality in every field except the player. -/
def Level.SameSettings (a b : Level) : Prop := { a with player := b.player } = b

namespace NBTConverter

def longOf (t : Tag) : Except Exn Int64 := Tag.asLong (some t)

/-- One round of the loop of `readLevel`. -/
def readLevelTag (level : Level) (tag : Tag) : Except Exn Level := do
  let name := tag.name
  if name = "GameType" then return { level with gameType := ← intOf tag }
  else if name = "LastPlayed" then return { level with lastPlayed := ← longOf tag }
  else if name = "LevelName" then return { level with levelName := some (← Tag.asString (some tag)) }
  else if name = "Platform" then return { level with platform := ← intOf tag }
  else if name = "Player" then return { level with player := some (← readPlayer tag) }
  else if name = "RandomSeed" then return { level with randomSeed := ← longOf tag }
  else if name = "SizeOnDisk" then return { level with sizeOnDisk := ← longOf tag }
  else if name = "SpawnX" then return { level with spawnX := ← intOf tag }
  else if name = "SpawnY" then return { level with spawnY := ← intOf tag }
  else if name = "SpawnZ" then return { level with spawnZ := ← intOf tag }
  else if name = "StorageVersion" then return { level with storageVersion := ← intOf tag }
  else if name = "Time" then return { level with time := ← longOf tag }
  else if name = "dayCycleStopTime" then return { level with dayCycleStopTime := ← intOf tag }
  else if name = "spawnMobs" then return { level with spawnMobs := ← flagOf tag }
  else if name = "Dimension" then return { level with dimension := ← intOf tag }
  else if name = "Generator" then return { level with generator := ← intOf tag }
  else return level

/-- `readLevel((CompoundTag) tag)`. -/
def readLevel (compoundTag : Tag) : Except Exn Level := do
  let tags ← Tag.asCompound (some compoundTag)
  tags.foldlM readLevelTag Level.initial

/-- `writeLevel`.  A `null` player is dereferenced here, a `null` name when the tag is written to the
stream. -/
def writeLevel (level : Level) : Except Exn Tag := do
  match level.player, level.levelName with
  | some player, some levelName => do
    let playerTag ← writePlayer player "Player" false
    return .compound "" [
      .int "GameType" level.gameType,
      .long "LastPlayed" level.lastPlayed,
      .string "LevelName" levelName,
      .int "Platform" level.platform,
      playerTag,
      .long "RandomSeed" level.randomSeed,
      .long "SizeOnDisk" level.sizeOnDisk,
      .int "SpawnX" level.spawnX,
      .int "SpawnY" level.spawnY,
      .int "SpawnZ" level.spawnZ,
      .int "StorageVersion" level.storageVersion,
      .long "Time" level.time,
      .long "dayCycleStopTime" level.dayCycleStopTime.toInt64,
      flagTag "spawnMobs" level.spawnMobs]
  | _, _ => throw .nullPointer

end NBTConverter

open NBTConverter

/-! ## Files -/

/-- The folder of a world: the bytes of `level.dat`, and the database if the folder `db` exists. -/
structure WorldDir where
  levelDat : Option (List UInt8)
  db : Option DB

/-- A call that has an effect on the folder. -/
abbrev OnDisk := EStateM Exn WorldDir

namespace LevelDBConverter

/-- `bytes(LOCAL_PLAYER_KEY)`. -/
def localPlayerKey : List UInt8 := getBytes "~local_player"

/-- `readLevel`: the player of the database replaces the one of the level. -/
def readLevel (level : Level) (db : DB) : Except Exn Level := do
  match db[localPlayerKey]? with
  | none => return level
  | some localPlayerBytes =>
    let tag ← result (readTag true) localPlayerBytes
    return { level with player := some (← readPlayer tag) }

/-- `writeLevel`. -/
def writeLevel (level : Level) (db : DB) : Except Exn DB := do
  match level.player with
  | none => throw .nullPointer
  | some player =>
    let tag ← writePlayer player "" true
    let bytes ← writeTag true tag
    return db.insert localPlayerKey bytes

end LevelDBConverter

namespace LevelDataConverter

def header : List UInt8 := [4, 0, 0, 0]

def read : OnDisk Level := do
  match (← get).levelDat with
  | none => throw .io
  | some file =>
    let tag ← lift (result (readTag true) (file.drop 8))
    let level ← lift (readLevel tag)
    match (← get).db with
    | none => return level
    | some db => lift (LevelDBConverter.readLevel level db)

/-- The bytes of `level.dat`. -/
def fileBytes (bos : List UInt8) : List UInt8 :=
  header ++ intBytes (reverseBytes (Int32.ofNat bos.length)) ++ bos

def write (level : Level) : OnDisk Unit := do
  let tag ← lift (writeLevel level)
  let bos ← lift (writeTag true tag)
  modify fun dir => { dir with levelDat := some (fileBytes bos) }
  match (← get).db with
  | none => return ()
  | some db =>
    let db ← lift (LevelDBConverter.writeLevel level db)
    modify fun dir => { dir with db := some db }

/-! ## Saving and loading -/

/-- What was written to `level.dat`. -/
theorem write_ok {level : Level} {dir dir' : WorldDir} (h : write level dir = .ok () dir') :
    ∃ tag bos, writeLevel level = .ok tag ∧ writeTag true tag = .ok bos ∧
      dir'.levelDat = some (fileBytes bos) := by
  unfold write at h
  obtain ⟨tag, s, h1, h⟩ := bind_eq_ok.mp h
  obtain ⟨htag, rfl⟩ := lift_eq_ok.mp h1
  obtain ⟨bos, s, h2, h⟩ := bind_eq_ok.mp h
  obtain ⟨hbos, rfl⟩ := lift_eq_ok.mp h2
  refine ⟨tag, bos, htag, hbos, ?_⟩
  rw [bind_of_ok (modify_apply _ _), bind_of_ok (get_apply _)] at h
  cases hdb : dir.db with
  | none =>
    simp only [hdb] at h
    obtain ⟨-, rfl⟩ := EStateM.Result.ok.inj h
    rfl
  | some db =>
    simp only [hdb] at h
    obtain ⟨db', s, hw, h⟩ := bind_eq_ok.mp h
    obtain ⟨-, rfl⟩ := lift_eq_ok.mp hw
    obtain ⟨-, rfl⟩ := EStateM.Result.ok.inj h
    rfl

theorem drop_fileBytes (bos : List UInt8) : (fileBytes bos).drop 8 = bos := by
  have h : (header ++ intBytes (reverseBytes (Int32.ofNat bos.length))).length = 8 := by
    simp [header]
  unfold fileBytes
  rw [← h, List.drop_left]

/-- `readLevel` casts the stop time of the day cycle to `IntTag`. -/
theorem readLevelTag_stopTime (level : Level) (v : Int64) :
    readLevelTag level (.long "dayCycleStopTime" v) = .error .classCast := by
  simp [readLevelTag, Tag.name, intOf, Tag.asInt]

theorem stopTime_mem {level : Level} {tag : Tag} (h : writeLevel level = .ok tag) :
    ∃ tags, tag = .compound "" tags ∧
      Tag.long "dayCycleStopTime" level.dayCycleStopTime.toInt64 ∈ tags := by
  unfold writeLevel at h
  split at h
  · obtain ⟨playerTag, -, h⟩ := Java.bind_eq_ok.mp h
    obtain rfl := Except.ok.inj h
    exact ⟨_, rfl, by simp⟩
  · cases h

/-- What `writeLevel` makes, `readLevel` does not take. -/
theorem readLevel_writeLevel {level : Level} {tag : Tag} (h : writeLevel level = .ok tag) :
    ∃ e, readLevel tag = .error e := by
  obtain ⟨tags, rfl, hmem⟩ := stopTime_mem h
  exact foldlM_of_error (fun l => ⟨_, readLevelTag_stopTime l _⟩) hmem Level.initial

/-- The stream codec decodes what it encodes for the level. -/
def Decodes (level : Level) : Prop :=
  ∀ tag bos, writeLevel level = .ok tag → writeTag true tag = .ok bos →
    readTag true bos = .ok tag []

/-- A `level.dat` that was written is not read. -/
theorem read_fails {level : Level} {dir dir' : WorldDir} (codec : Decodes level)
    (h : write level dir = .ok () dir') : ∃ e, read dir' = .error e dir' := by
  obtain ⟨tag, bos, htag, hbos, hfile⟩ := write_ok h
  obtain ⟨e, he⟩ := readLevel_writeLevel htag
  have hread : result (readTag true) bos = .ok tag := result_of_ok (codec tag bos htag hbos)
  refine ⟨e, ?_⟩
  unfold read
  rw [bind_of_ok (get_apply _), hfile]
  simp only
  rw [drop_fileBytes, hread, bind_of_ok (lift_eq_ok.mpr ⟨rfl, rfl⟩), he]
  rfl

/-- The level is read back after it was written, with the same settings. -/
def SurvivesSaving (level : Level) (dir : WorldDir) : Prop :=
  ∃ dir', write level dir = .ok () dir' ∧
    ∃ level' dir'', read dir' = .ok level' dir'' ∧ level'.SameSettings level

/-- **No level survives saving and loading.** -/
theorem not_survivesSaving (level : Level) (dir : WorldDir) (codec : Decodes level) :
    ¬ SurvivesSaving level dir := by
  rintro ⟨dir', hw, level', dir'', hr, -⟩
  obtain ⟨e, he⟩ := read_fails codec hw
  rw [he] at hr
  cases hr

/-! ## Levels for which the codec decodes what it encodes -/

theorem encodableValue_items {α : Type} {write : α → Tag} {slots : List α} (h : slots.length < 2 ^ 31)
    (name : String)
    (hw : ∀ a, (write a).name = "" ∧ (write a).type = .compound ∧ EncodableValue (write a)) :
    EncodableValue (.list name .compound (slots.map write)) := by
  unfold EncodableValue
  refine ⟨by simpa using h, encodableElements_iff.mpr ?_⟩
  intro t ht
  obtain ⟨a, -, rfl⟩ := List.mem_map.mp ht
  exact hw a

theorem encodableValue_inventory {slots : List InventorySlot} (h : slots.length < 2 ^ 31) (name : String) :
    EncodableValue (writeInventory slots name) := by
  refine encodableValue_items h name fun slot => ⟨rfl, rfl, ?_⟩
  simp only [writeInventorySlot, EncodableValue, EncodableChildren, Tag.name]
  decide

theorem encodableValue_armor {slots : List ItemStack} (h : slots.length < 2 ^ 31) (name : String) :
    EncodableValue (writeArmor slots name) := by
  refine encodableValue_items h name fun slot => ⟨rfl, rfl, ?_⟩
  simp only [writeItemStack, EncodableValue, EncodableChildren, Tag.name]
  decide

theorem encodableValue_vector (v : Vector3f) (name : String) : EncodableValue (writeVector v name) := by
  simp [writeVector, EncodableValue, EncodableElements, Tag.name, Tag.type]

theorem encodableValue_rotation (yaw pitch : JFloat) : EncodableValue (writeRotation yaw pitch) := by
  simp [writeRotation, EncodableValue, EncodableElements, Tag.name, Tag.type]

theorem encodableValue_abilities (a : PlayerAbilities) (name : String) :
    EncodableValue (writeAbilities a name) := by
  simp only [writeAbilities, EncodableValue, EncodableChildren, flagTag, Tag.name]
  decide

/-- The lists of the player are no longer than a Java list can be, and it rides nothing. -/
structure PlainPlayer (p : Player) : Prop where
  inventory : ∀ slots, p.fields.inventory = some slots → slots.length < 2 ^ 31
  armor : ∀ slots, p.fields.armorSlots = some slots → slots.length < 2 ^ 31
  riding : p.riding = none

theorem encodableValue_player {p : Player} (hp : PlainPlayer p) {name : String} {writeId : Bool} {tag : Tag}
    (h : writePlayer p name writeId = .ok tag) : tag.name = name ∧ EncodableValue tag := by
  unfold writePlayer at h
  cases hi : p.fields.inventory with
  | none =>
    simp only [hi] at h
    cases h
  | some slots =>
    simp only [hi, hp.riding] at h
    obtain rfl := Except.ok.inj h
    refine ⟨rfl, ?_⟩
    unfold EncodableValue
    rw [encodableChildren_iff]
    intro t ht
    rw [mem_sortByName] at ht
    revert t
    rw [← encodableChildren_iff]
    unfold playerTags
    simp only [encodableChildren_append]
    refine ⟨⟨⟨?_, ?_⟩, ?_⟩, trivial⟩
    · simp only [EncodableChildren, EncodableValue, flagTag, name_writeVector, name_writeRotation,
        encodableValue_vector, encodableValue_rotation]
      simp only [Tag.name]
      decide
    · cases ha : p.fields.armorSlots with
      | none => trivial
      | some armor => exact ⟨⟨by rw [name_writeArmor]; decide, encodableValue_armor (hp.armor _ ha) _⟩, trivial⟩
    · simp only [EncodableChildren, EncodableValue, flagTag, name_writeInventory, name_writeAbilities,
        encodableValue_inventory (hp.inventory _ hi), encodableValue_abilities]
      simp only [Tag.name]
      decide

theorem encodable_level {level : Level} {name : String} {p : Player} (hname : level.levelName = some name)
    (hshort : ShortString name) (hplayer : level.player = some p) (hp : PlainPlayer p) {tag : Tag}
    (h : writeLevel level = .ok tag) : Encodable tag := by
  unfold writeLevel at h
  simp only [hname, hplayer] at h
  obtain ⟨playerTag, hw, h⟩ := Java.bind_eq_ok.mp h
  obtain ⟨hn, hv⟩ := encodableValue_player hp hw
  obtain rfl := Except.ok.inj h
  refine ⟨show ShortString "" by decide, ?_⟩
  simp only [EncodableValue, EncodableChildren, flagTag, hn, hv, hshort]
  simp only [Tag.name]
  decide

/-- The assumption on the codec holds for every level with a short name and a plain player. -/
theorem decodes_of_plain {level : Level} {name : String} {p : Player} (hname : level.levelName = some name)
    (hshort : ShortString name) (hplayer : level.player = some p) (hp : PlainPlayer p) :
    Decodes level := by
  intro tag bos htag hbos
  obtain ⟨bs, hbs, -, hread⟩ := readTag_append true (encodable_level hname hshort hplayer hp htag)
  obtain rfl := Except.ok.inj (hbos.symm.trans hbs)
  have h := hread []
  rwa [List.append_nil] at h

/-- A new level with a name and a player. -/
def newLevel : Level :=
  { Level.initial with
    levelName := some "World",
    player := some { Player.initial with
      fields := { PlayerFields.initial with inventory := some [], armorSlots := some [] } } }

theorem decodes_newLevel : Decodes newLevel := by
  refine decodes_of_plain (show newLevel.levelName = some "World" from rfl) (by decide) rfl ?_
  constructor
  · rintro slots h
    obtain rfl := Option.some.inj h
    decide
  · rintro slots h
    obtain rfl := Option.some.inj h
    decide
  · rfl

/-- The new level has a name, a player and an inventory; it is written, and reading it fails. -/
theorem newLevel_lost : Decodes newLevel ∧
    (∃ dir', write newLevel ⟨none, none⟩ = .ok () dir') ∧ ¬ SurvivesSaving newLevel ⟨none, none⟩ := by
  refine ⟨decodes_newLevel, ⟨_, rfl⟩, ?_⟩
  rintro ⟨dir', hw, level', dir'', hr, -⟩
  obtain ⟨e, he⟩ := read_fails decodes_newLevel hw
  rw [he] at hr
  cases hr

theorem newLevel_not_survivesSaving :
    Decodes newLevel ∧ ¬ SurvivesSaving newLevel ⟨none, some ∅⟩ :=
  ⟨decodes_newLevel, not_survivesSaving newLevel _ decodes_newLevel⟩

end LevelDataConverter

end WorldToPE
