import WorldToPE.Data.EntityRoundTrip
import WorldToPE.Data.Player

/-!
# WorldToPE.Data.PlayerRoundTrip — the player is read back as it was written

`writePlayer` sorts its tags by name and `readPlayer` dispatches on the name, so the order of the tags
does not matter: each tag sets the component that its name stands for (`readPlayerTag_blend`).

* `blend_stored`: once every name has been seen, the player is complete.
* `readPlayer_eq`: what is read back, for every player that rides nothing.
-/

namespace WorldToPE

open Java Named

namespace Player

/-- The player `p` in the components that have been read, `p₀` in the others. -/
def blend (p₀ p : Player) (seen : String → Bool) : Player where
  base := p₀.base.blend p.base seen
  -- no tag sets `persistent`
  living := { p₀.living.blend p.living seen with persistent := p₀.living.persistent }
  fields := {
    abilities := cond (seen "abilities") p.fields.abilities p₀.fields.abilities
    armorSlots := cond (seen "Armor") p.fields.armorSlots p₀.fields.armorSlots
    bedPositionX := cond (seen "BedPositionX") p.fields.bedPositionX p₀.fields.bedPositionX
    bedPositionY := cond (seen "BedPositionY") p.fields.bedPositionY p₀.fields.bedPositionY
    bedPositionZ := cond (seen "BedPositionZ") p.fields.bedPositionZ p₀.fields.bedPositionZ
    dimension := cond (seen "Dimension") p.fields.dimension p₀.fields.dimension
    inventory := cond (seen "Inventory") p.fields.inventory p₀.fields.inventory
    score := cond (seen "Score") p.fields.score p₀.fields.score
    sleepTimer := cond (seen "SleepTimer") p.fields.sleepTimer p₀.fields.sleepTimer
    sleeping := cond (seen "Sleeping") p.fields.sleeping p₀.fields.sleeping
    spawnX := cond (seen "SpawnX") p.fields.spawnX p₀.fields.spawnX
    spawnY := cond (seen "SpawnY") p.fields.spawnY p₀.fields.spawnY
    spawnZ := cond (seen "SpawnZ") p.fields.spawnZ p₀.fields.spawnZ }
  riding := cond (seen "Riding") p.riding p₀.riding

/-- The player as far as it is stored: the tags of items that are not known are dropped. -/
def stored (p : Player) : Player :=
  { p with
    living := { p.living with persistent := false }
    fields := { p.fields with
      armorSlots := p.fields.armorSlots.map (List.map ItemStack.typed)
      inventory := p.fields.inventory.map (List.map InventorySlot.typed) }
    riding := none }

/-- Every amount fits in the byte that it is stored in. -/
structure Small (p : Player) : Prop where
  inventory : ∀ slots, p.fields.inventory = some slots → ∀ s ∈ slots, s.contents.Small
  armor : ∀ slots, p.fields.armorSlots = some slots → ∀ s ∈ slots, s.Small

end Player

namespace NBTConverter

/-! ## One tag -/

section OneTag

variable (q : Player)

theorem readPlayerTag_onGround (b : Bool) : readPlayerTag q (flagTag "OnGround" b) =
    .ok { q with base := { q.base with onGround := b } } := by
  cases b <;> rfl

theorem readPlayerTag_sleeping (b : Bool) : readPlayerTag q (flagTag "Sleeping" b) =
    .ok { q with fields := { q.fields with sleeping := b } } := by
  cases b <;> rfl

theorem readPlayerTag_abilities (a : PlayerAbilities) :
    readPlayerTag q (writeAbilities a "abilities") =
      .ok { q with fields := { q.fields with abilities := a } } := by
  obtain ⟨b1, b2, b3, b4⟩ := a
  cases b1 <;> cases b2 <;> cases b3 <;> cases b4 <;> rfl

theorem readPlayerTag_inventory {slots : List InventorySlot} (h : ∀ s ∈ slots, s.contents.Small) :
    readPlayerTag q (writeInventory slots "Inventory") =
      .ok { q with fields := { q.fields with inventory := some (slots.map InventorySlot.typed) } } := by
  show (readInventory _ >>= fun i =>
    Except.ok { q with fields := { q.fields with inventory := some i } }) = _
  rw [readInventory_write h]
  rfl

theorem readPlayerTag_armor {slots : List ItemStack} (h : ∀ s ∈ slots, s.Small) :
    readPlayerTag q (writeArmor slots "Armor") =
      .ok { q with fields := { q.fields with armorSlots := some (slots.map ItemStack.typed) } } := by
  show (readArmor _ >>= fun i =>
    Except.ok { q with fields := { q.fields with armorSlots := some i } }) = _
  rw [readArmor_write h]
  rfl

end OneTag

section RoundTrip

variable {p : Player} {inventory : List InventorySlot} (hp : p.Small)
  (hi : p.fields.inventory = some inventory)
include hp hi

/-- **Each tag sets its component.** -/
theorem readPlayerTag_blend (p₀ : Player) {t : Tag}
    (ht : t ∈ playerTags p.base p.living p.fields inventory (armorTags p.fields.armorSlots) [])
    (seen : String → Bool) :
    readPlayerTag (p₀.blend p.stored seen) t = .ok (p₀.blend p.stored (mark t.name seen)) := by
  have hinv : p.stored.fields.inventory = some (inventory.map InventorySlot.typed) := by
    simp [Player.stored, hi]
  unfold playerTags at ht
  simp only [List.append_nil, List.mem_append, List.mem_cons, List.not_mem_nil, or_false] at ht
  rcases ht with (h | h) | h
  · rcases h with rfl | rfl | rfl | rfl | rfl | rfl | rfl | rfl | rfl | rfl | rfl
    · rfl
    · rfl
    · rfl
    · rfl
    · rfl
    · rfl
    · rw [readPlayerTag_onGround]
      rfl
    · rfl
    · rfl
    · rfl
    · rfl
  · cases ha : p.fields.armorSlots with
    | none => simp [armorTags, ha] at h
    | some armor =>
      obtain rfl : t = writeArmor armor "Armor" := by simpa [armorTags, ha] using h
      have harm : p.stored.fields.armorSlots = some (armor.map ItemStack.typed) := by
        simp [Player.stored, ha]
      rw [readPlayerTag_armor _ (hp.armor _ ha), ← harm]
      rfl
  · rcases h with rfl | rfl | rfl | rfl | rfl | rfl | rfl | rfl | rfl | rfl | rfl | rfl
    · rfl
    · rfl
    · rfl
    · rfl
    · rw [readPlayerTag_inventory _ (hp.inventory _ hi), ← hinv]
      rfl
    · rfl
    · rw [readPlayerTag_sleeping]
      rfl
    · rfl
    · rfl
    · rfl
    · rfl
    · rw [readPlayerTag_abilities]
      rfl

/-! ## The whole player -/

/-- The names of the tags that are always written. -/
def playerNames : List String :=
  ["Air", "FallDistance", "Fire", "Motion", "Pos", "Rotation", "OnGround", "AttackTime", "DeathTime",
    "Health", "HurtTime", "BedPositionX", "BedPositionY", "BedPositionZ", "Dimension", "Inventory",
    "Score", "Sleeping", "SleepTimer", "SpawnX", "SpawnY", "SpawnZ", "abilities"]

omit hp hi in
theorem blend_stored {seen : String → Bool} (h : ∀ n ∈ playerNames, seen n = true)
    (ha : p.fields.armorSlots ≠ none → seen "Armor" = true) :
    Player.initial.blend p.stored seen = p.stored := by
  simp only [playerNames, List.forall_mem_cons] at h
  have harm : cond (seen "Armor") p.stored.fields.armorSlots none = p.stored.fields.armorSlots := by
    cases hs : p.fields.armorSlots with
    | none => simp [Player.stored, hs]
    | some slots => rw [ha (by simp [hs]), cond_true]
  have hi : Player.initial.fields.armorSlots = none := rfl
  have hr : cond (seen "Riding") p.stored.riding none = none := Bool.cond_self _ _
  unfold Player.blend
  rw [hi, harm, show Player.initial.riding = none from rfl, hr]
  simp only [EntityBase.blend, LivingFields.blend, h, cond_true]
  rfl

omit hp in
/-- The children of the compound that is written. -/
theorem writePlayer_eq (hr : p.riding = none) (name : String) (writeId : Bool) :
    writePlayer p name writeId = .ok (.compound name (sortByName (playerTags p.base p.living p.fields
      inventory (armorTags p.fields.armorSlots) []))) := by
  unfold writePlayer
  simp only [hi, hr]
  rfl

omit hp hi in
theorem readPlayer_compound (name : String) (tags : List Tag) :
    readPlayer (.compound name tags) = tags.foldlM readPlayerTag Player.initial := rfl

/-- **The player is read back as far as it is stored.** -/
theorem readPlayer_eq (name : String) :
    readPlayer (.compound name (sortByName (playerTags p.base p.living p.fields inventory
      (armorTags p.fields.armorSlots) []))) = .ok p.stored := by
  set ts := playerTags p.base p.living p.fields inventory (armorTags p.fields.armorSlots) [] with hts
  have hstart : Player.initial = Player.initial.blend p.stored fun _ => false := rfl
  have hblend : ∀ t ∈ sortByName ts, ∀ seen, readPlayerTag (Player.initial.blend p.stored seen) t =
      .ok (Player.initial.blend p.stored (mark t.name seen)) :=
    fun t ht => readPlayerTag_blend hp hi _ (mem_sortByName.mp ht)
  have hseen {n : String} (h : ∃ t ∈ ts, t.name = n) :
      marks Tag.name (sortByName ts) (fun _ => false) n = true := by
    obtain ⟨t, ht, rfl⟩ := h
    exact marks_eq_true_iff.mpr (.inl ⟨t, mem_sortByName.mpr ht, rfl⟩)
  rw [readPlayer_compound, hstart, foldlM_blend hblend, blend_stored]
  · intro n hn
    apply hseen
    have hnames : n ∈ (playerTags p.base p.living p.fields inventory [] []).map Tag.name := hn
    obtain ⟨t, ht, rfl⟩ := List.mem_map.mp hnames
    refine ⟨t, ?_, rfl⟩
    rw [hts]
    unfold playerTags at ht ⊢
    simp only [List.append_nil, List.mem_append] at ht ⊢
    exact ht.elim (fun h => .inl (.inl h)) .inr
  · intro ha
    obtain ⟨armor, harm⟩ := Option.ne_none_iff_exists'.mp ha
    exact hseen ⟨writeArmor armor "Armor", by simp [hts, playerTags, armorTags, harm], rfl⟩

omit hp hi in
theorem nodup_playerNames (inventory : List InventorySlot) (armor : Option (List ItemStack)) :
    ((playerTags p.base p.living p.fields inventory (armorTags armor) []).map Tag.name).Nodup := by
  cases armor with
  | none =>
    show playerNames.Nodup
    decide +kernel
  | some slots =>
    show List.Nodup ["Air", "FallDistance", "Fire", "Motion", "Pos", "Rotation", "OnGround",
      "AttackTime", "DeathTime", "Health", "HurtTime", "Armor", "BedPositionX", "BedPositionY",
      "BedPositionZ", "Dimension", "Inventory", "Score", "Sleeping", "SleepTimer", "SpawnX", "SpawnY",
      "SpawnZ", "abilities"]
    decide +kernel

end RoundTrip

/-- **The record of the player round-trips**: a player with an inventory that rides nothing is written,
with strictly increasing names, and what is read back is the player as far as it is stored. -/
theorem readPlayer_writePlayer (p : Player) (inventory : List InventorySlot)
    (hi : p.fields.inventory = some inventory) (hp : p.Small) (hr : p.riding = none) (name : String)
    (writeId : Bool) :
    ∃ children, writePlayer p name writeId = .ok (.compound name children) ∧
      readPlayer (.compound name children) = .ok p.stored ∧
      (children.map Tag.name).Pairwise (· < ·) :=
  ⟨_, writePlayer_eq hi hr name writeId, readPlayer_eq hp hi name,
    names_sortByName (nodup_playerNames inventory p.fields.armorSlots)⟩

/-- A player with 200 torches in the first slot and a helmet. -/
def torchPlayer : Player :=
  { Player.initial with
    fields := { PlayerFields.initial with
      inventory := some [⟨9, ⟨50, 0, 200, []⟩⟩], armorSlots := some [⟨298, 3, 1, []⟩] } }

theorem readPlayer_writePlayer_torches :
    torchPlayer.Small ∧ ∃ children, writePlayer torchPlayer "Player" false =
        .ok (.compound "Player" children) ∧
      readPlayer (.compound "Player" children) = .ok torchPlayer.stored ∧
      (children.map Tag.name).Pairwise (· < ·) := by
  have hp : torchPlayer.Small := by
    constructor
    · rintro slots h s hs
      obtain rfl := Option.some.inj h
      obtain rfl := List.mem_singleton.mp hs
      exact ⟨by decide, by decide⟩
    · rintro slots h s hs
      obtain rfl := Option.some.inj h
      obtain rfl := List.mem_singleton.mp hs
      exact ⟨by decide, by decide⟩
  exact ⟨hp, readPlayer_writePlayer torchPlayer _ rfl hp rfl "Player" false⟩

end NBTConverter

end WorldToPE
