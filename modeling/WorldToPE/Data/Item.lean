import WorldToPE.Nbt.Tag

/-!
# WorldToPE.Data.Item — item stacks and inventory slots

`ItemStack`, `InventorySlot` and the part of `NBTConverter` that reads and writes them.  The readers
walk over the children of a compound and keep what they do not know in `extraTags`; the writers have
fixed lists of tags.
-/

namespace WorldToPE

open Java

structure ItemStack where
  id : Int16
  durability : Int16
  amount : Int32
  extraTags : List Tag

structure InventorySlot where
  slot : UInt8
  contents : ItemStack

namespace NBTConverter

/-- A `Count` byte, read as an unsigned number. -/
def readCount (tag : Tag) : Except Exn Int32 := do
  let count := widen (← Tag.asByte (some tag))
  return if count < 0 then count + 256 else count

/-- One round of the loop of `readItemStack`. -/
def readItemStackTag (stack : ItemStack) (tag : Tag) : Except Exn ItemStack := do
  if tag.name = "id" then return { stack with id := ← Tag.asShort (some tag) }
  else if tag.name = "Damage" then return { stack with durability := ← Tag.asShort (some tag) }
  else if tag.name = "Count" then return { stack with amount := ← readCount tag }
  else return { stack with extraTags := stack.extraTags ++ [tag] }

/-- `new ItemStack((short) 0, (short) 0, 0)`. -/
def emptyStack : ItemStack := ⟨0, 0, 0, []⟩

/-- `readItemStack` on the children of a compound. -/
def readItemStack (tags : List Tag) : Except Exn ItemStack := tags.foldlM readItemStackTag emptyStack

/-- One round of the loop of `readInventorySlot`. -/
def readInventorySlotTag (slot : InventorySlot) (tag : Tag) : Except Exn InventorySlot := do
  if tag.name = "Slot" then return { slot with slot := ← Tag.asByte (some tag) }
  else return { slot with contents := ← readItemStackTag slot.contents tag }

/-- `readInventorySlot` on the children of a compound. -/
def readInventorySlot (tags : List Tag) : Except Exn InventorySlot :=
  tags.foldlM readInventorySlotTag ⟨0, emptyStack⟩

def writeItemStack (stack : ItemStack) (name : String) : Tag :=
  .compound name [.byte "Count" (narrow stack.amount), .short "Damage" stack.durability,
    .short "id" stack.id]

def writeInventorySlot (slot : InventorySlot) : Tag :=
  .compound "" [.byte "Count" (narrow slot.contents.amount), .short "Damage" slot.contents.durability,
    .byte "Slot" slot.slot, .short "id" slot.contents.id]

/-- The loop `for (CompoundTag tag : listTag.getValue())`. -/
def readCompounds {α : Type} (read : List Tag → Except Exn α) (listTag : Tag) :
    Except Exn (List α) := do
  let tags ← Tag.asList (some listTag)
  tags.mapM fun tag => do read (← Tag.asCompound (some tag))

def readInventory : Tag → Except Exn (List InventorySlot) := readCompounds readInventorySlot

def writeInventory (slots : List InventorySlot) (name : String) : Tag :=
  .list name .compound (slots.map writeInventorySlot)

def readArmor : Tag → Except Exn (List ItemStack) := readCompounds readItemStack

def writeArmor (slots : List ItemStack) (name : String) : Tag :=
  .list name .compound (slots.map (writeItemStack · ""))

@[simp] theorem name_writeInventory (slots : List InventorySlot) (name : String) :
    (writeInventory slots name).name = name := rfl

@[simp] theorem name_writeArmor (slots : List ItemStack) (name : String) :
    (writeArmor slots name).name = name := rfl

/-! ## Reading back what was written -/

end NBTConverter

/-- The amount fits in the byte that it is stored in. -/
def ItemStack.Small (stack : ItemStack) : Prop := 0 ≤ stack.amount.toInt ∧ stack.amount.toInt ≤ 255

/-- The stack without the tags that the writers do not write. -/
def ItemStack.typed (stack : ItemStack) : ItemStack := { stack with extraTags := [] }

def InventorySlot.typed (slot : InventorySlot) : InventorySlot := { slot with contents := slot.contents.typed }

namespace NBTConverter

/-- A count is stored in a signed byte and read as an unsigned one. -/
theorem readCount_narrow {n : Int32} (h0 : 0 ≤ n.toInt) (h1 : n.toInt ≤ 255) (name : String) :
    readCount (.byte name (narrow n)) = .ok n := by
  have hn := toNat_narrow n
  have hw := toInt_widen (narrow n)
  have hz : (0 : Int32).toInt = 0 := rfl
  have h256 : (256 : Int32).toInt = 256 := rfl
  show Except.ok (if widen (narrow n) < 0 then widen (narrow n) + 256 else widen (narrow n)) = .ok n
  congr 1
  apply Int32.toInt_inj.mp
  split
  · rename_i hlt
    rw [Int32.lt_iff_toInt_lt, hz] at hlt
    rw [toInt_add_of_fits] <;> rw [h256] <;> split at hw <;> omega
  · rename_i hlt
    rw [Int32.lt_iff_toInt_lt, hz] at hlt
    split at hw <;> omega

theorem readItemStackTag_count {stack : ItemStack} (h : stack.Small) (s : ItemStack) :
    readItemStackTag s (.byte "Count" (narrow stack.amount)) =
      .ok { s with amount := stack.amount } := by
  show (readCount _ >>= fun a => Except.ok { s with amount := a }) = _
  rw [readCount_narrow h.1 h.2]
  rfl

theorem readItemStack_write {stack : ItemStack} (h : stack.Small) :
    readItemStack [.byte "Count" (narrow stack.amount), .short "Damage" stack.durability,
      .short "id" stack.id] = .ok stack.typed := by
  unfold readItemStack
  rw [List.foldlM_cons, readItemStackTag_count h]
  rfl

theorem readInventorySlot_write {slot : InventorySlot} (h : slot.contents.Small) :
    readInventorySlot [.byte "Count" (narrow slot.contents.amount),
      .short "Damage" slot.contents.durability, .byte "Slot" slot.slot,
      .short "id" slot.contents.id] = .ok slot.typed := by
  have h1 (s : InventorySlot) : readInventorySlotTag s (.byte "Count" (narrow slot.contents.amount)) =
      .ok { s with contents := { s.contents with amount := slot.contents.amount } } := by
    show (readItemStackTag s.contents _ >>= fun c => Except.ok { s with contents := c }) = _
    rw [readItemStackTag_count h]
    rfl
  unfold readInventorySlot
  rw [List.foldlM_cons, h1]
  rfl

theorem mapM_eq_ok {α β : Type} {f : α → Except Exn β} {g : α → β} :
    ∀ {as : List α}, (∀ a ∈ as, f a = .ok (g a)) → as.mapM f = .ok (as.map g)
  | [], _ => rfl
  | a :: as, h => by
    rw [List.mapM_cons, h a List.mem_cons_self, mapM_eq_ok fun b hb => h b (List.mem_cons_of_mem _ hb)]
    rfl

/-- Lists of compounds, each of which is read back. -/
theorem readCompounds_map {α : Type} {read : List Tag → Except Exn α} {write : α → Tag} {g : α → α}
    {as : List α} (name : String)
    (h : ∀ a ∈ as, ∃ n tags, write a = .compound n tags ∧ read tags = .ok (g a)) :
    readCompounds read (.list name .compound (as.map write)) = .ok (as.map g) := by
  show List.mapM _ (as.map write) = _
  rw [List.mapM_map]
  apply mapM_eq_ok
  intro a ha
  obtain ⟨n, tags, hw, hr⟩ := h a ha
  show (Tag.asCompound (some (write a)) >>= fun tags => read tags) = _
  rw [hw]
  exact hr

theorem readInventory_write {slots : List InventorySlot} (h : ∀ s ∈ slots, s.contents.Small)
    (name : String) : readInventory (writeInventory slots name) = .ok (slots.map InventorySlot.typed) :=
  readCompounds_map name fun s hs => ⟨_, _, rfl, readInventorySlot_write (h s hs)⟩

theorem readArmor_write {slots : List ItemStack} (h : ∀ s ∈ slots, s.Small) (name : String) :
    readArmor (writeArmor slots name) = .ok (slots.map ItemStack.typed) :=
  readCompounds_map name fun s hs => ⟨_, _, rfl, readItemStack_write (h s hs)⟩

/-! ## What was read can be written -/

/-- The names that `readInventorySlot` knows. -/
def slotNames : List String := ["Slot", "id", "Damage", "Count"]

theorem readCount_range {tag : Tag} {n : Int32} (h : readCount tag = .ok n) :
    0 ≤ n.toInt ∧ n.toInt ≤ 255 := by
  obtain ⟨b, -, h⟩ := bind_eq_ok.mp h
  have hw := toInt_widen b
  have hz : (0 : Int32).toInt = 0 := rfl
  have h256 : (256 : Int32).toInt = 256 := rfl
  obtain rfl := Except.ok.inj h
  have hb := b.toNat_lt
  by_cases hlt : widen b < 0
  · simp only [hlt, if_true]
    rw [Int32.lt_iff_toInt_lt, hz] at hlt
    rw [toInt_add_of_fits] <;> rw [h256] <;> split at hw <;> omega
  · simp only [hlt, if_false]
    rw [Int32.lt_iff_toInt_lt, hz] at hlt
    split at hw <;> omega

/-- One tag of a slot: the amount stays in range, and a tag is kept aside if its name is not known. -/
theorem readInventorySlotTag_spec {slot slot' : InventorySlot} {tag : Tag}
    (h : readInventorySlotTag slot tag = .ok slot') (hs : slot.contents.Small) :
    slot'.contents.Small ∧ slot'.contents.extraTags =
      slot.contents.extraTags ++ if tag.name ∈ slotNames then [] else [tag] := by
  unfold readInventorySlotTag readItemStackTag at h
  by_cases h1 : tag.name = "Slot"
  · rw [if_pos h1] at h
    obtain ⟨b, -, h⟩ := bind_eq_ok.mp h
    obtain rfl := Except.ok.inj h
    exact ⟨hs, by simp [slotNames, h1]⟩
  rw [if_neg h1] at h
  obtain ⟨stack, hstack, h⟩ := bind_eq_ok.mp h
  obtain rfl := Except.ok.inj h
  by_cases h2 : tag.name = "id"
  · rw [if_pos h2] at hstack
    obtain ⟨v, -, hstack⟩ := bind_eq_ok.mp hstack
    obtain rfl := Except.ok.inj hstack
    exact ⟨hs, by simp [slotNames, h2]⟩
  by_cases h3 : tag.name = "Damage"
  · rw [if_neg h2, if_pos h3] at hstack
    obtain ⟨v, -, hstack⟩ := bind_eq_ok.mp hstack
    obtain rfl := Except.ok.inj hstack
    exact ⟨hs, by simp [slotNames, h3]⟩
  by_cases h4 : tag.name = "Count"
  · rw [if_neg h2, if_neg h3, if_pos h4] at hstack
    obtain ⟨v, hv, hstack⟩ := bind_eq_ok.mp hstack
    obtain rfl := Except.ok.inj hstack
    exact ⟨readCount_range hv, by simp [slotNames, h4]⟩
  · rw [if_neg h2, if_neg h3, if_neg h4] at hstack
    obtain rfl := Except.ok.inj hstack
    exact ⟨hs, by simp [slotNames, h1, h2, h3, h4]⟩

theorem foldlM_readInventorySlotTag {tags : List Tag} {slot slot' : InventorySlot}
    (h : tags.foldlM readInventorySlotTag slot = .ok slot') (hs : slot.contents.Small) :
    slot'.contents.Small ∧ slot'.contents.extraTags =
      slot.contents.extraTags ++ tags.filter (fun t => t.name ∉ slotNames) := by
  induction tags generalizing slot with
  | nil =>
    obtain rfl := Except.ok.inj h
    exact ⟨hs, by simp⟩
  | cons tag tags ih =>
    rw [List.foldlM_cons] at h
    obtain ⟨slot₁, h1, h2⟩ := bind_eq_ok.mp h
    obtain ⟨hs1, he1⟩ := readInventorySlotTag_spec h1 hs
    obtain ⟨hs2, he2⟩ := ih h2 hs1
    refine ⟨hs2, ?_⟩
    rw [he2, he1, List.filter_cons]
    by_cases hn : tag.name ∈ slotNames
    · simp [hn]
    · simp [hn]

/-- A slot that was read is small, and is complete in what is stored if all its tags are known. -/
theorem readInventorySlot_spec {tags : List Tag} {slot : InventorySlot}
    (h : readInventorySlot tags = .ok slot) :
    slot.contents.Small ∧ (slot.typed = slot ↔ ∀ t ∈ tags, t.name ∈ slotNames) := by
  have hempty : emptyStack.Small := ⟨by decide, by decide⟩
  obtain ⟨hs, he⟩ := foldlM_readInventorySlotTag h hempty
  refine ⟨hs, ?_⟩
  have htyped : slot.typed = slot ↔ slot.contents.extraTags = [] := by
    obtain ⟨n, id, durability, amount, extraTags⟩ := slot
    simp [InventorySlot.typed, ItemStack.typed, eq_comm]
  rw [htyped, he]
  simp [emptyStack]

/-- The tags of every slot of the list are known. -/
def PlainItems (tag : Tag) : Prop :=
  ∀ elements, Tag.asList (some tag) = .ok elements → ∀ e ∈ elements, ∀ tags,
    Tag.asCompound (some e) = .ok tags → ∀ t ∈ tags, t.name ∈ slotNames

theorem mapM_readInventorySlot : ∀ {elements : List Tag} {slots : List InventorySlot},
    (elements.mapM fun tag => do readInventorySlot (← Tag.asCompound (some tag))) = .ok slots →
    (∀ s ∈ slots, s.contents.Small) ∧ ((∀ s ∈ slots, s.typed = s) ↔ ∀ e ∈ elements, ∀ tags,
      Tag.asCompound (some e) = .ok tags → ∀ t ∈ tags, t.name ∈ slotNames)
  | [], slots, h => by
    obtain rfl := Except.ok.inj h
    simp
  | e :: es, slots, h => by
    rw [List.mapM_cons] at h
    obtain ⟨slot, hslot, h⟩ := bind_eq_ok.mp h
    obtain ⟨rest, hrest, h⟩ := bind_eq_ok.mp h
    obtain rfl := Except.ok.inj h
    obtain ⟨tags, htags, hslot⟩ := bind_eq_ok.mp hslot
    obtain ⟨hs, htyped⟩ := readInventorySlot_spec hslot
    obtain ⟨hss, htypeds⟩ := mapM_readInventorySlot hrest
    refine ⟨List.forall_mem_cons.mpr ⟨hs, hss⟩, ?_⟩
    rw [List.forall_mem_cons, List.forall_mem_cons, htyped, htypeds]
    refine and_congr_left fun _ => ⟨fun hk tags' htags' => ?_, fun hk => hk tags htags⟩
    rw [htags] at htags'
    obtain rfl := Except.ok.inj htags'
    exact hk

theorem readInventory_spec {tag : Tag} {slots : List InventorySlot} (h : readInventory tag = .ok slots) :
    (∀ s ∈ slots, s.contents.Small) ∧ ((∀ s ∈ slots, s.typed = s) ↔ PlainItems tag) := by
  obtain ⟨elements, hlist, h⟩ := bind_eq_ok.mp h
  obtain ⟨hsmall, htyped⟩ := mapM_readInventorySlot h
  refine ⟨hsmall, htyped.trans ⟨fun hp els hels => ?_, fun hp => hp elements hlist⟩⟩
  rw [hlist] at hels
  obtain rfl := Except.ok.inj hels
  exact hp

end NBTConverter

end WorldToPE
