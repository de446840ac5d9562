import WorldToPE.Data.TileEntityRoundTrip
import WorldToPE.Data.EntityRoundTrip

/-!
# WorldToPE.Data.ItemTags — the tags of items that come back

The readers of item stacks keep the tags they do not know in `extraTags`, but the writers build their
tags from the typed fields alone.  A compound with its typed tags therefore comes back with all its tags
if and only if it has no others.

* `readItemStack_eq`, `readInventorySlot_eq`: what is read from a compound with its typed tags.
* `keepsTags_slot`, `keepsTags_stack`: one item; `keepsItems_iff`: lists of them.
* `keepsContainer_iff`, `keepsItemEntity_iff`: the items of containers and of item entities.
* `keepsItemTags_iff`: the items that come back, on every way that an item is loaded and saved.
-/

namespace WorldToPE

open Java Named

namespace Tag

/-- `getValue()` of a compound or a list tag. -/
def children : Tag → List Tag
  | .compound _ tags => tags
  | .list _ _ tags => tags
  | _ => []

end Tag

namespace NBTConverter

/-! ## Items with their typed tags -/

/-- The names that `readItemStack` knows. -/
def stackNames : List String := ["id", "Damage", "Count"]

/-- The children of an item compound: the names are unique, and the typed tags are there. -/
structure StackTags (tags : List Tag) (id damage : Int16) (count : UInt8) : Prop where
  unique : (tags.map Tag.name).Nodup
  id : .short "id" id ∈ tags
  damage : .short "Damage" damage ∈ tags
  count : .byte "Count" count ∈ tags

section Stack

variable {tags : List Tag} {id damage : Int16} {count : UInt8} {t : Tag}

/-- `count` as the readers of items have it. -/
def amountOf (count : UInt8) : Int32 := if widen count < 0 then widen count + 256 else widen count

/-- The amount is stored as the byte that it was read from. -/
theorem narrow_amountOf : narrow (amountOf count) = count := by
  have hw := toInt_widen count
  have hc := count.toNat_lt
  have hz : (0 : Int32).toInt = 0 := rfl
  have h256 : (256 : Int32).toInt = 256 := rfl
  unfold amountOf
  split
  · rename_i hlt
    rw [Int32.lt_iff_toInt_lt, hz] at hlt
    have hsum : (widen count + 256).toInt = (widen count).toInt + 256 := by
      rw [toInt_add_of_fits] <;> rw [h256] <;> omega
    have hn := toNat_narrow (widen count + 256)
    apply UInt8.toNat_inj.mp
    split at hw <;> omega
  · exact narrow_widen count

theorem StackTags.eq_id (h : StackTags tags id damage count) (ht : t ∈ tags) (hn : t.name = "id") :
    t = .short "id" id := List.inj_on_of_nodup_map h.unique ht h.id hn

theorem StackTags.eq_damage (h : StackTags tags id damage count) (ht : t ∈ tags)
    (hn : t.name = "Damage") : t = .short "Damage" damage := List.inj_on_of_nodup_map h.unique ht h.damage hn

theorem StackTags.eq_count (h : StackTags tags id damage count) (ht : t ∈ tags) (hn : t.name = "Count") :
    t = .byte "Count" count := List.inj_on_of_nodup_map h.unique ht h.count hn

/-- The stack after the tags of a list. -/
def afterTags (s : ItemStack) (us : List Tag) (id damage : Int16) (count : UInt8) : ItemStack where
  id := if "id" ∈ us.map Tag.name then id else s.id
  durability := if "Damage" ∈ us.map Tag.name then damage else s.durability
  amount := if "Count" ∈ us.map Tag.name then amountOf count else s.amount
  extraTags := s.extraTags ++ us.filter fun t => t.name ∉ stackNames

/-- One tag of an item. -/
theorem readItemStackTag_eq (h : StackTags tags id damage count) (ht : t ∈ tags) (s : ItemStack) :
    readItemStackTag s t = .ok (afterTags s [t] id damage count) := by
  unfold readItemStackTag
  by_cases h1 : t.name = "id"
  · rw [if_pos h1, h.eq_id ht h1]
    simp [afterTags, stackNames, Tag.name, Tag.asShort]
  by_cases h2 : t.name = "Damage"
  · rw [if_neg h1, if_pos h2, h.eq_damage ht h2]
    simp [afterTags, stackNames, Tag.name, Tag.asShort]
  by_cases h3 : t.name = "Count"
  · rw [if_neg h1, if_neg h2, if_pos h3, h.eq_count ht h3]
    simp [afterTags, stackNames, Tag.name]
    rfl
  · rw [if_neg h1, if_neg h2, if_neg h3]
    simp [afterTags, stackNames, h1, h2, h3, Ne.symm h1, Ne.symm h2, Ne.symm h3]
    rfl

theorem afterTags_cons (s : ItemStack) (us : List Tag) (t : Tag) :
    afterTags (afterTags s [t] id damage count) us id damage count =
      afterTags s (t :: us) id damage count := by
  simp only [afterTags, List.map_cons, List.map_nil, List.mem_cons, List.not_mem_nil, or_false,
    List.append_assoc, ItemStack.mk.injEq]
  refine ⟨?_, ?_, ?_, ?_⟩
  · by_cases hu : "id" ∈ us.map Tag.name <;> simp [hu]
  · by_cases hu : "Damage" ∈ us.map Tag.name <;> simp [hu]
  · by_cases hu : "Count" ∈ us.map Tag.name <;> simp [hu]
  · by_cases hn : t.name ∈ stackNames <;> simp [hn]

/-- The loop of `readItemStack`, over tags of the compound. -/
theorem foldlM_readItemStackTag (h : StackTags tags id damage count) {us : List Tag}
    (hus : ∀ u ∈ us, u ∈ tags) (s : ItemStack) :
    us.foldlM readItemStackTag s = .ok (afterTags s us id damage count) := by
  induction us generalizing s with
  | nil => simp [afterTags]; rfl
  | cons u us ih =>
    rw [List.foldlM_cons, readItemStackTag_eq h (hus u List.mem_cons_self), ← afterTags_cons s us u]
    exact ih (fun v hv => hus v (List.mem_cons_of_mem _ hv)) _

/-- **What is read** from an item with its typed tags. -/
theorem readItemStack_eq (h : StackTags tags id damage count) : readItemStack tags =
    .ok ⟨id, damage, amountOf count, tags.filter fun t => t.name ∉ stackNames⟩ := by
  unfold readItemStack
  rw [foldlM_readItemStackTag h fun u hu => hu]
  have hid : "id" ∈ tags.map Tag.name := List.mem_map.mpr ⟨_, h.id, rfl⟩
  have hdamage : "Damage" ∈ tags.map Tag.name := List.mem_map.mpr ⟨_, h.damage, rfl⟩
  have hcount : "Count" ∈ tags.map Tag.name := List.mem_map.mpr ⟨_, h.count, rfl⟩
  simp only [afterTags, if_pos hid, if_pos hdamage, if_pos hcount, emptyStack, List.nil_append]

/-- The tags that are written are those of the compound with known names. -/
theorem mem_writeItemStack_iff (h : StackTags tags id damage count) (ht : t ∈ tags) :
    t ∈ [.byte "Count" count, .short "Damage" damage, .short "id" id] ↔ t.name ∈ stackNames := by
  simp only [List.mem_cons, List.not_mem_nil, or_false, stackNames]
  constructor
  · rintro (rfl | rfl | rfl) <;> simp [Tag.name]
  · rintro (hn | hn | hn)
    · exact .inr (.inr (h.eq_id ht hn))
    · exact .inr (.inl (h.eq_damage ht hn))
    · exact .inl (h.eq_count ht hn)

end Stack

/-- An item compound. -/
def IsStack (c : Tag) : Prop :=
  ∃ name tags id damage count, c = .compound name tags ∧ StackTags tags id damage count

/-- The compound of an item in a slot. -/
def IsSlot (c : Tag) : Prop := ∃ name tags id damage count slot,
  c = .compound name tags ∧ StackTags tags id damage count ∧ .byte "Slot" slot ∈ tags

/-- Every tag of `c` is a tag of `saved`, with its name and its value. -/
def KeepsTags (c saved : Tag) : Prop := ∀ t ∈ c.children, t ∈ saved.children

/-- **One item**: what reading and writing it keeps. -/
theorem keepsTags_stack {c : Tag} (h : IsStack c) (name : String) :
    ∃ stack, readItemStack c.children = .ok stack ∧
      (KeepsTags c (writeItemStack stack name) ↔ ∀ t ∈ c.children, t.name ∈ stackNames) := by
  obtain ⟨n, tags, id, damage, count, rfl, htags⟩ := h
  refine ⟨_, readItemStack_eq htags, ?_⟩
  unfold KeepsTags writeItemStack
  rw [narrow_amountOf]
  exact forall₂_congr fun t ht => mem_writeItemStack_iff htags ht

/-! ## Items in slots -/

section Slot

variable {tags : List Tag} {id damage : Int16} {count slot : UInt8}

theorem StackTags.filter (h : StackTags tags id damage count) :
    StackTags (tags.filter fun t => t.name ≠ "Slot") id damage count where
  unique := h.unique.sublist (List.filter_sublist.map _)
  id := List.mem_filter.mpr ⟨h.id, by simp [Tag.name]⟩
  damage := List.mem_filter.mpr ⟨h.damage, by simp [Tag.name]⟩
  count := List.mem_filter.mpr ⟨h.count, by simp [Tag.name]⟩

/-- The loop of `readInventorySlot` is the one of `readItemStack` on the tags other than `Slot`. -/
theorem foldlM_readInventorySlotTag_eq {us : List Tag} {s s' : ItemStack}
    (hslot : ∀ u ∈ us, u.name = "Slot" → u = .byte "Slot" slot)
    (hs : (us.filter fun t => t.name ≠ "Slot").foldlM readItemStackTag s = .ok s') (n : UInt8) :
    us.foldlM readInventorySlotTag ⟨n, s⟩ =
      .ok ⟨if "Slot" ∈ us.map Tag.name then slot else n, s'⟩ := by
  induction us generalizing s n with
  | nil =>
    obtain rfl := Except.ok.inj hs
    rfl
  | cons u us ih =>
    have hus : ∀ v ∈ us, v.name = "Slot" → v = .byte "Slot" slot :=
      fun v hv => hslot v (List.mem_cons_of_mem _ hv)
    rw [List.foldlM_cons]
    by_cases hu : u.name = "Slot"
    · rw [List.filter_cons_of_neg (by simp [hu])] at hs
      have hstep : readInventorySlotTag ⟨n, s⟩ u = .ok ⟨slot, s⟩ := by
        rw [hslot u List.mem_cons_self hu]
        rfl
      rw [hstep]
      refine (ih hus hs slot).trans ?_
      simp [hu]
    · rw [List.filter_cons_of_pos (by simp [hu]), List.foldlM_cons] at hs
      obtain ⟨s₁, h1, hs⟩ := bind_eq_ok.mp hs
      have hstep : readInventorySlotTag ⟨n, s⟩ u = .ok ⟨n, s₁⟩ := by
        unfold readInventorySlotTag
        rw [if_neg hu, h1]
        rfl
      rw [hstep]
      refine (ih hus hs n).trans ?_
      simp [Ne.symm hu]

/-- **What is read** from an item in a slot. -/
theorem readInventorySlot_eq (h : StackTags tags id damage count) (hslot : .byte "Slot" slot ∈ tags) :
    ∃ extraTags, readInventorySlot tags = .ok ⟨slot, ⟨id, damage, amountOf count, extraTags⟩⟩ := by
  have hname : "Slot" ∈ tags.map Tag.name := List.mem_map.mpr ⟨_, hslot, rfl⟩
  have hread := foldlM_readInventorySlotTag_eq
    (fun u hu hn => List.inj_on_of_nodup_map h.unique hu hslot hn) (readItemStack_eq h.filter) 0
  rw [if_pos hname] at hread
  exact ⟨_, hread⟩

theorem mem_writeInventorySlot_iff (h : StackTags tags id damage count)
    (hslot : .byte "Slot" slot ∈ tags) {t : Tag} (ht : t ∈ tags) :
    t ∈ [.byte "Count" count, .short "Damage" damage, .byte "Slot" slot, .short "id" id] ↔
      t.name ∈ slotNames := by
  have hstack := mem_writeItemStack_iff h ht
  have hs : t = .byte "Slot" slot ↔ t.name = "Slot" :=
    ⟨fun h => h ▸ rfl, fun hn => List.inj_on_of_nodup_map h.unique ht hslot hn⟩
  simp only [stackNames, slotNames, List.mem_cons, List.not_mem_nil, or_false, hs] at hstack ⊢
  constructor
  · rintro (h | h | h | h)
    · exact .inr (hstack.mp (.inl h))
    · exact .inr (hstack.mp (.inr (.inl h)))
    · exact .inl h
    · exact .inr (hstack.mp (.inr (.inr h)))
  · rintro (h | h)
    · exact .inr (.inr (.inl h))
    · rcases hstack.mpr h with h | h | h
      · exact .inl h
      · exact .inr (.inl h)
      · exact .inr (.inr (.inr h))

end Slot

/-- **One slot**: what reading and writing it keeps. -/
theorem keepsTags_slot {c : Tag} (h : IsSlot c) :
    ∃ slot, readInventorySlot c.children = .ok slot ∧
      (KeepsTags c (writeInventorySlot slot) ↔ ∀ t ∈ c.children, t.name ∈ slotNames) := by
  obtain ⟨n, tags, id, damage, count, slot, rfl, htags, hslot⟩ := h
  obtain ⟨extraTags, hread⟩ := readInventorySlot_eq htags hslot
  refine ⟨_, hread, ?_⟩
  unfold KeepsTags writeInventorySlot
  rw [narrow_amountOf]
  exact forall₂_congr fun t ht => mem_writeInventorySlot_iff htags hslot ht

/-! ## Lists of items -/

/-- Each item of a list is kept, in its place. -/
def KeepsItems (l saved : Tag) : Prop := List.Forall₂ KeepsTags l.children saved.children

/-- The names of the tags of all items of a list. -/
def OnlyNames (names : List String) (l : Tag) : Prop :=
  ∀ c ∈ l.children, ∀ t ∈ c.children, t.name ∈ names

/-- Lists of compounds, given what reading and writing one of them keeps. -/
theorem keepsItems_iff {α : Type} {read : List Tag → Except Exn α} {write : α → Tag}
    {names : List String} : ∀ {cs : List Tag}, (∀ c ∈ cs, (∃ n tags, c = .compound n tags) ∧
      ∃ a, read c.children = .ok a ∧ (KeepsTags c (write a) ↔ ∀ t ∈ c.children, t.name ∈ names)) →
    ∃ as, (cs.mapM fun tag => do read (← Tag.asCompound (some tag))) = .ok as ∧
      (List.Forall₂ KeepsTags cs (as.map write) ↔ ∀ c ∈ cs, ∀ t ∈ c.children, t.name ∈ names)
  | [], _ => ⟨[], rfl, by simp⟩
  | c :: cs, h => by
    obtain ⟨⟨n, tags, rfl⟩, a, hread, hkeep⟩ := h c List.mem_cons_self
    obtain ⟨as, hreads, hkeeps⟩ := keepsItems_iff fun d hd => h d (List.mem_cons_of_mem _ hd)
    refine ⟨a :: as, ?_, ?_⟩
    · rw [List.mapM_cons, hreads]
      show (read tags >>= fun b => Except.ok (b :: as)) = _
      rw [show read tags = .ok a from hread]
      rfl
    · rw [List.map_cons, List.forall₂_cons, List.forall_mem_cons, hkeep, hkeeps]

/-- The list tag of an inventory. -/
def IsInventory (l : Tag) : Prop := (∃ n type cs, l = .list n type cs) ∧ ∀ c ∈ l.children, IsSlot c

/-- The list tag of an armor. -/
def IsArmor (l : Tag) : Prop := (∃ n type cs, l = .list n type cs) ∧ ∀ c ∈ l.children, IsStack c

/-- **Inventories**. -/
theorem keepsItems_inventory {l : Tag} (h : IsInventory l) (name : String) :
    ∃ slots, readInventory l = .ok slots ∧
      (KeepsItems l (writeInventory slots name) ↔ OnlyNames slotNames l) := by
  obtain ⟨⟨n, type, cs, rfl⟩, hcs⟩ := h
  have hitems : ∀ c ∈ cs, (∃ n tags, c = .compound n tags) ∧ ∃ slot,
      readInventorySlot c.children = .ok slot ∧
        (KeepsTags c (writeInventorySlot slot) ↔ ∀ t ∈ c.children, t.name ∈ slotNames) := by
    intro c hc
    obtain ⟨n, tags, id, damage, count, slot, rfl, -⟩ := hcs c hc
    exact ⟨⟨n, tags, rfl⟩, keepsTags_slot (hcs _ hc)⟩
  obtain ⟨slots, hread, hkeep⟩ := keepsItems_iff hitems
  exact ⟨slots, hread, hkeep⟩

/-- **Armor lists**. -/
theorem keepsItems_armor {l : Tag} (h : IsArmor l) (name : String) :
    ∃ slots, readArmor l = .ok slots ∧
      (KeepsItems l (writeArmor slots name) ↔ OnlyNames stackNames l) := by
  obtain ⟨⟨n, type, cs, rfl⟩, hcs⟩ := h
  have hitems : ∀ c ∈ cs, (∃ n tags, c = .compound n tags) ∧ ∃ stack,
      readItemStack c.children = .ok stack ∧
        (KeepsTags c (writeItemStack stack "") ↔ ∀ t ∈ c.children, t.name ∈ stackNames) := by
    intro c hc
    obtain ⟨n, tags, id, damage, count, rfl, -⟩ := hcs c hc
    exact ⟨⟨n, tags, rfl⟩, keepsTags_stack (hcs _ hc) ""⟩
  obtain ⟨slots, hread, hkeep⟩ := keepsItems_iff hitems
  exact ⟨slots, hread, hkeep⟩

/-! ## Containers -/

/-- Saving the tile entity gives a compound with the items of `l`. -/
def KeepsContainer (l : Tag) (e : TileEntity) : Prop := ∃ saved, writeTileEntity e = .ok saved ∧
  ∃ l' ∈ saved.children, l'.name = "Items" ∧ KeepsItems l l'

/-- The first tag of its own that a container writes is the list of its items. -/
theorem ownTileTags_items {f : TileFields} {slots : List InventorySlot}
    (hf : f.items? = some (some slots)) : ∃ rest, ownTileTags f = writeInventory slots "Items" :: rest ∧
      ∀ t ∈ rest, t.name ≠ "Items" := by
  cases f with
  | chest items px pz =>
    obtain rfl := Option.some.inj hf
    refine ⟨if px ≠ -65535 then [.int "pairx" px, .int "pairz" pz] else [], rfl, ?_⟩
    split <;> simp [Tag.name]
  | furnace items b c =>
    obtain rfl := Option.some.inj hf
    exact ⟨_, rfl, by simp [Tag.name]⟩
  | _ => cases hf

section Container

variable {c l : Tag} {e : TileEntity}

/-- A container that was loaded has the items of its list, and is saved with the store of its class. -/
theorem writeTileEntity_loaded (h : readSingleTileEntity c = .ok (some e)) (hi : e.fields.items? ≠ none)
    (hu : (c.children.map Tag.name).Nodup) (hl : l ∈ c.children) (hname : l.name = "Items") :
    ∃ slots id rest, readInventory l = .ok slots ∧ (∀ t ∈ rest, t.name ≠ "Items") ∧
      writeTileEntity e = .ok (.compound "" (sortByName
        (saveTileBase id e.x e.y e.z ++ writeInventory slots "Items" :: rest))) := by
  obtain ⟨name, tags, t, id, rfl, hfind, hid, hread⟩ := readSingleTileEntity_cases h
  have ht := List.mem_of_find?_eq_some hfind
  have htname : t.name = "id" := by simpa using List.find?_some hfind
  obtain ⟨t', id', hlast, hid', heid⟩ := id_readTileEntity hread ⟨t, ht, htname⟩
  obtain rfl : t = t' :=
    Option.some.inj (((find?_eq_some_iff hu).mpr ⟨ht, htname⟩).symm.trans hlast)
  obtain rfl : id = id' := Except.ok.inj (hid.symm.trans hid')
  have hlastItems : lastTag tags "Items" = some l := (find?_eq_some_iff hu).mpr ⟨hl, hname⟩
  rcases items_readTileEntity hread hi with ⟨l', slots, hl', hslots, hitems⟩ | ⟨hnone, -⟩
  · obtain rfl := Option.some.inj (hlastItems.symm.trans hl')
    obtain ⟨own, hown, hflat⟩ := mapM_saveTile (f := e.fields) (by simp [hitems])
    obtain ⟨rest, hrest, hne⟩ := ownTileTags_items hitems
    refine ⟨slots, id, rest, hslots, hne, ?_⟩
    rw [cls_readTileEntity hread, ← (tileStoreById_eq id).1] at hown
    unfold writeTileEntity
    rw [heid]
    show ((tileStoreById id).mapM (fun layer => layer.save e.fields) >>= fun own =>
      Except.ok (Tag.compound "" (sortByName (saveTileBase id e.x e.y e.z ++ own.flatten)))) = _
    rw [hown, ← hrest, ← hflat]
    rfl
  · rw [hlastItems] at hnone
    cases hnone

/-- **Containers**. -/
theorem keepsContainer_iff (h : readSingleTileEntity c = .ok (some e)) (hi : e.fields.items? ≠ none)
    (hu : (c.children.map Tag.name).Nodup) (hl : l ∈ c.children) (hname : l.name = "Items")
    (hinv : IsInventory l) : KeepsContainer l e ↔ OnlyNames slotNames l := by
  obtain ⟨slots, id, rest, hslots, hne, hwrite⟩ := writeTileEntity_loaded h hi hu hl hname
  obtain ⟨slots', hslots', hkeep⟩ := keepsItems_inventory hinv "Items"
  obtain rfl := Except.ok.inj (hslots.symm.trans hslots')
  rw [← hkeep]
  constructor
  · rintro ⟨saved, hsaved, l', hl', hname', hk⟩
    obtain rfl := Except.ok.inj (hwrite.symm.trans hsaved)
    rcases List.mem_append.mp (mem_sortByName.mp hl') with hb | ho
    · simp only [saveTileBase, List.mem_cons, List.not_mem_nil, or_false] at hb
      rcases hb with rfl | rfl | rfl | rfl <;> simp [Tag.name] at hname'
    · rcases List.mem_cons.mp ho with rfl | hr
      · exact hk
      · exact absurd hname' (hne l' hr)
  · intro hk
    refine ⟨_, hwrite, writeInventory slots "Items", ?_, rfl, hk⟩
    exact mem_sortByName.mpr (List.mem_append_right _ List.mem_cons_self)

end Container

/-! ## Entities that were read can be written -/

/-- Writing succeeds. -/
def Saves (e : Entity) : Prop := ∀ name, ∃ tags, writeEntity e name = .ok (.compound name tags)

/-- An entity of the class of its id, on something that can be written. -/
structure Loaded (id : Int32) (e : Entity) : Prop where
  cls : e.cls = (createEntityById id).cls
  typeId : e.typeId = id
  riding : ∀ r, e.riding = some r → Saves r

section Loading

variable {id : Int32} {e e' : Entity} {t : Tag} {store : EntityStore} {x : Except Exn (Option Entity)}

/-- What `EntityStore` itself can do to an entity. -/
theorem loadBaseTag_cases (h : loadBaseTag e t x = .ok e') :
    (∃ b, e' = e.setBase b) ∨ ∃ r, x = .ok r ∧ e' = e.setRiding r := by
  have hset {α : Type} {y : Except Exn α} {g : α → EntityBase}
      (h : (y >>= fun a => Except.ok (e.setBase (g a))) = .ok e') : ∃ b, e' = e.setBase b := by
    obtain ⟨a, -, h⟩ := bind_eq_ok.mp h
    exact ⟨_, (Except.ok.inj h).symm⟩
  unfold loadBaseTag at h
  split_ifs at h with h1 h2 h3 h4 h5 h6 h7 h8
  · exact .inl (hset h)
  · exact .inl (hset h)
  · exact .inl (hset h)
  · exact .inl (hset h)
  · exact .inl (hset h)
  · obtain ⟨r, hx, h⟩ := bind_eq_ok.mp h
    exact .inr ⟨r, hx, (Except.ok.inj h).symm⟩
  · obtain ⟨tags, -, h⟩ := bind_eq_ok.mp h
    obtain ⟨yaw, -, h⟩ := bind_eq_ok.mp h
    exact .inl (hset h)
  · exact .inl (hset h)
  · refine .inl ⟨e.base, ?_⟩
    obtain rfl := Except.ok.inj h
    cases e
    rfl

theorem Loaded.loadTag (he : Loaded id e) (hx : ∀ r, x = .ok (some r) → Saves r)
    (h : NBTConverter.loadTag store e t x = .ok e') : Loaded id e' := by
  obtain ⟨c, i, b, f, r⟩ := e
  obtain ⟨o, -, h⟩ := bind_eq_ok.mp h
  cases o with
  | some f' =>
    obtain rfl := Except.ok.inj h
    exact ⟨he.cls, he.typeId, he.riding⟩
  | none =>
    rcases loadBaseTag_cases h with ⟨b', rfl⟩ | ⟨r', hr, rfl⟩
    · exact ⟨he.cls, he.typeId, he.riding⟩
    · refine ⟨he.cls, he.typeId, ?_⟩
      rintro r₁ rfl
      exact hx r₁ hr

/-- How an entity that was read is written. -/
theorem Loaded.write (he : Loaded id e) (name : String) : ∃ riding own,
    (∀ t ∈ riding, t.name = "Riding") ∧
      (storeById id).mapM (fun layer => layer.save e.fields) = .ok own ∧
      writeEntity e name =
        .ok (.compound name (sortByName (saveBase id e.base riding ++ own.flatten))) := by
  obtain ⟨c, i, b, f, r⟩ := e
  obtain rfl : c = (createEntityById id).cls := he.cls
  obtain rfl : i = id := he.typeId
  have hown : ∃ own, (storeById i).mapM (fun layer => layer.save f) = .ok own := by
    by_cases hreg : Registered i
    · obtain ⟨hstore, -⟩ := storeById_eq hreg
      obtain ⟨own, hown, -⟩ := mapM_save f
      exact ⟨own, hstore ▸ hown⟩
    · rw [storeById_of_not_registered hreg]
      exact ⟨[], rfl⟩
  obtain ⟨own, hown⟩ := hown
  cases r with
  | none =>
    refine ⟨[], own, nofun, hown, ?_⟩
    rw [writeEntity, saveTags, hown]
    rfl
  | some r =>
    obtain ⟨tags, hr⟩ := he.riding r rfl "Riding"
    refine ⟨[.compound "Riding" tags], own, by simp [Tag.name], hown, ?_⟩
    rw [writeEntity, hr]
    show (saveTags i b f [.compound "Riding" tags] >>= fun tags =>
      Except.ok (Tag.compound name (sortByName tags))) = _
    rw [saveTags, hown]
    rfl

theorem Loaded.saves (he : Loaded id e) : Saves e := by
  intro name
  obtain ⟨riding, own, -, -, hwrite⟩ := he.write name
  exact ⟨_, hwrite⟩

end Loading

theorem loaded_new (id : Int32) : Loaded id ((createEntityById id).setTypeId id) := by
  rw [new_cls_createEntityById id]
  exact ⟨rfl, rfl, fun r hr => nomatch hr⟩

mutual

/-- **Whatever was read can be written**, whatever it rides. -/
theorem saves_readSingleEntity : ∀ {c : Tag} {e : Entity}, readSingleEntity c = .ok (some e) → Saves e
  | .compound name tags, e, h => by
    rw [readSingleEntity] at h
    cases hfind : tags.find? fun t => t.name = "id" with
    | none =>
      rw [hfind] at h
      cases h
    | some t =>
      rw [hfind] at h
      obtain ⟨id, -, h⟩ := bind_eq_ok.mp h
      obtain ⟨e', hload, h⟩ := bind_eq_ok.mp h
      obtain rfl := Option.some.inj (Except.ok.inj h)
      exact (loaded_loadTags hload (loaded_new id)).saves

theorem loaded_loadTags {id : Int32} {store : EntityStore} : ∀ {tags : List Tag} {e e' : Entity},
    loadTags store tags e = .ok e' → Loaded id e → Loaded id e'
  | [], e, e', h, he => by
    rw [loadTags] at h
    obtain rfl := Except.ok.inj h
    exact he
  | t :: ts, e, e', h, he => by
    rw [loadTags] at h
    obtain ⟨e₁, h1, h2⟩ := bind_eq_ok.mp h
    exact loaded_loadTags h2 (he.loadTag (fun r hr => saves_readSingleEntity hr) h1)

end

/-! ## Item entities -/

/-- The stack, if the object is an `Item`. -/
def Fields.stack? {k : Kind} : Fields k → Option ItemStack
  | .item _ _ stack => some stack
  | _ => none

/-- `readItemStack((CompoundTag) tag)`. -/
def readItemTag (tag : Tag) : Except Exn ItemStack := do readItemStack (← Tag.asCompound (some tag))

/-- Saving the entity gives a compound with the tags of the item `i`. -/
def KeepsItemEntity (i : Tag) (e : Entity) : Prop := ∃ saved, writeEntity e "" = .ok saved ∧
  ∃ i' ∈ saved.children, i'.name = "Item" ∧ KeepsTags i i'

theorem itemLayer_load {k : Kind} {f : Fields k} {t : Tag} {r : Option (Fields k)}
    (h : itemLayer.load f t = .ok r) :
    (t.name = "Item" → ∃ s, readItemTag t = .ok s ∧ Fields.stack? (r.getD f) = some s) ∧
      (t.name ≠ "Item" → Fields.stack? (r.getD f) = Fields.stack? f) := by
  cases f with
  | item age health stack =>
    change (if t.name = "Age" then _ else _) = _ at h
    split_ifs at h with h1 h2 h3
    · obtain ⟨v, -, h⟩ := bind_eq_ok.mp h
      obtain rfl := Except.ok.inj h
      simp [h1, Fields.stack?]
    · obtain ⟨v, -, h⟩ := bind_eq_ok.mp h
      obtain rfl := Except.ok.inj h
      simp [h2, Fields.stack?]
    · obtain ⟨tags, htags, h⟩ := bind_eq_ok.mp h
      obtain ⟨s, hs, h⟩ := bind_eq_ok.mp h
      obtain rfl := Except.ok.inj h
      exact ⟨fun _ => ⟨s, bind_eq_ok.mpr ⟨tags, htags, hs⟩, rfl⟩, fun hne => absurd h3 hne⟩
    · obtain rfl := Except.ok.inj h
      exact ⟨fun h => absurd h h3, fun _ => rfl⟩
  | _ => cases h

/-- One tag of an item entity. -/
theorem loadTag_item {e e' : Entity} {t : Tag} {x : Except Exn (Option Entity)}
    (h : loadTag ItemEntityStore e t x = .ok e') :
    (t.name = "Item" → ∃ s, readItemTag t = .ok s ∧ Fields.stack? e'.fields = some s) ∧
      (t.name ≠ "Item" → Fields.stack? e'.fields = Fields.stack? e.fields) := by
  obtain ⟨c, i, b, f, r⟩ := e
  obtain ⟨o, hlayers, h⟩ := bind_eq_ok.mp h
  obtain ⟨o', hload, hlayers⟩ := bind_eq_ok.mp hlayers
  have hitem := itemLayer_load hload
  cases o' with
  | some f' =>
    obtain rfl := Except.ok.inj hlayers
    obtain rfl := Except.ok.inj h
    exact hitem
  | none =>
    obtain rfl := Except.ok.inj hlayers
    rcases loadBaseTag_cases h with ⟨b', rfl⟩ | ⟨r', -, rfl⟩
    · exact hitem
    · exact hitem

section ItemEntity

variable {c i : Tag} {e : Entity}

/-- An item entity that was read has the stack of its `Item` tag. -/
theorem readSingleEntity_item (h : readSingleEntity c = .ok (some e))
    (hu : (c.children.map Tag.name).Nodup) (hid : .int "id" 64 ∈ c.children) (hi : i ∈ c.children)
    (hname : i.name = "Item") :
    Loaded 64 e ∧ ∃ stack, readItemTag i = .ok stack ∧ Fields.stack? e.fields = some stack := by
  cases c with
  | compound name tags =>
    rw [readSingleEntity] at h
    cases hfind : tags.find? fun t => t.name = "id" with
    | none =>
      have hne := List.find?_eq_none.mp hfind _ hid
      simp [Tag.name] at hne
    | some t =>
      have htname : t.name = "id" := by simpa using List.find?_some hfind
      obtain rfl : t = .int "id" 64 :=
        List.inj_on_of_nodup_map hu (List.mem_of_find?_eq_some hfind) hid htname
      rw [hfind] at h
      change (loadTags (storeById 64) tags ((createEntityById 64).setTypeId 64) >>= fun e =>
        Except.ok (some e)) = _ at h
      obtain ⟨e', hload, h⟩ := bind_eq_ok.mp h
      obtain rfl := Option.some.inj (Except.ok.inj h)
      refine ⟨loaded_loadTags hload (loaded_new 64), ?_⟩
      have hlast : tags.reverse.find? (fun t => decide (t.name = "Item")) = some i :=
        (find?_eq_some_iff hu).mpr ⟨hi, hname⟩
      have hstore : storeById 64 = ItemEntityStore := rfl
      rw [loadTags_eq, hstore] at hload
      rcases foldlM_last (I := fun _ => True) (p := fun t : Tag => t.name = "Item")
        (g := fun e : Entity => Fields.stack? e.fields)
        (S := fun t o => ∃ s, readItemTag t = .ok s ∧ o = some s) (fun _ _ => trivial)
        (fun _ hp hstep => (loadTag_item hstep).1 (of_decide_eq_true hp))
        (fun _ hp hstep => (loadTag_item hstep).2 (of_decide_eq_false hp)) trivial hload with
        ⟨t, ht, s, hs, hstack⟩ | ⟨hnone, -⟩
      · obtain rfl := Option.some.inj (hlast.symm.trans ht)
        exact ⟨s, hs, hstack⟩
      · rw [hlast] at hnone
        cases hnone
  | _ => cases h

/-- How an item entity is written. -/
theorem writeEntity_item {stack : ItemStack} (he : Loaded 64 e) (hs : Fields.stack? e.fields = some stack)
    (name : String) : ∃ riding age health, (∀ t ∈ riding, t.name = "Riding") ∧
      writeEntity e name = .ok (.compound name (sortByName (saveBase 64 e.base riding ++
        [.short "Age" age, .short "Health" health, writeItemStack stack "Item"]))) := by
  obtain ⟨riding, own, hriding, hown, hwrite⟩ := he.write name
  obtain ⟨c, i, b, f, r⟩ := e
  obtain rfl : c = .Item := he.cls
  cases f with
  | item age health s =>
    obtain rfl := Option.some.inj hs
    obtain rfl := Except.ok.inj hown
    exact ⟨riding, age, health, hriding, hwrite⟩

/-- **Item entities**. -/
theorem keepsItemEntity_iff (h : readSingleEntity c = .ok (some e))
    (hu : (c.children.map Tag.name).Nodup) (hid : .int "id" 64 ∈ c.children) (hi : i ∈ c.children)
    (hname : i.name = "Item") (hitem : IsStack i) :
    KeepsItemEntity i e ↔ ∀ t ∈ i.children, t.name ∈ stackNames := by
  obtain ⟨hloaded, stack, hread, hstack⟩ := readSingleEntity_item h hu hid hi hname
  obtain ⟨riding, age, health, hriding, hwrite⟩ := writeEntity_item hloaded hstack ""
  obtain ⟨stack', hread', hkeep⟩ := keepsTags_stack hitem "Item"
  obtain ⟨n, tags, _, _, _, rfl, -⟩ := hitem
  obtain rfl := Except.ok.inj (hread.symm.trans hread')
  rw [← hkeep]
  constructor
  · rintro ⟨saved, hsaved, i', hi', hname', hk⟩
    obtain rfl := Except.ok.inj (hwrite.symm.trans hsaved)
    rcases List.mem_append.mp (mem_sortByName.mp hi') with hb | ho
    · have hne := ownNames_ne_baseNames "Item" (by simp [ownNames]) _ (name_mem_baseNames hriding hb)
      exact absurd hname'.symm hne
    · simp only [List.mem_cons, List.not_mem_nil, or_false] at ho
      rcases ho with rfl | rfl | rfl
      · simp [Tag.name] at hname'
      · simp [Tag.name] at hname'
      · exact hk
  · intro hk
    refine ⟨_, hwrite, writeItemStack stack "Item", ?_, rfl, hk⟩
    exact mem_sortByName.mpr (List.mem_append_right _ (by simp))

end ItemEntity

/-! ## Loading and saving items -/

/-- Loading and saving the slot keeps its tags. -/
def KeepsSlot (c : Tag) : Prop :=
  ∃ slot, readInventorySlot c.children = .ok slot ∧ KeepsTags c (writeInventorySlot slot)

def KeepsStack (c : Tag) (name : String) : Prop :=
  ∃ stack, readItemStack c.children = .ok stack ∧ KeepsTags c (writeItemStack stack name)

def KeepsInventory (l : Tag) (name : String) : Prop :=
  ∃ slots, readInventory l = .ok slots ∧ KeepsItems l (writeInventory slots name)

def KeepsArmor (l : Tag) (name : String) : Prop :=
  ∃ slots, readArmor l = .ok slots ∧ KeepsItems l (writeArmor slots name)

/-- The compound `c` was read as the container `e`, with the items of `l`. -/
structure ContainerOf (c l : Tag) (e : TileEntity) : Prop where
  read : readSingleTileEntity c = .ok (some e)
  container : e.fields.items? ≠ none
  unique : (c.children.map Tag.name).Nodup
  items : l ∈ c.children
  name : l.name = "Items"
  inventory : IsInventory l

/-- The compound `c` was read as the item entity `e`, with the item `i`. -/
structure ItemEntityOf (c i : Tag) (e : Entity) : Prop where
  read : readSingleEntity c = .ok (some e)
  unique : (c.children.map Tag.name).Nodup
  id : .int "id" 64 ∈ c.children
  item : i ∈ c.children
  name : i.name = "Item"
  stack : IsStack i

/-- A reading that succeeds has one result. -/
theorem exists_ok_iff {α : Type} {x : Except Exn α} {P : α → Prop} {Q : Prop}
    (h : ∃ a, x = .ok a ∧ (P a ↔ Q)) : (∃ a, x = .ok a ∧ P a) ↔ Q := by
  obtain ⟨a, ha, hP⟩ := h
  rw [← hP]
  refine ⟨?_, fun hp => ⟨a, ha, hp⟩⟩
  rintro ⟨b, hb, hp⟩
  obtain rfl := Except.ok.inj (ha.symm.trans hb)
  exact hp

theorem keepsSlot_iff {c : Tag} (h : IsSlot c) : KeepsSlot c ↔ ∀ t ∈ c.children, t.name ∈ slotNames :=
  exists_ok_iff (keepsTags_slot h)

theorem keepsStack_iff {c : Tag} (h : IsStack c) (name : String) :
    KeepsStack c name ↔ ∀ t ∈ c.children, t.name ∈ stackNames := exists_ok_iff (keepsTags_stack h name)

theorem keepsInventory_iff {l : Tag} (h : IsInventory l) (name : String) :
    KeepsInventory l name ↔ OnlyNames slotNames l := exists_ok_iff (keepsItems_inventory h name)

theorem keepsArmor_iff {l : Tag} (h : IsArmor l) (name : String) :
    KeepsArmor l name ↔ OnlyNames stackNames l := exists_ok_iff (keepsItems_armor h name)

/-- **An item comes back with all its tags if and only if it has no others than the typed ones**, on
every way that an item is loaded and saved. -/
theorem keepsItemTags_iff (tag whole : Tag) (name : String) (container : TileEntity) (entity : Entity) :
    (IsSlot tag → (KeepsSlot tag ↔ ∀ t ∈ tag.children, t.name ∈ slotNames)) ∧
      (IsStack tag → (KeepsStack tag name ↔ ∀ t ∈ tag.children, t.name ∈ stackNames)) ∧
      (IsInventory tag → (KeepsInventory tag name ↔ OnlyNames slotNames tag)) ∧
      (IsArmor tag → (KeepsArmor tag name ↔ OnlyNames stackNames tag)) ∧
      (ContainerOf whole tag container → (KeepsContainer tag container ↔ OnlyNames slotNames tag)) ∧
      (ItemEntityOf whole tag entity →
        (KeepsItemEntity tag entity ↔ ∀ t ∈ tag.children, t.name ∈ stackNames)) :=
  ⟨fun h => keepsSlot_iff h, fun h => keepsStack_iff h name,
    fun h => keepsInventory_iff h name, fun h => keepsArmor_iff h name,
    fun h => keepsContainer_iff h.read h.container h.unique h.items h.name h.inventory,
    fun h => keepsItemEntity_iff h.read h.unique h.id h.item h.name h.stack⟩

/-- The tags of two hundred torches. -/
def torches : List Tag := [.byte "Count" 200, .short "Damage" 0, .short "id" 50]

theorem isStack_torches (name : String) : IsStack (.compound name torches) :=
  ⟨name, torches, 50, 0, 200, rfl, by decide +kernel, by simp [torches], by simp [torches],
    by simp [torches]⟩

/-- The torches in a slot. -/
def torchSlot : Tag := .compound "" (.byte "Slot" 9 :: torches)

theorem isSlot_torchSlot : IsSlot torchSlot :=
  ⟨"", _, 50, 0, 200, 9, rfl, ⟨by decide +kernel, by simp [torches], by simp [torches],
    by simp [torches]⟩, by simp⟩

/-- A chest with the torches. -/
def torchChest : Tag :=
  .compound "" [.string "id" "Chest", .list "Items" .compound [torchSlot]]

/-- The torches on the ground. -/
def torchEntity : Tag := .compound "" [.int "id" 64, .compound "Item" torches]

theorem keepsItemTags_torches :
    KeepsSlot torchSlot ∧ KeepsStack (.compound "" torches) "" ∧
      KeepsInventory (.list "Inventory" .compound [torchSlot]) "Inventory" ∧
      KeepsArmor (.list "Armor" .compound [.compound "" torches]) "Armor" ∧
      (∃ e, ContainerOf torchChest (.list "Items" .compound [torchSlot]) e ∧
        KeepsContainer (.list "Items" .compound [torchSlot]) e) ∧
      ∃ e, ItemEntityOf torchEntity (.compound "Item" torches) e ∧
        KeepsItemEntity (.compound "Item" torches) e := by
  have hslotNames : ∀ t ∈ torchSlot.children, t.name ∈ slotNames := by decide +kernel
  have hstackNames : ∀ t ∈ torches, t.name ∈ stackNames := by decide +kernel
  have hinv (n : String) : IsInventory (.list n .compound [torchSlot]) :=
    ⟨⟨n, _, _, rfl⟩, List.forall_mem_singleton.mpr isSlot_torchSlot⟩
  have hnames (n : String) : OnlyNames slotNames (.list n .compound [torchSlot]) :=
    List.forall_mem_singleton.mpr hslotNames
  obtain ⟨container, hc⟩ : ∃ e, ContainerOf torchChest (.list "Items" .compound [torchSlot]) e :=
    ⟨_, rfl, nofun, by decide +kernel, by simp [torchChest, Tag.children], rfl, hinv _⟩
  obtain ⟨entity, he⟩ : ∃ e, ItemEntityOf torchEntity (.compound "Item" torches) e :=
    ⟨_, rfl, by decide +kernel, by simp [torchEntity, Tag.children], by simp [torchEntity, Tag.children],
      rfl, isStack_torches _⟩
  have hiff (tag whole : Tag) (name : String) := keepsItemTags_iff tag whole name container entity
  obtain ⟨hslot, -⟩ := hiff torchSlot torchSlot ""
  obtain ⟨-, hstack, -⟩ := hiff (.compound "" torches) torchSlot ""
  obtain ⟨-, -, hinventory, -⟩ := hiff (.list "Inventory" .compound [torchSlot]) torchSlot "Inventory"
  obtain ⟨-, -, -, harmor, -⟩ := hiff (.list "Armor" .compound [.compound "" torches]) torchSlot "Armor"
  obtain ⟨-, -, -, -, hcontainer, -⟩ := hiff (.list "Items" .compound [torchSlot]) torchChest ""
  obtain ⟨-, -, -, -, -, hentity⟩ := hiff (.compound "Item" torches) torchEntity ""
  refine ⟨(hslot isSlot_torchSlot).mpr hslotNames, (hstack (isStack_torches "")).mpr hstackNames,
    (hinventory (hinv _)).mpr (hnames _), (harmor ⟨⟨_, _, _, rfl⟩, ?_⟩).mpr ?_, ?_, ?_⟩
  · exact List.forall_mem_singleton.mpr (isStack_torches "")
  · exact List.forall_mem_singleton.mpr hstackNames
  · exact ⟨_, hc, (hcontainer hc).mpr (hnames _)⟩
  · exact ⟨_, he, (hentity he).mpr hstackNames⟩

/-- A sword in a slot, with an enchantment. -/
def enchantedSword : Tag := .compound "" [.byte "Count" 1, .short "Damage" 0, .byte "Slot" 9,
  .short "id" 276, .compound "tag" [.list "ench" .compound [.compound "" [.short "id" 16, .short "lvl" 1]]]]

theorem not_keepsSlot_enchantedSword : IsSlot enchantedSword ∧ ¬KeepsSlot enchantedSword := by
  have hslot : IsSlot enchantedSword := ⟨"", _, 276, 0, 1, 9, rfl,
    ⟨by decide +kernel, by simp, by simp, by simp⟩, by simp⟩
  refine ⟨hslot, ?_⟩
  rw [keepsSlot_iff hslot]
  decide +kernel

end NBTConverter

end WorldToPE
