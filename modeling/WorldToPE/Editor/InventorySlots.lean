import WorldToPE.Data.Item
import WorldToPE.Lib.Run

/-!
# WorldToPE.Editor.InventorySlots — the inventory editor and its three lists

`InventorySlotsActivity` shows the list `inventory` of the slots above the hotbar and edits it together
with the inventory of the player.  At first the player has the list object `tempInventory` itself; the
first `addEmptySlot` gives the player a new list, built from the hotbar of `tempInventory` and from
`inventory`, and from then on `tempInventory` is only read.  Slots are objects that the lists share, so
the model has references into a heap.

* `exec_cases`: what an operation can do to the lists.
* `InStep`: the displayed list and the list of the player agree.
* `inStep_iff`: the runs in which they agree in every state.
-/

namespace WorldToPE

open Java Run NBTConverter

/-! ## The activity -/

namespace RepairableMaterials

/-- `ids`, as the intervals that are added to it. -/
def ids : List (Int × Int) := [(256, 259), (261, 261), (267, 279), (283, 286), (298, 317), (359, 359)]

def isRepairable (stack : ItemStack) : Bool :=
  ids.any fun p => p.1 ≤ stack.id.toInt ∧ stack.id.toInt ≤ p.2

end RepairableMaterials

/-- The state of the activity and of the player's inventory after `onLevelDataLoad`. -/
structure InventorySlotsActivity where
  /-- the slot objects, by reference -/
  slots : ℕ → InventorySlot
  allocated : ℕ
  tempInventory : List ℕ
  /-- the list that `addEmptySlot` gave the player last; before, the player has `tempInventory` -/
  outInventory : Option (List ℕ)
  inventory : List ℕ

namespace InventorySlotsActivity

/-- `slot.getSlot()`: a signed byte. -/
def getSlot (s : InventorySlotsActivity) (r : ℕ) : Int32 := widen (s.slots r).slot

/-- `level.getPlayer().getInventory()`. -/
def getInventory (s : InventorySlotsActivity) : List ℕ := s.outInventory.getD s.tempInventory

/-- A change of the player's list in place. -/
def changeInventory (f : List ℕ → List ℕ) (s : InventorySlotsActivity) : InventorySlotsActivity :=
  match s.outInventory with
  | none => { s with tempInventory := f s.tempInventory }
  | some outInventory => { s with outInventory := some (f outInventory) }

def onLevelDataLoad (player : List InventorySlot) : InventorySlotsActivity :=
  let slots r := player.getD r ⟨0, emptyStack⟩
  { slots
    allocated := player.length
    tempInventory := List.range player.length
    outInventory := none
    inventory := (List.range player.length).filter fun r => widen (slots r).slot > 8 }

/-- The loop of `alignSlots`, from position `i` on. -/
def alignSlots : ℕ → List ℕ → (ℕ → InventorySlot) → ℕ → InventorySlot
  | _, [], slots => slots
  | i, r :: inventory, slots =>
    alignSlots (i + 1) inventory
      (Function.update slots r { slots r with slot := narrow (Int32.ofNat (i + 9)) })

/-- `addEmptySlot`, with the new slot as its result. -/
def addEmptySlot : EStateM Exn InventorySlotsActivity (Option ℕ) := fun s =>
  if s.inventory.length > 35 then .ok none s
  else
    let outInventory := s.tempInventory.filter fun r => s.getSlot r < 9
    let slot := s.allocated
    let inventory := s.inventory ++ [slot]
    .ok (some slot)
      { s with
        slots := Function.update (alignSlots 0 s.inventory s.slots) slot
          ⟨narrow (Int32.ofNat (s.inventory.length + 9)), ⟨0, 0, 1, []⟩⟩
        allocated := s.allocated + 1
        inventory
        outInventory := some (outInventory ++ inventory) }

/-- `inventory.get(i)`. -/
def slotAt (i : Int32) : EStateM Exn InventorySlotsActivity ℕ := fun s =>
  if i < 0 then .error .indexOutOfBounds s
  else
    match s.inventory[i.toInt.toNat]? with
    | some r => .ok r s
    | none => .error .indexOutOfBounds s

def setContents (r : ℕ) (contents : ItemStack) : EStateM Exn InventorySlotsActivity Unit :=
  modify fun s => { s with slots := Function.update s.slots r { s.slots r with contents } }

/-- `new ItemStack(other)`: the other tags are not copied. -/
def copyStack (other : ItemStack) : ItemStack := { other with extraTags := [] }

def duplicateSelectedSlot (i : Int32) : EStateM Exn InventorySlotsActivity Unit := do
  let oldSlot ← slotAt i
  match ← addEmptySlot with
  | none => return ()
  | some newSlot => setContents newSlot (copyStack ((← get).slots oldSlot).contents)

/-- `deleteSelectedSlot`: the player's list loses the object, the displayed list the position. -/
def deleteSelectedSlot (i : Int32) : EStateM Exn InventorySlotsActivity Unit := do
  let r ← slotAt i
  modify fun s =>
    let s := s.changeInventory (·.erase r)
    { s with inventory := s.inventory.eraseIdx i.toInt.toNat }

/-- `onSlotActivityResult`, with the extras of the intent. -/
def onSlotActivityResult (index count : Int32) (damage typeId : Int16) :
    EStateM Exn InventorySlotsActivity Unit := do
  if index < 0 then return ()
  let r ← slotAt index
  let stack := ((← get).slots r).contents
  setContents r { stack with amount := count, durability := damage, id := typeId }

/-- What `repairAllItems` does to one stack. -/
def repair (stack : ItemStack) : ItemStack :=
  if stack.durability > 0 ∧ RepairableMaterials.isRepairable stack then { stack with durability := 0 }
  else stack

def repairAllItems : EStateM Exn InventorySlotsActivity Unit := modify fun s =>
  { s with slots := s.inventory.foldl (fun slots r =>
      Function.update slots r { slots r with contents := repair (slots r).contents }) s.slots }

/-- The positive button of `createClearInventoryDialog`. -/
def clearInventory : EStateM Exn InventorySlotsActivity Unit := modify (changeInventory fun _ => [])

inductive Op
  | addEmptySlot
  | duplicateSelectedSlot (i : Int32)
  | deleteSelectedSlot (i : Int32)
  | onSlotActivityResult (index count : Int32) (damage typeId : Int16)
  | repairAllItems
  | clearInventory

def exec : Op → EStateM Exn InventorySlotsActivity Unit
  | .addEmptySlot => discard InventorySlotsActivity.addEmptySlot
  | .duplicateSelectedSlot i => InventorySlotsActivity.duplicateSelectedSlot i
  | .deleteSelectedSlot i => InventorySlotsActivity.deleteSelectedSlot i
  | .onSlotActivityResult index count damage typeId =>
    InventorySlotsActivity.onSlotActivityResult index count damage typeId
  | .repairAllItems => InventorySlotsActivity.repairAllItems
  | .clearInventory => InventorySlotsActivity.clearInventory

/-! ## The property -/

/-- What a clear removes from the inventory of the player. -/
def removedBy (s : InventorySlotsActivity) : Op → List ℕ
  | .clearInventory => s.getInventory
  | _ => []

/-- The slots that the clears of a run removed. -/
def clearedBy : InventorySlotsActivity → List Op → List ℕ
  | _, [] => []
  | s, op :: ops => s.removedBy op ++ clearedBy (after (exec op) s) ops

/-- The displayed list and the inventory of the player are in step. -/
structure InStep (player : List InventorySlot) (cleared : List ℕ) (s : InventorySlotsActivity) : Prop where
  displayed : s.inventory = s.getInventory.filter fun r => s.getSlot r > 8
  hotbar : ∀ r < player.length, (onLevelDataLoad player).getSlot r < 9 → r ∉ cleared →
    s.getInventory.count r = 1
  gone : ∀ r ∈ cleared, r ∉ s.getInventory

/-- The hotbar that `addEmptySlot` puts back is the one that the player has. -/
def HotbarKept (s : InventorySlotsActivity) : Prop :=
  s.inventory.length ≤ 35 → ∀ r ∈ s.tempInventory, s.getSlot r < 9 → r ∈ s.getInventory

/-- The condition on an operation: a clear has nothing displayed to leave behind, and a new slot brings
no cleared hotbar back. -/
def Allowed (s : InventorySlotsActivity) : Op → Prop
  | .clearInventory => s.inventory = []
  | .addEmptySlot => HotbarKept s
  | .duplicateSelectedSlot i => 0 ≤ i → i.toInt < s.inventory.length → HotbarKept s
  | _ => True

theorem clearedBy_concat (s : InventorySlotsActivity) (ops : List Op) (op : Op) :
    clearedBy s (ops ++ [op]) = clearedBy s ops ++ (run exec s ops).removedBy op := by
  induction ops generalizing s with
  | nil => simp [clearedBy]
  | cons o ops ih => simp [clearedBy, ih]

/-! ## Slot numbers -/

/-- The numbers that `addEmptySlot` gives are those of the inventory. -/
theorem slotNumber_gt : ∀ i < 36, 8 < widen (narrow (Int32.ofNat (i + 9))) := by decide

theorem not_hotbar_iff {s : InventorySlotsActivity} {r : ℕ} : ¬ s.getSlot r < 9 ↔ s.getSlot r > 8 := by
  have h8 : (8 : Int32).toInt = 8 := rfl
  have h9 : (9 : Int32).toInt = 9 := rfl
  rw [Int32.lt_iff_toInt_lt, gt_iff_lt, Int32.lt_iff_toInt_lt]
  omega

theorem alignSlots_of_not_mem {r : ℕ} : ∀ {inventory : List ℕ} {i : ℕ} {slots : ℕ → InventorySlot},
    r ∉ inventory → alignSlots i inventory slots r = slots r
  | [], _, _, _ => rfl
  | r' :: inventory, i, slots, h => by
    obtain ⟨hne, hr⟩ := not_or.mp (mt List.mem_cons.mpr h)
    rw [alignSlots, alignSlots_of_not_mem hr, Function.update_of_ne hne]

theorem alignSlots_gt {r : ℕ} : ∀ {inventory : List ℕ} {i : ℕ} {slots : ℕ → InventorySlot},
    i + inventory.length ≤ 36 → r ∈ inventory → 8 < widen (alignSlots i inventory slots r).slot
  | r' :: inventory, i, slots, hlen, h => by
    rw [List.length_cons] at hlen
    rw [alignSlots]
    by_cases hr : r ∈ inventory
    · exact alignSlots_gt (by omega) hr
    · obtain rfl := (List.mem_cons.mp h).resolve_right hr
      rw [alignSlots_of_not_mem hr, Function.update_self]
      exact slotNumber_gt i (by omega)

/-! ## What an operation does -/

/-- No list and no slot number has changed. -/
structure Same (s t : InventorySlotsActivity) : Prop where
  tempInventory : t.tempInventory = s.tempInventory
  getInventory : t.getInventory = s.getInventory
  inventory : t.inventory = s.inventory
  allocated : t.allocated = s.allocated
  getSlot : ∀ r, t.getSlot r = s.getSlot r

/-- A slot has been added, and the player has a new list. -/
structure Added (s t : InventorySlotsActivity) : Prop where
  room : s.inventory.length ≤ 35
  tempInventory : t.tempInventory = s.tempInventory
  getInventory : t.getInventory = (s.tempInventory.filter fun r => s.getSlot r < 9) ++ t.inventory
  inventory : t.inventory = s.inventory ++ [s.allocated]
  allocated : t.allocated = s.allocated + 1
  getSlot : ∀ r, r ∉ t.inventory → t.getSlot r = s.getSlot r
  above : ∀ r ∈ t.inventory, t.getSlot r > 8

/-- A displayed slot has been removed from both lists. -/
def Deleted (s t : InventorySlotsActivity) : Prop :=
  ∃ i, ∃ hi : i < s.inventory.length,
    t = { s.changeInventory (·.erase s.inventory[i]) with inventory := s.inventory.eraseIdx i }

theorem same_refl (s : InventorySlotsActivity) : Same s s := ⟨rfl, rfl, rfl, rfl, fun _ => rfl⟩

/-- A change of contents. -/
theorem same_slots {s : InventorySlotsActivity} {slots : ℕ → InventorySlot}
    (h : ∀ r, (slots r).slot = (s.slots r).slot) : Same s { s with slots } where
  tempInventory := rfl
  getInventory := rfl
  inventory := rfl
  allocated := rfl
  getSlot r := congrArg widen (h r)

theorem same_setContents (s : InventorySlotsActivity) (r : ℕ) (contents : ItemStack) :
    Same s (after (setContents r contents) s) := by
  apply same_slots
  intro r'
  by_cases h : r' = r
  · subst h
    rw [Function.update_self]
  · rw [Function.update_of_ne h]

theorem Added.trans {s t u : InventorySlotsActivity} (h : Added s t) (hs : Same t u) : Added s u where
  room := h.room
  tempInventory := hs.tempInventory.trans h.tempInventory
  getInventory := by rw [hs.getInventory, hs.inventory, h.getInventory]
  inventory := hs.inventory.trans h.inventory
  allocated := hs.allocated.trans h.allocated
  getSlot r hr := by
    rw [hs.inventory] at hr
    rw [hs.getSlot, h.getSlot r hr]
  above r hr := by
    rw [hs.inventory] at hr
    rw [hs.getSlot]
    exact h.above r hr

theorem addEmptySlot_cases (s : InventorySlotsActivity) :
    (35 < s.inventory.length ∧ addEmptySlot s = .ok none s) ∨
      ∃ t, addEmptySlot s = .ok (some s.allocated) t ∧ Added s t := by
  unfold addEmptySlot
  split
  · rename_i h
    exact .inl ⟨h, rfl⟩
  · rename_i h
    refine .inr ⟨_, rfl, ⟨by omega, rfl, rfl, rfl, rfl, ?_, ?_⟩⟩
    · intro r hr
      obtain ⟨hr, hne⟩ := not_or.mp (mt List.mem_append.mpr hr)
      unfold getSlot
      dsimp only
      rw [Function.update_of_ne (fun he => hne (List.mem_singleton.mpr he)), alignSlots_of_not_mem hr]
    · intro r hr
      unfold getSlot
      dsimp only
      by_cases he : r = s.allocated
      · subst he
        rw [Function.update_self]
        exact slotNumber_gt _ (by omega)
      · rw [Function.update_of_ne he]
        refine alignSlots_gt (by omega) ?_
        exact (List.mem_append.mp hr).resolve_right fun h => he (List.mem_singleton.mp h)

theorem slotAt_cases (i : Int32) (s : InventorySlotsActivity) :
    (slotAt i s = .error .indexOutOfBounds s ∧ ¬ (0 ≤ i ∧ i.toInt < s.inventory.length)) ∨
      ∃ h : i.toInt.toNat < s.inventory.length, 0 ≤ i ∧ slotAt i s = .ok s.inventory[i.toInt.toNat] s := by
  have h0 : (0 : Int32).toInt = 0 := rfl
  unfold slotAt
  by_cases hi : i < 0
  · rw [if_pos hi]
    refine .inl ⟨rfl, fun h => ?_⟩
    rw [Int32.lt_iff_toInt_lt] at hi
    have := Int32.le_iff_toInt_le.mp h.1
    omega
  · rw [if_neg hi]
    have hi' : 0 ≤ i := Int32.not_lt.mp hi
    have hle := Int32.le_iff_toInt_le.mp hi'
    by_cases hlt : i.toInt.toNat < s.inventory.length
    · rw [List.getElem?_eq_getElem hlt]
      exact .inr ⟨hlt, hi', rfl⟩
    · rw [List.getElem?_eq_none (by omega)]
      exact .inl ⟨rfl, fun h => by omega⟩

theorem same_onSlotActivityResult (s : InventorySlotsActivity) (index count : Int32)
    (damage typeId : Int16) : Same s (after (onSlotActivityResult index count damage typeId) s) := by
  unfold onSlotActivityResult
  split
  · exact same_refl s
  · rw [after_bind]
    rcases slotAt_cases index s with ⟨h, -⟩ | ⟨hi, -, h⟩
    · rw [h]
      exact same_refl s
    · rw [h]
      exact same_setContents s _ _

theorem same_repairAllItems (s : InventorySlotsActivity) : Same s (after repairAllItems s) := by
  apply same_slots
  intro r
  generalize s.inventory = inventory
  induction inventory using List.reverseRecOn with
  | nil => rfl
  | append_singleton inventory r' ih =>
    rw [List.foldl_append]
    rw [List.foldl_cons, List.foldl_nil]
    by_cases h : r = r'
    · subst h
      rw [Function.update_self]
      exact ih
    · rw [Function.update_of_ne h]
      exact ih

/-- **What an operation can do**: nothing to the lists, add a slot, delete one, or clear. -/
theorem exec_cases (op : Op) (s : InventorySlotsActivity) :
    (s.removedBy op = [] ∧ Allowed s op ∧
        (Same s (after (exec op) s) ∨ Deleted s (after (exec op) s))) ∨
    (s.removedBy op = [] ∧ (Allowed s op ↔ HotbarKept s) ∧ Added s (after (exec op) s)) ∨
    (op = .clearInventory ∧ after (exec op) s = s.changeInventory fun _ => []) := by
  cases op with
  | addEmptySlot =>
    show (_ ∧ HotbarKept s ∧ _) ∨ (_ ∧ (HotbarKept s ↔ HotbarKept s) ∧ _) ∨ _
    rw [show after (exec .addEmptySlot) s = after addEmptySlot s from after_map _ _ s, after]
    rcases addEmptySlot_cases s with ⟨hfull, h⟩ | ⟨t, h, hadd⟩
    · rw [h]
      exact .inl ⟨rfl, fun hlen => by omega, .inl (same_refl s)⟩
    · rw [h]
      exact .inr (.inl ⟨rfl, Iff.rfl, hadd⟩)
  | duplicateSelectedSlot i =>
    show (_ ∧ (0 ≤ i → i.toInt < s.inventory.length → HotbarKept s) ∧ _) ∨
      (_ ∧ ((0 ≤ i → i.toInt < s.inventory.length → HotbarKept s) ↔ HotbarKept s) ∧ _) ∨ _
    rw [show after (exec (.duplicateSelectedSlot i)) s = after (duplicateSelectedSlot i) s from rfl,
      duplicateSelectedSlot, after_bind]
    rcases slotAt_cases i s with ⟨h, hno⟩ | ⟨hi, h0, h⟩
    · rw [h]
      exact .inl ⟨rfl, fun h0 hlt => absurd ⟨h0, hlt⟩ hno, .inl (same_refl s)⟩
    · rw [h]
      dsimp only
      rw [after_bind]
      have hlt : i.toInt < s.inventory.length := by omega
      rcases addEmptySlot_cases s with ⟨hfull, h'⟩ | ⟨t, h', hadd⟩
      · rw [h']
        exact .inl ⟨rfl, fun _ _ hlen => by omega, .inl (same_refl s)⟩
      · rw [h']
        refine .inr (.inl ⟨rfl, ⟨fun hk => hk h0 hlt, fun hk _ _ => hk⟩, ?_⟩)
        exact hadd.trans (same_setContents t _ _)
  | deleteSelectedSlot i =>
    refine .inl ⟨rfl, trivial, ?_⟩
    rw [show after (exec (.deleteSelectedSlot i)) s = after (deleteSelectedSlot i) s from rfl,
      deleteSelectedSlot, after_bind]
    rcases slotAt_cases i s with ⟨h, -⟩ | ⟨hi, -, h⟩
    · rw [h]
      exact .inl (same_refl s)
    · rw [h]
      refine .inr ⟨_, hi, ?_⟩
      cases hs : s.outInventory <;> simp [after, changeInventory, hs]
  | onSlotActivityResult index count damage typeId =>
    exact .inl ⟨rfl, trivial, .inl (same_onSlotActivityResult s index count damage typeId)⟩
  | repairAllItems => exact .inl ⟨rfl, trivial, .inl (same_repairAllItems s)⟩
  | clearInventory => exact .inr (.inr ⟨rfl, rfl⟩)

/-! ## The invariant -/

@[simp] theorem getInventory_changeInventory (s : InventorySlotsActivity) (f : List ℕ → List ℕ) :
    (s.changeInventory f).getInventory = f s.getInventory := by
  unfold changeInventory getInventory
  cases s.outInventory <;> rfl

@[simp] theorem inventory_changeInventory (s : InventorySlotsActivity) (f : List ℕ → List ℕ) :
    (s.changeInventory f).inventory = s.inventory := by
  unfold changeInventory
  cases s.outInventory <;> rfl

@[simp] theorem getSlot_changeInventory (s : InventorySlotsActivity) (f : List ℕ → List ℕ) (r : ℕ) :
    (s.changeInventory f).getSlot r = s.getSlot r := by
  unfold changeInventory
  cases s.outInventory <;> rfl

@[simp] theorem allocated_changeInventory (s : InventorySlotsActivity) (f : List ℕ → List ℕ) :
    (s.changeInventory f).allocated = s.allocated := by
  unfold changeInventory
  cases s.outInventory <;> rfl

theorem tempInventory_changeInventory (s : InventorySlotsActivity) (f : List ℕ → List ℕ) :
    (s.changeInventory f).tempInventory = s.tempInventory ∨
      (s.tempInventory = s.getInventory ∧ (s.changeInventory f).tempInventory = f s.tempInventory) := by
  unfold changeInventory getInventory
  cases s.outInventory with
  | none => exact .inr ⟨rfl, rfl⟩
  | some l => exact .inl rfl

/-- A slot of the loaded inventory with a number below nine. -/
def Loaded (player : List InventorySlot) (r : ℕ) : Prop :=
  r < player.length ∧ (onLevelDataLoad player).getSlot r < 9

/-- **The invariant**: the lists are in step, they have no slot twice, and what is left of the loaded
hotbar is still in `tempInventory`. -/
structure Inv (player : List InventorySlot) (cleared : List ℕ) (s : InventorySlotsActivity) : Prop
    extends InStep player cleared s where
  nodup : s.getInventory.Nodup
  nodup_temp : s.tempInventory.Nodup
  lt : ∀ r ∈ s.getInventory, r < s.allocated
  lt_temp : ∀ r ∈ s.tempInventory, r < player.length
  le : player.length ≤ s.allocated
  cleared_lt : ∀ r ∈ cleared, r < s.allocated
  slot : ∀ r < player.length, (s.getSlot r < 9 ↔ (onLevelDataLoad player).getSlot r < 9)
  temp : ∀ r, Loaded player r → r ∉ cleared → r ∈ s.tempInventory

theorem inv_onLevelDataLoad (player : List InventorySlot) : Inv player [] (onLevelDataLoad player) where
  displayed := rfl
  hotbar _ hr _ _ := List.count_eq_one_of_mem List.nodup_range (List.mem_range.mpr hr)
  gone _ hr := absurd hr List.not_mem_nil
  nodup := List.nodup_range
  nodup_temp := List.nodup_range
  lt _ hr := List.mem_range.mp hr
  lt_temp _ hr := List.mem_range.mp hr
  le := le_rfl
  cleared_lt _ hr := absurd hr List.not_mem_nil
  slot _ _ := Iff.rfl
  temp _ hr _ := List.mem_range.mpr hr.1

variable {player : List InventorySlot} {cleared : List ℕ} {s t : InventorySlotsActivity}

theorem Inv.mem_inventory (h : Inv player cleared s) {r : ℕ} :
    r ∈ s.inventory ↔ r ∈ s.getInventory ∧ ¬ s.getSlot r < 9 := by
  rw [h.displayed, List.mem_filter, not_hotbar_iff]
  simp

theorem Inv.same (h : Inv player cleared s) (hs : Same s t) : Inv player cleared t := by
  obtain ⟨h1, h2, h3, h4, h5⟩ := hs
  constructor
  · constructor
    · simpa only [h2, h3, h5] using h.displayed
    · rw [h2]
      exact h.hotbar
    · rw [h2]
      exact h.gone
  · rw [h2]
    exact h.nodup
  · rw [h1]
    exact h.nodup_temp
  · rw [h2, h4]
    exact h.lt
  · rw [h1]
    exact h.lt_temp
  · rw [h4]
    exact h.le
  · rw [h4]
    exact h.cleared_lt
  · simpa only [h5] using h.slot
  · rw [h1]
    exact h.temp

theorem Inv.deleted (h : Inv player cleared s) (hs : Deleted s t) : Inv player cleared t := by
  obtain ⟨i, hi, rfl⟩ := hs
  set r₀ := s.inventory[i] with hr₀
  obtain ⟨-, hslot⟩ := h.mem_inventory.mp (List.getElem_mem hi : r₀ ∈ s.inventory)
  have hinv : s.inventory.Nodup := by
    rw [h.displayed]
    exact h.nodup.filter _
  have hne {r : ℕ} (hr : Loaded player r) : r ≠ r₀ := by
    rintro rfl
    exact hslot ((h.slot _ hr.1).mpr hr.2)
  have hget : ({ s.changeInventory (·.erase r₀) with inventory := s.inventory.eraseIdx i } :
      InventorySlotsActivity).getInventory = s.getInventory.erase r₀ :=
    getInventory_changeInventory s (·.erase r₀)
  have hnum (r : ℕ) : ({ s.changeInventory (·.erase r₀) with inventory := s.inventory.eraseIdx i } :
      InventorySlotsActivity).getSlot r = s.getSlot r := getSlot_changeInventory s _ r
  have htemp := tempInventory_changeInventory s (·.erase r₀)
  constructor
  · constructor
    · show s.inventory.eraseIdx i = _
      simp only [hget, hnum]
      rw [← hinv.erase_getElem i hi, ← hr₀, hinv.erase_eq_filter, h.nodup.erase_eq_filter,
        List.filter_filter, h.displayed, List.filter_filter]
      simp only [Bool.and_comm]
    · rw [hget]
      intro r hr hhot hc
      rw [List.count_erase_of_ne (hne ⟨hr, hhot⟩)]
      exact h.hotbar r hr hhot hc
    · rw [hget]
      exact fun r hr hin => h.gone r hr (List.mem_of_mem_erase hin)
  · rw [hget]
    exact h.nodup.erase _
  · rcases htemp with he | ⟨-, he⟩
    · exact he ▸ h.nodup_temp
    · exact he ▸ h.nodup_temp.erase _
  · rw [hget]
    intro r hr
    exact (h.lt r (List.mem_of_mem_erase hr)).trans_eq (allocated_changeInventory s _).symm
  · intro r hr
    rcases htemp with he | ⟨-, he⟩
    · exact h.lt_temp r (he ▸ hr)
    · exact h.lt_temp r (List.mem_of_mem_erase (he ▸ hr))
  · exact h.le.trans_eq (allocated_changeInventory s _).symm
  · exact fun r hr => (h.cleared_lt r hr).trans_eq (allocated_changeInventory s _).symm
  · intro r hr
    rw [hnum]
    exact h.slot r hr
  · intro r hr hc
    rcases htemp with he | ⟨-, he⟩
    · exact he ▸ h.temp r hr hc
    · exact he ▸ (List.mem_erase_of_ne (hne hr)).mpr (h.temp r hr hc)

section Added

variable (h : Inv player cleared s) (hs : Added s t)
include h hs

/-- A slot of the hotbar is not displayed, so that its number stays. -/
theorem Inv.not_mem_added {r : ℕ} (hr : r ∈ s.tempInventory) (hlow : s.getSlot r < 9) :
    r ∉ t.inventory := by
  rw [hs.inventory, List.mem_append, List.mem_singleton]
  rintro (hin | rfl)
  · exact (h.mem_inventory.mp hin).2 hlow
  · exact absurd (h.lt_temp _ hr) (by have := h.le; omega)

/-- The new list of the player: the hotbar that was loaded, what was displayed, and the new slot. -/
theorem Inv.mem_added {r : ℕ} (hin : r ∈ t.getInventory) :
    (r ∈ s.tempInventory ∧ s.getSlot r < 9) ∨ r ∈ s.getInventory ∨ r = s.allocated := by
  rw [hs.getInventory, hs.inventory, List.mem_append, List.mem_append, List.mem_singleton] at hin
  rcases hin with hin | hin | rfl
  · obtain ⟨hin, hlow⟩ := List.mem_filter.mp hin
    exact .inl ⟨hin, of_decide_eq_true hlow⟩
  · exact .inr (.inl (h.mem_inventory.mp hin).1)
  · exact .inr (.inr rfl)

theorem Inv.nodup_added : t.getInventory.Nodup := by
  have hfresh : s.allocated ∉ s.getInventory := fun hin => absurd (h.lt _ hin) (lt_irrefl _)
  have hdisplayed : t.inventory.Nodup := by
    rw [hs.inventory]
    refine List.Nodup.append (h.displayed ▸ h.nodup.filter _) (List.nodup_singleton _) ?_
    rw [List.disjoint_singleton]
    exact fun hin => hfresh (h.mem_inventory.mp hin).1
  rw [hs.getInventory]
  refine List.Nodup.append (h.nodup_temp.filter _) hdisplayed ?_
  intro r hr hin
  obtain ⟨hr, hlow⟩ := List.mem_filter.mp hr
  exact h.not_mem_added hs hr (of_decide_eq_true hlow) hin

theorem Inv.displayed_added : t.inventory = t.getInventory.filter fun r => t.getSlot r > 8 := by
  rw [hs.getInventory, List.filter_append, List.filter_filter, List.filter_eq_nil_iff.mpr,
    List.nil_append, List.filter_eq_self.mpr]
  · intro r hr
    exact decide_eq_true (hs.above r hr)
  · intro r hr hboth
    obtain ⟨habove, hlow⟩ := Bool.and_eq_true_iff.mp hboth
    have hlow := of_decide_eq_true hlow
    rw [hs.getSlot r (h.not_mem_added hs hr hlow)] at habove
    exact not_hotbar_iff.mpr (of_decide_eq_true habove) hlow

/-- The slots that were loaded stay on their side of the hotbar. -/
theorem Inv.slot_added {r : ℕ} (hr : r < player.length) :
    t.getSlot r < 9 ↔ (onLevelDataLoad player).getSlot r < 9 := by
  by_cases hin : r ∈ t.inventory
  · have hold : ¬ s.getSlot r < 9 := by
      rw [hs.inventory, List.mem_append, List.mem_singleton] at hin
      rcases hin with hin | rfl
      · exact (h.mem_inventory.mp hin).2
      · exact absurd hr (by have := h.le; omega)
    rw [← h.slot r hr]
    exact iff_of_false (not_hotbar_iff.mpr (hs.above r hin)) hold
  · rw [hs.getSlot r hin]
    exact h.slot r hr

theorem Inv.mem_added_of_loaded {r : ℕ} (hr : Loaded player r) (hc : r ∉ cleared) :
    r ∈ t.getInventory := by
  rw [hs.getInventory]
  refine List.mem_append_left _ (List.mem_filter.mpr ⟨h.temp r hr hc, decide_eq_true ?_⟩)
  exact (h.slot r hr.1).mpr hr.2

/-- A new slot keeps the lists in step if it brings no cleared slot back. -/
theorem Inv.added (hk : HotbarKept s) : Inv player cleared t := by
  constructor
  · constructor
    · exact h.displayed_added hs
    · intro r hr hhot hc
      exact List.count_eq_one_of_mem (h.nodup_added hs) (h.mem_added_of_loaded hs ⟨hr, hhot⟩ hc)
    · intro r hr hin
      rcases h.mem_added hs hin with ⟨hin, hlow⟩ | hin | rfl
      · exact h.gone r hr (hk hs.room r hin hlow)
      · exact h.gone r hr hin
      · exact absurd (h.cleared_lt _ hr) (lt_irrefl _)
  · exact h.nodup_added hs
  · rw [hs.tempInventory]
    exact h.nodup_temp
  · rw [hs.allocated]
    intro r hin
    rcases h.mem_added hs hin with ⟨hin, -⟩ | hin | rfl
    · have := h.lt_temp r hin
      have := h.le
      omega
    · exact (h.lt r hin).trans (Nat.lt_succ_self _)
    · exact Nat.lt_succ_self _
  · rw [hs.tempInventory]
    exact h.lt_temp
  · rw [hs.allocated]
    exact h.le.trans (Nat.le_succ _)
  · rw [hs.allocated]
    exact fun r hr => (h.cleared_lt r hr).trans (Nat.lt_succ_self _)
  · intro r hr
    exact h.slot_added hs hr
  · rw [hs.tempInventory]
    exact h.temp

end Added

/-- A clear with nothing displayed keeps the lists in step. -/
theorem Inv.emptied (h : Inv player cleared s) (hempty : s.inventory = []) :
    Inv player (cleared ++ s.getInventory) (s.changeInventory fun _ => []) := by
  have hnone {r : ℕ} (hr : Loaded player r) (hc : r ∉ cleared ++ s.getInventory) : False := by
    obtain ⟨hc, hin⟩ := not_or.mp (mt List.mem_append.mpr hc)
    exact hin (List.count_pos_iff.mp (by rw [h.hotbar r hr.1 hr.2 hc]; exact Nat.one_pos))
  have htemp := tempInventory_changeInventory s fun _ => []
  constructor
  · constructor
    · simpa using hempty
    · exact fun r hr hhot hc => (hnone ⟨hr, hhot⟩ hc).elim
    · simp
  · simp
  · rcases htemp with he | ⟨-, he⟩
    · rw [he]
      exact h.nodup_temp
    · rw [he]
      exact List.nodup_nil
  · simp
  · intro r hr
    rcases htemp with he | ⟨-, he⟩
    · exact h.lt_temp r (he ▸ hr)
    · rw [he] at hr
      exact absurd hr List.not_mem_nil
  · simpa using h.le
  · intro r hr
    rw [allocated_changeInventory]
    exact (List.mem_append.mp hr).elim (h.cleared_lt r) (h.lt r)
  · simpa using h.slot
  · exact fun r hr hc => (hnone hr hc).elim

/-- **Step lemma**: an allowed operation keeps the invariant. -/
theorem Inv.step (h : Inv player cleared s) {op : Op} (hop : Allowed s op) :
    Inv player (cleared ++ s.removedBy op) (after (exec op) s) := by
  rcases exec_cases op s with ⟨hno, -, hs | hs⟩ | ⟨hno, hiff, hs⟩ | ⟨rfl, ht⟩
  · rw [hno, List.append_nil]
    exact h.same hs
  · rw [hno, List.append_nil]
    exact h.deleted hs
  · rw [hno, List.append_nil]
    exact h.added hs (hiff.mp hop)
  · rw [ht]
    exact h.emptied hop

/-- **Step lemma, the other way**: an operation after which the lists are in step was allowed. -/
theorem Inv.allowed (h : Inv player cleared s) {op : Op}
    (ht : InStep player (cleared ++ s.removedBy op) (after (exec op) s)) : Allowed s op := by
  rcases exec_cases op s with ⟨-, hop, -⟩ | ⟨hno, hiff, hs⟩ | ⟨rfl, hclear⟩
  · exact hop
  · rw [hno, List.append_nil] at ht
    refine hiff.mpr fun _ r hr hlow => ?_
    -- a slot of `tempInventory` that the player does not have has been cleared, and comes back
    by_contra hin
    have hlt := h.lt_temp r hr
    by_cases hc : r ∈ cleared
    · refine ht.gone r hc ?_
      rw [hs.getInventory]
      exact List.mem_append_left _ (List.mem_filter.mpr ⟨hr, decide_eq_true hlow⟩)
    · have hone := h.hotbar r hlt ((h.slot r hlt).mp hlow) hc
      rw [List.count_eq_zero_of_not_mem hin] at hone
      cases hone
  · have hd := ht.displayed
    rw [hclear] at hd
    show s.inventory = []
    simpa using hd

/-- **The lists are in step in every state of a run** if and only if every operation of the run is
allowed in the state that it meets. -/
theorem inStep_iff (player : List InventorySlot) (ops : List Op) :
    (∀ done, done <+: ops → InStep player (clearedBy (onLevelDataLoad player) done)
        (run exec (onLevelDataLoad player) done)) ↔
      Steps exec Allowed (onLevelDataLoad player) ops := by
  have hrun : ∀ ops, Steps exec Allowed (onLevelDataLoad player) ops →
      Inv player (clearedBy (onLevelDataLoad player) ops) (run exec (onLevelDataLoad player) ops) := by
    intro ops hs
    induction ops using List.reverseRecOn with
    | nil => exact inv_onLevelDataLoad player
    | append_singleton ops op ih =>
      obtain ⟨hs, hop⟩ := steps_concat.mp hs
      rw [clearedBy_concat, run_concat]
      exact (ih hs).step hop
  constructor
  · intro h
    induction ops using List.reverseRecOn with
    | nil => trivial
    | append_singleton ops op ih =>
      have hs := ih fun done hdone => h done (hdone.trans (List.prefix_append _ _))
      have hlast := h (ops ++ [op]) (List.prefix_refl _)
      rw [clearedBy_concat, run_concat] at hlast
      exact steps_concat.mpr ⟨hs, (hrun ops hs).allowed hlast⟩
  · rintro hs done ⟨rest, rfl⟩
    exact (hrun done (steps_append.mp hs).1).toInStep

/-- A clear leaves the displayed slot where it is, and the next new slot gives it back to the player. -/
theorem not_inStep_clear : ¬ InStep [⟨9, ⟨1, 0, 64, []⟩⟩]
      (clearedBy (onLevelDataLoad [⟨9, ⟨1, 0, 64, []⟩⟩]) [.clearInventory])
      (run exec (onLevelDataLoad [⟨9, ⟨1, 0, 64, []⟩⟩]) [.clearInventory]) ∧
    ¬ InStep [⟨9, ⟨1, 0, 64, []⟩⟩]
      (clearedBy (onLevelDataLoad [⟨9, ⟨1, 0, 64, []⟩⟩]) [.clearInventory, .addEmptySlot])
      (run exec (onLevelDataLoad [⟨9, ⟨1, 0, 64, []⟩⟩]) [.clearInventory, .addEmptySlot]) := by
  constructor
  · intro h
    have hd := h.displayed
    revert hd
    decide
  · intro h
    exact h.gone 0 (by decide) (by decide)

end InventorySlotsActivity

end WorldToPE
