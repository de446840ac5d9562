import WorldToPE.Data.TileEntity
import WorldToPE.Editor.InventorySlots
import WorldToPE.Editor.LoadoutImport

/-!
# WorldToPE.Editor.ChestSlots — the editor of the items of a container

`ChestSlotsActivity` edits the list of slots of a container in place.  A new slot is refused only when
the list is longer than the container is large, so a full list still gets one slot more.

* `addEmptySlot_eq`: the numbers after a new slot, which all other slots are renumbered for.
* `exec_length`: the length after an operation.
* `goodRun_iff`: the runs in which the list stays within the container.
-/

namespace WorldToPE

open Java Run NBTConverter LoadoutImportActivity

/-- `getContainerSize`: input, fuel and output of a furnace. -/
def TileFields.getContainerSize : TileFields → ℕ
  | .furnace _ _ _ => 3
  | _ => 27

/-- The state of the activity after `onLevelDataLoad`.  Its list is the list object of the container. -/
structure ChestSlotsActivity where
  container : TileFields
  inventory : List InventorySlot
  /-- the cast of `onLevelDataLoad` -/
  isContainer : container.items?.isSome = true

namespace ChestSlotsActivity

def getContainerSize (s : ChestSlotsActivity) : ℕ := s.container.getContainerSize

/-- The loop of `alignSlots`, from position `i` on. -/
def alignFrom : ℕ → List InventorySlot → List InventorySlot
  | _, [] => []
  | i, slot :: inventory => { slot with slot := narrow (Int32.ofNat i) } :: alignFrom (i + 1) inventory

def alignSlots (inventory : List InventorySlot) : List InventorySlot := alignFrom 0 inventory

/-- `addEmptySlot`, with the position of the new slot as its result. -/
def addEmptySlot : EStateM Exn ChestSlotsActivity (Option ℕ) := fun s =>
  if s.inventory.length > s.getContainerSize then .ok none s
  else
    let slot : InventorySlot := ⟨narrow (Int32.ofNat s.inventory.length), ⟨0, 0, 1, []⟩⟩
    .ok (some s.inventory.length) { s with inventory := alignSlots s.inventory ++ [slot] }

/-- `inventory.get(i)`. -/
def slotAt (i : Int32) : EStateM Exn ChestSlotsActivity InventorySlot := fun s =>
  if i < 0 then .error .indexOutOfBounds s
  else
    match s.inventory[i.toInt.toNat]? with
    | some slot => .ok slot s
    | none => .error .indexOutOfBounds s

def setContents (slot : ℕ) (contents : ItemStack) : EStateM Exn ChestSlotsActivity Unit :=
  modify fun s => { s with inventory := s.inventory.modify slot ({ · with contents }) }

def duplicateSelectedSlot (i : Int32) : EStateM Exn ChestSlotsActivity Unit := do
  let oldSlot ← slotAt i
  match ← addEmptySlot with
  | none => return ()
  | some newSlot => setContents newSlot (InventorySlotsActivity.copyStack oldSlot.contents)

def deleteSelectedSlot (i : Int32) : EStateM Exn ChestSlotsActivity Unit := do
  let _ ← slotAt i
  modify fun s => { s with inventory := s.inventory.eraseIdx i.toInt.toNat }

inductive Op
  | addEmptySlot
  | duplicateSelectedSlot (i : Int32)
  | deleteSelectedSlot (i : Int32)

def exec : Op → EStateM Exn ChestSlotsActivity Unit
  | .addEmptySlot => discard ChestSlotsActivity.addEmptySlot
  | .duplicateSelectedSlot i => ChestSlotsActivity.duplicateSelectedSlot i
  | .deleteSelectedSlot i => ChestSlotsActivity.deleteSelectedSlot i

/-! ## The property -/

/-- The step keeps the list within the container, and a new slot leaves the numbers in order. -/
structure GoodStep (s : ChestSlotsActivity) (op : Op) : Prop where
  capacity : (after (exec op) s).inventory.length ≤ s.getContainerSize
  numbers : s.inventory.length < (after (exec op) s).inventory.length →
    (after (exec op) s).inventory.map number = numbersFrom 0 (after (exec op) s).inventory.length ∧
      ∀ slot ∈ (after (exec op) s).inventory, number slot < s.getContainerSize

/-- The operation asks for a new slot. -/
def Op.adds (s : ChestSlotsActivity) : Op → Prop
  | .addEmptySlot => True
  | .duplicateSelectedSlot i => 0 ≤ i ∧ i.toInt < s.inventory.length
  | .deleteSelectedSlot _ => False

/-- A new slot is asked for only while the container is not full. -/
def HasRoom (s : ChestSlotsActivity) (op : Op) : Prop :=
  op.adds s → s.inventory.length ≠ s.getContainerSize

/-! ## What the operations do -/

theorem number_alignFrom (contents : List InventorySlot) : ∀ i, i + contents.length ≤ 128 →
    (alignFrom i contents).map number = numbersFrom i contents.length := by
  induction contents with
  | nil =>
    intro i _
    rfl
  | cons slot contents ih =>
    intro i hi
    rw [List.length_cons] at hi
    rw [alignFrom, List.map_cons, List.length_cons, numbersFrom_succ, ih (i + 1) (by omega),
      number_narrow (by omega)]

theorem length_alignFrom (contents : List InventorySlot) : ∀ i,
    (alignFrom i contents).length = contents.length := by
  induction contents with
  | nil =>
    intro i
    rfl
  | cons slot contents ih =>
    intro i
    rw [alignFrom, List.length_cons, List.length_cons, ih]

theorem getContainerSize_le (s : ChestSlotsActivity) : s.getContainerSize ≤ 27 := by
  unfold getContainerSize TileFields.getContainerSize
  split <;> omega

/-- The state after a new slot. -/
def added (s : ChestSlotsActivity) : ChestSlotsActivity :=
  { s with inventory := alignSlots s.inventory ++
      [⟨narrow (Int32.ofNat s.inventory.length), ⟨0, 0, 1, []⟩⟩] }

@[simp] theorem length_added (s : ChestSlotsActivity) :
    s.added.inventory.length = s.inventory.length + 1 := by
  simp [added, alignSlots, length_alignFrom]

/-- A list that is not too long gets a slot, the full one too. -/
theorem addEmptySlot_eq {s : ChestSlotsActivity} (h : s.inventory.length ≤ s.getContainerSize) :
    addEmptySlot s = .ok (some s.inventory.length) s.added := by
  unfold addEmptySlot
  rw [if_neg (by omega)]
  rfl

theorem number_added {s : ChestSlotsActivity} (h : s.inventory.length ≤ s.getContainerSize) :
    s.added.inventory.map number = numbersFrom 0 (s.inventory.length + 1) := by
  have hsize := s.getContainerSize_le
  show (alignFrom 0 s.inventory ++ [_]).map number = _
  rw [List.map_append, number_alignFrom _ 0 (by omega), List.map_singleton,
    number_narrow (by omega), numbersFrom_add, zero_add, numbersFrom_succ, numbersFrom_zero]

theorem slotAt_cases (i : Int32) (s : ChestSlotsActivity) :
    (∃ slot, slotAt i s = .ok slot s ∧ 0 ≤ i ∧ i.toInt < s.inventory.length) ∨
      (slotAt i s = .error .indexOutOfBounds s ∧ ¬ (0 ≤ i ∧ i.toInt < s.inventory.length)) := by
  have h0 : (0 : Int32).toInt = 0 := rfl
  unfold slotAt
  by_cases hi : i < 0
  · rw [if_pos hi]
    refine Or.inr ⟨rfl, fun h => ?_⟩
    rw [Int32.lt_iff_toInt_lt] at hi
    have h' := Int32.le_iff_toInt_le.mp h.1
    omega
  · rw [if_neg hi]
    have hi' : 0 ≤ i.toInt := by
      rw [Int32.lt_iff_toInt_lt] at hi
      omega
    cases hs : s.inventory[i.toInt.toNat]? with
    | none =>
      have hlen := List.getElem?_eq_none_iff.mp hs
      exact Or.inr ⟨rfl, fun h => by omega⟩
    | some slot =>
      obtain ⟨hlt, -⟩ := List.getElem?_eq_some_iff.mp hs
      exact Or.inl ⟨slot, rfl, Int32.le_iff_toInt_le.mpr (by omega), by omega⟩

/-- Filling a slot keeps the numbers. -/
theorem number_modify (inventory : List InventorySlot) (slot : ℕ) (contents : ItemStack) :
    (inventory.modify slot ({ · with contents })).map number = inventory.map number := by
  apply List.ext_getElem?
  intro j
  rw [List.getElem?_map, List.getElem?_map, List.getElem?_modify]
  cases inventory[j]? with
  | none => rfl
  | some s =>
    simp only [Option.map_some]
    split <;> rfl

/-- **What an operation does** to a list that is not too long: it adds a slot and renumbers the
others, it removes one, or it fails. -/
theorem exec_cases {s : ChestSlotsActivity} (h : s.inventory.length ≤ s.getContainerSize) (op : Op) :
    (op.adds s ∧ (after (exec op) s).inventory.map number = numbersFrom 0 (s.inventory.length + 1)) ∨
      (¬ op.adds s ∧ (after (exec op) s).inventory.length ≤ s.inventory.length) := by
  cases op with
  | addEmptySlot =>
    left
    refine ⟨trivial, ?_⟩
    show (after (discard addEmptySlot) s).inventory.map number = _
    rw [show after (discard addEmptySlot) s = s.added from after_of_ok (by
      show (Functor.map (fun _ => PUnit.unit) addEmptySlot) s = .ok () s.added
      rw [map_apply, addEmptySlot_eq h])]
    exact number_added h
  | duplicateSelectedSlot i =>
    rcases slotAt_cases i s with ⟨slot, hs, hi⟩ | ⟨hs, hi⟩
    · left
      refine ⟨hi, ?_⟩
      show (after (duplicateSelectedSlot i) s).inventory.map number = _
      rw [after_of_ok (by
        rw [duplicateSelectedSlot, bind_of_ok hs, bind_of_ok (addEmptySlot_eq h)]
        rfl)]
      rw [number_modify]
      exact number_added h
    · right
      refine ⟨hi, ?_⟩
      show (after (duplicateSelectedSlot i) s).inventory.length ≤ _
      rw [after_of_error (by rw [duplicateSelectedSlot, bind_of_error hs])]
  | deleteSelectedSlot i =>
    right
    refine ⟨id, ?_⟩
    show (after (deleteSelectedSlot i) s).inventory.length ≤ _
    rcases slotAt_cases i s with ⟨slot, hs, -⟩ | ⟨hs, -⟩
    · rw [after_of_ok (by
        rw [deleteSelectedSlot, bind_of_ok hs]
        rfl)]
      exact List.length_eraseIdx_le _ _
    · rw [after_of_error (by rw [deleteSelectedSlot, bind_of_error hs])]

/-! ## Runs -/

theorem length_of_number {inventory : List InventorySlot} {n : ℕ}
    (h : inventory.map number = numbersFrom 0 n) : inventory.length = n := by
  have hlen := congrArg List.length h
  simpa [numbersFrom] using hlen

/-- One operation is good exactly when it finds room for the slot it asks for. -/
theorem goodStep_iff {s : ChestSlotsActivity} (h : s.inventory.length ≤ s.getContainerSize) (op : Op) :
    GoodStep s op ↔ HasRoom s op := by
  rcases exec_cases h op with ⟨hadds, hnum⟩ | ⟨hadds, hlen⟩
  · have hlen := length_of_number hnum
    constructor
    · intro hgood _ hfull
      have hcap := hgood.capacity
      omega
    · intro hroom
      have hne := hroom hadds
      refine ⟨by omega, fun _ => ⟨by rw [hnum, hlen], fun slot hslot => ?_⟩⟩
      have hmem : number slot ∈ numbersFrom 0 (s.inventory.length + 1) := by
        rw [← hnum]
        exact List.mem_map_of_mem hslot
      rw [mem_numbersFrom] at hmem
      omega
  · constructor
    · intro _ hadds'
      exact absurd hadds' hadds
    · intro _
      exact ⟨hlen.trans h, fun hlt => absurd hlt (by omega)⟩

theorem container_exec (s : ChestSlotsActivity) (op : Op) :
    (after (exec op) s).container = s.container := by
  suffices hkeep : Keeps (fun t : ChestSlotsActivity => t.container = s.container) (exec op) from
    hkeep s rfl
  have hslot : ∀ i, Keeps (fun t : ChestSlotsActivity => t.container = s.container) (slotAt i) := by
    intro i t ht
    rcases slotAt_cases i t with ⟨slot, hs, -⟩ | ⟨hs, -⟩
    · rw [after_of_ok hs]
      exact ht
    · rw [after_of_error hs]
      exact ht
  have hadd : Keeps (fun t : ChestSlotsActivity => t.container = s.container) addEmptySlot := by
    intro t ht
    unfold after addEmptySlot
    split_ifs <;> exact ht
  cases op with
  | addEmptySlot => exact hadd.bind fun _ => Keeps.pure _
  | duplicateSelectedSlot i =>
    refine (hslot i).bind fun slot => hadd.bind fun r => ?_
    cases r with
    | none => exact Keeps.pure _
    | some newSlot => exact Keeps.update fun _ h => h
  | deleteSelectedSlot i => exact (hslot i).bind fun _ => Keeps.update fun _ h => h

/-- **A run stays within the container**, with the numbers in order after each new slot, if and only
if no slot is asked for while the container is full. -/
theorem goodRun_iff (s : ChestSlotsActivity) (h : s.inventory.length ≤ s.getContainerSize)
    (ops : List Op) : Steps exec GoodStep s ops ↔ Steps exec HasRoom s ops := by
  induction ops generalizing s with
  | nil => exact Iff.rfl
  | cons op ops ih =>
    -- either condition carries the bound over to the rest of the run
    have hnext : GoodStep s op → (after (exec op) s).inventory.length ≤
        (after (exec op) s).getContainerSize := by
      intro hgood
      unfold getContainerSize
      rw [container_exec]
      exact hgood.capacity
    constructor
    · rintro ⟨hgood, hrest⟩
      exact ⟨(goodStep_iff h op).mp hgood, (ih _ (hnext hgood)).mp hrest⟩
    · rintro ⟨hroom, hrest⟩
      have hgood := (goodStep_iff h op).mpr hroom
      exact ⟨hgood, (ih _ (hnext hgood)).mpr hrest⟩

/-- A furnace with its three slots. -/
def fullFurnace : ChestSlotsActivity :=
  ⟨.furnace none 0 0, [⟨0, ⟨1, 0, 64, []⟩⟩, ⟨1, ⟨263, 0, 1, []⟩⟩, ⟨2, ⟨265, 0, 1, []⟩⟩], rfl⟩

/-- After a deletion a full furnace takes a copy of another slot. -/
theorem goodRun_furnace :
    Steps exec GoodStep fullFurnace [.deleteSelectedSlot 0, .duplicateSelectedSlot 1] := by
  refine (goodRun_iff fullFurnace (by decide) _).mpr ⟨fun hadds => hadds.elim, fun _ => ?_, trivial⟩
  decide

/-- A full furnace gets a fourth slot, with number 3. -/
theorem not_goodRun_full :
    fullFurnace.inventory.length ≤ fullFurnace.getContainerSize ∧
      ¬ Steps exec GoodStep fullFurnace [.addEmptySlot] := by
  refine ⟨by decide, fun h => ?_⟩
  have hcap := h.1.capacity
  revert hcap
  decide

end ChestSlotsActivity

end WorldToPE
