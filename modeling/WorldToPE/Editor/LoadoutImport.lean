import WorldToPE.Data.Item
import WorldToPE.Lib.JavaInt

/-!
# WorldToPE.Editor.LoadoutImport — importing a loadout into the inventory of the player

`LoadoutImportActivity` combines a saved loadout with the inventory of the player: the slots above the
hotbar are renumbered from 9 on, and each stack of the loadout gets a new slot, one above the highest
slot in use.  The slots of the hotbar count in both, in the highest slot and in the limit of 45.

* `compactSlots_spec`: the numbers after the renumbering.
* `addStacks_spec`: the slots that the loop over the loadout appends.
* `combine_legal_iff`: the inventories and loadouts whose combination is a legal inventory.
-/

namespace WorldToPE.LoadoutImportActivity

open Java NBTConverter

/-! ## The activity -/

/-- The loop of `compactSlots`, with `a` the next number. -/
def compactFrom : Int32 → List InventorySlot → List InventorySlot
  | _, [] => []
  | a, s :: slots =>
    if widen s.slot ≥ 9 then { s with slot := narrow a } :: compactFrom (a + 1) slots
    else s :: compactFrom a slots

def compactSlots (slots : List InventorySlot) : List InventorySlot := compactFrom 9 slots

/-- The loop of `addStack`: the highest slot in use, at least 0. -/
def newId (slots : List InventorySlot) : UInt8 :=
  slots.foldl (fun newId s => if widen s.slot > widen newId then s.slot else newId) 0

/-- `addStack`, with `none` for `false`. -/
def addStack (slots : List InventorySlot) (stack : ItemStack) : Option (List InventorySlot) :=
  if slots.length ≥ 45 then none
  else some (slots ++ [⟨narrow (widen (newId slots) + 1), stack⟩])

/-- The loop of `playerLoadoutLoadedCallback`, and whether the toast was shown. -/
def addStacks : List InventorySlot → List InventorySlot → List InventorySlot × Bool
  | currentSlots, [] => (currentSlots, false)
  | currentSlots, s :: slots =>
    if widen s.slot ≥ 9 then
      match addStack currentSlots s.contents with
      | some currentSlots => addStacks currentSlots slots
      | none => (currentSlots, true)
    else addStacks currentSlots slots

/-- The import modes of the dialog: `0` replaces the inventory, `1` combines it with the loadout. -/
def playerLoadoutLoadedCallback (selectedImportMode : Int32) (inventory slots : List InventorySlot) :
    List InventorySlot × Bool :=
  if selectedImportMode = 0 then (slots, false)
  else if selectedImportMode = 1 then addStacks (compactSlots inventory) slots
  else (inventory, false)

/-! ## Slot numbers -/

/-- The number of a slot: a signed byte. -/
def number (s : InventorySlot) : ℤ := (widen s.slot).toInt

/-- The slots of the hotbar. -/
def hotbar (slots : List InventorySlot) : List InventorySlot := slots.filter fun s => number s < 9

/-- The slots above the hotbar. -/
def stored (slots : List InventorySlot) : List InventorySlot := slots.filter fun s => 9 ≤ number s

/-- The numbers from `a` on. -/
def numbersFrom (a n : ℕ) : List ℤ := (List.range' a n).map Nat.cast

@[simp] theorem numbersFrom_zero (a : ℕ) : numbersFrom a 0 = [] := rfl

theorem numbersFrom_succ (a n : ℕ) : numbersFrom a (n + 1) = (a : ℤ) :: numbersFrom (a + 1) n := rfl

theorem numbersFrom_add (a m n : ℕ) :
    numbersFrom a (m + n) = numbersFrom a m ++ numbersFrom (a + m) n := by
  simp [numbersFrom, ← List.range'_append_1]

theorem mem_numbersFrom {a n : ℕ} {x : ℤ} : x ∈ numbersFrom a n ↔ (a : ℤ) ≤ x ∧ x < a + n := by
  simp only [numbersFrom, List.mem_map, List.mem_range'_1]
  constructor
  · rintro ⟨k, hk, rfl⟩
    omega
  · intro h
    exact ⟨x.toNat, by omega, by omega⟩

theorem nodup_numbersFrom (a n : ℕ) : (numbersFrom a n).Nodup := by
  have h : (List.range' a n).Nodup := List.nodup_range'
  exact h.map Nat.cast_injective

/-- The number that is written for `n`. -/
theorem number_narrow {n : ℕ} (hn : n < 128) (stack : ItemStack) :
    number ⟨narrow (Int32.ofNat n), stack⟩ = n := by
  have h := toNat_narrow (Int32.ofNat n)
  rw [Int32.toInt_ofNat_of_lt (by omega)] at h
  show (widen (narrow (Int32.ofNat n))).toInt = n
  rw [toInt_widen]
  split <;> omega

theorem widen_ge_nine {s : InventorySlot} : widen s.slot ≥ 9 ↔ 9 ≤ number s := by
  rw [ge_iff_le, Int32.le_iff_toInt_le]
  rfl

theorem mem_hotbar {s : InventorySlot} {slots : List InventorySlot} :
    s ∈ hotbar slots ↔ s ∈ slots ∧ number s < 9 := by simp [hotbar]

theorem mem_stored {s : InventorySlot} {slots : List InventorySlot} :
    s ∈ stored slots ↔ s ∈ slots ∧ 9 ≤ number s := by simp [stored]

@[simp] theorem hotbar_append (l l' : List InventorySlot) : hotbar (l ++ l') = hotbar l ++ hotbar l' :=
  List.filter_append ..

@[simp] theorem stored_append (l l' : List InventorySlot) : stored (l ++ l') = stored l ++ stored l' :=
  List.filter_append ..

theorem hotbar_cons (s : InventorySlot) (slots : List InventorySlot) :
    hotbar (s :: slots) = if 9 ≤ number s then hotbar slots else s :: hotbar slots := by
  by_cases h : 9 ≤ number s
  · simp [hotbar, h]
  · simp [hotbar, h, lt_of_not_ge h]

theorem stored_cons (s : InventorySlot) (slots : List InventorySlot) :
    stored (s :: slots) = if 9 ≤ number s then s :: stored slots else stored slots := by
  by_cases h : 9 ≤ number s <;> simp [stored, h]

theorem hotbar_perm (slots : List InventorySlot) : (hotbar slots ++ stored slots).Perm slots := by
  have h := List.filter_append_perm (fun s => decide (number s < 9)) slots
  have hnot : (fun s => !decide (number s < 9)) = fun s => decide (9 ≤ number s) := by
    funext s
    rw [← decide_not, decide_eq_decide, not_lt]
  rw [hnot] at h
  exact h

theorem length_hotbar_add (slots : List InventorySlot) :
    (hotbar slots).length + (stored slots).length = slots.length := by
  rw [← List.length_append]
  exact (hotbar_perm slots).length_eq

/-- Different numbers below a bound are no more than there is room for. -/
theorem length_le_of_nodup {l : List ℤ} (hl : l.Nodup) {a n : ℕ}
    (h : ∀ x ∈ l, (a : ℤ) ≤ x ∧ x < a + n) : l.length ≤ n := by
  have hsub : l ⊆ numbersFrom a n := fun x hx => mem_numbersFrom.mpr (h x hx)
  have hlen := (hl.subperm hsub).length_le
  simpa [numbersFrom] using hlen

/-! ## Renumbering -/

theorem ofNat_add_one (n : ℕ) : Int32.ofNat n + 1 = Int32.ofNat (n + 1) := (Int32.ofNat_add n 1).symm

/-- `compactSlots` changes numbers only. -/
theorem contents_compactFrom (a : Int32) (slots : List InventorySlot) :
    (compactFrom a slots).map (·.contents) = slots.map (·.contents) := by
  induction slots generalizing a with
  | nil => rfl
  | cons s slots ih =>
    rw [compactFrom]
    split <;> simp [ih]

section Compact

variable {slots : List InventorySlot}

/-- The slots of the hotbar are kept. -/
theorem hotbar_compactFrom {a : ℕ} (ha : 9 ≤ a) (h : a + (stored slots).length ≤ 128) :
    hotbar (compactFrom (Int32.ofNat a) slots) = hotbar slots := by
  induction slots generalizing a with
  | nil => rfl
  | cons s slots ih =>
    rw [stored_cons] at h
    rw [compactFrom, hotbar_cons s]
    by_cases h9 : 9 ≤ number s
    · rw [if_pos h9, List.length_cons] at h
      have hnum : 9 ≤ number ⟨narrow (Int32.ofNat a), s.contents⟩ := by
        rw [number_narrow (by omega)]
        omega
      rw [if_pos (widen_ge_nine.mpr h9), hotbar_cons, if_pos hnum, if_pos h9, ofNat_add_one]
      exact ih (by omega) (by omega)
    · rw [if_neg h9] at h
      rw [if_neg (mt widen_ge_nine.mp h9), hotbar_cons, if_neg h9, if_neg h9, ih ha h]

/-- The other slots get consecutive numbers. -/
theorem stored_compactFrom {a : ℕ} (ha : 9 ≤ a) (h : a + (stored slots).length ≤ 128) :
    (stored (compactFrom (Int32.ofNat a) slots)).map number = numbersFrom a (stored slots).length := by
  induction slots generalizing a with
  | nil => rfl
  | cons s slots ih =>
    rw [stored_cons] at h ⊢
    rw [compactFrom]
    by_cases h9 : 9 ≤ number s
    · rw [if_pos h9, List.length_cons] at h
      have ha' : number ⟨narrow (Int32.ofNat a), s.contents⟩ = a := number_narrow (by omega) _
      rw [if_pos (widen_ge_nine.mpr h9), stored_cons, if_pos (by rw [ha']; omega), if_pos h9,
        List.map_cons, List.length_cons, numbersFrom_succ, ha', ofNat_add_one,
        ih (by omega) (by omega)]
    · rw [if_neg h9] at h
      rw [if_neg (mt widen_ge_nine.mp h9), stored_cons, if_neg h9, if_neg h9, ih ha h]

/-- **The numbers after `compactSlots`**: the hotbar is kept, the other slots have the numbers from 9 on. -/
theorem compactSlots_spec (h : (stored slots).length ≤ 36) :
    hotbar (compactSlots slots) = hotbar slots ∧
      (stored (compactSlots slots)).map number = numbersFrom 9 (stored slots).length :=
  ⟨@hotbar_compactFrom slots 9 le_rfl (by omega), @stored_compactFrom slots 9 le_rfl (by omega)⟩

end Compact

/-! ## The highest slot in use -/

/-- The number of `newId`. -/
def top (slots : List InventorySlot) : ℤ := (widen (newId slots)).toInt

theorem top_concat (slots : List InventorySlot) (s : InventorySlot) :
    top (slots ++ [s]) = max (top slots) (number s) := by
  have hstep : newId (slots ++ [s]) = if widen s.slot > widen (newId slots) then s.slot else newId slots := by
    simp [newId]
  unfold top number
  rw [hstep]
  by_cases h : widen s.slot > widen (newId slots)
  · rw [if_pos h, max_eq_right (Int32.lt_iff_toInt_lt.mp h).le]
  · rw [if_neg h, max_eq_left (not_lt.mp (mt Int32.lt_iff_toInt_lt.mpr h))]

theorem top_nonneg (slots : List InventorySlot) : 0 ≤ top slots := by
  induction slots using List.reverseRecOn with
  | nil => decide
  | append_singleton slots s ih =>
    rw [top_concat]
    exact ih.trans (le_max_left _ _)

theorem number_le_top {slots : List InventorySlot} {s : InventorySlot} (hs : s ∈ slots) :
    number s ≤ top slots := by
  induction slots using List.reverseRecOn with
  | nil => simp at hs
  | append_singleton slots t ih =>
    rw [top_concat]
    rcases List.mem_append.mp hs with h | h
    · exact (ih h).trans (le_max_left _ _)
    · rw [List.mem_singleton.mp h]
      exact le_max_right _ _

theorem top_le {slots : List InventorySlot} {n : ℤ} (hn : 0 ≤ n) (h : ∀ s ∈ slots, number s ≤ n) :
    top slots ≤ n := by
  induction slots using List.reverseRecOn with
  | nil => exact hn
  | append_singleton slots s ih =>
    rw [top_concat]
    refine max_le (ih fun t ht => h t (List.mem_append_left _ ht)) (h s ?_)
    exact List.mem_append_right _ (List.mem_singleton_self s)

/-! ## Adding stacks -/

/-- The stacks of a loadout that are imported. -/
def importable (slots : List InventorySlot) : List ItemStack := (stored slots).map (·.contents)

/-- Slots with consecutive numbers. -/
def numbered : ℕ → List ItemStack → List InventorySlot
  | _, [] => []
  | n, stack :: items => ⟨narrow (Int32.ofNat n), stack⟩ :: numbered (n + 1) items

theorem contents_numbered (n : ℕ) (items : List ItemStack) :
    (numbered n items).map (·.contents) = items := by
  induction items generalizing n with
  | nil => rfl
  | cons stack items ih => simp [numbered, ih]

theorem number_numbered {n : ℕ} {items : List ItemStack} (h : n + items.length ≤ 128) :
    (numbered n items).map number = numbersFrom n items.length := by
  induction items generalizing n with
  | nil => rfl
  | cons stack items ih =>
    rw [List.length_cons] at h
    rw [numbered, List.map_cons, number_narrow (by omega), ih (by omega), List.length_cons,
      numbersFrom_succ]

theorem addStack_eq {slots : List InventorySlot} {t : ℕ} (ht : top slots = t)
    (hlen : slots.length < 45) (stack : ItemStack) :
    addStack slots stack = some (slots ++ [⟨narrow (Int32.ofNat (t + 1)), stack⟩]) := by
  have hid : widen (newId slots) = Int32.ofNat t := by
    have hbyte : top slots < 128 := by
      unfold top
      have := (newId slots).toNat_lt
      rw [toInt_widen]
      split <;> omega
    apply Int32.toInt_inj.mp
    rw [Int32.toInt_ofNat_of_lt (by omega)]
    exact ht
  unfold addStack
  rw [if_neg (by omega), hid, ofNat_add_one]

/-- **Run lemma** of the loop over the loadout: the stacks get consecutive numbers above the highest slot
in use, as long as there are fewer than 45 slots. -/
theorem addStacks_spec {slots currentSlots : List InventorySlot} {t : ℕ} (ht : top currentSlots = t)
    (h : t + (45 - currentSlots.length) < 128) :
    addStacks currentSlots slots =
      (currentSlots ++ numbered (t + 1) ((importable slots).take (45 - currentSlots.length)),
        decide (45 - currentSlots.length < (importable slots).length)) := by
  induction slots generalizing currentSlots t with
  | nil => simp [addStacks, importable, stored, numbered]
  | cons s slots ih =>
    rw [addStacks]
    unfold importable at ih ⊢
    rw [stored_cons]
    by_cases h9 : 9 ≤ number s
    · rw [if_pos (widen_ge_nine.mpr h9), if_pos h9, List.map_cons]
      by_cases hlen : currentSlots.length < 45
      · have hroom : 45 - currentSlots.length = (45 - (currentSlots.length + 1)) + 1 := by omega
        have htop : top (currentSlots ++ [⟨narrow (Int32.ofNat (t + 1)), s.contents⟩]) = (t + 1 : ℕ) := by
          rw [top_concat, number_narrow (by omega), ht]
          exact max_eq_right (by omega)
        rw [addStack_eq ht hlen]
        dsimp only
        rw [ih htop (by rw [List.length_append, List.length_singleton]; omega)]
        rw [List.length_append, List.length_singleton, hroom, List.take_succ_cons, numbered,
          List.append_assoc, List.singleton_append, List.length_cons]
        simp only [Nat.add_lt_add_iff_right]
      · have hfull : addStack currentSlots s.contents = none := if_pos (by omega)
        rw [hfull, Nat.sub_eq_zero_of_le (by omega)]
        simp [numbered]
    · rw [if_neg (mt widen_ge_nine.mp h9), if_neg h9]
      exact ih ht h

theorem stored_numbered {n : ℕ} (hn : 9 ≤ n) {items : List ItemStack} (h : n + items.length ≤ 128) :
    stored (numbered n items) = numbered n items ∧ hotbar (numbered n items) = [] := by
  have hnum : ∀ s ∈ numbered n items, 9 ≤ number s := by
    intro s hs
    have hs' := List.mem_map_of_mem (f := number) hs
    rw [number_numbered h, mem_numbersFrom] at hs'
    omega
  constructor
  · exact List.filter_eq_self.mpr fun s hs => decide_eq_true (hnum s hs)
  · refine List.filter_eq_nil_iff.mpr fun s hs => ?_
    simpa using hnum s hs

/-! ## Legal inventories -/

/-- What combining `loadout` with the inventory `player` should give: different numbers, the stacks of
the player in their places, the other stacks from the loadout in order, everything above the hotbar in
the 36 slots of the inventory, and a stack left out only when these are full. -/
structure Legal (player loadout inventory : List InventorySlot) : Prop where
  distinct : (inventory.map number).Nodup
  previous : List.Forall₂ (fun s s' => s'.contents = s.contents ∧
    (9 ≤ number s → number s' ∈ Set.Icc 9 44)) player (inventory.take player.length)
  added : ∀ s ∈ inventory.drop player.length, number s ∈ Set.Icc 9 44
  imported : (inventory.drop player.length).map (·.contents) <+: importable loadout
  cut : (inventory.drop player.length).map (·.contents) ≠ importable loadout →
    ∀ n ∈ Set.Icc 9 44, n ∈ inventory.map number

theorem forall₂_compactFrom {slots : List InventorySlot} {a : ℕ} (ha : 9 ≤ a)
    (h : a + (stored slots).length ≤ 45) :
    List.Forall₂ (fun s s' => s'.contents = s.contents ∧ (9 ≤ number s → number s' ∈ Set.Icc 9 44))
      slots (compactFrom (Int32.ofNat a) slots) := by
  induction slots generalizing a with
  | nil => exact List.Forall₂.nil
  | cons s slots ih =>
    rw [stored_cons] at h
    rw [compactFrom]
    by_cases h9 : 9 ≤ number s
    · rw [if_pos h9, List.length_cons] at h
      rw [if_pos (widen_ge_nine.mpr h9), ofNat_add_one]
      refine List.Forall₂.cons ⟨rfl, fun _ => ?_⟩ (ih (by omega) (by omega))
      rw [number_narrow (by omega), Set.mem_Icc]
      omega
    · rw [if_neg h9] at h
      rw [if_neg (mt widen_ge_nine.mp h9)]
      exact List.Forall₂.cons ⟨rfl, fun h => absurd h h9⟩ (ih ha h)

section Combine

variable {player loadout : List InventorySlot} (hdistinct : (player.map number).Nodup)
  (hrange : ∀ s ∈ player, number s ∈ Set.Icc 0 44)

theorem length_compactSlots : (compactSlots player).length = player.length := by
  have h := congrArg List.length (contents_compactFrom 9 player)
  rwa [List.length_map, List.length_map] at h

include hdistinct hrange

theorem length_hotbar_le : (hotbar player).length ≤ 9 := by
  have hnodup : ((hotbar player).map number).Nodup := hdistinct.sublist (List.filter_sublist.map _)
  have hlen := @length_le_of_nodup _ hnodup 0 9 fun x hx => by
    obtain ⟨s, hs, rfl⟩ := List.mem_map.mp hx
    obtain ⟨hs, h9⟩ := mem_hotbar.mp hs
    have h0 := (hrange s hs).1
    omega
  rwa [List.length_map] at hlen

theorem length_stored_le : (stored player).length ≤ 36 := by
  have hnodup : ((stored player).map number).Nodup := hdistinct.sublist (List.filter_sublist.map _)
  have hlen := @length_le_of_nodup _ hnodup 9 36 fun x hx => by
    obtain ⟨s, hs, rfl⟩ := List.mem_map.mp hx
    obtain ⟨hs, h9⟩ := mem_stored.mp hs
    have h44 := (hrange s hs).2
    omega
  rwa [List.length_map] at hlen

/-- The highest slot after the renumbering. -/
theorem number_compactSlots_le {s : InventorySlot} (hs : s ∈ compactSlots player) :
    number s ≤ 8 + (stored player).length := by
  obtain ⟨-, hstored⟩ := compactSlots_spec (length_stored_le hdistinct hrange)
  by_cases h9 : 9 ≤ number s
  · have hmem := List.mem_map_of_mem (f := number) (mem_stored.mpr ⟨hs, h9⟩)
    rw [hstored, mem_numbersFrom] at hmem
    omega
  · omega

/-- If a slot from the end of the hotbar on is in use, the highest slot is that of the last stack above
the hotbar. -/
theorem top_of_high (h : ∃ s ∈ player, 8 ≤ number s) :
    top (compactSlots player) = (8 + (stored player).length : ℕ) := by
  obtain ⟨hhotbar, hstored⟩ := compactSlots_spec (length_stored_le hdistinct hrange)
  refine le_antisymm (top_le (by omega) fun s hs => ?_) ?_
  · have := number_compactSlots_le hdistinct hrange hs
    omega
  · obtain ⟨s, hs, h8⟩ := h
    obtain hnil | hne := Nat.eq_zero_or_pos (stored player).length
    · -- only the hotbar is in use, so the slot is its last one
      have h9 : number s < 9 := by
        by_contra h9
        have := List.length_pos_of_mem (mem_stored.mpr ⟨hs, not_lt.mp h9⟩)
        omega
      have hs' := mem_hotbar.mpr ⟨hs, h9⟩
      rw [← hhotbar] at hs'
      have := number_le_top (mem_hotbar.mp hs').1
      omega
    · have hlast : ((8 + (stored player).length : ℕ) : ℤ) ∈ (stored (compactSlots player)).map number := by
        rw [hstored, mem_numbersFrom]
        omega
      obtain ⟨t, ht, hnum⟩ := List.mem_map.mp hlast
      rw [← hnum]
      exact number_le_top (mem_stored.mp ht).1

theorem top_of_low (h : ¬∃ s ∈ player, 8 ≤ number s) :
    top (compactSlots player) ≤ 7 ∧ stored player = [] := by
  have hnil : stored player = [] := by
    refine List.filter_eq_nil_iff.mpr fun s hs h9 => h ⟨s, hs, ?_⟩
    have := of_decide_eq_true h9
    omega
  obtain ⟨hhotbar, hstored⟩ := compactSlots_spec (length_stored_le hdistinct hrange)
  refine ⟨top_le (by norm_num) fun s hs => ?_, hnil⟩
  have h9 := number_compactSlots_le hdistinct hrange hs
  rw [hnil, List.length_nil] at h9
  have hs' := mem_hotbar.mpr ⟨hs, show number s < 9 by omega⟩
  rw [hhotbar] at hs'
  by_contra h7
  exact h ⟨s, (mem_hotbar.mp hs').1, by omega⟩

/-- The combined inventory. -/
theorem playerLoadoutLoadedCallback_combine : ∃ t : ℕ, top (compactSlots player) = t ∧ t ≤ 44 ∧
    (playerLoadoutLoadedCallback 1 player loadout).1 =
      compactSlots player ++ numbered (t + 1) ((importable loadout).take (45 - player.length)) := by
  obtain ⟨t, ht⟩ := Int.eq_ofNat_of_zero_le (top_nonneg (compactSlots player))
  have h36 := length_stored_le hdistinct hrange
  have h44 : top (compactSlots player) ≤ 44 := by
    refine top_le (by norm_num) fun s hs => ?_
    have := number_compactSlots_le hdistinct hrange hs
    omega
  have hadd := @addStacks_spec loadout (compactSlots player) t ht (by omega)
  rw [length_compactSlots] at hadd
  refine ⟨t, ht, by omega, ?_⟩
  show (addStacks (compactSlots player) loadout).1 = _
  rw [hadd]

/-- Stacks that continue the numbers of the inventory and fit in it give a legal inventory. -/
theorem legal_append {items : List ItemStack} (hitems : items <+: importable loadout)
    (hlen : (stored player).length + items.length ≤ 36)
    (hcut : items ≠ importable loadout → (stored player).length + items.length = 36) :
    Legal player loadout
      (compactSlots player ++ numbered (9 + (stored player).length) items) := by
  obtain ⟨hhotbar, hstored⟩ := compactSlots_spec (length_stored_le hdistinct hrange)
  have hfit : 9 + (stored player).length + items.length ≤ 128 := by omega
  obtain ⟨hnew, hnone⟩ := stored_numbered (by omega) hfit
  have htake : (compactSlots player ++ numbered (9 + (stored player).length) items).take player.length =
      compactSlots player := List.take_left' length_compactSlots
  have hdrop : (compactSlots player ++ numbered (9 + (stored player).length) items).drop player.length =
      numbered (9 + (stored player).length) items := List.drop_left' length_compactSlots
  have hall : (stored (compactSlots player ++ numbered (9 + (stored player).length) items)).map number =
      numbersFrom 9 ((stored player).length + items.length) := by
    rw [stored_append, hnew, List.map_append, hstored, number_numbered hfit, numbersFrom_add]
  refine ⟨?_, ?_, ?_, ?_, ?_⟩
  · -- the hotbar as before, everything else consecutive
    rw [← ((hotbar_perm _).map number).nodup_iff, List.map_append, hall, hotbar_append, hnone,
      List.append_nil, hhotbar]
    refine List.Nodup.append (hdistinct.sublist (List.filter_sublist.map _)) (nodup_numbersFrom _ _) ?_
    intro x hx hx'
    obtain ⟨s, hs, rfl⟩ := List.mem_map.mp hx
    have h9 := (mem_hotbar.mp hs).2
    have h9' := (mem_numbersFrom.mp hx').1
    omega
  · rw [htake]
    exact @forall₂_compactFrom player 9 le_rfl (by omega)
  · intro s hs
    rw [hdrop] at hs
    have hs' := List.mem_map_of_mem (f := number) hs
    rw [number_numbered hfit, mem_numbersFrom] at hs'
    rw [Set.mem_Icc]
    omega
  · rw [hdrop, contents_numbered]
    exact hitems
  · rw [hdrop, contents_numbered]
    intro hne n hn
    have hn' : n ∈ numbersFrom 9 ((stored player).length + items.length) := by
      rw [hcut hne, mem_numbersFrom]
      exact ⟨hn.1, by have := hn.2; omega⟩
    rw [← hall] at hn'
    exact List.map_subset _ (List.filter_subset_self _) hn'

/-- Stacks that were added to a legal inventory had room: the highest slot was that of the last stack
above the hotbar. -/
theorem room_of_legal {t : ℕ} {items : List ItemStack} (ht : top (compactSlots player) = t)
    (hsome : 0 < items.length) (hfit : t + 1 + items.length ≤ 128)
    (hlegal : Legal player loadout (compactSlots player ++ numbered (t + 1) items)) :
    (∃ s ∈ player, 8 ≤ number s) ∧ (stored player).length + items.length ≤ 36 := by
  have hadded : ∀ x ∈ numbersFrom (t + 1) items.length, x ∈ Set.Icc 9 44 := by
    intro x hx
    rw [← number_numbered hfit] at hx
    obtain ⟨s, hs, rfl⟩ := List.mem_map.mp hx
    refine hlegal.added s ?_
    rw [List.drop_left' length_compactSlots]
    exact hs
  have hfirst : 9 ≤ (t : ℤ) + 1 := (hadded _ (mem_numbersFrom.mpr (by omega))).1
  have hlast : (t : ℤ) + items.length ≤ 44 := (hadded _ (mem_numbersFrom.mpr (by omega))).2
  by_cases hhigh : ∃ s ∈ player, 8 ≤ number s
  · have htop := top_of_high hdistinct hrange hhigh
    exact ⟨hhigh, by omega⟩
  · obtain ⟨hlow, -⟩ := top_of_low hdistinct hrange hhigh
    omega

end Combine

/-- **Combining a loadout** gives a legal inventory if and only if nothing is imported, or a slot from the
last one of the hotbar on is in use and either the whole hotbar is in use or the stacks above it and
the imported ones fit in the inventory together. -/
theorem combine_legal_iff (player loadout : List InventorySlot) (hdistinct : (player.map number).Nodup)
    (hrange : ∀ s ∈ player, number s ∈ Set.Icc 0 44) :
    Legal player loadout (playerLoadoutLoadedCallback 1 player loadout).1 ↔
      importable loadout = [] ∨ ((∃ s ∈ player, 8 ≤ number s) ∧
        ((hotbar player).length = 9 ∨
          (stored player).length + (importable loadout).length ≤ 36)) := by
  have h9 := length_hotbar_le hdistinct hrange
  have h36 := length_stored_le hdistinct hrange
  have hsize := length_hotbar_add player
  obtain ⟨t, ht, ht44, hrun⟩ := @playerLoadoutLoadedCallback_combine player loadout hdistinct hrange
  have hlen : ((importable loadout).take (45 - player.length)).length =
      min (45 - player.length) (importable loadout).length := List.length_take
  rw [hrun]
  constructor
  · intro hlegal
    obtain hnone | hsome := Nat.eq_zero_or_pos (importable loadout).length
    · exact Or.inl (List.length_eq_zero_iff.mp hnone)
    right
    obtain hfull | hroom := Nat.eq_zero_or_pos (45 - player.length)
    · -- all 45 slots are in use
      obtain ⟨s, hs⟩ := List.exists_mem_of_length_pos (show 0 < (stored player).length by omega)
      obtain ⟨hs, hs9⟩ := mem_stored.mp hs
      exact ⟨⟨s, hs, by omega⟩, Or.inl (by omega)⟩
    · obtain ⟨hhigh, hfit⟩ := room_of_legal hdistinct hrange ht (by omega) (by omega) hlegal
      exact ⟨hhigh, by omega⟩
  · rintro (hnone | ⟨hhigh, hfit⟩)
    · have hnil : numbered (t + 1) [] = numbered (9 + (stored player).length) [] := rfl
      rw [hnone, List.take_nil, hnil]
      refine legal_append hdistinct hrange List.nil_prefix ?_ ?_
      · simpa using h36
      · intro hne
        exact absurd hnone.symm hne
    · have htop := top_of_high hdistinct hrange hhigh
      have ht' : t + 1 = 9 + (stored player).length := by omega
      rw [ht']
      refine legal_append hdistinct hrange (List.take_prefix _ _) (by omega) fun hne => ?_
      by_contra hcut
      exact hne (List.take_of_length_le (by omega))

/-- Torches in the hotbar, planks and stone above it, and a loadout of coal and stone. -/
theorem combine_legal_torches :
    Legal [⟨0, 50, 0, 5, []⟩, ⟨20, 5, 0, 64, []⟩, ⟨13, 1, 0, 64, []⟩]
      [⟨2, 50, 0, 1, []⟩, ⟨9, 263, 0, 8, []⟩, ⟨44, 1, 0, 64, []⟩]
      (playerLoadoutLoadedCallback 1 [⟨0, 50, 0, 5, []⟩, ⟨20, 5, 0, 64, []⟩, ⟨13, 1, 0, 64, []⟩]
        [⟨2, 50, 0, 1, []⟩, ⟨9, 263, 0, 8, []⟩, ⟨44, 1, 0, 64, []⟩]).1 :=
  (combine_legal_iff [⟨0, 50, 0, 5, []⟩, ⟨20, 5, 0, 64, []⟩, ⟨13, 1, 0, 64, []⟩]
    [⟨2, 50, 0, 1, []⟩, ⟨9, 263, 0, 8, []⟩, ⟨44, 1, 0, 64, []⟩] (by decide) (by decide)).mpr
    (Or.inr ⟨by decide, Or.inr (by decide)⟩)

/-- The first stack that is combined with an empty inventory gets slot 1, which is in the hotbar. -/
theorem not_combine_legal_empty :
    ¬Legal [] [⟨9, 1, 0, 64, []⟩] (playerLoadoutLoadedCallback 1 [] [⟨9, 1, 0, 64, []⟩]).1 := by
  intro h
  have hadded : 9 ≤ number ⟨1, 1, 0, 64, []⟩ := (h.added _ List.mem_cons_self).1
  exact absurd hadded (by decide)

end WorldToPE.LoadoutImportActivity
