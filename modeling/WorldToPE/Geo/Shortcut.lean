import WorldToPE.Geo.ManagerArea
import Mathlib.Data.List.TakeWhile

/-!
# WorldToPE.Geo.Shortcut — worlds whose shortcut has an unloaded chunk

`unloadChunks` empties the map of chunks, but the shortcut still has the last one.  Until another chunk is
asked for, readers and writers work on an object that the map does not have; after that it is gone.

* `InStale`, `shown`: the cells of that chunk, and what readers find, in every state.
* `staleLaws`: on these cells the world is a map of blocks of its own.
* `forget`: for the first access to another chunk the shortcut might as well be empty.
* `Shows`, `SameAt`: what readers of every reached state say, in terms of `shown`.
* `Sound.putAll_shown`: what is set before the chunk is left is lost.
-/

namespace WorldToPE.ChunkManager

open Java Run Chunk

/-! ## The chunk that only the shortcut has -/

/-- The cell lies in a chunk that the shortcut has and the map lost. -/
def InStale (s : ChunkManager) (c : Pos) : Prop := inHeight c.y ∧ s.Detached (keyOf c.x c.z)

instance (s : ChunkManager) (k : Key) : Decidable (s.Detached k) := inferInstanceAs (Decidable (_ ∧ _))

instance (s : ChunkManager) : DecidablePred s.InStale := fun _ => inferInstanceAs (Decidable (_ ∧ _))

/-- An access to the cell asks for a chunk, and not for the lost one. -/
def Leaves (s : ChunkManager) (c : Pos) : Prop := inHeight c.y ∧ ¬ s.InStale c

instance (s : ChunkManager) : DecidablePred s.Leaves := fun _ => inferInstanceAs (Decidable (_ ∧ _))

/-- The block of a chunk at a cell. -/
def blockIn (chunk : Chunk) (c : Pos) : Block :=
  ⟨unsigned (chunk.typeCell (cellOf c.x c.y c.z)), chunk.dataCell (cellOf c.x c.y c.z)⟩

/-- The block that the readers find at a cell. -/
def shown (s : ChunkManager) (c : Pos) : Block :=
  if s.InStale c then
    match s.lastChunk.bind (s.heap[·]?) with
    | some chunk => blockIn chunk c
    | none => s.blocksOf c
  else s.blocksOf c

/-- The manager with an empty shortcut. -/
def forget (s : ChunkManager) : ChunkManager := { s with lastKey := none, lastChunk := none }

theorem inStale_iff {s : ChunkManager} {k : Key} (h : s.Detached k) {c : Pos} :
    s.InStale c ↔ inHeight c.y ∧ keyOf c.x c.z = k := by
  refine and_congr_right fun _ => ⟨fun hd => ?_, ?_⟩
  · exact Option.some.inj (hd.1.symm.trans h.1)
  · rintro rfl
    exact h

theorem not_inStale_of_attached {s : ChunkManager} (h : s.Attached) (c : Pos) : ¬ s.InStale c :=
  fun hc => h _ hc.2

theorem shown_of_not_inStale {s : ChunkManager} {c : Pos} (h : ¬ s.InStale c) : s.shown c = s.blocksOf c :=
  if_neg h

theorem shown_of_attached {s : ChunkManager} (h : s.Attached) : s.shown = s.blocksOf :=
  funext fun c => shown_of_not_inStale (not_inStale_of_attached h c)

theorem shown_of_last {s : ChunkManager} {k : Key} (h : s.Detached k) {r : Ref} {chunk : Chunk}
    (hr : s.lastChunk = some r) (hc : s.heap[r]? = some chunk) (c : Pos) :
    s.shown c = if inHeight c.y ∧ keyOf c.x c.z = k then blockIn chunk c else s.blocksOf c := by
  unfold shown
  rw [hr, Option.bind_some, hc]
  exact if_congr (inStale_iff h) rfl rfl

theorem shown_of_not_inHeight (s : ChunkManager) {c : Pos} (hy : ¬ inHeight c.y) : s.shown c = ⟨0, 0⟩ := by
  rw [shown_of_not_inStale fun hst => hy hst.1, blocksOf, if_neg hy]

/-- A block that the readers show is kept as it is when it is set. -/
theorem stored_shown (s : ChunkManager) (c : Pos) : managerLaws.stored (s.shown c) = s.shown c := by
  unfold shown
  split
  · split
    · exact Block.ext (and_255_unsigned _) (Nibble.half_and_15 _ _)
    · exact stored_blocksOf s c
  · exact stored_blocksOf s c

/-- Two states that differ in nothing a reader or a builder can find out. -/
structure SameView (s t : ChunkManager) : Prop where
  stale : ∀ c, t.InStale c ↔ s.InStale c
  shown : t.shown = s.shown
  blocks : t.blocksOf = s.blocksOf

theorem SameView.refl (s : ChunkManager) : SameView s s := ⟨fun _ => Iff.rfl, rfl, rfl⟩

theorem SameView.leaves {s t : ChunkManager} (h : SameView s t) (c : Pos) : t.Leaves c ↔ s.Leaves c :=
  and_congr_right fun _ => not_congr (h.stale c)

theorem sameView_of_attached {s t : ChunkManager} (hs : s.Attached) (ht : t.Attached)
    (h : t.blocksOf = s.blocksOf) : SameView s t where
  stale c := iff_of_false (not_inStale_of_attached ht c) (not_inStale_of_attached hs c)
  shown := by rw [shown_of_attached hs, shown_of_attached ht, h]
  blocks := h

theorem sameView_of_detached {s t : ChunkManager} {k : Key} (hs : s.Detached k) (ht : t.Detached k)
    (hshown : t.shown = s.shown) (hblocks : t.blocksOf = s.blocksOf) : SameView s t where
  stale _ := (inStale_iff ht).trans (inStale_iff hs).symm
  shown := hshown
  blocks := hblocks

theorem attached_forget (s : ChunkManager) : s.forget.Attached := fun k h => by cases h.1

theorem blocksOf_forget (s : ChunkManager) : s.forget.blocksOf = s.blocksOf := rfl

theorem valid_forget {s : ChunkManager} (h : Sound s) : managerLaws.Valid s.forget :=
  ⟨⟨h.inv.records, h.inv.valid, h.inv.inj, fun k hk => by cases hk⟩, attached_forget s⟩

theorem sound_of_valid {s : ChunkManager} (h : managerLaws.Valid s) : Sound s where
  inv := h.1
  own := by
    intro k r c hk hr hc
    -- an attached shortcut has an object of the map
    obtain ⟨r2, c2, hr2, -, hm | hm⟩ := h.1.last k hk
    · obtain rfl : r = r2 := Option.some.inj (hr.symm.trans hr2)
      obtain ⟨c3, hc3, hx, hz, -⟩ := h.1.valid k r hm
      obtain rfl : c = c3 := Option.some.inj (hc.symm.trans hc3)
      exact ⟨hx, hz⟩
    · exact absurd ⟨hk, hm⟩ (h.2 k)

/-! ## The lost chunk as a map of blocks -/

section Stale

variable {s : ChunkManager} (h : Sound s) {k : Key} (hd : s.Detached k)
include h hd

theorem Sound.last_object : ∃ r chunk, s.lastChunk = some r ∧ s.heap[r]? = some chunk ∧
    ∀ (k' : Key) (r' : Ref), s.chunks[k']? = some r' → r ≠ r' := by
  obtain ⟨r, chunk, hr, hc, -⟩ := h.inv.last k hd.1
  obtain ⟨hx, hz⟩ := h.own k r chunk hd.1 hr hc
  exact ⟨r, chunk, hr, hc, h.ne_of_unmapped hd.2 hx hz hc⟩

/-- Writing to the lost chunk changes it, and no block that the map has. -/
theorem rewritten_stale {r : Ref} {chunk chunk' : Chunk} (hr : s.lastChunk = some r)
    (hc : s.heap[r]? = some chunk) {ty : ℕ → UInt8} {da : ℕ → Int32} (he : Edited chunk chunk' ty da) :
    Sound (s.rewritten r chunk') ∧ (s.rewritten r chunk').Detached k ∧
      (s.rewritten r chunk').blocksOf = s.blocksOf ∧
      ∀ c, (s.rewritten r chunk').shown c =
        if inHeight c.y ∧ keyOf c.x c.z = k then blockIn chunk' c else s.blocksOf c := by
  have hlt : r < s.heap.length := (List.getElem?_eq_some_iff.mp hc).1
  have hd' : (s.rewritten r chunk').Detached k := hd
  have hblocks : (s.rewritten r chunk').blocksOf = s.blocksOf := by
    obtain ⟨r2, -, hr2, -, hne⟩ := h.last_object hd
    obtain rfl : r = r2 := Option.some.inj (hr.symm.trans hr2)
    have hat : ∀ k', (s.rewritten r chunk').chunkAt k' = s.chunkAt k' := by
      intro k'
      show s.chunks[k']?.bind ((s.rewritten r chunk').heap[·]?) = s.chunks[k']?.bind (s.heap[·]?)
      cases hk' : s.chunks[k']? with
      | none => rfl
      | some r' =>
        simp only [Option.bind_some]
        rw [rewritten_heap chunk' hlt, if_neg (hne k' r' hk')]
    funext c
    simp only [blocksOf, typeOf, dataOf, hat]
    rfl
  refine ⟨h.rewritten hd.1 hr hc he, hd', hblocks, fun c => ?_⟩
  have hget : (s.rewritten r chunk').heap[r]? = some chunk' := by
    rw [rewritten_heap chunk' hlt, if_pos rfl]
  rw [shown_of_last hd' hr hget c, hblocks]

theorem getBlockTypeId_stale {c : Pos} (hc : inHeight c.y → keyOf c.x c.z = k) :
    getBlockTypeId c.x c.y c.z s = .ok (s.shown c).type s := by
  by_cases hy : inHeight c.y
  · obtain ⟨r, chunk, hr, hget, -⟩ := h.last_object hd
    have hl : s.lastKey = some (keyOf c.x c.z) := by rw [hc hy, hd.1]
    rw [getBlockTypeId, if_neg (by rw [ge_height_iff, not_not]; exact hy), bind_of_ok (getChunk_hit hl), hr,
      call_ok hget (chunk.getBlockTypeId_spec (inRange_of_inHeight hy c.x c.z)),
      shown_of_last hd hr hget, if_pos ⟨hy, hc hy⟩]
    rfl
  · rw [getBlockTypeId, if_pos (ge_height_iff.mpr hy), shown_of_not_inStale fun hst => hy hst.1, blocksOf,
      if_neg hy]
    rfl

theorem getBlockData_stale {c : Pos} (hc : inHeight c.y → keyOf c.x c.z = k) :
    getBlockData c.x c.y c.z s = .ok (s.shown c).data s := by
  by_cases hy : inHeight c.y
  · obtain ⟨r, chunk, hr, hget, -⟩ := h.last_object hd
    have hl : s.lastKey = some (keyOf c.x c.z) := by rw [hc hy, hd.1]
    rw [getBlockData, if_neg (by rw [ge_height_iff, not_not]; exact hy), bind_of_ok (getChunk_hit hl), hr,
      call_ok hget (chunk.getBlockData_spec (inRange_of_inHeight hy c.x c.z)),
      shown_of_last hd hr hget, if_pos ⟨hy, hc hy⟩]
    rfl
  · rw [getBlockData, if_pos (ge_height_iff.mpr hy), shown_of_not_inStale fun hst => hy hst.1, blocksOf,
      if_neg hy]
    rfl

/-- The same for a method that changes one cell of the chunk. -/
theorem shown_rewritten {r : Ref} {chunk chunk' : Chunk} (hr : s.lastChunk = some r)
    (hget : s.heap[r]? = some chunk) {ty : ℕ → UInt8} {da : ℕ → Int32} (he : Edited chunk chunk' ty da)
    {c : Pos} (hy : inHeight c.y) (hc : keyOf c.x c.z = k)
    (hother : ∀ i, cellOf c.x c.y c.z ≠ i → ty i = chunk.typeCell i ∧ da i = chunk.dataCell i) (c' : Pos) :
    (s.rewritten r chunk').shown c' = if c' = c then blockIn chunk' c else s.shown c' := by
  obtain ⟨-, -, -, hshown⟩ := rewritten_stale h hd hr hget he
  rw [hshown, shown_of_last hd hr hget]
  by_cases hcc : c' = c
  · subst hcc
    rw [if_pos ⟨hy, hc⟩, if_pos rfl]
  · rw [if_neg hcc]
    by_cases hin : inHeight c'.y ∧ keyOf c'.x c'.z = k
    · have hne : cellOf c.x c.y c.z ≠ cellOf c'.x c'.y c'.z := by
        intro hcell
        obtain ⟨h1, h2, h3⟩ := cellOf_inj hy hin.1 (hc.trans hin.2.symm) hcell
        exact hcc (by cases c; cases c'; simp_all)
      obtain ⟨htype, hdata⟩ := hother _ hne
      rw [if_pos hin, if_pos hin, blockIn, he.type, he.data, htype, hdata]
      rfl
    · rw [if_neg hin, if_neg hin]

theorem setBlockTypeId_stale {c : Pos} (hc : inHeight c.y → keyOf c.x c.z = k) (type : Int32) :
    ∃ s', setBlockTypeId c.x c.y c.z type s = .ok () s' ∧
      (Sound s' ∧ s'.Detached k ∧ s'.blocksOf = s.blocksOf) ∧ ∀ c', s'.shown c' =
        if c' = c ∧ inHeight c.y then { s.shown c with type := type &&& 255 } else s.shown c' := by
  by_cases hy : inHeight c.y
  · obtain ⟨r, chunk, hr, hget, -⟩ := h.last_object hd
    have hl : s.lastKey = some (keyOf c.x c.z) := by rw [hc hy, hd.1]
    obtain ⟨chunk', hset, he⟩ := setBlockTypeId_edits hy c.x c.z type chunk
    obtain ⟨hs', hd', hb, -⟩ := rewritten_stale h hd hr hget he
    refine ⟨s.rewritten r chunk', ?_, ⟨hs', hd', hb⟩, fun c' => ?_⟩
    · rw [setBlockTypeId, if_pos (lt_height_iff.mpr hy), bind_of_ok (getChunk_hit hl), hr,
        update_ok hget hset]
      rfl
    · have hat : s.shown c = blockIn chunk c := by
        rw [shown_of_last hd hr hget c, if_pos ⟨hy, hc hy⟩]
      rw [shown_rewritten h hd hr hget he hy (hc hy) (fun i hi => by simp [hi]) c', hat]
      refine if_congr (and_iff_left hy).symm ?_ rfl
      simp [blockIn, he.type, he.data, unsigned_narrow]
  · refine ⟨s, ?_, ⟨h, hd, rfl⟩, fun c' => (if_neg fun h => hy h.2).symm⟩
    rw [setBlockTypeId, if_neg fun h => hy (lt_height_iff.mp h)]
    rfl

theorem setBlockData_stale {c : Pos} (hc : inHeight c.y → keyOf c.x c.z = k) (data : Int32) :
    ∃ s', setBlockData c.x c.y c.z data s = .ok () s' ∧
      (Sound s' ∧ s'.Detached k ∧ s'.blocksOf = s.blocksOf) ∧ ∀ c', s'.shown c' =
        if c' = c ∧ inHeight c.y then { s.shown c with data := data &&& 15 } else s.shown c' := by
  by_cases hy : inHeight c.y
  · obtain ⟨r, chunk, hr, hget, -⟩ := h.last_object hd
    have hl : s.lastKey = some (keyOf c.x c.z) := by rw [hc hy, hd.1]
    obtain ⟨chunk', hset, he⟩ := setBlockData_edits hy c.x c.z data chunk
    obtain ⟨hs', hd', hb, -⟩ := rewritten_stale h hd hr hget he
    refine ⟨s.rewritten r chunk', ?_, ⟨hs', hd', hb⟩, fun c' => ?_⟩
    · rw [setBlockData, if_pos (lt_height_iff.mpr hy), bind_of_ok (getChunk_hit hl), hr,
        update_ok hget hset]
      rfl
    · have hat : s.shown c = blockIn chunk c := by
        rw [shown_of_last hd hr hget c, if_pos ⟨hy, hc hy⟩]
      rw [shown_rewritten h hd hr hget he hy (hc hy) (fun i hi => by simp [hi]) c', hat]
      refine if_congr (and_iff_left hy).symm ?_ rfl
      simp [blockIn, he.type, he.data]
  · refine ⟨s, ?_, ⟨h, hd, rfl⟩, fun c' => (if_neg fun h => hy h.2).symm⟩
    rw [setBlockData, if_neg fun h => hy (lt_height_iff.mp h)]
    rfl

end Stale

/-- **A detached manager is a map of blocks** on the cells of the lost chunk; the blocks of the map, `B`, stay
as they are. -/
def staleLaws (k : Key) (B : Pos → Block) : AreaLaws managerArea where
  Valid s := Sound s ∧ s.Detached k ∧ s.blocksOf = B
  blocks := shown
  InArea c := inHeight c.y → keyOf c.x c.z = k
  Kept c := inHeight c.y
  keptType type := type &&& 255
  keptData data := data &&& 15
  getBlockTypeId hs _ hc := ⟨_, getBlockTypeId_stale hs.1 hs.2.1 hc, hs, rfl⟩
  getBlockData hs _ hc := ⟨_, getBlockData_stale hs.1 hs.2.1 hc, hs, rfl⟩
  setBlockTypeId hs c hc type := by
    obtain ⟨s', h, ⟨hs', hd', hb⟩, hshown⟩ := setBlockTypeId_stale hs.1 hs.2.1 hc type
    exact ⟨s', h, ⟨hs', hd', hb.trans hs.2.2⟩, hshown⟩
  setBlockData hs c hc data := by
    obtain ⟨s', h, ⟨hs', hd', hb⟩, hshown⟩ := setBlockData_stale hs.1 hs.2.1 hc data
    exact ⟨s', h, ⟨hs', hd', hb.trans hs.2.2⟩, hshown⟩

/-! ## Leaving the lost chunk -/

theorem lastKey_of_leaves {s : ChunkManager} {k : Key} (hd : s.Detached k) {c : Pos} (hc : s.Leaves c) :
    s.lastKey ≠ some ⟨c.x >>> 4, c.z >>> 4⟩ := by
  intro hl
  rw [hd.1] at hl
  exact hc.2 ((inStale_iff hd).mpr ⟨hc.1, (Option.some.inj hl).symm⟩)

/-- Which cells are left for does not change while the chunk is there. -/
theorem Leaves.of_detached {s t : ChunkManager} {k : Key} (hs : s.Detached k) (ht : t.Detached k) {c : Pos}
    (h : s.Leaves c) : t.Leaves c :=
  ⟨h.1, fun hst => h.2 ((inStale_iff hs).mpr ((inStale_iff ht).mp hst))⟩

section Leaving

variable {s : ChunkManager} (h : Sound s)
include h

theorem Sound.valid_or_detached : managerLaws.Valid s ∨ ∃ k, s.Detached k := by
  by_cases hd : ∃ k, s.Detached k
  · exact Or.inr hd
  · exact Or.inl ⟨h.inv, fun k hk => hd ⟨k, hk⟩⟩

/-- Asking for another chunk does not depend on the shortcut. -/
theorem getChunk_forget {x z : Int32} (hl : s.lastKey ≠ some ⟨x, z⟩) :
    getChunk x z s = getChunk x z s.forget := by
  have hl' : s.forget.lastKey ≠ some ⟨x, z⟩ := by
    intro h
    cases h
  cases hr : s.chunks[(⟨x, z⟩ : Key)]? with
  | some r =>
    have hr' : s.forget.chunks[(⟨x, z⟩ : Key)]? = some r := hr
    rw [getChunk_mapped hl hr, getChunk_mapped hl' hr']
    rfl
  | none =>
    obtain ⟨chunk, hc, -⟩ := readChunk_ok h.inv.records ⟨x, z⟩
    rw [getChunk_loaded hl hr hc, getChunk_loaded hl' (show s.forget.chunks[(⟨x, z⟩ : Key)]? = none from hr)
      (show readChunk s.forget.db ⟨x, z⟩ = .ok chunk from hc)]
    rfl

variable {k : Key} (hd : s.Detached k) {c : Pos} (hc : s.Leaves c)
include hd hc

theorem getBlockTypeId_forget :
    managerArea.getBlockTypeId c.x c.y c.z s = managerArea.getBlockTypeId c.x c.y c.z s.forget := by
  show getBlockTypeId c.x c.y c.z s = getBlockTypeId c.x c.y c.z s.forget
  rw [getBlockTypeId, if_neg (by rw [ge_height_iff, not_not]; exact hc.1)]
  exact bind_congr_state (getChunk_forget h (lastKey_of_leaves hd hc))

theorem getBlockData_forget :
    managerArea.getBlockData c.x c.y c.z s = managerArea.getBlockData c.x c.y c.z s.forget := by
  show getBlockData c.x c.y c.z s = getBlockData c.x c.y c.z s.forget
  rw [getBlockData, if_neg (by rw [ge_height_iff, not_not]; exact hc.1)]
  exact bind_congr_state (getChunk_forget h (lastKey_of_leaves hd hc))

theorem setBlockTypeId_forget (type : Int32) :
    managerArea.setBlockTypeId c.x c.y c.z type s = managerArea.setBlockTypeId c.x c.y c.z type s.forget := by
  show setBlockTypeId c.x c.y c.z type s = setBlockTypeId c.x c.y c.z type s.forget
  rw [setBlockTypeId, if_pos (lt_height_iff.mpr hc.1)]
  exact bind_congr_state (getChunk_forget h (lastKey_of_leaves hd hc))

theorem setBlockData_forget (data : Int32) :
    managerArea.setBlockData c.x c.y c.z data s = managerArea.setBlockData c.x c.y c.z data s.forget := by
  show setBlockData c.x c.y c.z data s = setBlockData c.x c.y c.z data s.forget
  rw [setBlockData, if_pos (lt_height_iff.mpr hc.1)]
  exact bind_congr_state (getChunk_forget h (lastKey_of_leaves hd hc))

end Leaving

/-! ## What the readers show -/

/-- The readers show the block `b` at `c`. -/
def Shows (s : ChunkManager) (c : Pos) (b : Block) : Prop :=
  result (getBlockTypeId c.x c.y c.z) s = .ok b.type ∧ result (getBlockData c.x c.y c.z) s = .ok b.data

/-- Both managers show the same block at `c`. -/
def SameAt (s s' : ChunkManager) (c : Pos) : Prop :=
  result (getBlockTypeId c.x c.y c.z) s' = result (getBlockTypeId c.x c.y c.z) s ∧
  result (getBlockData c.x c.y c.z) s' = result (getBlockData c.x c.y c.z) s

theorem shows_blocksOf {s : ChunkManager} (hs : managerLaws.Valid s) (c : Pos) :
    Shows s c (s.blocksOf c) :=
  ⟨result_getBlockTypeId hs.1 hs.2 c, result_getBlockData hs.1 hs.2 c⟩

/-- **What the readers show** in any sound state. -/
theorem shows_shown {s : ChunkManager} (hs : Sound s) (c : Pos) : Shows s c (s.shown c) := by
  rcases hs.valid_or_detached with hv | ⟨k, hd⟩
  · rw [shown_of_attached hv.2]
    exact shows_blocksOf hv c
  by_cases hl : s.Leaves c
  · rw [shown_of_not_inStale hl.2]
    have h1 : getBlockTypeId c.x c.y c.z s = getBlockTypeId c.x c.y c.z s.forget :=
      getBlockTypeId_forget hs hd hl
    have h2 : getBlockData c.x c.y c.z s = getBlockData c.x c.y c.z s.forget := getBlockData_forget hs hd hl
    unfold Shows result
    rw [h1, h2]
    exact shows_blocksOf (valid_forget hs) c
  · have hc : inHeight c.y → keyOf c.x c.z = k := fun hy =>
      ((inStale_iff hd).mp (not_not.mp fun hst => hl ⟨hy, hst⟩)).2
    exact ⟨result_of_ok (getBlockTypeId_stale hs hd hc), result_of_ok (getBlockData_stale hs hd hc)⟩

theorem shows_iff {s : ChunkManager} (hs : Sound s) {c : Pos} {b : Block} :
    Shows s c b ↔ s.shown c = b := by
  obtain ⟨ht, hd⟩ := shows_shown hs c
  constructor
  · rintro ⟨ht', hd'⟩
    exact Block.ext (Except.ok.inj (ht.symm.trans ht')) (Except.ok.inj (hd.symm.trans hd'))
  · rintro rfl
    exact ⟨ht, hd⟩

theorem sameAt_iff {s s' : ChunkManager} (hs : Sound s) (hs' : Sound s') {c : Pos} :
    SameAt s s' c ↔ s'.shown c = s.shown c := by
  obtain ⟨ht, hd⟩ := shows_shown hs c
  unfold SameAt
  rw [ht, hd]
  exact shows_iff hs'

/-! ## Passes over a list of cells -/

section Passes

variable {α : Type} (s : ChunkManager) (f : α → Pos) (l : List α)

/-- The part of a pass, over the cells `f a`, that still meets the lost chunk. -/
def before : List α := l.takeWhile fun a => ¬ s.Leaves (f a)

/-- The part of a pass from the first cell of another chunk on. -/
def since : List α := l.dropWhile fun a => ¬ s.Leaves (f a)

/-- The manager after a pass that only reads. -/
def past : ChunkManager := if s.since f l = [] then s else s.forget

theorem before_append_since : s.before f l ++ s.since f l = l := List.takeWhile_append_dropWhile

variable {s f l}

theorem not_leaves_of_mem_before {a : α} (ha : a ∈ s.before f l) : ¬ s.Leaves (f a) := by
  simpa using List.mem_takeWhile_imp ha

theorem mem_of_mem_before {a : α} (ha : a ∈ s.before f l) : a ∈ l := List.takeWhile_subset _ ha

theorem mem_of_mem_since {a : α} (ha : a ∈ s.since f l) : a ∈ l := List.dropWhile_subset _ ha

theorem since_eq_nil_iff : s.since f l = [] ↔ ∀ a ∈ l, ¬ s.Leaves (f a) := by
  simp [since, List.dropWhile_eq_nil_iff]

theorem before_of_since_eq_nil (h : s.since f l = []) : s.before f l = l := by
  have happ := s.before_append_since f l
  rwa [h, List.append_nil] at happ

theorem leaves_of_since {a : α} {rest : List α} (h : s.since f l = a :: rest) : s.Leaves (f a) := by
  have hhead := List.head?_dropWhile_not (fun a => decide (¬ s.Leaves (f a))) l
  have hcons : l.dropWhile (fun a => ¬ s.Leaves (f a)) = a :: rest := h
  rw [hcons] at hhead
  simpa using hhead

theorem before_map {β : Type} (s : ChunkManager) (f : β → Pos) (g : α → β) (l : List α) :
    s.before f (l.map g) = (s.before (fun a => f (g a)) l).map g := List.takeWhile_map

theorem since_map {β : Type} (s : ChunkManager) (f : β → Pos) (g : α → β) (l : List α) :
    s.since f (l.map g) = (s.since (fun a => f (g a)) l).map g := List.dropWhile_map

theorem past_map (s : ChunkManager) (g : α → Pos) (l : List α) :
    s.past id (l.map g) = s.past g l := by
  have hnil : s.since id (l.map g) = [] ↔ s.since g l = [] := by
    rw [since_map]
    exact List.map_eq_nil_iff
  exact if_congr hnil rfl rfl

theorem SameView.before {s t : ChunkManager} (h : SameView s t) (f : α → Pos) (l : List α) :
    t.before f l = s.before f l := by
  simp only [ChunkManager.before, h.leaves]

theorem SameView.since {s t : ChunkManager} (h : SameView s t) (f : α → Pos) (l : List α) :
    t.since f l = s.since f l := by
  simp only [ChunkManager.since, h.leaves]

/-- The cells of a pass before the lost chunk is left. -/
theorem key_of_not_leaves {k : Key} (hd : s.Detached k) {c : Pos} (hc : ¬ s.Leaves c) :
    inHeight c.y → keyOf c.x c.z = k := fun hy =>
  ((inStale_iff hd).mp (not_not.mp fun hst => hc ⟨hy, hst⟩)).2

/-- The lost chunk is gone after the pass, or the pass never left it. -/
theorem past_eq (s : ChunkManager) (f : α → Pos) (l : List α) :
    s.since f l = [] ∧ s.past f l = s ∨ s.since f l ≠ [] ∧ s.past f l = s.forget := by
  unfold past
  by_cases h : s.since f l = []
  · exact Or.inl ⟨h, if_pos h⟩
  · exact Or.inr ⟨h, if_neg h⟩

theorem blocksOf_past (s : ChunkManager) (f : α → Pos) (l : List α) : (s.past f l).blocksOf = s.blocksOf := by
  unfold past
  split <;> rfl

/-- What the readers find after a pass that only reads. -/
theorem shown_past (s : ChunkManager) (f : α → Pos) (l : List α) (c : Pos) :
    (s.past f l).shown c = if s.since f l = [] then s.shown c else s.blocksOf c := by
  unfold past
  split
  · rfl
  · rw [shown_of_attached (attached_forget s), blocksOf_forget]

/-- Away from the lost chunk such a pass changes nothing. -/
theorem past_of_not_inStale {c : Pos} (h : ¬ s.InStale c) (f : α → Pos) (l : List α) :
    ¬ (s.past f l).InStale c ∧ (s.past f l).shown c = s.shown c := by
  refine ⟨?_, by rw [shown_past, shown_of_not_inStale h, ite_self]⟩
  unfold past
  split
  · exact h
  · exact not_inStale_of_attached (attached_forget s) c

/-- What a pass leaves, if the lost chunk was left or there was none. -/
theorem sameView_past_of_attached {t : ChunkManager} (hs : s.Attached ∨ s.since f l ≠ []) (ht : t.Attached)
    (hb : t.blocksOf = s.blocksOf) : SameView (s.past f l) t := by
  have hpast : (s.past f l).Attached := by
    rcases past_eq s f l with ⟨hnil, hp⟩ | ⟨-, hp⟩
    · rw [hp]
      exact hs.resolve_right fun hne => hne hnil
    · rw [hp]
      exact attached_forget s
  exact sameView_of_attached hpast ht (hb.trans (blocksOf_past s f l).symm)

/-- What a pass leaves that stayed in the lost chunk. -/
theorem sameView_past_of_detached {t : ChunkManager} {k : Key} (hsince : s.since f l = []) (hs : s.Detached k)
    (ht : t.Detached k) (hshown : t.shown = s.shown) (hb : t.blocksOf = s.blocksOf) :
    SameView (s.past f l) t := by
  unfold past
  rw [if_pos hsince]
  exact sameView_of_detached hs ht hshown hb

/-- Until the lost chunk is left, a pass is one over the cells of this chunk. -/
theorem Sound.before_stale (h : Sound s) {k : Key} (hd : s.Detached k) (f : α → Pos) (l : List α) :
    (staleLaws k s.blocksOf).Valid s ∧ ∀ a ∈ s.before f l, (staleLaws k s.blocksOf).InArea (f a) :=
  ⟨⟨h, hd, rfl⟩, fun _ ha => key_of_not_leaves hd (not_leaves_of_mem_before ha)⟩

end Passes

/-! ## Setting blocks -/

/-- The cells of a pass that sets blocks, without those whose blocks get lost. -/
def lasting (s : ChunkManager) (cells : List Pos) : List Pos :=
  if s.since id cells = [] then cells else s.since id cells

theorem mem_of_mem_lasting {s : ChunkManager} {cells : List Pos} {c : Pos} (h : c ∈ s.lasting cells) :
    c ∈ cells := by
  unfold lasting at h
  split at h
  · exact h
  · exact mem_of_mem_since h

/-- Only blocks of the lost chunk can get lost. -/
theorem mem_lasting {s : ChunkManager} {cells : List Pos} {c : Pos} (hc : c ∈ cells) (hy : inHeight c.y)
    (hst : ¬ s.InStale c) : c ∈ s.lasting cells := by
  unfold lasting
  split
  · exact hc
  · rw [← s.before_append_since id cells, List.mem_append] at hc
    exact hc.resolve_left fun hb => not_leaves_of_mem_before hb ⟨hy, hst⟩

/-- What readers find at a cell after the blocks `b` were set. -/
def afterPut (s : ChunkManager) (b : Pos → Block) (cells : List Pos) (c : Pos) : Block :=
  if c ∈ s.lasting cells ∧ inHeight c.y then managerLaws.stored (b c) else (s.past id cells).shown c

/-- Away from the lost chunk every block that is set stays. -/
theorem afterPut_of_not_inStale {s : ChunkManager} {b : Pos → Block} {cells : List Pos} {c : Pos}
    (h : ¬ s.InStale c) : s.afterPut b cells c =
      if c ∈ cells ∧ inHeight c.y then managerLaws.stored (b c) else s.shown c := by
  unfold afterPut
  rw [(past_of_not_inStale h id cells).2]
  refine if_congr ⟨fun hc => ⟨mem_of_mem_lasting hc.1, hc.2⟩, fun hc => ⟨mem_lasting hc.1 hc.2 h, hc.2⟩⟩ rfl
    rfl

theorem SameView.afterPut {s t : ChunkManager} (h : SameView s t) (b : Pos → Block) (cells : List Pos) :
    t.afterPut b cells = s.afterPut b cells := by
  have hlasting : t.lasting cells = s.lasting cells := by simp only [lasting, h.since]
  funext c
  unfold ChunkManager.afterPut
  rw [hlasting, shown_past, shown_past, h.since, h.shown, h.blocks]

/-- **Setting a list of cells** in any sound state: the blocks set before the lost chunk is left are lost. -/
theorem Sound.putAll_shown {s : ChunkManager} (h : Sound s) (b : Pos → Block) (cells : List Pos) :
    ∃ s', putAll managerArea b cells s = .ok () s' ∧ Sound s' ∧ s'.shown = s.afterPut b cells := by
  rcases h.valid_or_detached with hv | ⟨k, hd⟩
  · have hall : ∀ c ∈ cells, managerLaws.InArea c := fun _ _ => trivial
    obtain ⟨s', hput, hv', hb⟩ := putAll_ok managerLaws hv b hall
    refine ⟨s', hput, sound_of_valid hv', funext fun c => ?_⟩
    rw [afterPut_of_not_inStale (not_inStale_of_attached hv.2 c), shown_of_attached hv'.2,
      shown_of_attached hv.2]
    exact hb c
  obtain ⟨hstale, hbefore⟩ := h.before_stale hd id cells
  obtain ⟨s1, hput1, ⟨hs1, hd1, hb1⟩, hshown1⟩ := putAll_ok (staleLaws k s.blocksOf) hstale b hbefore
  cases hsince : s.since id cells with
  | nil =>
    rw [before_of_since_eq_nil hsince] at hput1 hshown1
    refine ⟨s1, hput1, hs1, funext fun c => ?_⟩
    unfold afterPut lasting
    rw [if_pos hsince, shown_past, if_pos hsince]
    exact hshown1 c
  | cons d rest =>
    -- the first cell of another chunk: from here on the shortcut might as well be empty
    have hleave : s1.Leaves d := (leaves_of_since hsince).of_detached hd hd1
    have hforget : putAll managerArea b (d :: rest) s1 = putAll managerArea b (d :: rest) s1.forget :=
      bind_congr_state (bind_congr_state (setBlockTypeId_forget hs1 hd1 hleave _))
    have hall : ∀ c ∈ d :: rest, managerLaws.InArea c := fun _ _ => trivial
    obtain ⟨s', hput2, hv', hb2⟩ := putAll_ok managerLaws (valid_forget hs1) b hall
    refine ⟨s', ?_, sound_of_valid hv', funext fun c => ?_⟩
    · rw [← s.before_append_since id cells, hsince, putAll_append, bind_of_ok hput1, hforget, hput2]
    · have hb2' : s'.blocksOf c =
          if c ∈ d :: rest ∧ inHeight c.y then managerLaws.stored (b c) else s1.forget.blocksOf c := hb2 c
      have hne : s.since id cells ≠ [] := by simp [hsince]
      unfold afterPut lasting
      rw [if_neg hne, shown_past, if_neg hne, shown_of_attached hv'.2, hb2', hsince, blocksOf_forget, hb1]

/-! ## A world that was just unloaded -/

/-- **Unloading a world that is saved first** changes nothing for the readers: of the last chunk they still
find the object. -/
theorem unloadChunks_shown {s : ChunkManager} (h : managerLaws.Valid s) : ∃ s',
    exec (.unloadChunks true) s = .ok .unit s' ∧ Sound s' ∧ s'.shown = s.shown ∧
      s'.blocksOf = s.blocksOf ∧ s'.lastKey = s.lastKey ∧ s'.chunks = ∅ := by
  obtain ⟨n, hn⟩ := saveAll_eq h.1
  have hunload : exec (.unloadChunks true) s = .ok .unit { s.saved with chunks := ∅ } := by
    show (do unloadChunks true; pure Outcome.unit) s = _
    simp [unloadChunks, hn]
  have hsound : Sound { s.saved with chunks := ∅ } := by
    obtain ⟨v, s', he, hs'⟩ := (sound_of_valid h).exec (.unloadChunks true)
    rw [hunload] at he
    cases he
    exact hs'
  have hblocks : ({ s.saved with chunks := ∅ } : ChunkManager).blocksOf = s.blocksOf :=
    blocksOf_of_quiet (quiet_unloaded h.1)
  refine ⟨_, hunload, hsound, funext fun c => ?_, hblocks, rfl, rfl⟩
  rw [shown_of_attached h.2]
  by_cases hst : InStale { s.saved with chunks := ∅ } c
  · have hlast : s.lastKey = some (keyOf c.x c.z) := hst.2.1
    obtain ⟨r, chunk, hr, hc, hm⟩ := h.1.last _ hlast
    have hm : s.chunks[keyOf c.x c.z]? = some r := hm.resolve_right fun hnone => h.2 _ ⟨hlast, hnone⟩
    have hat := chunkAt_of_mapped hm hc
    rw [shown_of_last hst.2 hr hc, if_pos ⟨hst.1, rfl⟩, blocksOf, if_pos hst.1, typeOf_of_chunkAt hat,
      dataOf_of_chunkAt hat]
    rfl
  · rw [shown_of_not_inStale hst, hblocks]

/-- A manager that read a block and was then saved and unloaded. -/
def justUnloaded : ChunkManager := run exec (opened ∅) [.getBlockTypeId 0 0 0, .unloadChunks true]

theorem reached_justUnloaded : Reached justUnloaded := reached_run recordsOk_empty _

/-- Its shortcut has the chunk at the origin; all blocks are air. -/
theorem justUnloaded_spec : justUnloaded.Detached (keyOf 0 0) ∧ (∀ c, justUnloaded.blocksOf c = ⟨0, 0⟩) ∧
    ∀ c, justUnloaded.shown c = ⟨0, 0⟩ := by
  obtain ⟨v, s1, h1, hv1, hE⟩ := exec_attached (inv_opened recordsOk_empty) (attached_opened ∅)
    (.getBlockTypeId 0 0 0) fun _ h => by cases h
  obtain ⟨s', h2, -, hshown, hblocks, hlast, hchunks⟩ := unloadChunks_shown hv1
  have hrun : justUnloaded = s' := by
    show after (exec (.unloadChunks true)) (after (exec (.getBlockTypeId 0 0 0)) (opened ∅)) = _
    rw [after_of_ok h1, after_of_ok h2]
  have hair : ∀ c, s1.blocksOf c = ⟨0, 0⟩ := fun c => by rw [blocksOf_of_quiet hE, blocksOf_empty]
  have hkey : s1.lastKey = some (keyOf 0 0) := by
    have hkey : (Op.getBlockTypeId 0 0 0).key? = some (keyOf 0 0) := rfl
    have h := lastKey_exec hkey (opened ∅)
    rwa [after_of_ok h1] at h
  rw [hrun, hshown, hblocks, shown_of_attached hv1.2]
  exact ⟨⟨hlast.trans hkey, by rw [hchunks]; exact Std.HashMap.getElem?_empty⟩, hair, hair⟩

end WorldToPE.ChunkManager
