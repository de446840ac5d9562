import WorldToPE.Geo.CacheInv

/-!
# WorldToPE.Geo.BlockMap — a `ChunkManager` is a flat map of blocks

The abstract view of a manager forgets chunks, cache and database: a block is named by its world
coordinates, and what is read there is what was last set there.

* `exec_effect`: one operation that does not write through a detached shortcut changes exactly the
  block it names; only unloading detaches the shortcut.
* `getBlockTypeId_result`, `getBlockData_result`, `getHighestBlockYAt_result`: what the readers
  return.
* `History`: the relation between the operations done so far and the blocks held, and
  `history_run`: it holds after every run without unloading.
-/

namespace WorldToPE.ChunkManager

open Java Run Chunk

/-! ## World coordinates and cells -/

/-- The cell of its chunk that a block lies in. -/
def cellOf (x y z : Int32) : ℕ := cellIdx (x &&& 15) y (z &&& 15)

theorem toInt_and_15 (x : Int32) : (x &&& 15).toInt = x.toInt % 16 := toInt_and_mask x 4 (by norm_num)

theorem toInt_shiftRight_4 (x : Int32) : (x >>> 4).toInt = x.toInt / 16 :=
  toInt_shiftRight x 4 (by norm_num)

theorem inRange_of_inHeight {y : Int32} (h : inHeight y) (x z : Int32) :
    inRange (x &&& 15) y (z &&& 15) = true := by
  rw [inRange_iff, toInt_and_15, toInt_and_15]
  unfold inHeight at h
  omega

theorem cellOf_lt {y : Int32} (h : inHeight y) (x z : Int32) : cellOf x y z < 32768 :=
  cellIdx_lt (inRange_of_inHeight h x z)

/-- Chunk and cell determine the block, for negative coordinates too. -/
theorem cellOf_inj {x y z x' y' z' : Int32} (hy : inHeight y) (hy' : inHeight y')
    (hk : keyOf x z = keyOf x' z') (hc : cellOf x y z = cellOf x' y' z') :
    x = x' ∧ y = y' ∧ z = z' := by
  obtain ⟨hx4, hz4⟩ := Key.mk.inj hk
  obtain ⟨hx, hyy, hz⟩ := cellIdx_inj (inRange_of_inHeight hy x z) (inRange_of_inHeight hy' x' z') hc
  have e1 := toInt_shiftRight_4 x
  have e2 := toInt_shiftRight_4 x'
  have e3 := toInt_shiftRight_4 z
  have e4 := toInt_shiftRight_4 z'
  have f1 := toInt_and_15 x
  have f2 := toInt_and_15 x'
  have f3 := toInt_and_15 z
  have f4 := toInt_and_15 z'
  rw [hx4] at e1
  rw [hz4] at e3
  rw [hx] at f1
  rw [hz] at f3
  refine ⟨Int32.toInt_inj.mp ?_, hyy, Int32.toInt_inj.mp ?_⟩ <;> omega

theorem inHeight_ofNat {n : ℕ} (h : n < 128) : inHeight (Int32.ofNat n) := by
  unfold inHeight
  rw [Int32.toInt_ofNat_of_lt (by omega)]
  omega

theorem getHighestBlockYAt_spec (c : Chunk) (x z : Int32) :
    ∃ h, c.getHighestBlockYAt (x &&& 15) (z &&& 15) = .ok h ∧
      IsHighest (fun j => unsigned (c.typeCell (cellOf x (Int32.ofNat j) z))) 128 h :=
  highestFrom_spec c _ 128 fun _ hj =>
    c.getBlockTypeId_spec (inRange_of_inHeight (inHeight_ofNat hj) x z)

/-! ## The effect of one operation -/

/-- The types an operation sets, by chunk and cell. -/
def Op.typeEdit : Op → Key → ℕ → Option UInt8
  | .setBlockTypeId x y z type, k, i =>
    if inHeight y then
      if keyOf x z = k then (if cellOf x y z = i then some (narrow type) else none) else none
    else none
  | _, _, _ => none

/-- The block data an operation sets, by chunk and cell. -/
def Op.dataEdit : Op → Key → ℕ → Option Int32
  | .setBlockData x y z data, k, i =>
    if inHeight y then
      if keyOf x z = k then (if cellOf x y z = i then some (data &&& 15) else none) else none
    else none
  | _, _, _ => none

/-- The chunk an operation writes to. -/
def Op.writes? : Op → Option Key
  | .setBlockTypeId x y z _ => if inHeight y then some (keyOf x z) else none
  | .setBlockData x y z _ => if inHeight y then some (keyOf x z) else none
  | _ => none

/-- Nothing became detached. -/
def KeepsAttached (s s' : ChunkManager) : Prop := ∀ k, s'.Detached k → s.Detached k

theorem keepsAttached_of {s s' : ChunkManager} {key : Key} {r : Ref} (hl : s'.lastKey = some key)
    (hm : s'.chunks[key]? = some r ∨ (s' = s ∧ s.Detached key)) : KeepsAttached s s' := by
  rintro k ⟨hk, hn⟩
  obtain rfl : key = k := Option.some.inj (hl.symm.trans hk)
  rcases hm with hm | ⟨-, hd⟩
  · rw [hn] at hm
    cases hm
  · exact hd

theorem call_quiet {s : ChunkManager} (hI : CacheInv s) (x z : Int32) {f : Chunk → Except Exn Int32}
    (hf : ∀ c, ∃ v, f c = .ok v) :
    ∃ v s', (do let r ← getChunk x z; call r f) s = .ok v s' ∧ Quiet s s' ∧ KeepsAttached s s' := by
  obtain ⟨r, c, s', hg, hq, hc, hl, hm⟩ := getChunk_effect hI x z
  obtain ⟨v, hv⟩ := hf c
  exact ⟨v, s', by rw [bind_of_ok hg, call_ok hc hv], hq, keepsAttached_of hl hm⟩

theorem update_effect {s : ChunkManager} (hI : CacheInv s) {x z : Int32}
    {f : Chunk → Except Exn Chunk} {ty : ℕ → Option UInt8} {da : ℕ → Option Int32}
    (hd : ¬ s.Detached ⟨x, z⟩)
    (hf : ∀ c, ∃ c', f c = .ok c' ∧
      Edited c c' (fun i => (ty i).getD (c.typeCell i)) (fun i => (da i).getD (c.dataCell i))) :
    ∃ s', (do let r ← getChunk x z; update r f) s = .ok () s' ∧
      Effect s s' (fun k i => if Key.mk x z = k then ty i else none)
        (fun k i => if Key.mk x z = k then da i else none) ∧ KeepsAttached s s' := by
  obtain ⟨r, c, s', hg, hq, hc, hl, hm | ⟨-, hm⟩⟩ := getChunk_effect hI x z
  · obtain ⟨c', hc', he⟩ := hf c
    exact ⟨s'.rewritten r c', by rw [bind_of_ok hg, update_ok hc hc']; rfl,
      hq.trans_effect (effect_rewritten hq.inv hm hc he), keepsAttached_of hl (Or.inl hm)⟩
  · exact absurd hm hd

/-- A reader that answers `0` outside the height of the world. -/
theorem readBlock_quiet {s : ChunkManager} (hI : CacheInv s) {x y z : Int32}
    {f : Chunk → Except Exn Int32} (hf : inHeight y → ∀ c, ∃ v, f c = .ok v) :
    ∃ v s', (if y ≥ 128 ∨ y < 0 then return 0
      else do
        let r ← getChunk (x >>> 4) (z >>> 4)
        call r f : M Int32) s = .ok v s' ∧ Quiet s s' ∧ KeepsAttached s s' := by
  by_cases hy : inHeight y
  · rw [if_neg (by rw [ge_height_iff, not_not]; exact hy)]
    exact call_quiet hI (x >>> 4) (z >>> 4) (hf hy)
  · rw [if_pos (ge_height_iff.mpr hy)]
    exact ⟨0, s, rfl, Quiet.refl hI, fun _ hk => hk⟩

/-- A writer that does nothing outside the height of the world. -/
theorem writeBlock_effect {s : ChunkManager} (hI : CacheInv s) {x y z : Int32}
    {f : Chunk → Except Exn Chunk} {ty : ℕ → Option UInt8} {da : ℕ → Option Int32}
    (hd : inHeight y → ¬ s.Detached (keyOf x z))
    (hf : inHeight y → ∀ c, ∃ c', f c = .ok c' ∧
      Edited c c' (fun i => (ty i).getD (c.typeCell i)) (fun i => (da i).getD (c.dataCell i))) :
    ∃ s', (if y < 128 ∧ y ≥ 0 then do
        let r ← getChunk (x >>> 4) (z >>> 4)
        update r f
      else return () : M Unit) s = .ok () s' ∧
      Effect s s' (fun k i => if inHeight y then if keyOf x z = k then ty i else none else none)
        (fun k i => if inHeight y then if keyOf x z = k then da i else none else none) ∧
      KeepsAttached s s' := by
  by_cases hy : inHeight y
  · simp only [if_pos hy, if_pos (lt_height_iff.mpr hy)]
    exact update_effect hI (hd hy) (hf hy)
  · have hguard : ¬ (y < 128 ∧ y ≥ 0) := fun h => hy (lt_height_iff.mp h)
    simp only [if_neg hy, if_neg hguard]
    exact ⟨s, rfl, Quiet.refl hI, fun _ hk => hk⟩

theorem setBlockTypeId_edits {y : Int32} (hy : inHeight y) (x z type : Int32) (c : Chunk) :
    ∃ c', c.setBlockTypeId (x &&& 15) y (z &&& 15) type = .ok c' ∧ Edited c c'
      (fun i => (if cellOf x y z = i then some (narrow type) else none).getD (c.typeCell i))
      (fun i => Option.getD none (c.dataCell i)) := by
  obtain ⟨c', h, he⟩ := c.setBlockTypeId_spec (inRange_of_inHeight hy x z) type
  refine ⟨c', h, he.x, he.z, he.needsSaving, fun i => ?_, he.data⟩
  rw [he.type i]
  unfold cellOf
  split <;> rfl

theorem setBlockData_edits {y : Int32} (hy : inHeight y) (x z data : Int32) (c : Chunk) :
    ∃ c', c.setBlockData (x &&& 15) y (z &&& 15) data = .ok c' ∧ Edited c c'
      (fun i => Option.getD none (c.typeCell i))
      (fun i => (if cellOf x y z = i then some (data &&& 15) else none).getD (c.dataCell i)) := by
  obtain ⟨c', h, he⟩ := c.setBlockData_spec (inRange_of_inHeight hy x z) data
  refine ⟨c', h, he.x, he.z, he.needsSaving, he.type, fun i => ?_⟩
  rw [he.data i]
  unfold cellOf
  split <;> rfl

/-- **One operation** that does not write through a detached shortcut succeeds and changes exactly
the block it names. -/
theorem exec_effect {s : ChunkManager} (hI : CacheInv s) {op : Op} (hu : op ≠ .unloadChunks false)
    (hd : ∀ k, op.writes? = some k → ¬ s.Detached k) :
    ∃ v s', exec op s = .ok v s' ∧ Effect s s' op.typeEdit op.dataEdit ∧
      (op ≠ .unloadChunks true → KeepsAttached s s') := by
  cases op with
  | getBlockTypeId x y z =>
    obtain ⟨v, s', h, hq, hk⟩ := readBlock_quiet hI (x := x) (y := y) (z := z)
      fun hy c => ⟨_, c.getBlockTypeId_spec (inRange_of_inHeight hy x z)⟩
    refine ⟨.int v, s', ?_, hq, fun _ => hk⟩
    show (Outcome.int <$> getBlockTypeId x y z) s = _
    rw [getBlockTypeId, map_apply, h]
  | getBlockData x y z =>
    obtain ⟨v, s', h, hq, hk⟩ := readBlock_quiet hI (x := x) (y := y) (z := z)
      fun hy c => ⟨_, c.getBlockData_spec (inRange_of_inHeight hy x z)⟩
    refine ⟨.int v, s', ?_, hq, fun _ => hk⟩
    show (Outcome.int <$> getBlockData x y z) s = _
    rw [getBlockData, map_apply, h]
  | setBlockTypeId x y z type =>
    obtain ⟨s', h, he, ha⟩ := writeBlock_effect hI (fun hy => hd (keyOf x z) (if_pos hy))
      fun hy => setBlockTypeId_edits hy x z type
    refine ⟨.unit, s', ?_, he.congr (fun k i => rfl) fun k i => by simp [Op.dataEdit], fun _ => ha⟩
    show (do setBlockTypeId x y z type; pure Outcome.unit) s = _
    rw [setBlockTypeId, bind_of_ok h]
    rfl
  | setBlockData x y z data =>
    obtain ⟨s', h, he, ha⟩ := writeBlock_effect hI (fun hy => hd (keyOf x z) (if_pos hy))
      fun hy => setBlockData_edits hy x z data
    refine ⟨.unit, s', ?_, he.congr (fun k i => by simp [Op.typeEdit]) fun k i => rfl, fun _ => ha⟩
    show (do setBlockData x y z data; pure Outcome.unit) s = _
    rw [setBlockData, bind_of_ok h]
    rfl
  | getChunk x z =>
    obtain ⟨r, c, s', hg, hq, -, hl, hm⟩ := getChunk_effect hI x z
    refine ⟨.chunk (some r), s', ?_, hq, fun _ => keepsAttached_of hl hm⟩
    show (Outcome.chunk <$> getChunk x z) s = _
    rw [map_apply, hg]
  | getHighestBlockYAt x z =>
    obtain ⟨v, s', h, hq, hk⟩ := call_quiet hI (x >>> 4) (z >>> 4)
      fun c => (getHighestBlockYAt_spec c x z).imp fun _ h => h.1
    refine ⟨.int v, s', ?_, hq, fun _ => hk⟩
    show (Outcome.int <$> getHighestBlockYAt x z) s = _
    rw [getHighestBlockYAt, map_apply, h]
  | saveAll =>
    obtain ⟨n, hn⟩ := saveAll_eq hI
    refine ⟨.int n, s.saved, ?_, quiet_saved hI, fun _ k hk => hk⟩
    show (Outcome.int <$> saveAll) s = _
    rw [map_apply, hn]
  | unloadChunks saveFirst =>
    cases saveFirst with
    | false => exact absurd rfl hu
    | true =>
      obtain ⟨n, hn⟩ := saveAll_eq hI
      refine ⟨.unit, { s.saved with chunks := ∅ }, ?_, quiet_unloaded hI, fun h => absurd rfl h⟩
      show (do unloadChunks true; pure Outcome.unit) s = _
      simp [unloadChunks, hn]

/-! ## What the readers return -/

/-- A chunk that is not detached is returned with the blocks the manager holds. -/
theorem getChunk_attached {s : ChunkManager} (hI : CacheInv s) {x z : Int32}
    (hd : ¬ s.Detached ⟨x, z⟩) : ∃ r c s', getChunk x z s = .ok (some r) s' ∧
      s'.heap[r]? = some c ∧ ∀ i < 32768, c.typeCell i = s.typeOf ⟨x, z⟩ i ∧
        c.dataCell i = s.dataOf ⟨x, z⟩ i := by
  obtain ⟨r, c, s', hg, hq, hc, -, hm | ⟨-, hm⟩⟩ := getChunk_effect hI x z
  · refine ⟨r, c, s', hg, hc, fun i hi => ⟨?_, ?_⟩⟩
    · rw [← typeOf_of_chunkAt (chunkAt_of_mapped hm hc), hq.type _ i hi]
      rfl
    · rw [← dataOf_of_chunkAt (chunkAt_of_mapped hm hc), hq.data _ i hi]
      rfl
  · exact absurd hm hd

section Readers

variable {s : ChunkManager} (hI : CacheInv s) {x z : Int32} (hd : ¬ s.Detached (keyOf x z))
include hI hd

theorem getBlockTypeId_result {y : Int32} (hy : inHeight y) :
    result (getBlockTypeId x y z) s = .ok (unsigned (s.typeOf (keyOf x z) (cellOf x y z))) := by
  obtain ⟨r, c, s', hg, hc, he⟩ := getChunk_attached hI hd
  have h : c.getBlockTypeId (x &&& 15) y (z &&& 15) = .ok (unsigned (c.typeCell (cellOf x y z))) :=
    c.getBlockTypeId_spec (inRange_of_inHeight hy x z)
  rw [(he _ (cellOf_lt hy x z)).1] at h
  have hm : getBlockTypeId x y z s = .ok (unsigned (s.typeOf (keyOf x z) (cellOf x y z))) s' := by
    rw [getBlockTypeId, if_neg (by rw [ge_height_iff, not_not]; exact hy), bind_of_ok hg,
      call_ok hc h]
    rfl
  exact result_of_ok hm

theorem getBlockData_result {y : Int32} (hy : inHeight y) :
    result (getBlockData x y z) s = .ok (s.dataOf (keyOf x z) (cellOf x y z)) := by
  obtain ⟨r, c, s', hg, hc, he⟩ := getChunk_attached hI hd
  have h : c.getBlockData (x &&& 15) y (z &&& 15) = .ok (c.dataCell (cellOf x y z)) :=
    c.getBlockData_spec (inRange_of_inHeight hy x z)
  rw [(he _ (cellOf_lt hy x z)).2] at h
  have hm : getBlockData x y z s = .ok (s.dataOf (keyOf x z) (cellOf x y z)) s' := by
    rw [getBlockData, if_neg (by rw [ge_height_iff, not_not]; exact hy), bind_of_ok hg, call_ok hc h]
    rfl
  exact result_of_ok hm

theorem getHighestBlockYAt_result : ∃ h, result (getHighestBlockYAt x z) s = .ok h ∧
    IsHighest (fun j => unsigned (s.typeOf (keyOf x z) (cellOf x (Int32.ofNat j) z))) 128 h := by
  obtain ⟨r, c, s', hg, hc, he⟩ := getChunk_attached hI hd
  obtain ⟨h, hh, hi⟩ := getHighestBlockYAt_spec c x z
  have hm : getHighestBlockYAt x z s = .ok h s' := by
    rw [getHighestBlockYAt, bind_of_ok hg, call_ok hc hh]
  refine ⟨h, result_of_ok hm, hi.congr fun j hj => ?_⟩
  rw [(he _ (cellOf_lt (inHeight_ofNat hj) x z)).1]
  rfl

end Readers

/-! ## The flat block map -/

/-- The type `op` sets at the block `(x, y, z)`. -/
def Op.typeAt (op : Op) (x y z : Int32) : Option Int32 :=
  match op with
  | .setBlockTypeId x' y' z' type => if x' = x ∧ y' = y ∧ z' = z then some type else none
  | _ => none

/-- The data `op` sets at the block `(x, y, z)`. -/
def Op.dataAt (op : Op) (x y z : Int32) : Option Int32 :=
  match op with
  | .setBlockData x' y' z' data => if x' = x ∧ y' = y ∧ z' = z then some data else none
  | _ => none

/-- The last value that `f` gives for an operation of `ops`. -/
def lastSet {α : Type} (f : Op → Option α) (ops : List Op) : Option α :=
  ops.foldl (fun last op => (f op).or last) none

/-- The last type set at the block `(x, y, z)`. -/
def lastType (ops : List Op) (x y z : Int32) : Option Int32 := lastSet (·.typeAt x y z) ops

/-- The last data set at the block `(x, y, z)`. -/
def lastData (ops : List Op) (x y z : Int32) : Option Int32 := lastSet (·.dataAt x y z) ops

/-- The type at `(x, y, z)` in the flat map after `ops`, `db` being the initial database. -/
def blockType (db : DB) (ops : List Op) (x y z : Int32) : Int32 :=
  if inHeight y then
    match lastType ops x y z with
    | some type => type &&& 255
    | none => unsigned (dbType db (keyOf x z) (cellOf x y z))
  else 0

/-- The data at `(x, y, z)` in the flat map after `ops`, `db` being the initial database. -/
def blockData (db : DB) (ops : List Op) (x y z : Int32) : Int32 :=
  if inHeight y then
    match lastData ops x y z with
    | some data => data &&& 15
    | none => dbData db (keyOf x z) (cellOf x y z)
  else 0

theorem lastSet_concat {α : Type} (f : Op → Option α) (ops : List Op) (op : Op) :
    lastSet f (ops ++ [op]) = (f op).or (lastSet f ops) :=
  List.foldl_concat ..

theorem exists_of_lastSet {α : Type} {f : Op → Option α} {ops : List Op} {v : α}
    (h : lastSet f ops = some v) : ∃ op ∈ ops, f op = some v := by
  induction ops using List.reverseRecOn with
  | nil => cases h
  | append_singleton ops op ih =>
    rw [lastSet_concat] at h
    cases ho : f op with
    | none =>
      rw [ho] at h
      obtain ⟨o, hm, hv⟩ := ih h
      exact ⟨o, List.mem_append_left _ hm, hv⟩
    | some t =>
      rw [ho] at h
      exact ⟨op, List.mem_append_right _ List.mem_cons_self, ho.trans h⟩

theorem typeEdit_cellOf (op : Op) {y : Int32} (hy : inHeight y) (x z : Int32) :
    op.typeEdit (keyOf x z) (cellOf x y z) = (op.typeAt x y z).map narrow := by
  cases op with
  | setBlockTypeId x' y' z' type =>
    dsimp only [Op.typeEdit, Op.typeAt]
    by_cases h : x' = x ∧ y' = y ∧ z' = z
    · obtain ⟨rfl, rfl, rfl⟩ := h
      simp [hy]
    · rw [if_neg h]
      split_ifs with hy' hk hc
      · exact absurd (cellOf_inj hy' hy hk hc) h
      all_goals rfl
  | _ => rfl

theorem dataEdit_cellOf (op : Op) {y : Int32} (hy : inHeight y) (x z : Int32) :
    op.dataEdit (keyOf x z) (cellOf x y z) = (op.dataAt x y z).map (· &&& 15) := by
  cases op with
  | setBlockData x' y' z' data =>
    dsimp only [Op.dataEdit, Op.dataAt]
    by_cases h : x' = x ∧ y' = y ∧ z' = z
    · obtain ⟨rfl, rfl, rfl⟩ := h
      simp [hy]
    · rw [if_neg h]
      split_ifs with hy' hk hc
      · exact absurd (cellOf_inj hy' hy hk hc) h
      all_goals rfl
  | _ => rfl

/-- An operation that sets a block inside the world height writes to its chunk. -/
theorem writes_of_sets {op : Op} {x y z v : Int32} (hy : inHeight y)
    (h : op.typeAt x y z = some v ∨ op.dataAt x y z = some v) : op.writes? = some (keyOf x z) := by
  cases op with
  | setBlockTypeId x' y' z' type =>
    rcases h with h | h
    · obtain ⟨⟨rfl, rfl, rfl⟩, -⟩ := Option.ite_none_right_eq_some.mp h
      exact if_pos hy
    · cases h
  | setBlockData x' y' z' data =>
    rcases h with h | h
    · cases h
    · obtain ⟨⟨rfl, rfl, rfl⟩, -⟩ := Option.ite_none_right_eq_some.mp h
      exact if_pos hy
  | _ => rcases h with h | h <;> cases h

/-- An operation that writes to a chunk sets one of its cells. -/
theorem edits_of_writes {op : Op} {k : Key} (h : op.writes? = some k) :
    ∃ i, (op.typeEdit k i).isSome ∨ (op.dataEdit k i).isSome := by
  cases op with
  | setBlockTypeId x y z type =>
    dsimp only [Op.writes?] at h
    split at h
    · obtain rfl := Option.some.inj h
      exact ⟨cellOf x y z, Or.inl (by simp [Op.typeEdit, *])⟩
    · cases h
  | setBlockData x y z data =>
    dsimp only [Op.writes?] at h
    split at h
    · obtain rfl := Option.some.inj h
      exact ⟨cellOf x y z, Or.inr (by simp [Op.dataEdit, *])⟩
    · cases h
  | _ => cases h

/-- The blocks held in `s` are those of the operations done so far. -/
structure History (db : DB) (ops : List Op) (s : ChunkManager) : Prop where
  inv : CacheInv s
  type : ∀ x y z, inHeight y → s.typeOf (keyOf x z) (cellOf x y z) =
    ((lastType ops x y z).map narrow).getD (dbType db (keyOf x z) (cellOf x y z))
  data : ∀ x y z, inHeight y → s.dataOf (keyOf x z) (cellOf x y z) =
    ((lastData ops x y z).map (· &&& 15)).getD (dbData db (keyOf x z) (cellOf x y z))
  stored : ∀ op ∈ ops, ∀ k, op.writes? = some k → s.Stored k

theorem history_opened {db : DB} (h : RecordsOk db) : History db [] (opened db) where
  inv := inv_opened h
  type := fun x y z _ => by
    rw [typeOf, chunkAt_of_unmapped (by simp [opened])]
    rfl
  data := fun x y z _ => by
    rw [dataOf, chunkAt_of_unmapped (by simp [opened])]
    rfl
  stored := fun op hop => by cases hop

theorem getD_map_or {α β : Type} (a b : Option α) (f : α → β) (d : β) :
    ((a.or b).map f).getD d = (a.map f).getD ((b.map f).getD d) := by
  cases a <;> rfl

/-- **Step lemma**: an operation that does not write through a detached shortcut extends the
history. -/
theorem History.step {db : DB} {ops : List Op} {s : ChunkManager} (h : History db ops s) {op : Op}
    (hu : op ≠ .unloadChunks false) (hd : ∀ k, op.writes? = some k → ¬ s.Detached k) :
    History db (ops ++ [op]) (after (exec op) s) ∧
      (op ≠ .unloadChunks true → KeepsAttached s (after (exec op) s)) := by
  obtain ⟨v, s', he, hE, ha⟩ := exec_effect h.inv hu hd
  rw [after_of_ok he]
  refine ⟨⟨hE.inv, fun x y z hy => ?_, fun x y z hy => ?_, fun o ho k hk => ?_⟩, ha⟩
  · rw [hE.type _ _ (cellOf_lt hy x z), typeEdit_cellOf op hy, h.type x y z hy, lastType, lastType,
      lastSet_concat, getD_map_or]
  · rw [hE.data _ _ (cellOf_lt hy x z), dataEdit_cellOf op hy, h.data x y z hy, lastData, lastData,
      lastSet_concat, getD_map_or]
  · rcases List.mem_append.mp ho with ho | ho
    · exact hE.stored k (Or.inl (h.stored o ho k hk))
    · obtain rfl := List.mem_singleton.mp ho
      exact hE.stored k (Or.inr (edits_of_writes hk))

/-- The operations other than unloading. -/
def Op.keepsLoaded (op : Op) : Prop := ∀ saveFirst, op ≠ .unloadChunks saveFirst

/-- **Run lemma**: after every run without unloading the manager holds the blocks of its history, and
its shortcut is attached. -/
theorem history_run {db : DB} (hdb : RecordsOk db) {ops : List Op}
    (hops : ∀ op ∈ ops, op.keepsLoaded) :
    History db ops (run exec (opened db) ops) ∧ ∀ k, ¬ (run exec (opened db) ops).Detached k := by
  refine run_induction_of (I := fun ops s => History db ops s ∧ ∀ k, ¬ s.Detached k)
    ⟨history_opened hdb, fun k hk => by cases hk.1⟩ (fun ops op s hs hop => ?_) ops
    (steps_of_forall hops)
  obtain ⟨h, ha⟩ := hs.1.step (hop false) fun k _ => hs.2 k
  exact ⟨h, fun k hk => hs.2 k (ha (hop true) k hk)⟩

section Reads

variable {db : DB} {ops : List Op} {s : ChunkManager} (h : History db ops s)
  (ha : ∀ k, ¬ s.Detached k)
include h ha

theorem reads_blockType (x y z : Int32) :
    result (getBlockTypeId x y z) s = .ok (blockType db ops x y z) := by
  by_cases hy : inHeight y
  · rw [getBlockTypeId_result h.inv (ha _) hy, blockType, if_pos hy, h.type x y z hy]
    cases lastType ops x y z with
    | none => rfl
    | some type => exact congrArg _ (unsigned_narrow type)
  · rw [blockType, if_neg hy, getBlockTypeId, if_pos (ge_height_iff.mpr hy)]
    rfl

theorem reads_blockData (x y z : Int32) :
    result (getBlockData x y z) s = .ok (blockData db ops x y z) := by
  by_cases hy : inHeight y
  · rw [getBlockData_result h.inv (ha _) hy, blockData, if_pos hy, h.data x y z hy]
    cases lastData ops x y z <;> rfl
  · rw [blockData, if_neg hy, getBlockData, if_pos (ge_height_iff.mpr hy)]
    rfl

theorem reads_highest (x z : Int32) : ∃ y, result (getHighestBlockYAt x z) s = .ok y ∧
    IsHighest (fun j => blockType db ops x (Int32.ofNat j) z) 128 y := by
  obtain ⟨y, hr, hh⟩ := getHighestBlockYAt_result h.inv (ha (keyOf x z))
  refine ⟨y, hr, hh.congr fun j hj => ?_⟩
  have h1 := getBlockTypeId_result h.inv (ha (keyOf x z)) (inHeight_ofNat hj)
  rw [reads_blockType h ha] at h1
  exact (Except.ok.inj h1).symm

end Reads

/-- A set at another block leaves the flat map unchanged at `(x, y, z)`. -/
theorem blockType_concat_of_none (db : DB) (ops : List Op) {op : Op} {x y z : Int32}
    (h : op.typeAt x y z = none) : blockType db (ops ++ [op]) x y z = blockType db ops x y z := by
  unfold blockType lastType
  rw [lastSet_concat, h]
  rfl

theorem blockData_concat_of_none (db : DB) (ops : List Op) {op : Op} {x y z : Int32}
    (h : op.dataAt x y z = none) : blockData db (ops ++ [op]) x y z = blockData db ops x y z := by
  unfold blockData lastData
  rw [lastSet_concat, h]
  rfl

/-- The block an operation sets. -/
def Op.block? : Op → Option (Int32 × Int32 × Int32)
  | .setBlockTypeId x y z _ => some (x, y, z)
  | .setBlockData x y z _ => some (x, y, z)
  | _ => none

theorem typeAt_of_block_ne {op : Op} {x y z : Int32} (h : op.block? ≠ some (x, y, z)) :
    op.typeAt x y z = none ∧ op.dataAt x y z = none := by
  cases op with
  | setBlockTypeId x' y' z' type =>
    refine ⟨if_neg fun he => h ?_, rfl⟩
    obtain ⟨rfl, rfl, rfl⟩ := he
    rfl
  | setBlockData x' y' z' data =>
    refine ⟨rfl, if_neg fun he => h ?_⟩
    obtain ⟨rfl, rfl, rfl⟩ := he
    rfl
  | _ => exact ⟨rfl, rfl⟩

/-- **A `ChunkManager` refines a flat block map.**  After any sequence of operations without
unloading, on any database whose chunk records can be loaded, the readers return what was last set
at exactly the block they are asked for (or what the initial record holds), and a set at another
block does not change what they return. -/
theorem reads_refine_blockMap (db : DB) (hdb : RecordsOk db) (ops : List Op)
    (hops : ∀ op ∈ ops, op.keepsLoaded) :
    (∀ x y z, result (exec (.getBlockTypeId x y z)) (run exec (opened db) ops) =
      .ok (.int (blockType db ops x y z))) ∧
    (∀ x y z, result (exec (.getBlockData x y z)) (run exec (opened db) ops) =
      .ok (.int (blockData db ops x y z))) ∧
    (∀ x z, ∃ y, result (exec (.getHighestBlockYAt x z)) (run exec (opened db) ops) = .ok (.int y) ∧
      IsHighest (fun j => blockType db ops x (Int32.ofNat j) z) 128 y) ∧
    ∀ op : Op, op.keepsLoaded → ∀ x y z, op.block? ≠ some (x, y, z) →
      result (exec (.getBlockTypeId x y z)) (run exec (opened db) (ops ++ [op])) =
        result (exec (.getBlockTypeId x y z)) (run exec (opened db) ops) ∧
      result (exec (.getBlockData x y z)) (run exec (opened db) (ops ++ [op])) =
        result (exec (.getBlockData x y z)) (run exec (opened db) ops) := by
  have key : ∀ ops' : List Op, (∀ op ∈ ops', op.keepsLoaded) → ∀ x y z,
      result (exec (.getBlockTypeId x y z)) (run exec (opened db) ops') =
        .ok (.int (blockType db ops' x y z)) ∧
      result (exec (.getBlockData x y z)) (run exec (opened db) ops') =
        .ok (.int (blockData db ops' x y z)) := fun ops' hops' x y z => by
    obtain ⟨h, ha⟩ := history_run hdb hops'
    exact ⟨result_map (reads_blockType h ha x y z), result_map (reads_blockData h ha x y z)⟩
  refine ⟨fun x y z => (key ops hops x y z).1, fun x y z => (key ops hops x y z).2, fun x z => ?_,
    fun op hop x y z hne => ?_⟩
  · obtain ⟨h, ha⟩ := history_run hdb hops
    obtain ⟨y, hy, hh⟩ := reads_highest h ha x z
    exact ⟨y, result_map hy, hh⟩
  · have hops' : ∀ o ∈ ops ++ [op], o.keepsLoaded := fun o ho => by
      rcases List.mem_append.mp ho with ho | ho
      · exact hops o ho
      · obtain rfl := List.mem_singleton.mp ho
        exact hop
    obtain ⟨ht, hd⟩ := typeAt_of_block_ne hne
    rw [(key _ hops' x y z).1, (key _ hops' x y z).2, (key _ hops x y z).1, (key _ hops x y z).2,
      blockType_concat_of_none db ops ht, blockData_concat_of_none db ops hd]
    exact ⟨rfl, rfl⟩

theorem recordsOk_empty : RecordsOk (∅ : DB) := fun x z raw h => by
  rw [getChunkData, Std.ExtTreeMap.getElem?_empty] at h
  cases h

/-- A block with a negative coordinate, set twice: the second type counts, modulo 256. -/
theorem reads_refine_blockMap_negative :
    result (exec (.getBlockTypeId (-1) 5 (-17))) (run exec (opened ∅)
      [.setBlockTypeId (-1) 5 (-17) 1, .setBlockTypeId (-1) 5 (-17) 300, .saveAll]) =
      .ok (.int 44) :=
  (reads_refine_blockMap ∅ recordsOk_empty _ (by simp [Op.keepsLoaded])).1 (-1) 5 (-17)

end WorldToPE.ChunkManager
