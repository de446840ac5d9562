import WorldToPE.Geo.BlockMap

/-!
# WorldToPE.Geo.Durability — which edits a final `saveAll` stores

`saveAll` walks the map of loaded chunks.  `unloadChunks` empties that map but leaves the shortcut
`lastKey` / `lastChunk` alone, so the next edit of the same chunk goes to an object the map does not
have, and no later save sees it.

* `edits_durable`: runs whose edits never go through such a detached shortcut lose nothing.
* `after_exec_hit`: an edit through a detached shortcut reaches neither the map nor the database.
-/

namespace WorldToPE.ChunkManager

open Java Run Chunk

/-! ## The property -/

/-- The record of the chunk of `(x, y, z)` can be loaded, and `p` holds of the chunk. -/
def RecordHolds (db : DB) (x z : Int32) (p : Chunk → Prop) : Prop :=
  ∃ raw c, getChunkData db (x >>> 4) (z >>> 4) = some raw ∧
    (Chunk.new (x >>> 4) (z >>> 4)).loadFromByteArray raw = .ok c ∧ p c

/-- After `ops` and a final `saveAll` the record of every edited chunk holds, for each edited cell
inside the world height, the last type and the last data set for it. -/
def Durable (db : DB) (ops : List Op) : Prop :=
  ∀ x y z, inHeight y →
    (∀ type, lastType ops x y z = some type →
      RecordHolds (run exec (opened db) (ops ++ [.saveAll])).db x z fun c =>
        c.getBlockTypeId (x &&& 15) y (z &&& 15) = .ok (type &&& 255)) ∧
    ∀ data, lastData ops x y z = some data →
      RecordHolds (run exec (opened db) (ops ++ [.saveAll])).db x z fun c =>
        c.getBlockData (x &&& 15) y (z &&& 15) = .ok (data &&& 15)

/-- An edit does not go through a shortcut to an unloaded chunk. -/
def WritesAttached (s : ChunkManager) (op : Op) : Prop := ∀ k, op.writes? = some k → ¬ s.Detached k

/-! ## Runs that write to loaded chunks only -/

theorem history_run_of_attached {db : DB} (hdb : RecordsOk db) {ops : List Op}
    (hops : ∀ op ∈ ops, op ≠ .unloadChunks false)
    (hs : Steps exec WritesAttached (opened db) ops) :
    History db ops (run exec (opened db) ops) := by
  refine run_induction_of
    (I := fun ops s => (∀ op ∈ ops, op ≠ .unloadChunks false) → History db ops s)
    (fun _ => history_opened hdb) ?_ ops hs hops
  intro ops op s h hw hops
  exact ((h fun o ho => hops o (List.mem_append_left _ ho)).step
    (hops op (List.mem_append_right _ List.mem_cons_self)) hw).1

/-- What a save leaves in the record of a stored chunk. -/
theorem recordHolds_saved {s : ChunkManager} (hI : CacheInv s) {x y z : Int32} (hy : inHeight y)
    (hs : s.Stored (keyOf x z)) : RecordHolds s.saved.db x z fun c =>
      c.getBlockTypeId (x &&& 15) y (z &&& 15) =
        .ok (unsigned (s.typeOf (keyOf x z) (cellOf x y z))) ∧
      c.getBlockData (x &&& 15) y (z &&& 15) = .ok (s.dataOf (keyOf x z) (cellOf x y z)) := by
  obtain ⟨raw, hraw⟩ := Option.ne_none_iff_exists'.mp (stored_saved hI hs)
  obtain ⟨c, hc, -, -, -, ht, hd⟩ := loadFromByteArray_spec (Chunk.new (x >>> 4) (z >>> 4))
    (recordsOk_saved hI _ _ _ hraw)
  have hlt := cellOf_lt hy x z
  obtain ⟨h1, h2⟩ := dbType_saved hI (keyOf x z) hlt
  refine ⟨raw, c, hraw, hc, ?_, ?_⟩
  · rw [c.getBlockTypeId_spec (inRange_of_inHeight hy x z), ← h1, dbType, hraw]
    exact congrArg (fun t => Except.ok (unsigned t)) (ht _ hlt)
  · rw [c.getBlockData_spec (inRange_of_inHeight hy x z), ← h2, dbData, hraw]
    exact congrArg Except.ok (hd _ hlt)

/-- **Edits are durable** in every run none of whose edits goes through a shortcut to an unloaded
chunk. -/
theorem edits_durable (db : DB) (hdb : RecordsOk db) (ops : List Op)
    (hops : ∀ op ∈ ops, op ≠ .unloadChunks false)
    (hs : Steps exec WritesAttached (opened db) ops) : Durable db ops := by
  have h := history_run_of_attached hdb hops hs
  obtain ⟨n, hn⟩ := saveAll_eq h.inv
  have hfinal : run exec (opened db) (ops ++ [.saveAll]) = (run exec (opened db) ops).saved := by
    rw [run_concat]
    show after (Outcome.int <$> saveAll) _ = _
    rw [after, map_apply, hn]
  intro x y z hy
  rw [hfinal]
  refine ⟨fun type ht => ?_, fun data hd => ?_⟩
  · obtain ⟨op, hop, ho⟩ := exists_of_lastSet ht
    have hw := writes_of_sets hy (Or.inl ho)
    obtain ⟨raw, c, hraw, hc, h1, -⟩ := recordHolds_saved h.inv hy (h.stored op hop _ hw)
    refine ⟨raw, c, hraw, hc, h1.trans ?_⟩
    rw [h.type x y z hy, ht]
    exact congrArg Except.ok (unsigned_narrow type)
  · obtain ⟨op, hop, ho⟩ := exists_of_lastSet hd
    have hw := writes_of_sets hy (Or.inr ho)
    obtain ⟨raw, c, hraw, hc, -, h2⟩ := recordHolds_saved h.inv hy (h.stored op hop _ hw)
    refine ⟨raw, c, hraw, hc, h2.trans ?_⟩
    rw [h.data x y z hy, hd]
    rfl

/-- Unloading between two edits of a block is harmless when another chunk is visited in between. -/
theorem edits_durable_unload : Durable ∅ [.setBlockTypeId 0 0 0 1, .unloadChunks true,
    .getChunk 1 0, .setBlockTypeId 0 0 0 2] := by
  refine edits_durable ∅ recordsOk_empty _ (by simp) ⟨?_, ?_, ?_, ?_, trivial⟩
  · rintro k - ⟨hk, -⟩
    cases hk
  · intro k hk
    cases hk
  · intro k hk
    cases hk
  · rintro k hk ⟨hl, -⟩
    rw [show exec (.getChunk 1 0) = Outcome.chunk <$> getChunk 1 0 from rfl, after_map,
      lastKey_getChunk] at hl
    obtain rfl := Option.some.inj hl
    exact absurd hk (by decide)

/-! ## An edit that is lost -/

/-- **An operation on the chunk of the shortcut** reaches neither the map nor the database, detached or
not. -/
theorem after_exec_hit {s : ChunkManager} {k : Key} (hl : s.lastKey = some k) {op : Op}
    (hk : op.key? = some k) : ∃ heap, after (exec op) s = { s with heap := heap } := by
  rcases after_exec_cases hk with ⟨f, h⟩ | ⟨f, -, h⟩ | h
  · refine ⟨s.heap, ?_⟩
    rw [h, after_bind, getChunk_hit hl]
    exact after_call _ f s
  · rw [h, after_bind, getChunk_hit hl]
    dsimp only
    rcases after_update s.lastChunk f s with hs | ⟨i, c, c', -, -, hs⟩
    · exact ⟨s.heap, hs⟩
    · exact ⟨_, hs⟩
  · refine ⟨s.heap, ?_⟩
    rw [h, after_of_ok (getChunk_hit hl)]

/-- What follows `getChunk` in an operation leaves the shortcut's key alone. -/
theorem lastKey_bind {α : Type} (x z : Int32) {f : Option Ref → M α}
    (hf : ∀ r s, (after (f r) s).lastKey = s.lastKey) (s : ChunkManager) :
    (after (getChunk x z >>= f) s).lastKey = some ⟨x, z⟩ := by
  have hl := lastKey_getChunk x z s
  rw [after_bind]
  unfold after at hl
  cases hg : getChunk x z s with
  | error e s' =>
    rw [hg] at hl
    exact hl
  | ok r s' =>
    rw [hg] at hl
    exact (hf r s').trans hl

theorem lastKey_call (r : Option Ref) (f : Chunk → Except Exn Int32) (s : ChunkManager) :
    (after (call r f) s).lastKey = s.lastKey := by
  rw [after_call]

theorem lastKey_update (r : Option Ref) (f : Chunk → Except Exn Chunk) (s : ChunkManager) :
    (after (update r f) s).lastKey = s.lastKey := by
  rcases after_update r f s with h | ⟨i, c, c', -, -, h⟩ <;> rw [h]

/-- After an operation on a chunk the shortcut has its key. -/
theorem lastKey_exec {op : Op} {k : Key} (hk : op.key? = some k) (s : ChunkManager) :
    (after (exec op) s).lastKey = some k := by
  rcases after_exec_cases hk with ⟨f, h⟩ | ⟨f, -, h⟩ | h
  · rw [h]
    exact lastKey_bind _ _ (fun r s => lastKey_call r f s) s
  · rw [h]
    exact lastKey_bind _ _ (fun r s => lastKey_update r f s) s
  · rw [h]
    exact lastKey_getChunk k.x k.z s

/-- Saving with nothing loaded leaves the database alone. -/
theorem saveAll_of_unloaded {s : ChunkManager} (h : s.chunks = ∅) : after (exec .saveAll) s = s := by
  show after (Outcome.int <$> saveAll) s = s
  rw [after_map]
  simp [saveAll, saveEntries, after, h]

/-- The second edit of block `(0, 0, 0)` is not in the record after the final save. -/
theorem edit_lost_after_unload :
    RecordsOk ∅ ∧ (∀ op ∈ ([.setBlockTypeId 0 0 0 1, .unloadChunks true, .setBlockTypeId 0 0 0 2] :
      List Op), op ≠ .unloadChunks false) ∧
    ¬ Durable ∅ [.setBlockTypeId 0 0 0 1, .unloadChunks true, .setBlockTypeId 0 0 0 2] := by
  refine ⟨recordsOk_empty, by simp, fun hdur => ?_⟩
  have h0 : inHeight 0 := by decide
  have hkey : ∀ type, (Op.setBlockTypeId 0 0 0 type).key? = some (keyOf 0 0) :=
    fun _ => rfl
  set s1 := after (exec (.setBlockTypeId 0 0 0 1)) (opened ∅) with hs1
  set s2 := after (exec (.unloadChunks true)) s1 with hs2
  -- the history of the first two operations, none of which writes through the shortcut
  have hH : History ∅ [.setBlockTypeId 0 0 0 1, .unloadChunks true] s2 := by
    refine history_run_of_attached recordsOk_empty (by simp) ⟨?_, ?_, trivial⟩
    · rintro k - ⟨hk, -⟩
      cases hk
    · intro k hk
      cases hk
  have hH1 : History ∅ [.setBlockTypeId 0 0 0 1] s1 := by
    refine history_run_of_attached recordsOk_empty (by simp) ⟨?_, trivial⟩
    rintro k - ⟨hk, -⟩
    cases hk
  have hempty : s2 = { s1.saved with chunks := ∅ } := by
    obtain ⟨n, hn⟩ := saveAll_eq hH1.inv
    rw [hs2]
    show after (Bind.bind (unloadChunks true) fun _ => pure Outcome.unit) s1 = _
    simp [after, unloadChunks, hn]
  have hd : s2.Detached (keyOf 0 0) := by
    refine ⟨?_, by rw [hempty]; simp⟩
    rw [hempty]
    exact lastKey_exec (hkey 1) _
  obtain ⟨heap, h3⟩ := after_exec_hit hd.1 (hkey 2)
  have hdb : (run exec (opened ∅) ([.setBlockTypeId 0 0 0 1, .unloadChunks true,
      .setBlockTypeId 0 0 0 2] ++ [.saveAll])).db = s2.db := by
    rw [run_concat]
    show (after (exec .saveAll) (after (exec (.setBlockTypeId 0 0 0 2)) s2)).db = _
    rw [h3, saveAll_of_unloaded (by rw [hempty])]
  obtain ⟨raw, c, hraw, hc, h2⟩ := (hdur 0 0 0 h0).1 2 rfl
  rw [hdb] at hraw
  -- the record still holds the first type
  obtain ⟨c', hc', -, -, -, ht, -⟩ := loadFromByteArray_spec
    (Chunk.new ((0 : Int32) >>> 4) ((0 : Int32) >>> 4)) (hH.inv.records _ _ _ hraw)
  obtain rfl : c = c' := Except.ok.inj (hc.symm.trans hc')
  have h1 := hH.type 0 0 0 h0
  rw [typeOf, chunkAt_of_unmapped (by rw [hempty]; simp), dbType,
    show getChunkData s2.db (keyOf 0 0).x (keyOf 0 0).z = some raw from hraw] at h1
  rw [c.getBlockTypeId_spec (inRange_of_inHeight h0 0 0),
    ht _ (cellIdx_lt (inRange_of_inHeight h0 0 0))] at h2
  have h12 : unsigned (((lastType [.setBlockTypeId 0 0 0 1, .unloadChunks true] 0 0 0).map
      narrow).getD (dbType ∅ (keyOf 0 0) (cellOf 0 0 0))) = 2 &&& 255 := by
    rw [← h1]
    exact Except.ok.inj h2
  exact absurd h12 (by decide)

end WorldToPE.ChunkManager
