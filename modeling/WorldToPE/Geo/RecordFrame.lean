import WorldToPE.Geo.BlockMap

/-!
# WorldToPE.Geo.RecordFrame — what editing a chunk does to the rest of its record

A record is sliced into six arrays when a chunk is loaded and put together again when it is saved; the
result always has three spare bytes behind the grass colours, whatever the record had there.

* `loadFromByteArray_rest`, `saveToByteArray_slices`: the layers that no edit touches, in both directions.
* `run_edits`: a run of edits of one chunk changes the edited cells of the loaded chunk only.
* `keepsRest_iff`: the records that come back with nothing else changed.
-/

namespace WorldToPE

open Java Run Nibble

namespace Chunk

/-! ## The layers that an edit does not touch -/

/-- `c'` has the lights and the grass colours of `c`. -/
structure SameRest (c c' : Chunk) : Prop where
  skyLight : c'.skyLight = c.skyLight
  blockLight : c'.blockLight = c.blockLight
  grassColor : c'.grassColor = c.grassColor

theorem SameRest.marked {c d : Chunk} (h : SameRest c d) :
    SameRest c (d.setDirtyTable.setNeedsSaving true) := by
  obtain ⟨t, f, hd⟩ := setDirtyTable_eq d
  rw [hd]
  exact ⟨h.skyLight, h.blockLight, h.grassColor⟩

theorem setBlockTypeId_rest {c c' : Chunk} {x y z type : Int32}
    (h : c.setBlockTypeId x y z type = .ok c') : SameRest c c' := by
  unfold setBlockTypeId at h
  split at h
  · obtain ⟨d, hd, h⟩ := bind_eq_ok.mp h
    obtain ⟨blocks, -, hd⟩ := bind_eq_ok.mp hd
    obtain rfl := Except.ok.inj hd
    obtain rfl := Except.ok.inj h
    exact SameRest.marked ⟨rfl, rfl, rfl⟩
  · obtain rfl := Except.ok.inj h
    exact ⟨rfl, rfl, rfl⟩

theorem setBlockData_rest {c c' : Chunk} {x y z newData : Int32}
    (h : c.setBlockData x y z newData = .ok c') : SameRest c c' := by
  unfold setBlockData at h
  split at h
  · obtain ⟨d, hd, h⟩ := bind_eq_ok.mp h
    obtain ⟨metaData, -, hd⟩ := bind_eq_ok.mp hd
    obtain rfl := Except.ok.inj hd
    obtain rfl := Except.ok.inj h
    exact SameRest.marked ⟨rfl, rfl, rfl⟩
  · obtain rfl := Except.ok.inj h
    exact ⟨rfl, rfl, rfl⟩

/-! ## The slices of a record -/

/-- The lights of a record, one layer behind the other. -/
def recordLights (raw : List UInt8) : List UInt8 := (raw.drop 49152).take 32768

/-- What stands behind the dirty table. -/
def recordTail (raw : List UInt8) : List UInt8 := raw.drop 82176

theorem loadFromByteArray_rest {c c' : Chunk} {raw : List UInt8} (hlen : minRecord ≤ raw.length)
    (h : c.loadFromByteArray raw = .ok c') :
    c'.skyLight.toList ++ c'.blockLight.toList = recordLights raw ∧
      c'.grassColor.toList = (recordTail raw).take 768 := by
  unfold minRecord at hlen
  unfold loadFromByteArray at h
  obtain ⟨v1, -, h⟩ := bind_eq_ok.mp h
  obtain ⟨v2, -, h⟩ := bind_eq_ok.mp h
  obtain ⟨v3, e3, h⟩ := bind_eq_ok.mp h
  obtain ⟨v4, e4, h⟩ := bind_eq_ok.mp h
  obtain ⟨v5, -, h⟩ := bind_eq_ok.mp h
  obtain ⟨v6, e6, h⟩ := bind_eq_ok.mp h
  obtain rfl := Except.ok.inj h
  have slice {n p : ℕ} {v : Vector UInt8 n} (hp : p + n ≤ raw.length)
      (hv : arraycopyFrom raw p n = .ok v) : v.toList = (raw.drop p).take n := by
    obtain ⟨w, hw, hl⟩ := arraycopyFrom_ok (n := n) raw p hp
    obtain rfl := Except.ok.inj (hv.symm.trans hw)
    exact hl
  constructor
  · show v3.toList ++ v4.toList = _
    rw [slice (by omega) e3, slice (by omega) e4, recordLights, show 65536 = 49152 + 16384 by norm_num,
      ← List.drop_drop, ← List.take_add]
  · exact slice (by omega) e6

theorem saveToByteArray_slices (c : Chunk) :
    recordLights c.saveToByteArray = c.skyLight.toList ++ c.blockLight.toList ∧
      recordTail c.saveToByteArray = c.grassColor.toList ++ [0, 0, 0] := by
  have hfront : (c.blocks.toList ++ c.metaData.toList).length = 49152 := by simp
  have hlights : (c.skyLight.toList ++ c.blockLight.toList).length = 32768 := by simp
  have hall : (c.blocks.toList ++ c.metaData.toList ++ (c.skyLight.toList ++ c.blockLight.toList) ++
      c.dirtyTable.toList).length = 82176 := by simp
  constructor
  · have hsave : c.saveToByteArray = (c.blocks.toList ++ c.metaData.toList) ++
        ((c.skyLight.toList ++ c.blockLight.toList) ++
          (c.dirtyTable.toList ++ (c.grassColor.toList ++ [0, 0, 0]))) := by
      simp [saveToByteArray]
    rw [recordLights, hsave, List.drop_left' hfront, List.take_left' hlights]
  · have hsave : c.saveToByteArray = (c.blocks.toList ++ c.metaData.toList ++
        (c.skyLight.toList ++ c.blockLight.toList) ++ c.dirtyTable.toList) ++
          (c.grassColor.toList ++ [0, 0, 0]) := by
      simp [saveToByteArray]
    rw [recordTail, hsave, List.drop_left' hall]

end Chunk

namespace ChunkManager

open Chunk

/-! ## The property -/

/-- An operation of the list edits cell `i` of chunk `key`. -/
def EditsCell (ops : List Op) (key : Key) (i : ℕ) : Prop :=
  ∃ op ∈ ops, (op.typeEdit key i).isSome ∨ (op.dataEdit key i).isSome

/-- The record `raw'` has the length of `raw` and differs from it only in the types and the data of the
edited cells and in the dirty table. -/
structure KeepsRest (ops : List Op) (key : Key) (raw raw' : List UInt8) : Prop where
  length : raw'.length = raw.length
  types : ∀ i < 32768, ¬ EditsCell ops key i → recordType raw' i = recordType raw i
  data : ∀ i < 32768, ¬ EditsCell ops key i → recordData raw' i = recordData raw i
  lights : recordLights raw' = recordLights raw
  tail : recordTail raw' = recordTail raw

/-! ## One edit -/

/-- `c'` is `c` after edits of some cells. -/
structure EditedBy (ops : List Op) (key : Key) (c c' : Chunk) : Prop
    extends SameRest c c' where
  x : c'.x = c.x
  z : c'.z = c.z
  type : ∀ i, ¬ EditsCell ops key i → c'.typeCell i = c.typeCell i
  data : ∀ i, ¬ EditsCell ops key i → c'.dataCell i = c.dataCell i

theorem EditedBy.concat {ops : List Op} {op : Op} {key : Key} {c c' c'' : Chunk}
    (h : EditedBy ops key c c') (h' : EditedBy [op] key c' c'') :
    EditedBy (ops ++ [op]) key c c'' := by
  have hsplit {i : ℕ} (hi : ¬ EditsCell (ops ++ [op]) key i) :
      ¬ EditsCell ops key i ∧ ¬ EditsCell [op] key i := by
    constructor
    · rintro ⟨o, ho, he⟩
      exact hi ⟨o, List.mem_append_left _ ho, he⟩
    · rintro ⟨o, ho, he⟩
      exact hi ⟨o, List.mem_append_right _ ho, he⟩
  refine ⟨⟨h'.skyLight.trans h.skyLight, h'.blockLight.trans h.blockLight,
    h'.grassColor.trans h.grassColor⟩, h'.x.trans h.x, h'.z.trans h.z, fun i hi => ?_, fun i hi => ?_⟩
  · exact (h'.type i (hsplit hi).2).trans (h.type i (hsplit hi).1)
  · exact (h'.data i (hsplit hi).2).trans (h.data i (hsplit hi).1)

theorem Edited.editedBy {op : Op} {key : Key} {c c' : Chunk} (hrest : SameRest c c')
    (h : Chunk.Edited c c' (fun i => (op.typeEdit key i).getD (c.typeCell i))
      (fun i => (op.dataEdit key i).getD (c.dataCell i))) : EditedBy [op] key c c' := by
  have hnone {i : ℕ} (hi : ¬ EditsCell [op] key i) :
      op.typeEdit key i = none ∧ op.dataEdit key i = none := by
    constructor
    · by_contra ht
      exact hi ⟨op, List.mem_singleton_self _, .inl (Option.isSome_iff_ne_none.mpr ht)⟩
    · by_contra hd
      exact hi ⟨op, List.mem_singleton_self _, .inr (Option.isSome_iff_ne_none.mpr hd)⟩
  refine ⟨hrest, h.x, h.z, fun i hi => ?_, fun i hi => ?_⟩
  · rw [h.type i, (hnone hi).1]
    rfl
  · rw [h.data i, (hnone hi).2]
    rfl

/-- An operation that writes to a chunk is a method call on the chunk that `getChunk` returns. -/
theorem exec_writes {op : Op} {key : Key} (h : op.writes? = some key) :
    ∃ f : Chunk → Except Exn Chunk,
      (∀ s, after (exec op) s = after (do let r ← getChunk key.x key.z; update r f) s) ∧
      ∀ c, ∃ c', f c = .ok c' ∧ c'.needsSaving = true ∧ EditedBy [op] key c c' := by
  cases op with
  | setBlockTypeId x y z type =>
    obtain ⟨hy, hkey⟩ := Option.ite_none_right_eq_some.mp h
    obtain rfl := Option.some.inj hkey
    refine ⟨fun c => c.setBlockTypeId (x &&& 15) y (z &&& 15) type, fun s => ?_, fun c => ?_⟩
    · show after (Bind.bind (setBlockTypeId x y z type) fun _ => pure Outcome.unit) s = _
      rw [after_bind_pure, setBlockTypeId, if_pos (lt_height_iff.mpr hy)]
      rfl
    · obtain ⟨c', hc', he⟩ := setBlockTypeId_edits hy x z type c
      refine ⟨c', hc', he.needsSaving, Edited.editedBy (setBlockTypeId_rest hc') ?_⟩
      simpa [Op.typeEdit, Op.dataEdit, hy] using he
  | setBlockData x y z data =>
    obtain ⟨hy, hkey⟩ := Option.ite_none_right_eq_some.mp h
    obtain rfl := Option.some.inj hkey
    refine ⟨fun c => c.setBlockData (x &&& 15) y (z &&& 15) data, fun s => ?_, fun c => ?_⟩
    · show after (Bind.bind (setBlockData x y z data) fun _ => pure Outcome.unit) s = _
      rw [after_bind_pure, setBlockData, if_pos (lt_height_iff.mpr hy)]
      rfl
    · obtain ⟨c', hc', he⟩ := setBlockData_edits hy x z data c
      refine ⟨c', hc', he.needsSaving, Edited.editedBy (setBlockData_rest hc') ?_⟩
      simpa [Op.typeEdit, Op.dataEdit, hy] using he
  | _ => cases h

/-! ## A run of edits of one chunk -/

/-- The manager that has loaded one chunk. -/
def holding (db : DB) (key : Key) (c : Chunk) : ChunkManager :=
  ⟨(∅ : Std.HashMap Key Ref).insert key 0, db, some 0, some key, [c]⟩

section Edits

variable {db : DB} {key : Key} {ops : List Op} {op : Op} {c c₀ : Chunk}

theorem after_exec_opened (h : op.writes? = some key) (hread : readChunk db key = .ok c₀) :
    ∃ c, after (exec op) (opened db) = holding db key c ∧ c.needsSaving = true ∧
      EditedBy [op] key c₀ c := by
  obtain ⟨f, hf, hedit⟩ := exec_writes h
  obtain ⟨c, hc, hsave, he⟩ := hedit c₀
  refine ⟨c, ?_, hsave, he⟩
  have hload : getChunk key.x key.z (opened db) = .ok (some 0) (holding db key c₀) := by
    rw [getChunk_loaded (by intro h; cases h) (by simp [opened]) hread]
    rfl
  rw [hf, after_bind, hload]
  exact after_of_ok (update_ok (s := holding db key c₀) rfl hc)

theorem after_exec_holding (h : op.writes? = some key) :
    ∃ c', after (exec op) (holding db key c) = holding db key c' ∧ c'.needsSaving = true ∧
      EditedBy [op] key c c' := by
  obtain ⟨f, hf, hedit⟩ := exec_writes h
  obtain ⟨c', hc', hsave, he⟩ := hedit c
  refine ⟨c', ?_, hsave, he⟩
  rw [hf, after_bind, getChunk_hit rfl]
  exact after_of_ok (update_ok (s := holding db key c) rfl hc')

/-- **Run lemma**: a run of edits loads the chunk once and changes the edited cells. -/
theorem run_edits (hread : readChunk db key = .ok c₀) (hne : ops ≠ [])
    (hops : ∀ op ∈ ops, op.writes? = some key) :
    ∃ c, run exec (opened db) ops = holding db key c ∧ c.needsSaving = true ∧ EditedBy ops key c₀ c := by
  induction ops using List.reverseRecOn with
  | nil => exact absurd rfl hne
  | append_singleton ops op ih =>
    have hop := hops op (List.mem_append_right _ (List.mem_singleton_self _))
    rw [run_concat]
    rcases eq_or_ne ops [] with rfl | hne'
    · exact after_exec_opened hop hread
    · obtain ⟨c, hrun, -, he⟩ := ih hne' fun o ho => hops o (List.mem_append_left _ ho)
      have hstep : ∃ c', after (exec op) (holding db key c) = holding db key c' ∧
          c'.needsSaving = true ∧ EditedBy [op] key c c' := after_exec_holding hop
      obtain ⟨c', hc', hsave, he'⟩ := hstep
      rw [hrun]
      exact ⟨c', hc', hsave, he.concat he'⟩

/-- `saveAll` writes the one chunk. -/
theorem saveAll_holding (hx : c.x = key.x) (hz : c.z = key.z) (hsave : c.needsSaving = true) :
    getChunkData (after (exec .saveAll) (holding db key c)).db key.x key.z = some c.saveToByteArray := by
  have hmem : (key, 0) ∈ (holding db key c).chunks.toList :=
    Std.HashMap.mem_toList_iff_getElem?_eq_some.mpr (by simp [holding])
  have hvalid : ValidEntries (holding db key c).heap (holding db key c).chunks.toList := by
    rintro ⟨k, r⟩ hp
    have hk := Std.HashMap.mem_toList_iff_getElem?_eq_some.mp hp
    simp only [holding, Std.HashMap.getElem?_insert, beq_iff_eq, Std.HashMap.getElem?_empty,
      Option.ite_none_right_eq_some, Option.some.injEq] at hk
    obtain ⟨rfl, rfl⟩ := hk
    exact ⟨c, rfl, hx, hz⟩
  obtain ⟨n, hn⟩ := saveEntries_eq (holding db key c).chunks.toList 0 _ hvalid
  have hall : exec .saveAll (holding db key c) = .ok (.int n) (holding db key c).saved := by
    show (Outcome.int <$> saveAll) _ = _
    have : saveAll (holding db key c) = .ok n (holding db key c).saved := hn
    rw [map_apply, this]
  rw [after_of_ok hall]
  show getChunkData (savedDB _ _ _) _ _ = _
  rw [getChunkData_savedDB_of_mem _ _ hvalid (nodup_keys _) hmem rfl, if_pos hsave]

end Edits

/-! ## The record -/

/-- The record of a chunk after edits, against the record that it was loaded from. -/
theorem keepsRest_save {ops : List Op} {key : Key} {raw : List UInt8} {c₀ c : Chunk}
    (hlen : minRecord ≤ raw.length) (hload : (Chunk.new key.x key.z).loadFromByteArray raw = .ok c₀)
    (he : EditedBy ops key c₀ c) :
    KeepsRest ops key raw c.saveToByteArray ↔ raw.drop 82944 = [0, 0, 0] := by
  obtain ⟨c₁, hc₁, -, -, -, htype, hdata⟩ := loadFromByteArray_spec (Chunk.new key.x key.z) hlen
  obtain rfl := Except.ok.inj (hload.symm.trans hc₁)
  obtain ⟨hlights, hgrass⟩ := loadFromByteArray_rest hlen hload
  obtain ⟨hlights', htail'⟩ := saveToByteArray_slices c
  have htail : recordTail raw = (recordTail raw).take 768 ++ raw.drop 82944 := by
    rw [recordTail, show 82944 = 82176 + 768 by norm_num, ← List.drop_drop, List.take_append_drop]
  rw [he.grassColor, hgrass] at htail'
  constructor
  · intro h
    exact (List.append_cancel_left (htail'.symm.trans (h.tail.trans htail))).symm
  · intro h
    have hraw : raw.length - 82944 = 3 := by
      rw [← List.length_drop, h]
      rfl
    refine ⟨?_, fun i hi hno => ?_, fun i hi hno => ?_, ?_, ?_⟩
    · rw [length_saveToByteArray]
      omega
    · rw [(record_save c hi).1, he.type i hno, htype i hi]
    · rw [(record_save c hi).2, he.data i hno, hdata i hi]
    · rw [hlights', he.skyLight, he.blockLight, hlights]
    · rw [htail', htail, h, List.take_left' (by simp [recordTail]; omega)]

/-- **The record after edits** and `saveAll`: that of the loaded chunk with the edits. -/
theorem getChunkData_edited {db : DB} {key : Key} {raw : List UInt8} {ops : List Op}
    (hraw : getChunkData db key.x key.z = some raw) (hlen : minRecord ≤ raw.length) (hne : ops ≠ [])
    (hops : ∀ op ∈ ops, op.writes? = some key) : ∃ c₀ c,
      (Chunk.new key.x key.z).loadFromByteArray raw = .ok c₀ ∧ EditedBy ops key c₀ c ∧
      getChunkData (run exec (opened db) (ops ++ [.saveAll])).db key.x key.z =
        some c.saveToByteArray := by
  obtain ⟨c₀, hload, hx, hz, -⟩ := loadFromByteArray_spec (Chunk.new key.x key.z) hlen
  have hread : readChunk db key = .ok c₀ := by
    rw [readChunk, hraw]
    exact hload
  obtain ⟨c, hrun, hsave, he⟩ := run_edits hread hne hops
  refine ⟨c₀, c, hload, he, ?_⟩
  rw [run_concat, hrun]
  exact saveAll_holding (he.x.trans hx) (he.z.trans hz) hsave

/-- **Which records keep the rest.**  After any edits of a loaded chunk and `saveAll`, the record has
changed in the edited cells and the dirty table only if and only if the old record has three zero bytes
behind the grass colours, and nothing else. -/
theorem keepsRest_iff (db : DB) (key : Key) (raw : List UInt8)
    (hraw : getChunkData db key.x key.z = some raw) (hlen : minRecord ≤ raw.length) (ops : List Op)
    (hne : ops ≠ []) (hops : ∀ op ∈ ops, op.writes? = some key) :
    (∃ raw', getChunkData (run exec (opened db) (ops ++ [.saveAll])).db key.x key.z = some raw' ∧
        KeepsRest ops key raw raw') ↔ raw.drop 82944 = [0, 0, 0] := by
  obtain ⟨c₀, c, hload, he, hsaved⟩ := getChunkData_edited hraw hlen hne hops
  rw [hsaved]
  constructor
  · rintro ⟨raw', hraw', h⟩
    obtain rfl := Option.some.inj hraw'
    exact (keepsRest_save hlen hload he).mp h
  · intro h
    exact ⟨_, rfl, (keepsRest_save hlen hload he).mpr h⟩

/-- A record of ones with the given bytes behind the grass colours. -/
def recordOf (spare : List UInt8) : List UInt8 := List.replicate 82944 1 ++ spare

theorem length_recordOf (spare : List UInt8) : (recordOf spare).length = 82944 + spare.length := by
  rw [recordOf, List.length_append, List.length_replicate]

theorem minRecord_le_recordOf (spare : List UInt8) : minRecord ≤ (recordOf spare).length := by
  rw [length_recordOf]
  exact Nat.le_add_right _ _

theorem getChunkData_recordOf (spare : List UInt8) :
    getChunkData (writeChunkData ∅ 0 0 (recordOf spare)) 0 0 = some (recordOf spare) := by
  rw [getChunkData_writeChunkData, if_pos ⟨rfl, rfl⟩]

theorem keepsRest_spareBytes : ∃ raw',
    getChunkData (run exec (opened (writeChunkData ∅ 0 0 (recordOf [0, 0, 0])))
      ([.setBlockTypeId 1 2 3 4, .setBlockData 1 2 3 5] ++ [.saveAll])).db 0 0 = some raw' ∧
    KeepsRest [.setBlockTypeId 1 2 3 4, .setBlockData 1 2 3 5] ⟨0, 0⟩ (recordOf [0, 0, 0]) raw' := by
  refine (keepsRest_iff _ ⟨0, 0⟩ _ (getChunkData_recordOf _)
    (minRecord_le_recordOf _) _ (by simp) ?_).mpr ?_
  · intro op hop
    simp only [List.mem_cons, List.not_mem_nil, or_false] at hop
    rcases hop with rfl | rfl <;> decide
  · rw [recordOf, List.drop_left' List.length_replicate]

/-- A record with the 256 biome bytes behind its grass colours loses them. -/
theorem not_keepsRest_biomes : ¬ ∃ raw',
    getChunkData (run exec (opened (writeChunkData ∅ 0 0 (recordOf (List.replicate 256 1))))
      ([.setBlockTypeId 1 2 3 4] ++ [.saveAll])).db 0 0 = some raw' ∧
    KeepsRest [.setBlockTypeId 1 2 3 4] ⟨0, 0⟩ (recordOf (List.replicate 256 1)) raw' := by
  rintro ⟨raw', hraw', h⟩
  have hops : ∀ op ∈ [Op.setBlockTypeId 1 2 3 4], op.writes? = some ⟨0, 0⟩ := by
    simp only [List.mem_singleton, forall_eq]
    decide
  obtain ⟨c₀, c, -, -, hsaved⟩ := @getChunkData_edited _ ⟨0, 0⟩ _ [.setBlockTypeId 1 2 3 4]
    (getChunkData_recordOf (List.replicate 256 1)) (minRecord_le_recordOf _) (List.cons_ne_nil _ _) hops
  obtain rfl := Option.some.inj (hsaved.symm.trans hraw')
  have hsame := h.length
  rw [length_saveToByteArray, length_recordOf, List.length_replicate] at hsame
  omega

end ChunkManager

end WorldToPE
