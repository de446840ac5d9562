import WorldToPE.LevelDB.SaveOutcome
import WorldToPE.Data.TileEntityRoundTrip
import WorldToPE.Nbt.RoundTrip

/-!
# WorldToPE.LevelDB.TileEntities — tile entities written to the database and read again

`writeAllTileEntities` concatenates the encodings of a chunk in the order of the list;
`readAllEntities` visits the keys in the order of their bytes and decodes each value to its end.  So
the list comes back chunk by chunk.

* `perm_flatMap_filter`: a list sorted into groups.
* `Encodes.holds`: what was written for a chunk is read as the objects of the chunk.
* `OnePerCompound.eq_flatMap`: what a pass over the entries returns.
* `readAllEntities_writeAllTileEntities`: both together.
-/

namespace WorldToPE

/-! ## Groups -/

/-- A list that is sorted into groups by `f`, the groups in the order of `ks`. -/
theorem perm_flatMap_filter {α κ : Type} [DecidableEq κ] (f : α → κ) : ∀ {ks : List κ} {as : List α},
    ks.Nodup → (∀ a ∈ as, f a ∈ ks) → (ks.flatMap fun k => as.filter fun a => f a = k).Perm as
  | [], as, _, h => by
    rcases as with _ | ⟨a, as⟩
    · rfl
    · exact absurd (h a List.mem_cons_self) List.not_mem_nil
  | k :: ks, as, hnd, h => by
    obtain ⟨hk, hnd⟩ := List.nodup_cons.mp hnd
    have hrest : (ks.flatMap fun k' => as.filter fun a => f a = k') =
        ks.flatMap fun k' => (as.filter fun a => !decide (f a = k)).filter fun a => f a = k' := by
      refine List.flatMap_congr fun k' hk' => ?_
      rw [List.filter_filter]
      refine List.filter_congr fun a _ => ?_
      have hne : k' ≠ k := fun he => hk (he ▸ hk')
      by_cases ha : f a = k'
      · simp [ha, hne]
      · simp [ha]
    rw [List.flatMap_cons, hrest]
    refine List.Perm.trans (List.Perm.append_left _ (perm_flatMap_filter f hnd ?_))
      (List.filter_append_perm (fun a => decide (f a = k)) as)
    intro a ha
    obtain ⟨ha, hne⟩ := List.mem_filter.mp ha
    exact (List.mem_cons.mp (h a ha)).resolve_left (by simpa using hne)

namespace LevelDBConverter

open Java Run NBTConverter

/-- The chunk of a tile entity. -/
def chunkOf (t : TileEntity) : Int32 × Int32 := (t.x >>> 4, t.z >>> 4)

/-- The codec returns the tag from its encoding, whatever follows, and leaves what follows. -/
def Decodes (w : Tag) : Prop :=
  ∃ enc, writeTag true w = .ok enc ∧ ∀ rest, readTag true (enc ++ rest) = .ok w rest

theorem decodes_of_encodable {w : Tag} (h : Encodable w) : Decodes w := by
  obtain ⟨enc, hw, -, hr⟩ := readTag_append true h
  exact ⟨enc, hw, hr⟩

/-- The same objects, chunk by chunk, each chunk in the order of the list. -/
def ByChunk (ts rs : List TileEntity) : Prop :=
  rs.Perm ts ∧ ∃ chunks : List (Int32 × Int32), chunks.Nodup ∧
    rs = chunks.flatMap fun c => ts.filter fun t => chunkOf t = c

/-! ## One value -/

section Value

variable {α : Type} {kind : RecordKind α} {read : Tag → Except Exn (Option α)}

/-- An object whose encoding is read as the object again. -/
def ReadsBack (kind : RecordKind α) (read : Tag → Except Exn (Option α)) (e : α) : Prop :=
  ∃ w, kind.write e = .ok w ∧ Decodes w ∧ read w = .ok (some e)

theorem ReadsBack.encode {e : α} (h : ReadsBack kind read e) : ∃ enc, kind.encode e = .ok enc := by
  obtain ⟨w, hw, ⟨enc, henc, -⟩, -⟩ := h
  exact ⟨enc, bind_eq_ok.mpr ⟨w, hw, henc⟩⟩

/-- **What was written for a chunk is read as the objects of the chunk.** -/
theorem Encodes.holds {es : List α} {v : List UInt8} (hes : ∀ e ∈ es, ReadsBack kind read e)
    (h : kind.Encodes es v) : Holds read v es := by
  obtain ⟨encs, hall, rfl⟩ := h
  induction hall with
  | nil => exact ⟨[], .nil, .nil⟩
  | cons he hall ih =>
    rename_i e enc es encs
    obtain ⟨cs, hc, hcs⟩ := ih fun e' he' => hes e' (List.mem_cons_of_mem _ he')
    obtain ⟨w, hw, ⟨enc', henc', hdec⟩, hr⟩ := hes e List.mem_cons_self
    obtain ⟨w', hw', henc⟩ := bind_eq_ok.mp he
    obtain rfl := Except.ok.inj (hw.symm.trans hw')
    obtain rfl := Except.ok.inj (henc'.symm.trans henc)
    exact ⟨w :: cs, .cons (hdec _) hc, .cons hr hcs⟩

theorem Compounds.unique {v : List UInt8} {cs cs' : List Tag} (h : Compounds v cs)
    (h' : Compounds v cs') : cs = cs' := by
  induction h generalizing cs' with
  | nil =>
    cases h' with
    | nil => rfl
    | cons head' _ => exact absurd head' (readTag_nil _ _)
  | cons head tail ih =>
    cases h' with
    | nil => exact absurd head (readTag_nil _ _)
    | cons head' tail' =>
      obtain ⟨rfl, rfl⟩ := EStateM.Result.ok.inj (head.symm.trans head')
      rw [ih tail']

theorem Holds.unique {v : List UInt8} {as as' : List α} (h : Holds read v as)
    (h' : Holds read v as') : as = as' := by
  obtain ⟨cs, hc, has⟩ := h
  obtain ⟨cs', hc', has'⟩ := h'
  obtain rfl := hc.unique hc'
  refine List.right_unique_forall₂' (fun c a a' ha ha' => ?_) has has'
  exact Option.some.inj (Except.ok.inj (ha.symm.trans ha'))

/-- **A pass over the entries** returns the objects of the keys of the type, key by key. -/
theorem OnePerCompound.eq_flatMap {type : Int32} {objects : List UInt8 → List α} :
    ∀ {entries : List (List UInt8 × List UInt8)} {as : List α}, OnePerCompound read type entries as →
      (∀ p ∈ entries, keyType p.1 = type → Holds read p.2 (objects p.1)) →
        as = ((entries.map Prod.fst).filter fun k => keyType k = type).flatMap objects
  | _, _, .nil, _ => rfl
  | _, _, .other (k := k) hk h, hv => by
    rw [h.eq_flatMap fun p hp => hv p (List.mem_cons_of_mem _ hp)]
    simp [hk]
  | _, _, .value (k := k) hk hv' h, hv => by
    rw [hv'.unique (hv _ List.mem_cons_self hk),
      h.eq_flatMap fun p hp => hv p (List.mem_cons_of_mem _ hp)]
    simp [hk]

end Value

/-! ## The whole database -/

/-- The key of the tile entities of a chunk. -/
def keyAt (c : Int32 × Int32) : List UInt8 := (DBKey.mk c.1 c.2 DBKey.TILE_ENTITY).toBytes

theorem keyAt_inj {c c' : Int32 × Int32} : keyAt c = keyAt c' ↔ c = c' := by
  rw [Prod.ext_iff]
  exact DBKey.toBytes_inj_of_type

theorem keyAt_chunkOf (t : TileEntity) : (tileEntityRecords.keyOf t).toBytes = keyAt (chunkOf t) := rfl

theorem keyType_keyAt (c : Int32 × Int32) : keyType (keyAt c) = 49 := by
  have hkey : tileEntityRecords.IsKey (keyAt c) := RecordKind.isKey_toBytes rfl
  exact RecordKind.type_of_isKey hkey (by decide)

/-- The objects that a tile entity key stands for. -/
def objectsAt (ts : List TileEntity) (k : List UInt8) : List TileEntity :=
  ts.filter fun t => keyAt (chunkOf t) = k

/-- The groups under a list of keys, each of which is the key of a chunk with objects. -/
theorem byChunk_of_keys {ts : List TileEntity} {ks : List (List UInt8)} (hnd : ks.Nodup)
    (hks : ∀ k ∈ ks, ∃ t ∈ ts, keyAt (chunkOf t) = k) (hts : ∀ t ∈ ts, keyAt (chunkOf t) ∈ ks) :
    ByChunk ts (ks.flatMap (objectsAt ts)) := by
  obtain ⟨chunks, rfl⟩ : ∃ chunks : List (Int32 × Int32), chunks.map keyAt = ks := by
    apply Set.mem_range.mp
    rw [Set.range_list_map]
    intro k hk
    obtain ⟨t, -, rfl⟩ := hks k hk
    exact ⟨chunkOf t, rfl⟩
  refine ⟨perm_flatMap_filter (fun t => keyAt (chunkOf t)) hnd hts, chunks, hnd.of_map _, ?_⟩
  rw [List.flatMap_map]
  refine List.flatMap_congr fun c _ => List.filter_congr fun t _ => ?_
  rw [decide_eq_decide, keyAt_inj]

/-- What the database holds after the save: under the keys of type `49` the groups of the list. -/
theorem entries_after_save {db db' : DB} {ts : List TileEntity} (hdb : ∀ k ∈ db, keyType k ≠ 49)
    (hw : tileEntityRecords.replaceRecords .none ts db = .ok () db') :
    (∀ t ∈ ts, keyAt (chunkOf t) ∈ db') ∧
      ∀ k v, db'[k]? = some v → (db[k]? = some v ∧ keyType k ≠ 49) ∨
        (∃ t ∈ ts, keyAt (chunkOf t) = k) ∧
          tileEntityRecords.Encodes (objectsAt ts k) v := by
  constructor
  · intro t ht
    obtain ⟨v, hv, -⟩ := RecordKind.getElem?_of_mem hw ht
    rw [keyAt_chunkOf] at hv
    rw [Std.ExtTreeMap.mem_iff_isSome_getElem?, hv]
    rfl
  · intro k v hv
    by_cases hk : ∃ t ∈ ts, keyAt (chunkOf t) = k
    · obtain ⟨t, ht, rfl⟩ := hk
      obtain ⟨v', hv', henc⟩ := RecordKind.getElem?_of_mem hw ht
      obtain rfl := Option.some.inj (hv.symm.trans hv')
      exact .inr ⟨⟨t, ht, rfl⟩, henc⟩
    · have hold := RecordKind.getElem?_of_not_mem hw (by decide) fun t ht he => hk ⟨t, ht, he⟩
      rw [if_neg fun ⟨k', hk', ht, _⟩ => hdb k' hk' ht, hv] at hold
      refine .inl ⟨hold.symm, hdb k ?_⟩
      rw [Std.ExtTreeMap.mem_iff_isSome_getElem?, ← hold]
      rfl

/-- **The tile entities come back** from every database without records of a type of its own for
entities or tile entities: the same objects, chunk by chunk. -/
theorem readAllEntities_writeAllTileEntities (db : DB) (ts : List TileEntity)
    (hdb : ∀ k ∈ db, keyType k ≠ 49 ∧ keyType k ≠ 50) (hts : ∀ t ∈ ts, WritesBack t)
    (hcodec : ∀ t ∈ ts, ∀ w, writeTileEntity t = .ok w → Decodes w) :
    ∃ db' data, writeAllTileEntities .none ts db = .ok () db' ∧
      rounds (db'.size + 1) (start db') = .returned data ∧ ByChunk ts data.tileEntities := by
  have hback : ∀ t ∈ ts, ReadsBack tileEntityRecords readSingleTileEntity t := by
    intro t ht
    obtain ⟨w, hw, hr⟩ := hts t ht
    exact ⟨w, hw, hcodec t ht w hw, hr⟩
  have hw : tileEntityRecords.replaceRecords .none ts db = .ok () (tileEntityRecords.afterPuts ts db) := by
    rcases @RecordKind.replaceRecords_cases _ tileEntityRecords .none ts db with
      ⟨hno, -⟩ | ⟨-, ⟨e, he, -⟩ | ⟨e, -, he, -⟩ | ⟨-, -, hok⟩⟩
    · exact absurd (fun t ht => (hback t ht).encode) hno
    · cases he
    · cases he
    · exact hok
  set db' := tileEntityRecords.afterPuts ts db with hdb'
  obtain ⟨hmem, hentries⟩ := entries_after_save (fun k hk => (hdb k hk).1) hw
  -- every key of type `49` stands for a group, and no key is an entity key
  have hholds : ∀ p ∈ db'.toList, keyType p.1 = 49 →
      Holds readSingleTileEntity p.2 (objectsAt ts p.1) := by
    rintro ⟨k, v⟩ hp hk
    rcases hentries k v (Std.ExtTreeMap.mem_toList_iff_getElem?_eq_some.mp hp) with h | ⟨-, henc⟩
    · exact absurd hk h.2
    · exact Encodes.holds (fun t ht => hback t (List.mem_of_mem_filter ht)) henc
  have hnone : ∀ p ∈ db'.toList, keyType p.1 ≠ DBKey.ENTITY := by
    rintro ⟨k, v⟩ hp
    rcases hentries k v (Std.ExtTreeMap.mem_toList_iff_getElem?_eq_some.mp hp) with h | ⟨⟨t, ht, rfl⟩, -⟩
    · refine (hdb k ?_).2
      rw [Std.ExtTreeMap.mem_iff_isSome_getElem?, h.1]
      rfl
    · rw [keyType_keyAt]
      decide
  obtain ⟨rs, hr, hone⟩ := rounds_spec db'.toList (start db') rfl
    (fun p hp hk => ⟨_, hholds p hp hk⟩) hnone
  rw [Std.ExtTreeMap.length_toList] at hr
  refine ⟨db', _, hw, hr, ?_⟩
  obtain rfl := hone.eq_flatMap hholds
  rw [Std.ExtTreeMap.map_fst_toList_eq_keys]
  refine byChunk_of_keys ((Std.ExtTreeMap.nodup_keys).filter _) (fun k hk => ?_) fun t ht => ?_
  · obtain ⟨hk, htype⟩ := List.mem_filter.mp hk
    have hin := Std.ExtTreeMap.mem_keys.mp hk
    rcases hentries k _ (Std.ExtTreeMap.getElem?_eq_some_getElem hin) with h | ⟨h, -⟩
    · exact absurd (of_decide_eq_true htype) h.2
    · exact h
  · refine List.mem_filter.mpr ⟨Std.ExtTreeMap.mem_keys.mpr (hmem t ht), ?_⟩
    exact decide_eq_true (keyType_keyAt _)

/-- An empty sign. -/
def signAt (x z : Int32) : TileEntity := ⟨some "Sign", x, 64, z, .sign (Vector.replicate 4 "")⟩

theorem signAt_writesBack (x z : Int32) :
    WritesBack (signAt x z) ∧ ∀ w, writeTileEntity (signAt x z) = .ok w → Decodes w := by
  have hw : writeTileEntity (signAt x z) = .ok (.compound "" (sortByName
      (saveTileBase "Sign" x 64 z ++ ownTileTags (.sign (Vector.replicate 4 ""))))) := rfl
  constructor
  · exact (writesBack_iff_fields fun _ h => by cases h).mpr ⟨by decide +kernel, by simp [TileFields.items?], rfl⟩
  · rintro w hw'
    obtain rfl := Except.ok.inj (hw.symm.trans hw')
    refine decodes_of_encodable ⟨show ShortString "" by decide, encodableChildren_iff.mpr fun t ht => ?_⟩
    rw [mem_sortByName] at ht
    simp only [saveTileBase, ownTileTags, List.mem_append, List.mem_cons, List.not_mem_nil, or_false] at ht
    rcases ht with (rfl | rfl | rfl | rfl) | (rfl | rfl | rfl | rfl) <;>
      simp [Tag.name, EncodableValue, ShortString] <;> decide

/-- Three signs in two chunks, the first of which comes second in the order of the keys. -/
theorem readAllEntities_three_signs : ∃ db' data,
    writeAllTileEntities .none [signAt 2080 0, signAt (-1) 16, signAt 2090 5]
      (single (chunkKey 0 0) [1]) = .ok () db' ∧
    rounds (db'.size + 1) (start db') = .returned data ∧
    ByChunk [signAt 2080 0, signAt (-1) 16, signAt 2090 5] data.tileEntities := by
  refine readAllEntities_writeAllTileEntities _ _ (fun k hk => ?_) (fun t ht => ?_) fun t ht => ?_
  · obtain rfl : chunkKey 0 0 = k := by simpa [single] using hk
    decide
  · simp only [List.mem_cons, List.not_mem_nil, or_false] at ht
    rcases ht with rfl | rfl | rfl <;> exact (signAt_writesBack _ _).1
  · simp only [List.mem_cons, List.not_mem_nil, or_false] at ht
    rcases ht with rfl | rfl | rfl <;> exact (signAt_writesBack _ _).2

end LevelDBConverter

end WorldToPE
