import WorldToPE.LevelDB.ReadEntities

/-!
# WorldToPE.LevelDB.WriteEntities — writing all entities of a world to the database

`LevelDBConverter.writeAllEntities` and `writeAllTileEntities` are one procedure with two types of
record: the objects are grouped by chunk in a hash map, a scan of the database collects the stale
records in a first batch, and a second batch stores the groups.  The scan decodes every key and deletes
the key that it encodes again, which need not be the key it has seen.

* `group_spec`: the grouping loop.
* `mem_stale`: the scan.
* `getElem?_of_mem`, `getElem?_of_not_mem`: the records after both batches.
* `holdsExactly_iff`: when the records are exactly the objects of the list.
-/

namespace WorldToPE.LevelDBConverter

open Java NBTConverter

/-! ## The procedure -/

/-- The exceptions of the two calls of `db.write`, if they raise any. -/
structure Faults where
  deleting : Option Exn
  putting : Option Exn

/-- `db.write(batch)`: all of the batch or nothing. -/
def writeBatch (fault : Option Exn) (batch : WriteBatch) : EStateM Exn DB Unit := fun db =>
  match fault with
  | some e => .error e db
  | none => .ok () (Store.applyBatch db batch)

/-- What the two methods differ in: the type of their records, the chunk of an object and its tag. -/
structure RecordKind (α : Type) where
  type : Int32
  x : α → Int32
  z : α → Int32
  write : α → Except Exn Tag

namespace RecordKind

variable {α : Type} (kind : RecordKind α)

/-- The grouping loop, with the key object that its rounds share. -/
def group : List α → DBKey → Std.HashMap DBKey (List UInt8) →
    Except Exn (DBKey × Std.HashMap DBKey (List UInt8))
  | [], temp, allEntitiesMap => return (temp, allEntitiesMap)
  | e :: entitiesList, temp, allEntitiesMap => do
    let tag ← kind.write e
    let temp := (temp.setX (kind.x e)).setZ (kind.z e)
    let bos := allEntitiesMap.getD temp []
    let bytes ← writeTag true tag
    group entitiesList temp (allEntitiesMap.insert temp (bos ++ bytes))

/-- The scan: the keys that the first batch deletes. -/
def stale (allEntitiesMap : Std.HashMap DBKey (List UInt8)) : List (List UInt8) → DBKey → List DBKey
  | [], _ => []
  | k :: iter, temp =>
    let temp := temp.fromBytes k
    if temp.type = kind.type ∧ temp ∉ allEntitiesMap then temp :: stale allEntitiesMap iter temp
    else stale allEntitiesMap iter temp

/-- What stands inside `try`. -/
def replaceRecords (faults : Faults) (entitiesList : List α) : EStateM Exn DB Unit := fun db =>
  match kind.group entitiesList (DBKey.zero.setType kind.type) ∅ with
  | .error e => .error e db
  | .ok (temp, allEntitiesMap) =>
    (do
      writeBatch faults.deleting ((kind.stale allEntitiesMap db.keys temp).map fun k => .delete k.toBytes)
      writeBatch faults.putting (allEntitiesMap.toList.map fun p => .put p.1.toBytes p.2) :
        EStateM Exn DB Unit) db

end RecordKind

/-- Entities: a coordinate is cast to `int` before it is shifted. -/
def entityRecords : RecordKind Entity where
  type := 50
  x e := e.base.location.x.toInt32 >>> 4
  z e := e.base.location.z.toInt32 >>> 4
  write e := writeEntity e ""

def tileEntityRecords : RecordKind TileEntity where
  type := 49
  x e := e.x >>> 4
  z e := e.z >>> 4
  write e := writeTileEntity e

/-- `writeAllEntities`: whatever is raised is caught. -/
def writeAllEntities (faults : Faults) (entitiesList : List Entity) : EStateM Exn DB Unit := fun db =>
  match entityRecords.replaceRecords faults entitiesList db with
  | .ok () db' => .ok () db'
  | .error _ db' => .ok () db'

/-- `writeAllTileEntities`: whatever is raised is raised again. -/
def writeAllTileEntities (faults : Faults) (entitiesList : List TileEntity) : EStateM Exn DB Unit :=
  tileEntityRecords.replaceRecords faults entitiesList

/-! ## The grouping loop -/

namespace RecordKind

variable {α : Type} {kind : RecordKind α}

/-- The key of the chunk that an object is assigned to. -/
def keyOf (kind : RecordKind α) (e : α) : DBKey := ⟨kind.x e, kind.z e, kind.type⟩

/-- The encoding of one object. -/
def encode (kind : RecordKind α) (e : α) : Except Exn (List UInt8) := do
  let tag ← kind.write e
  writeTag true tag

/-- The encodings of the objects, one after the other. -/
def Encodes (kind : RecordKind α) (es : List α) (v : List UInt8) : Prop :=
  ∃ encs, List.Forall₂ (fun e enc => kind.encode e = .ok enc) es encs ∧ v = encs.flatten

theorem encodes_nil : kind.Encodes [] [] := ⟨[], .nil, rfl⟩

theorem Encodes.concat {es : List α} {v enc : List UInt8} (h : kind.Encodes es v) {e : α}
    (he : kind.encode e = .ok enc) : kind.Encodes (es ++ [e]) (v ++ enc) := by
  obtain ⟨encs, h1, rfl⟩ := h
  refine ⟨encs ++ [enc], List.rel_append h1 (.cons he .nil), ?_⟩
  simp

/-- The map holds the encodings of the objects seen so far. -/
structure Grouped (kind : RecordKind α) (es : List α) (m : Std.HashMap DBKey (List UInt8)) : Prop where
  mem_iff (k : DBKey) : k ∈ m ↔ ∃ e ∈ es, kind.keyOf e = k
  encodes (k : DBKey) : kind.Encodes (es.filter fun e => kind.keyOf e = k) (m.getD k [])

theorem grouped_nil : Grouped kind [] ∅ where
  mem_iff k := by simp
  encodes k := by
    simp only [List.filter_nil, Std.HashMap.getD_empty]
    exact encodes_nil

/-- **Step lemma**: one round adds one object to the group of its chunk. -/
theorem Grouped.insert {es : List α} {m : Std.HashMap DBKey (List UInt8)} (h : Grouped kind es m)
    {e : α} {enc : List UInt8} (he : kind.encode e = .ok enc) :
    Grouped kind (es ++ [e]) (m.insert (kind.keyOf e) (m.getD (kind.keyOf e) [] ++ enc)) where
  mem_iff k := by
    rw [Std.HashMap.mem_insert, h.mem_iff]
    simp only [beq_iff_eq, List.mem_append, List.mem_singleton]
    constructor
    · rintro (hk | ⟨e', he', hk⟩)
      · exact ⟨e, .inr rfl, hk⟩
      · exact ⟨e', .inl he', hk⟩
    · rintro ⟨e', he' | rfl, hk⟩
      · exact .inr ⟨e', he', hk⟩
      · exact .inl hk
  encodes k := by
    rw [Std.HashMap.getD_insert, List.filter_append]
    by_cases hk : kind.keyOf e = k
    · subst hk
      simpa using (h.encodes (kind.keyOf e)).concat he
    · simpa [hk] using h.encodes k

/-- **The grouping loop**, from a map that holds the objects seen so far. -/
theorem grouped_group : ∀ {es : List α} {temp temp' : DBKey} {m m' : Std.HashMap DBKey (List UInt8)}
    {seen : List α}, temp.type = kind.type → Grouped kind seen m →
      kind.group es temp m = .ok (temp', m') → Grouped kind (seen ++ es) m'
  | [], _, _, _, _, seen, _, hm, h => by
    obtain ⟨rfl, rfl⟩ := Prod.mk.inj (Except.ok.inj h)
    simpa using hm
  | e :: es, temp, temp', m, m', seen, ht, hm, h => by
    unfold group at h
    obtain ⟨tag, hw, h⟩ := bind_eq_ok.mp h
    obtain ⟨bytes, hb, h⟩ := bind_eq_ok.mp h
    have he : kind.encode e = .ok bytes := bind_eq_ok.mpr ⟨tag, hw, hb⟩
    have hk : (temp.setX (kind.x e)).setZ (kind.z e) = kind.keyOf e := by
      simp [DBKey.setX, DBKey.setZ, keyOf, ht]
    rw [hk] at h
    have := grouped_group (show (kind.keyOf e).type = kind.type from rfl) (hm.insert he) h
    rwa [List.append_assoc] at this

theorem group_spec {es : List α} {temp : DBKey} {m : Std.HashMap DBKey (List UInt8)}
    (h : kind.group es (DBKey.zero.setType kind.type) ∅ = .ok (temp, m)) : Grouped kind es m :=
  grouped_group rfl grouped_nil h

/-! ## The scan -/

/-- The scan deletes what the keys of the type decode to, unless it is a group of the map. -/
theorem mem_stale {m : Std.HashMap DBKey (List UInt8)} (ht : kind.type ≠ 0) {key : DBKey}
    {iter : List (List UInt8)} {temp : DBKey} :
    key ∈ kind.stale m iter temp ↔
      ∃ k ∈ iter, DBKey.zero.fromBytes k = key ∧ key.type = kind.type ∧ key ∉ m := by
  induction iter generalizing temp with
  | nil => simp [stale]
  | cons k iter ih =>
    have hk (h : (temp.fromBytes k).type = kind.type) :
        temp.fromBytes k = DBKey.zero.fromBytes k :=
      DBKey.fromBytes_eq (DBKey.length_of_type_fromBytes (h ▸ ht)) _ _
    have hk' (h : (DBKey.zero.fromBytes k).type = kind.type) :
        temp.fromBytes k = DBKey.zero.fromBytes k :=
      DBKey.fromBytes_eq (DBKey.length_of_type_fromBytes (h ▸ ht)) _ _
    simp only [stale, List.exists_mem_cons_iff]
    split
    · rename_i h
      rw [List.mem_cons, ih]
      constructor
      · rintro (rfl | hin)
        · exact .inl ⟨(hk h.1).symm, h⟩
        · exact .inr hin
      · rintro (⟨rfl, hin⟩ | hin)
        · exact .inl (hk' hin.1).symm
        · exact .inr hin
    · rename_i h
      rw [ih]
      constructor
      · exact .inr
      · rintro (⟨rfl, hin⟩ | hin)
        · rw [← hk' hin.1] at hin
          exact absurd hin h
        · exact hin

/-! ## The records after both batches -/

/-- What both batches did, when nothing was raised. -/
theorem replaceRecords_ok {faults : Faults} {es : List α} {db db' : DB}
    (h : kind.replaceRecords faults es db = .ok () db') :
    ∃ temp m, Grouped kind es m ∧
      db' = Store.applyBatch
        (Store.applyBatch db ((kind.stale m db.keys temp).map fun k => .delete k.toBytes))
        (m.toList.map fun p => .put p.1.toBytes p.2) := by
  unfold replaceRecords at h
  split at h
  · cases h
  · rename_i temp m hg
    refine ⟨temp, m, group_spec hg, ?_⟩
    rcases faults with ⟨_ | e, _ | e⟩
    · exact (EStateM.Result.ok.inj h).2.symm
    all_goals cases h

/-- A key of the type is given by its bytes. -/
theorem eq_keyOf_of_toBytes {key : DBKey} {e : α} (ht : key.type = kind.type)
    (h : key.toBytes = (kind.keyOf e).toBytes) : key = kind.keyOf e := by
  obtain ⟨x, z, type⟩ := key
  obtain rfl : type = kind.type := ht
  obtain ⟨rfl, rfl⟩ := DBKey.toBytes_inj_of_type.mp h
  rfl

/-- The groups have keys of the type only, so that no two of them have the same bytes. -/
theorem Grouped.toBytes_inj {es : List α} {m : Std.HashMap DBKey (List UInt8)} (h : Grouped kind es m)
    {k : DBKey} {e : α} (hk : k ∈ m) (he : k.toBytes = (kind.keyOf e).toBytes) : k = kind.keyOf e := by
  obtain ⟨e', -, rfl⟩ := (h.mem_iff k).mp hk
  exact eq_keyOf_of_toBytes rfl he

theorem keyOf_toBytes_iff {e e' : α} :
    (kind.keyOf e').toBytes = (kind.keyOf e).toBytes ↔ kind.keyOf e' = kind.keyOf e := by
  constructor
  · exact eq_keyOf_of_toBytes rfl
  · intro h
    rw [h]

/-- **A chunk with objects** holds their encodings. -/
theorem getElem?_of_mem {faults : Faults} {es : List α} {db db' : DB}
    (h : kind.replaceRecords faults es db = .ok () db') {e : α} (he : e ∈ es) :
    ∃ v, db'[(kind.keyOf e).toBytes]? = some v ∧
      kind.Encodes (es.filter fun e' => (kind.keyOf e').toBytes = (kind.keyOf e).toBytes) v := by
  obtain ⟨temp, m, hm, rfl⟩ := replaceRecords_ok h
  have hmem : kind.keyOf e ∈ m := (hm.mem_iff _).mpr ⟨e, he, rfl⟩
  refine ⟨m.getD (kind.keyOf e) [], ?_, ?_⟩
  · have hput : (m.toList.map fun p => Store.BatchOp.put p.1.toBytes p.2) =
        (m.toList.map fun p => (p.1.toBytes, p.2)).map fun p => Store.BatchOp.put p.1 p.2 := by
      rw [List.map_map]
      rfl
    rw [hput, Store.getElem?_puts_of_mem]
    · rintro p hp hpk
      obtain ⟨⟨k, v⟩, hkv, rfl⟩ := List.mem_map.mp hp
      have hget := Std.HashMap.mem_toList_iff_getElem?_eq_some.mp hkv
      obtain rfl := hm.toBytes_inj (Std.HashMap.mem_iff_isSome_getElem?.mpr (by simp [hget])) hpk
      rw [Std.HashMap.getD_eq_getD_getElem?, hget]
      rfl
    · rw [List.map_map]
      obtain ⟨v, hv⟩ := Option.isSome_iff_exists.mp (Std.HashMap.mem_iff_isSome_getElem?.mp hmem)
      exact List.mem_map.mpr ⟨_, Std.HashMap.mem_toList_iff_getElem?_eq_some.mpr hv, rfl⟩
  · simp only [keyOf_toBytes_iff]
    exact hm.encodes _

open Classical in
/-- **A chunk without objects** loses its record if the scan decodes the key and encodes it again. -/
theorem getElem?_of_not_mem {faults : Faults} {es : List α} {db db' : DB}
    (h : kind.replaceRecords faults es db = .ok () db') (ht : kind.type ≠ 0) {k : List UInt8}
    (hk : ∀ e ∈ es, (kind.keyOf e).toBytes ≠ k) :
    db'[k]? = if ∃ k' ∈ db, (DBKey.zero.fromBytes k').type = kind.type ∧
        (DBKey.zero.fromBytes k').toBytes = k then none else db[k]? := by
  obtain ⟨temp, m, hm, rfl⟩ := replaceRecords_ok h
  have hnot {key : DBKey} (hin : key ∈ m) : key.toBytes ≠ k := by
    obtain ⟨e, he, rfl⟩ := (hm.mem_iff key).mp hin
    exact hk e he
  rw [Store.getElem?_applyBatch_of_forall_ne]
  · rw [show ((kind.stale m db.keys temp).map fun k => Store.BatchOp.delete (V := List UInt8) k.toBytes) =
        ((kind.stale m db.keys temp).map DBKey.toBytes).map .delete by rw [List.map_map]; rfl,
      Store.getElem?_deletes]
    congr 1
    simp only [List.mem_map, mem_stale ht, Std.ExtTreeMap.mem_keys, eq_iff_iff]
    constructor
    · rintro ⟨_, ⟨k', hk', rfl, htype, -⟩, hb⟩
      exact ⟨k', hk', htype, hb⟩
    · rintro ⟨k', hk', htype, hb⟩
      exact ⟨_, ⟨k', hk', rfl, htype, fun hin => hnot hin hb⟩, hb⟩
  · intro op hop
    obtain ⟨⟨key, v⟩, hkv, rfl⟩ := List.mem_map.mp hop
    have hget := Std.HashMap.mem_toList_iff_getElem?_eq_some.mp hkv
    exact hnot (Std.HashMap.mem_iff_isSome_getElem?.mpr (by simp [hget]))

/-! ## What the methods are for -/

/-- A key of nine bytes, the last of which is the type. -/
def IsKey (kind : RecordKind α) (k : List UInt8) : Prop :=
  k.length = 9 ∧ k.getLast? = some (narrow kind.type)

/-- The records of the kind are the objects of the list: there is a record for exactly the chunks that
have an object, with the encodings of the objects of the chunk in the order of the list. -/
def HoldsExactly (kind : RecordKind α) (es : List α) (db : DB) : Prop :=
  ∀ k, kind.IsKey k →
    (k ∈ db ↔ ∃ e ∈ es, (kind.keyOf e).toBytes = k) ∧
      ∀ v, db[k]? = some v → kind.Encodes (es.filter fun e => (kind.keyOf e).toBytes = k) v

theorem type_of_isKey {k : List UInt8} (hk : kind.IsKey k)
    (htype : widen (narrow kind.type) &&& 255 = kind.type) :
    (DBKey.zero.fromBytes k).type = kind.type := by
  obtain ⟨hlen, hlast⟩ := hk
  obtain ⟨b0, b1, b2, b3, b4, b5, b6, b7, b8, rest, rfl⟩ :=
    DBKey.exists_nine_bytes (show 8 < k.length by omega)
  obtain rfl : rest = [] := by simpa using hlen
  obtain rfl : b8 = narrow kind.type := by simpa using hlast
  exact htype

/-- The scan removes an old record if and only if the decoder leaves its key as it is. -/
theorem scanned_iff {db : DB} (htype : widen (narrow kind.type) &&& 255 = kind.type)
    (ht : kind.type ≠ 0) {k : List UInt8} (hk : kind.IsKey k) (hdb : k ∈ db) :
    (∃ k' ∈ db, (DBKey.zero.fromBytes k').type = kind.type ∧ (DBKey.zero.fromBytes k').toBytes = k) ↔
      DBKey.Survives k := by
  rw [← DBKey.toBytes_fromBytes_iff hk.1 DBKey.zero]
  constructor
  · rintro ⟨k', -, hk', rfl⟩
    rw [DBKey.fromBytes_toBytes_fromBytes (DBKey.length_of_type_fromBytes (hk' ▸ ht))]
  · intro h
    exact ⟨k, hdb, type_of_isKey hk htype, h⟩

/-- **Exact replacement**: the records are those of the list if and only if every old record is either
replaced or under a key that the decoder leaves as it is. -/
theorem holdsExactly_iff {faults : Faults} {es : List α} {db db' : DB}
    (htype : widen (narrow kind.type) &&& 255 = kind.type) (ht : kind.type ≠ 0)
    (h : kind.replaceRecords faults es db = .ok () db') :
    kind.HoldsExactly es db' ↔
      ∀ k ∈ db, kind.IsKey k → (∃ e ∈ es, (kind.keyOf e).toBytes = k) ∨ DBKey.Survives k := by
  classical
  constructor
  · intro hex k hdb hk
    by_contra hcon
    obtain ⟨hno, hsurv⟩ := not_or.mp hcon
    have hget := getElem?_of_not_mem h ht (k := k) fun e he hek => hno ⟨e, he, hek⟩
    rw [if_neg fun hs => hsurv ((scanned_iff htype ht hk hdb).mp hs)] at hget
    have hmem : k ∈ db' := by
      rw [Std.ExtTreeMap.mem_iff_isSome_getElem?, hget, ← Std.ExtTreeMap.mem_iff_isSome_getElem?]
      exact hdb
    exact hno ((hex k hk).1.mp hmem)
  · intro hold k hk
    by_cases hin : ∃ e ∈ es, (kind.keyOf e).toBytes = k
    · obtain ⟨e, he, rfl⟩ := hin
      obtain ⟨v, hv, henc⟩ := getElem?_of_mem h he
      refine ⟨⟨fun _ => ⟨e, he, rfl⟩, fun _ => ?_⟩, fun v' hv' => ?_⟩
      · rw [Std.ExtTreeMap.mem_iff_isSome_getElem?, hv]
        rfl
      · obtain rfl := Option.some.inj (hv.symm.trans hv')
        exact henc
    · have hnone : db'[k]? = none := by
        rw [getElem?_of_not_mem h ht (k := k) fun e he hek => hin ⟨e, he, hek⟩]
        split
        · rfl
        · rename_i hs
          apply Std.ExtTreeMap.getElem?_eq_none
          intro hdb
          rcases hold k hdb hk with h' | h'
          · exact hin h'
          · exact hs ((scanned_iff htype ht hk hdb).mpr h')
      refine ⟨⟨fun hmem => ?_, fun h' => absurd h' hin⟩, fun v hv => ?_⟩
      · rw [Std.ExtTreeMap.mem_iff_isSome_getElem?, hnone] at hmem
        cases hmem
      · rw [hnone] at hv
        cases hv

end RecordKind

/-- Nothing is raised inside `try`. -/
def RaisesNothing (faults : Faults) (entitiesList : List Entity) (db : DB) : Prop :=
  ∃ db', entityRecords.replaceRecords faults entitiesList db = .ok () db'

theorem writeAllEntities_eq {faults : Faults} {entitiesList : List Entity} {db db' : DB}
    (h : entityRecords.replaceRecords faults entitiesList db = .ok () db') :
    writeAllEntities faults entitiesList db = .ok () db' := by
  rw [writeAllEntities, h]

/-- **`writeAllEntities` replaces the entities of the database exactly** if and only if each old record
belongs to a chunk of the list or has a key that `DBKey.fromBytes` decodes as it was encoded. -/
theorem writeAllEntities_replaces_iff (faults : Faults) (entitiesList : List Entity) (db : DB)
    (h : RaisesNothing faults entitiesList db) :
    (∃ db', writeAllEntities faults entitiesList db = .ok () db' ∧
        entityRecords.HoldsExactly entitiesList db') ↔
      ∀ k ∈ db, k.length = 9 → k.getLast? = some 50 →
        (∃ e ∈ entitiesList, (entityRecords.keyOf e).toBytes = k) ∨ DBKey.Survives k := by
  obtain ⟨db', h'⟩ := h
  have hiff := RecordKind.holdsExactly_iff (show _ = _ by decide) (show _ ≠ _ by decide) h'
  constructor
  · rintro ⟨db'', hw, hex⟩ k hdb hlen hlast
    obtain ⟨-, rfl⟩ := EStateM.Result.ok.inj ((writeAllEntities_eq h').symm.trans hw)
    exact hiff.mp hex k hdb ⟨hlen, hlast⟩
  · intro hold
    exact ⟨db', writeAllEntities_eq h', hiff.mpr fun k hdb hk => hold k hdb hk.1 hk.2⟩

/-- No call of `db.write` raises. -/
def Faults.none : Faults := ⟨.none, .none⟩

/-- The chunk at `(128, 0)` has the low byte `0x80`, which is decoded as `-128`: the record that the
scan deletes is another one, and the chicken of the old state stays. -/
theorem writeAllEntities_stale_chicken :
    RaisesNothing .none [] (single (DBKey.mk 128 0 50).toBytes chickenBytes) ∧
      ¬ ∃ db', writeAllEntities .none [] (single (DBKey.mk 128 0 50).toBytes chickenBytes) = .ok () db' ∧
        entityRecords.HoldsExactly [] db' := by
  have h : ∃ db', entityRecords.replaceRecords .none []
      (single (DBKey.mk 128 0 50).toBytes chickenBytes) = .ok () db' := ⟨_, rfl⟩
  refine ⟨h, ?_⟩
  rintro ⟨db'', hw, hex⟩
  obtain ⟨db', h'⟩ := h
  obtain ⟨-, rfl⟩ := EStateM.Result.ok.inj ((writeAllEntities_eq h').symm.trans hw)
  have hiff := RecordKind.holdsExactly_iff (show _ = _ by decide) (show _ ≠ _ by decide) h'
  have hmem : (DBKey.mk 128 0 50).toBytes ∈ single (DBKey.mk 128 0 50).toBytes chickenBytes := by
    simp [single]
  rcases hiff.mp hex _ hmem ⟨by decide, by decide⟩ with ⟨e, he, -⟩ | hs
  · cases he
  · exact absurd hs.1.1 (by decide)

/-- A chicken at `(20, 64, -20)`. -/
def chicken : Entity :=
  let e := (Entity.new .Chicken).setTypeId 10
  e.setBase { e.base with location :=
    ⟨JFloat.ofBits 0x41A00000, JFloat.ofBits 0x42800000, JFloat.ofBits 0xC1A00000⟩ }

theorem writeAllEntities_replaces_chicken :
    RaisesNothing .none [chicken] (single (DBKey.mk (-3) 7 50).toBytes chickenBytes) ∧
      ∃ db', writeAllEntities .none [chicken]
          (single (DBKey.mk (-3) 7 50).toBytes chickenBytes) = .ok () db' ∧
        entityRecords.HoldsExactly [chicken] db' := by
  have h : RaisesNothing .none [chicken] (single (DBKey.mk (-3) 7 50).toBytes chickenBytes) := ⟨_, rfl⟩
  refine ⟨h, (writeAllEntities_replaces_iff .none [chicken] _ h).mpr fun k hk _ _ => .inr ?_⟩
  obtain rfl : (DBKey.mk (-3) 7 50).toBytes = k := by simpa [single] using hk
  show DBKey.SignFilled _ _ _ _ ∧ DBKey.SignFilled _ _ _ _
  decide

end WorldToPE.LevelDBConverter
