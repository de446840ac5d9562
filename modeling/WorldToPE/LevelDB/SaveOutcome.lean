import WorldToPE.LevelDB.WriteEntities

/-!
# WorldToPE.LevelDB.SaveOutcome — what a save leaves behind, also when it fails

`writeAllEntities` and `writeAllTileEntities` share the procedure `replaceRecords` but treat its
exceptions differently: the first drops them, the second raises them again.  The procedure writes two
batches, each of which is atomic.

* `replaceRecords_cases`: where the procedure can stop, and with which database.
* `getElem?_after_of_not_isKey`: wherever it stops, only records of its own type have changed.
* `afterDeletes_eq_iff`: when the first batch has no effect.
* `allOrNothing_iff_of_catch`, `allOrNothing_iff_of_rethrow`: when the two calls are all or nothing.
-/

namespace WorldToPE.LevelDBConverter

open Java Run NBTConverter

namespace RecordKind

variable {α : Type} {kind : RecordKind α}

/-! ## Where the procedure can stop -/

/-- Every object of the list has an encoding. -/
def AllEncode (kind : RecordKind α) (es : List α) : Prop := ∀ e ∈ es, ∃ enc, kind.encode e = .ok enc

theorem group_ok_iff : ∀ {es : List α} {temp : DBKey} {m : Std.HashMap DBKey (List UInt8)},
    (∃ r, kind.group es temp m = .ok r) ↔ kind.AllEncode es
  | [], temp, m => by
    refine ⟨fun _ e he => ?_, fun _ => ⟨_, rfl⟩⟩
    cases he
  | e :: es, temp, m => by
    unfold group
    constructor
    · rintro ⟨r, h⟩
      obtain ⟨tag, hw, h⟩ := bind_eq_ok.mp h
      obtain ⟨bytes, hb, h⟩ := bind_eq_ok.mp h
      intro e' he'
      rcases List.mem_cons.mp he' with rfl | he'
      · exact ⟨bytes, bind_eq_ok.mpr ⟨tag, hw, hb⟩⟩
      · exact group_ok_iff.mp ⟨r, h⟩ e' he'
    · intro h
      obtain ⟨bytes, henc⟩ := h e List.mem_cons_self
      obtain ⟨tag, hw, hb⟩ := bind_eq_ok.mp henc
      obtain ⟨r, hr⟩ := group_ok_iff.mpr fun e' he' => h e' (List.mem_cons_of_mem _ he')
      exact ⟨r, bind_eq_ok.mpr ⟨tag, hw, bind_eq_ok.mpr ⟨bytes, hb, hr⟩⟩⟩

/-- The keys that the first batch deletes. -/
def deletedKeys (kind : RecordKind α) (es : List α) (db : DB) : List (List UInt8) :=
  match kind.group es (DBKey.zero.setType kind.type) ∅ with
  | .ok (temp, m) => (kind.stale m db.keys temp).map DBKey.toBytes
  | .error _ => []

/-- What the second batch puts. -/
def writtenRecords (kind : RecordKind α) (es : List α) : List (List UInt8 × List UInt8) :=
  match kind.group es (DBKey.zero.setType kind.type) ∅ with
  | .ok (_, m) => m.toList.map fun p => (p.1.toBytes, p.2)
  | .error _ => []

/-- The database between the two batches. -/
def afterDeletes (kind : RecordKind α) (es : List α) (db : DB) : DB :=
  Store.applyBatch db ((kind.deletedKeys es db).map .delete)

/-- The database after both batches. -/
def afterPuts (kind : RecordKind α) (es : List α) (db : DB) : DB :=
  Store.applyBatch (kind.afterDeletes es db) ((kind.writtenRecords es).map fun p => .put p.1 p.2)

/-- **Every way the procedure can end**: an encoding fails, one of the batches fails, or nothing. -/
theorem replaceRecords_cases (faults : Faults) (es : List α) (db : DB) :
    (¬ kind.AllEncode es ∧ ∃ e, kind.replaceRecords faults es db = .error e db) ∨
    (kind.AllEncode es ∧
      ((∃ e, faults.deleting = some e ∧ kind.replaceRecords faults es db = .error e db) ∨
       (∃ e, faults.deleting = none ∧ faults.putting = some e ∧
         kind.replaceRecords faults es db = .error e (kind.afterDeletes es db)) ∨
       (faults.deleting = none ∧ faults.putting = none ∧
         kind.replaceRecords faults es db = .ok () (kind.afterPuts es db)))) := by
  cases hg : kind.group es (DBKey.zero.setType kind.type) ∅ with
  | error e =>
    refine .inl ⟨fun h => ?_, e, by rw [replaceRecords, hg]⟩
    obtain ⟨r, hr⟩ := group_ok_iff.mpr h
    rw [hg] at hr
    cases hr
  | ok r =>
    obtain ⟨temp, m⟩ := r
    refine .inr ⟨group_ok_iff.mp ⟨_, hg⟩, ?_⟩
    unfold afterPuts afterDeletes deletedKeys writtenRecords replaceRecords
    simp only [hg, List.map_map]
    rcases faults with ⟨_ | e, _ | e'⟩
    · exact .inr (.inr ⟨rfl, rfl, rfl⟩)
    · exact .inr (.inl ⟨e', rfl, rfl, rfl⟩)
    · exact .inl ⟨e, rfl, rfl⟩
    · exact .inl ⟨e, rfl, rfl⟩

/-! ## Nothing else is touched -/

theorem isKey_toBytes {key : DBKey} (h : key.type = kind.type) : kind.IsKey key.toBytes := by
  refine ⟨key.length_toBytes, ?_⟩
  rw [DBKey.toBytes, h]
  simp

theorem isKey_of_mem_deletedKeys {es : List α} {db : DB} (ht : kind.type ≠ 0) {k : List UInt8}
    (h : k ∈ kind.deletedKeys es db) : kind.IsKey k := by
  unfold deletedKeys at h
  split at h
  · obtain ⟨key, hkey, rfl⟩ := List.mem_map.mp h
    obtain ⟨k', -, -, htype, -⟩ := (mem_stale ht).mp hkey
    exact isKey_toBytes htype
  · cases h

theorem mem_writtenRecords {es : List α} {p : List UInt8 × List UInt8}
    (h : p ∈ kind.writtenRecords es) : ∃ e ∈ es, p.1 = (kind.keyOf e).toBytes := by
  unfold writtenRecords at h
  split at h
  · rename_i temp m hg
    obtain ⟨⟨key, v⟩, hkv, rfl⟩ := List.mem_map.mp h
    have hget := Std.HashMap.mem_toList_iff_getElem?_eq_some.mp hkv
    obtain ⟨e, he, rfl⟩ := ((group_spec hg).mem_iff key).mp
      (Std.HashMap.mem_iff_isSome_getElem?.mpr (by simp [hget]))
    exact ⟨e, he, rfl⟩
  · cases h

theorem getElem?_afterDeletes {es : List α} {db : DB} (ht : kind.type ≠ 0) {k : List UInt8}
    (hk : ¬ kind.IsKey k) : (kind.afterDeletes es db)[k]? = db[k]? := by
  unfold afterDeletes
  rw [Store.getElem?_deletes, if_neg fun h => hk (isKey_of_mem_deletedKeys ht h)]

theorem getElem?_afterPuts {es : List α} {db : DB} (ht : kind.type ≠ 0) {k : List UInt8}
    (hk : ¬ kind.IsKey k) : (kind.afterPuts es db)[k]? = db[k]? := by
  unfold afterPuts
  rw [Store.getElem?_puts_of_not_mem, getElem?_afterDeletes ht hk]
  intro h
  obtain ⟨p, hp, rfl⟩ := List.mem_map.mp h
  obtain ⟨e, -, he⟩ := mem_writtenRecords hp
  rw [he] at hk
  exact hk (isKey_toBytes rfl)

/-- **Frame**: wherever the procedure stops, every record of another type is as it was. -/
theorem getElem?_after_of_not_isKey (faults : Faults) (es : List α) (db : DB) (ht : kind.type ≠ 0)
    {k : List UInt8} (hk : ¬ kind.IsKey k) :
    (after (kind.replaceRecords faults es) db)[k]? = db[k]? := by
  rcases kind.replaceRecords_cases faults es db with ⟨-, e, h⟩ |
    ⟨-, ⟨e, -, h⟩ | ⟨e, -, -, h⟩ | ⟨-, -, h⟩⟩
  · rw [after_of_error h]
  · rw [after_of_error h]
  · rw [after_of_error h, getElem?_afterDeletes ht hk]
  · rw [after_of_ok h, getElem?_afterPuts ht hk]

/-- The two batches have no key in common. -/
theorem not_mem_deletedKeys (es : List α) (db : DB) (ht : kind.type ≠ 0)
    {p : List UInt8 × List UInt8} (hp : p ∈ kind.writtenRecords es) : p.1 ∉ kind.deletedKeys es db := by
  unfold writtenRecords at hp
  unfold deletedKeys
  split at hp
  · rename_i temp m hg
    obtain ⟨⟨key, v⟩, hkv, rfl⟩ := List.mem_map.mp hp
    have hget := Std.HashMap.mem_toList_iff_getElem?_eq_some.mp hkv
    have hmem : key ∈ m := Std.HashMap.mem_iff_isSome_getElem?.mpr (by simp [hget])
    have hm := group_spec hg
    intro hdel
    obtain ⟨key', hkey', he⟩ := List.mem_map.mp hdel
    obtain ⟨-, -, -, htype, hnot⟩ := (mem_stale ht).mp hkey'
    obtain ⟨e, he', rfl⟩ := (hm.mem_iff key).mp hmem
    -- both keys have the type of the procedure, so equal bytes are equal keys
    rw [eq_keyOf_of_toBytes htype he] at hnot
    exact hnot hmem
  · cases hp

end RecordKind

/-- **Saving touches nothing else**: a record whose key is not nine bytes ending in the type of the
saved objects is unchanged, and no key is both deleted and written. -/
theorem saving_touches_nothing_else (faults : Faults) (db : DB) :
    (∀ entitiesList : List Entity,
      (∀ k : List UInt8, ¬ (k.length = 9 ∧ k.getLast? = some 50) →
        (after (writeAllEntities faults entitiesList) db)[k]? = db[k]?) ∧
      ∀ p ∈ entityRecords.writtenRecords entitiesList,
        p.1 ∉ entityRecords.deletedKeys entitiesList db) ∧
    ∀ entitiesList : List TileEntity,
      (∀ k : List UInt8, ¬ (k.length = 9 ∧ k.getLast? = some 49) →
        (after (writeAllTileEntities faults entitiesList) db)[k]? = db[k]?) ∧
      ∀ p ∈ tileEntityRecords.writtenRecords entitiesList,
        p.1 ∉ tileEntityRecords.deletedKeys entitiesList db := by
  have h50 : entityRecords.type ≠ 0 := by decide
  have h49 : tileEntityRecords.type ≠ 0 := by decide
  constructor
  · intro es
    refine ⟨fun k hk => ?_, fun p hp => RecordKind.not_mem_deletedKeys es db h50 hp⟩
    have hafter : after (writeAllEntities faults es) db =
        after (entityRecords.replaceRecords faults es) db := by
      unfold after writeAllEntities
      cases entityRecords.replaceRecords faults es db <;> rfl
    rw [hafter]
    exact RecordKind.getElem?_after_of_not_isKey faults es db h50 hk
  · intro es
    exact ⟨fun k hk => RecordKind.getElem?_after_of_not_isKey faults es db h49 hk,
      fun p hp => RecordKind.not_mem_deletedKeys es db h49 hp⟩

/-! ## All or nothing -/

namespace RecordKind

variable {α : Type} {kind : RecordKind α}

/-- The records of the chunks of the list hold its objects. -/
def Stored (kind : RecordKind α) (es : List α) (db : DB) : Prop :=
  ∀ e ∈ es, ∃ v, db[(kind.keyOf e).toBytes]? = some v ∧
    kind.Encodes (es.filter fun e' => (kind.keyOf e').toBytes = (kind.keyOf e).toBytes) v

/-- A call is all or nothing, and honest: when something is raised inside, it throws and leaves the
database as it was; when it returns, every object of the list is stored. -/
def AllOrNothing (kind : RecordKind α) (call : EStateM Exn DB Unit) (faults : Faults) (es : List α)
    (db : DB) : Prop :=
  (∀ e db', kind.replaceRecords faults es db = .error e db' → ∃ e', call db = .error e' db) ∧
    ∀ db', call db = .ok () db' → kind.Stored es db'

theorem stored_of_ok {faults : Faults} {es : List α} {db db' : DB}
    (h : kind.replaceRecords faults es db = .ok () db') : kind.Stored es db' :=
  fun _ he => getElem?_of_mem h he

/-- Every old record whose key survives decoding belongs to a chunk of the list. -/
def DeletesNothing (kind : RecordKind α) (es : List α) (db : DB) : Prop :=
  ∀ k ∈ db, kind.IsKey k → DBKey.Survives k → ∃ e ∈ es, (kind.keyOf e).toBytes = k

/-- What the first batch deletes. -/
theorem mem_deletedKeys {es : List α} {db : DB} (hes : kind.AllEncode es) (ht : kind.type ≠ 0)
    {k : List UInt8} : k ∈ kind.deletedKeys es db ↔
      ∃ k' ∈ db, (DBKey.zero.fromBytes k').type = kind.type ∧ (DBKey.zero.fromBytes k').toBytes = k ∧
        ∀ e ∈ es, (kind.keyOf e).toBytes ≠ k := by
  obtain ⟨⟨temp, m⟩, hg⟩ := group_ok_iff.mpr hes
  have hm := group_spec hg
  unfold deletedKeys
  rw [hg]
  simp only [List.mem_map, mem_stale ht, Std.ExtTreeMap.mem_keys]
  constructor
  · rintro ⟨_, ⟨k', hk', rfl, htype, hnot⟩, rfl⟩
    refine ⟨k', hk', htype, rfl, fun e he heq => hnot ?_⟩
    rw [eq_keyOf_of_toBytes htype heq.symm]
    exact (hm.mem_iff _).mpr ⟨e, he, rfl⟩
  · rintro ⟨k', hk', htype, hb, hno⟩
    refine ⟨_, ⟨k', hk', rfl, htype, fun hin => ?_⟩, hb⟩
    obtain ⟨e, he, hkey⟩ := (hm.mem_iff _).mp hin
    exact hno e he (hkey ▸ hb)

/-- **The first batch has no effect** exactly when it deletes no record of the database. -/
theorem afterDeletes_eq_iff {es : List α} {db : DB} (hes : kind.AllEncode es)
    (htype : widen (narrow kind.type) &&& 255 = kind.type) (ht : kind.type ≠ 0) :
    kind.afterDeletes es db = db ↔ kind.DeletesNothing es db := by
  constructor
  · intro h k hdb hk hsurv
    by_contra hno
    have hdel : k ∈ kind.deletedKeys es db := by
      obtain ⟨k', hk', hty, hb⟩ := (scanned_iff htype ht hk hdb).mpr hsurv
      exact (mem_deletedKeys hes ht).mpr ⟨k', hk', hty, hb, fun e he heq => hno ⟨e, he, heq⟩⟩
    have hget : (kind.afterDeletes es db)[k]? = none := by
      unfold afterDeletes
      rw [Store.getElem?_deletes, if_pos hdel]
    rw [h] at hget
    rw [Std.ExtTreeMap.mem_iff_isSome_getElem?, hget] at hdb
    cases hdb
  · intro h
    apply Std.ExtTreeMap.ext_getElem?
    intro k
    unfold afterDeletes
    rw [Store.getElem?_deletes]
    split
    · rename_i hdel
      obtain ⟨k', hk', hty, hb, hno⟩ := (mem_deletedKeys hes ht).mp hdel
      have hk : kind.IsKey k := isKey_of_mem_deletedKeys ht hdel
      refine (Std.ExtTreeMap.getElem?_eq_none fun hdb => ?_).symm
      obtain ⟨e, he, heq⟩ := h k hdb hk ((scanned_iff htype ht hk hdb).mp ⟨k', hk', hty, hb⟩)
      exact hno e he heq
    · rfl

/-- A call that drops what is raised is all or nothing only if nothing is raised. -/
theorem allOrNothing_iff_of_catch {call : EStateM Exn DB Unit} {faults : Faults} {es : List α} {db : DB}
    (hcall : ∀ db', after (kind.replaceRecords faults es) db = db' → call db = .ok () db') :
    kind.AllOrNothing call faults es db ↔
      kind.AllEncode es ∧ faults.deleting = none ∧ faults.putting = none := by
  have hret := hcall _ rfl
  constructor
  · rintro ⟨hthrow, -⟩
    have hno : ∀ e db', kind.replaceRecords faults es db ≠ .error e db' := by
      intro e db' h
      obtain ⟨e', he'⟩ := hthrow e db' h
      rw [hret] at he'
      cases he'
    rcases kind.replaceRecords_cases faults es db with ⟨-, e, h⟩ |
      ⟨henc, ⟨e, -, h⟩ | ⟨e, -, -, h⟩ | ⟨hd, hp, -⟩⟩
    · exact absurd h (hno _ _)
    · exact absurd h (hno _ _)
    · exact absurd h (hno _ _)
    · exact ⟨henc, hd, hp⟩
  · rintro ⟨henc, hd, hp⟩
    rcases kind.replaceRecords_cases faults es db with ⟨hn, -⟩ |
      ⟨-, ⟨e, hd', -⟩ | ⟨e, -, hp', -⟩ | ⟨-, -, h⟩⟩
    · exact absurd henc hn
    · rw [hd] at hd'
      cases hd'
    · rw [hp] at hp'
      cases hp'
    · refine ⟨fun e db' he => ?_, fun db' hok => ?_⟩
      · rw [h] at he
        cases he
      · rw [hret, after_of_ok h] at hok
        obtain ⟨-, rfl⟩ := EStateM.Result.ok.inj hok
        exact stored_of_ok h

/-- A call that raises again what is raised is all or nothing, unless the second batch fails after the
first one has deleted a record. -/
theorem allOrNothing_iff_of_rethrow {faults : Faults} {es : List α} {db : DB}
    (htype : widen (narrow kind.type) &&& 255 = kind.type) (ht : kind.type ≠ 0) :
    kind.AllOrNothing (kind.replaceRecords faults es) faults es db ↔
      (kind.AllEncode es → faults.deleting = none → faults.putting ≠ none →
        kind.DeletesNothing es db) := by
  have hstored : ∀ db', kind.replaceRecords faults es db = .ok () db' → kind.Stored es db' :=
    fun db' h => stored_of_ok h
  rcases kind.replaceRecords_cases faults es db with ⟨hn, e, h⟩ |
    ⟨henc, ⟨e, hd, h⟩ | ⟨e, hd, hp, h⟩ | ⟨hd, hp, h⟩⟩
  · refine ⟨fun _ henc => absurd henc hn, fun _ => ⟨fun e' db' _ => ⟨e, h⟩, hstored⟩⟩
  · refine ⟨fun _ _ hd' => ?_, fun _ => ⟨fun e' db' _ => ⟨e, h⟩, hstored⟩⟩
    rw [hd] at hd'
    cases hd'
  · rw [← afterDeletes_eq_iff henc htype ht]
    constructor
    · rintro ⟨hthrow, -⟩ - - -
      obtain ⟨e', he'⟩ := hthrow _ _ h
      rw [h] at he'
      exact (EStateM.Result.error.inj he').2
    · intro hcond
      refine ⟨fun e' db' _ => ⟨e, ?_⟩, hstored⟩
      rw [h, hcond henc hd (by rw [hp]; simp)]
  · refine ⟨fun _ _ _ hp' => absurd hp hp', fun _ => ⟨fun e' db' he => ?_, hstored⟩⟩
    rw [h] at he
    cases he

end RecordKind

/-- **When a save is all or nothing and honest.**  `writeAllEntities` drops what is raised, so it is only
when nothing is raised.  `writeAllTileEntities` is, unless its second batch fails after its first one has
deleted a record. -/
theorem saving_allOrNothing_iff (faults : Faults) (db : DB) :
    (∀ es : List Entity, entityRecords.AllOrNothing (writeAllEntities faults es) faults es db ↔
      entityRecords.AllEncode es ∧ faults.deleting = none ∧ faults.putting = none) ∧
    ∀ es : List TileEntity,
      tileEntityRecords.AllOrNothing (writeAllTileEntities faults es) faults es db ↔
        (tileEntityRecords.AllEncode es → faults.deleting = none → faults.putting ≠ none →
          tileEntityRecords.DeletesNothing es db) := by
  constructor
  · intro es
    apply RecordKind.allOrNothing_iff_of_catch
    rintro db' rfl
    unfold writeAllEntities after
    cases entityRecords.replaceRecords faults es db <;> rfl
  · intro es
    exact RecordKind.allOrNothing_iff_of_rethrow (by decide) (by decide)

/-- The second `db.write` fails: the save of the entities returns without having stored the chicken, and
the save of the tile entities throws but has deleted the old sign. -/
theorem saving_not_allOrNothing :
    ¬ entityRecords.AllOrNothing (writeAllEntities ⟨none, some .io⟩ [chicken]) ⟨none, some .io⟩
        [chicken] ∅ ∧
      ¬ tileEntityRecords.AllOrNothing (writeAllTileEntities ⟨none, some .io⟩ []) ⟨none, some .io⟩ []
        (single (DBKey.mk 3 2 49).toBytes signBytes) := by
  constructor
  · rintro ⟨hthrow, -⟩
    obtain ⟨e', he'⟩ := hthrow .io _ rfl
    have hret : writeAllEntities ⟨none, some .io⟩ [chicken] ∅ = .ok () _ := rfl
    rw [hret] at he'
    cases he'
  · intro h
    have hcond := (RecordKind.allOrNothing_iff_of_rethrow (by decide) (by decide)).mp h
    have henc : tileEntityRecords.AllEncode [] := by
      intro e he
      cases he
    have hmem : (DBKey.mk 3 2 49).toBytes ∈ single (DBKey.mk 3 2 49).toBytes signBytes := by
      simp [single]
    have hsurv : DBKey.Survives (DBKey.mk 3 2 49).toBytes := by
      show DBKey.SignFilled _ _ _ _ ∧ DBKey.SignFilled _ _ _ _
      decide
    obtain ⟨e, he, -⟩ := hcond henc rfl (by decide) _ hmem ⟨by decide, by decide⟩ hsurv
    cases he

end WorldToPE.LevelDBConverter
