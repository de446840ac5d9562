import WorldToPE.Data.TileEntity
import WorldToPE.LevelDB.DBKey
import WorldToPE.Nbt.Progress

/-!
# WorldToPE.LevelDB.ReadEntities — reading all entities of a database

`LevelDBConverter.readAllEntities`: one loop over the keys of the database, with a loop over the
compounds of the value inside.  The branch for entities ends in `continue` and does not advance the
iterator, so the loop is modelled round by round (`round`, `rounds`) and may run forever.

* `tileLoop_spec`: the inner loop over a well-formed value.
* `rounds_spec`: a database without entity keys is read in one round a key.
* `rounds_running`: a database with an entity key is never left.
-/

namespace WorldToPE.LevelDBConverter

open Java Run DataStream NBTConverter

/-- `EntityData`. -/
structure EntityData where
  entities : List Entity
  tileEntities : List TileEntity

/-- The variables of `readAllEntities`; `iter` is what the iterator has in front of it. -/
structure ReadState where
  iter : List (List UInt8 × List UInt8)
  key : DBKey
  entityList : List Entity
  tileEntityList : List TileEntity
  closed : Bool

/-- One tag of the stream, as an object: `null` if it has no id. -/
def readOne {α : Type} (read : Tag → Except Exn (Option α)) : In (Option α) := do
  let tag ← readTag true
  match read tag with
  | .ok o => return o
  | .error e => throw e

/-- The loop over a value of type `ENTITY`, with the input left.  An `EOFException` is reported, any
other exception closes the database, and the loop goes on. -/
def entityLoop : ℕ → List UInt8 → ReadState → ReadState
  | 0, _, s => s
  | _ + 1, [], s => s
  | fuel + 1, b :: bs, s =>
    match readOne readSingleEntity (b :: bs) with
    | .ok (some entity) rest => entityLoop fuel rest { s with entityList := s.entityList ++ [entity] }
    | .ok none rest => entityLoop fuel rest s
    | .error e rest => entityLoop fuel rest (if e = .eof then s else { s with closed := true })

/-- The loop over a value of type `TILE_ENTITY`; an exception leaves the method. -/
def tileLoop : ℕ → List UInt8 → List TileEntity → Except Exn (List TileEntity)
  | 0, _, ts => return ts
  | _ + 1, [], ts => return ts
  | fuel + 1, b :: bs, ts =>
    match readOne readSingleTileEntity (b :: bs) with
    | .ok (some entity) rest => tileLoop fuel rest (ts ++ [entity])
    | .ok none rest => tileLoop fuel rest ts
    | .error e _ => throw e

/-- What one round of the outer loop leads to. -/
inductive Outcome
  | running (s : ReadState)
  | returned (data : EntityData)
  | thrown (e : Exn)

/-- One round of the outer loop.  Every round of an inner loop takes at least a byte, so the length of
the value bounds them (`after_readTag_lt`). -/
def round (s : ReadState) : Outcome :=
  match s.iter with
  | [] => .returned ⟨s.entityList, s.tileEntityList⟩
  | (k, v) :: iter =>
    let key := s.key.fromBytes k
    if key.type = DBKey.ENTITY then
      -- `continue`: the iterator stays where it is
      .running (entityLoop v.length v { s with key })
    else if key.type = DBKey.TILE_ENTITY then
      match tileLoop v.length v s.tileEntityList with
      | .ok tileEntityList => .running { s with iter, key, tileEntityList }
      | .error e => .thrown e
    else .running { s with iter, key }

/-- The first `n` rounds. -/
def rounds : ℕ → ReadState → Outcome
  | 0, s => .running s
  | n + 1, s =>
    match round s with
    | .running s' => rounds n s'
    | o => o

/-- The variables in front of the loop. -/
def start (db : DB) : ReadState := ⟨db.toList, DBKey.zero, [], [], false⟩

/-! ## What the method is for -/

/-- The type a key decodes to. -/
def keyType (k : List UInt8) : Int32 := (DBKey.zero.fromBytes k).type

theorem type_fromBytes (key : DBKey) (k : List UInt8) : (key.fromBytes k).type = keyType k := by
  unfold keyType DBKey.fromBytes
  split <;> rfl

/-- The input is a sequence of tags. -/
inductive Compounds : List UInt8 → List Tag → Prop
  | nil : Compounds [] []
  | cons {input rest : List UInt8} {t : Tag} {ts : List Tag} (head : readTag true input = .ok t rest)
      (tail : Compounds rest ts) : Compounds input (t :: ts)

/-- A value that is a sequence of compounds, each of which reads as one of the given objects. -/
def Holds {α : Type} (read : Tag → Except Exn (Option α)) (v : List UInt8) (as : List α) : Prop :=
  ∃ cs, Compounds v cs ∧ List.Forall₂ (fun c a => read c = .ok (some a)) cs as

/-- One object for each compound of each value of the given type, in the order of the entries. -/
inductive OnePerCompound {α : Type} (read : Tag → Except Exn (Option α)) (type : Int32) :
    List (List UInt8 × List UInt8) → List α → Prop
  | nil : OnePerCompound read type [] []
  | other {k v : List UInt8} {entries : List (List UInt8 × List UInt8)} {as : List α}
      (hk : keyType k ≠ type) (h : OnePerCompound read type entries as) :
      OnePerCompound read type ((k, v) :: entries) as
  | value {k v : List UInt8} {entries : List (List UInt8 × List UInt8)} {as as' : List α}
      (hk : keyType k = type) (hv : Holds read v as) (h : OnePerCompound read type entries as') :
      OnePerCompound read type ((k, v) :: entries) (as ++ as')

/-- The values under entity and tile entity keys are well-formed. -/
def WellFormed (db : DB) : Prop := ∀ k v, db[k]? = some v →
  (keyType k = DBKey.ENTITY → ∃ es, Holds readSingleEntity v es) ∧
  (keyType k = DBKey.TILE_ENTITY → ∃ ts, Holds readSingleTileEntity v ts)

/-- The method returns after one round for each key, with one object for each compound. -/
def ReadsAll (db : DB) : Prop :=
  ∃ data, rounds (db.size + 1) (start db) = .returned data ∧
    OnePerCompound readSingleEntity DBKey.ENTITY db.toList data.entities ∧
    OnePerCompound readSingleTileEntity DBKey.TILE_ENTITY db.toList data.tileEntities

/-! ## The inner loops -/

theorem readOne_ok {α : Type} {read : Tag → Except Exn (Option α)} {input rest : List UInt8} {t : Tag}
    {o : Option α} (hi : readTag true input = .ok t rest) (hr : read t = .ok o) :
    readOne read input = .ok o rest := by
  unfold readOne
  rw [bind_of_ok hi, hr]
  rfl

theorem readTag_nil (t : Tag) (rest : List UInt8) : readTag true [] ≠ .ok t rest := by
  intro h
  cases h

/-- **The inner loop** reads every compound of a well-formed value. -/
theorem tileLoop_spec {v : List UInt8} {cs : List Tag} (hc : Compounds v cs) : ∀ {as : List TileEntity},
    List.Forall₂ (fun c a => readSingleTileEntity c = .ok (some a)) cs as → ∀ fuel ts,
      v.length ≤ fuel → tileLoop fuel v ts = .ok (ts ++ as) := by
  induction hc with
  | nil =>
    intro as has fuel ts _
    obtain rfl := List.forall₂_nil_left_iff.mp has
    cases fuel <;> simp [tileLoop, pure, Except.pure]
  | cons head tail ih =>
    rename_i input rest t tags
    intro as has fuel ts hf
    obtain ⟨a, as, ha, has', rfl⟩ := List.forall₂_cons_left_iff.mp has
    rcases input with _ | ⟨b, bs⟩
    · exact absurd head (readTag_nil t rest)
    · have hlt := after_readTag_lt true (List.cons_ne_nil b bs)
      rw [after_of_ok head] at hlt
      obtain ⟨fuel, rfl⟩ : ∃ n, fuel = n + 1 := ⟨fuel - 1, by simp at hf; omega⟩
      rw [tileLoop, readOne_ok head ha]
      show tileLoop fuel rest (ts ++ [a]) = _
      rw [ih has' fuel _ (by simp at hf hlt; omega), List.append_assoc]
      rfl

theorem iter_entityLoop : ∀ (fuel : ℕ) (input : List UInt8) (s : ReadState),
    (entityLoop fuel input s).iter = s.iter
  | 0, _, _ => rfl
  | _ + 1, [], _ => rfl
  | fuel + 1, b :: bs, s => by
    rw [entityLoop]
    split
    · rw [iter_entityLoop]
    · rw [iter_entityLoop]
    · rw [iter_entityLoop]
      split <;> rfl

/-! ## The outer loop -/

/-- The entries in front of the iterator are well-formed. -/
def EntriesOk (entries : List (List UInt8 × List UInt8)) : Prop := ∀ p ∈ entries,
  keyType p.1 = DBKey.TILE_ENTITY → ∃ ts, Holds readSingleTileEntity p.2 ts

theorem WellFormed.entriesOk {db : DB} (h : WellFormed db) : EntriesOk db.toList := by
  rintro ⟨k, v⟩ hp
  exact (h k v (Std.ExtTreeMap.mem_toList_iff_getElem?_eq_some.mp hp)).2

/-- **Step lemma**: a round at a key that is not an entity key advances by this key. -/
theorem round_other {s : ReadState} {k v : List UInt8} {iter : List (List UInt8 × List UInt8)}
    (hi : s.iter = (k, v) :: iter) (hk : keyType k ≠ DBKey.ENTITY)
    (hv : keyType k = DBKey.TILE_ENTITY → ∃ ts, Holds readSingleTileEntity v ts) :
    ∃ key ts, round s = .running { s with iter, key, tileEntityList := s.tileEntityList ++ ts } ∧
      ∀ {ts'}, OnePerCompound readSingleTileEntity DBKey.TILE_ENTITY iter ts' →
        OnePerCompound readSingleTileEntity DBKey.TILE_ENTITY ((k, v) :: iter) (ts ++ ts') := by
  unfold round
  rw [hi]
  dsimp only
  rw [type_fromBytes, if_neg hk]
  by_cases hT : keyType k = DBKey.TILE_ENTITY
  · obtain ⟨ts, cs, hc, hts⟩ := hv hT
    refine ⟨s.key.fromBytes k, ts, ?_, fun h => .value hT ⟨cs, hc, hts⟩ h⟩
    rw [if_pos hT, tileLoop_spec hc hts _ _ le_rfl]
  · refine ⟨s.key.fromBytes k, [], ?_, fun h => .other hT h⟩
    rw [if_neg hT, List.append_nil]

/-- **Run lemma**: without entity keys there is one round for each key. -/
theorem rounds_spec : ∀ (entries : List (List UInt8 × List UInt8)) (s : ReadState), s.iter = entries →
    EntriesOk entries → (∀ p ∈ entries, keyType p.1 ≠ DBKey.ENTITY) →
    ∃ ts, rounds (entries.length + 1) s = .returned ⟨s.entityList, s.tileEntityList ++ ts⟩ ∧
      OnePerCompound readSingleTileEntity DBKey.TILE_ENTITY entries ts
  | [], s, hi, _, _ => by
    refine ⟨[], ?_, .nil⟩
    rw [rounds, round, hi, List.append_nil]
  | (k, v) :: entries, s, hi, hok, hk => by
    obtain ⟨key, ts, hr, hone⟩ := round_other hi (hk _ List.mem_cons_self) (hok _ List.mem_cons_self)
    obtain ⟨ts', hs', hone'⟩ := rounds_spec entries
      { s with iter := entries, key := key, tileEntityList := s.tileEntityList ++ ts } rfl
      (fun p hp => hok p (List.mem_cons_of_mem _ hp)) fun p hp => hk p (List.mem_cons_of_mem _ hp)
    refine ⟨ts ++ ts', ?_, hone hone'⟩
    rw [List.length_cons, rounds, hr]
    show rounds (entries.length + 1) _ = _
    rw [hs', List.append_assoc]

theorem onePerCompound_of_none {α : Type} {read : Tag → Except Exn (Option α)} {type : Int32} :
    ∀ {entries : List (List UInt8 × List UInt8)}, (∀ p ∈ entries, keyType p.1 ≠ type) →
      OnePerCompound read type entries []
  | [], _ => .nil
  | _ :: _, h =>
    .other (h _ List.mem_cons_self)
      (onePerCompound_of_none fun p hp => h p (List.mem_cons_of_mem _ hp))

/-- There is an entity key in front of the iterator. -/
def Stuck (s : ReadState) : Prop :=
  EntriesOk s.iter ∧ ∃ p ∈ s.iter, keyType p.1 = DBKey.ENTITY

/-- **Step lemma**: an entity key stays in front of the iterator. -/
theorem round_stuck {s : ReadState} (h : Stuck s) : ∃ s', round s = .running s' ∧ Stuck s' := by
  obtain ⟨hok, p, hp, hpk⟩ := h
  rcases hi : s.iter with _ | ⟨⟨k, v⟩, iter⟩
  · rw [hi] at hp
    cases hp
  · by_cases hk : keyType k = DBKey.ENTITY
    · refine ⟨entityLoop v.length v { s with key := s.key.fromBytes k }, ?_, ?_, p, ?_, hpk⟩
      · unfold round
        rw [hi]
        dsimp only
        rw [type_fromBytes, if_pos hk]
      · rw [iter_entityLoop]
        exact hok
      · rw [iter_entityLoop]
        exact hp
    · rw [hi] at hok hp
      obtain ⟨key, ts, hr, -⟩ := round_other hi hk (hok _ List.mem_cons_self)
      refine ⟨_, hr, fun q hq => hok q (List.mem_cons_of_mem _ hq), p, ?_, hpk⟩
      rcases List.mem_cons.mp hp with rfl | hp
      · exact absurd hpk hk
      · exact hp

/-- **Run lemma**: the loop never ends. -/
theorem rounds_running : ∀ (n : ℕ) {s : ReadState}, Stuck s → ∃ s', rounds n s = .running s'
  | 0, s, _ => ⟨s, rfl⟩
  | n + 1, s, h => by
    obtain ⟨s', hs', h'⟩ := round_stuck h
    rw [rounds, hs']
    exact rounds_running n h'

theorem stuck_start {db : DB} (h : WellFormed db) {k : List UInt8} (hk : k ∈ db)
    (ht : keyType k = DBKey.ENTITY) : Stuck (start db) := by
  refine ⟨h.entriesOk, (k, db[k]), ?_, ht⟩
  exact Std.ExtTreeMap.mem_toList_iff_getElem?_eq_some.mpr (Std.ExtTreeMap.getElem?_eq_some_getElem hk)

theorem not_readsAll {db : DB} (h : WellFormed db) {k : List UInt8} (hk : k ∈ db)
    (ht : keyType k = DBKey.ENTITY) : ¬ ReadsAll db := by
  rintro ⟨data, hr, -⟩
  obtain ⟨s', hs'⟩ := rounds_running (db.size + 1) (stuck_start h hk ht)
  rw [hr] at hs'
  cases hs'

/-- **`readAllEntities` ends with all entities exactly when** no key of the database decodes to the
type of entities; otherwise it does not end at all. -/
theorem readsAll_iff (db : DB) (h : WellFormed db) :
    ReadsAll db ↔ ∀ k ∈ db, keyType k ≠ DBKey.ENTITY := by
  constructor
  · intro hr k hk ht
    exact not_readsAll h hk ht hr
  · intro hk
    have hnone : ∀ p ∈ db.toList, keyType p.1 ≠ DBKey.ENTITY := by
      rintro ⟨k, v⟩ hp
      refine hk k ?_
      rw [Std.ExtTreeMap.mem_iff_isSome_getElem?,
        Std.ExtTreeMap.mem_toList_iff_getElem?_eq_some.mp hp]
      rfl
    obtain ⟨ts, hr, hone⟩ := rounds_spec db.toList (start db) rfl h.entriesOk hnone
    rw [Std.ExtTreeMap.length_toList] at hr
    exact ⟨_, hr, onePerCompound_of_none hnone, hone⟩

/-- A database with one record. -/
def single (k v : List UInt8) : DB := (∅ : DB).insert k v

theorem wellFormed_single {k v : List UInt8}
    (he : keyType k = DBKey.ENTITY → ∃ es, Holds readSingleEntity v es)
    (ht : keyType k = DBKey.TILE_ENTITY → ∃ ts, Holds readSingleTileEntity v ts) :
    WellFormed (single k v) := by
  intro k' v' h
  unfold single at h
  rw [Store.getElem?_insert] at h
  split at h
  · rename_i hk
    obtain rfl := hk
    obtain rfl := Option.some.inj h
    exact ⟨he, ht⟩
  · simp at h

/-- The encoding of a compound with an id only. -/
def chickenBytes : List UInt8 := [10, 0, 0, 3, 2, 0, 105, 100, 10, 0, 0, 0, 0]

def signBytes : List UInt8 := [10, 0, 0, 8, 2, 0, 105, 100, 4, 0, 83, 105, 103, 110, 0]

/-- A database with the record of one chicken is never left. -/
theorem readAllEntities_chicken :
    WellFormed (single (DBKey.mk 0 0 50).toBytes chickenBytes) ∧
      ¬ ReadsAll (single (DBKey.mk 0 0 50).toBytes chickenBytes) := by
  have hwf : WellFormed (single (DBKey.mk 0 0 50).toBytes chickenBytes) := by
    refine wellFormed_single (fun _ => ?_) fun h => absurd h (by decide)
    exact ⟨[(Entity.new .Chicken).setTypeId 10], [.compound "" [.int "id" 10]],
      .cons rfl .nil, .cons rfl .nil⟩
  refine ⟨hwf, not_readsAll hwf ?_ (show keyType (DBKey.mk 0 0 50).toBytes = 50 by decide)⟩
  simp [single]

/-- A database with the record of one sign is read. -/
theorem readsAll_sign :
    WellFormed (single (DBKey.mk 3 (-2) 49).toBytes signBytes) ∧
      ReadsAll (single (DBKey.mk 3 (-2) 49).toBytes signBytes) := by
  have hwf : WellFormed (single (DBKey.mk 3 (-2) 49).toBytes signBytes) := by
    refine wellFormed_single (fun h => absurd h (by decide)) fun _ => ?_
    exact ⟨[⟨some "Sign", 0, 0, 0, .sign (Vector.replicate 4 "")⟩], [.compound "" [.string "id" "Sign"]],
      .cons rfl .nil, .cons rfl .nil⟩
  refine ⟨hwf, (readsAll_iff _ hwf).mpr fun k hk => ?_⟩
  obtain rfl : (DBKey.mk 3 (-2) 49).toBytes = k := by simpa [single] using hk
  decide

end WorldToPE.LevelDBConverter
