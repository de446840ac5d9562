import WorldToPE.Convert.Region
import WorldToPE.LevelDB.SaveOutcome
import WorldToPE.Lib.FloatValue

/-!
# WorldToPE.Convert.Positions — the chunk of a position

Both `writeAllEntities` and `convertRegion` find the chunk of a position by casting the coordinates to
`int` and shifting them.  The cast rounds towards zero and the shift rounds down, so that the chunk is
the wrong one just below the multiples of 16 that are not positive.

* `shift_eq_chunk_iff`: when a coordinate gives its chunk.
* `eq_of_groupSize`: a grouping that moves objects in one direction only and keeps the sizes of the
  groups moves none.
* `filed_iff`, `window_iff`: when the entities are filed under their chunks, and when the window of a
  conversion holds the chunk of the player.
-/

namespace WorldToPE

open Java

/-! ## One coordinate -/

/-- A finite coordinate in the range of `int`. -/
def InReach (f : JFloat) : Prop := f.Finite ∧ |f.toRat| < 2 ^ 31

/-- The coordinate of the chunk that contains a position. -/
def chunkCoord (f : JFloat) : Int32 := Int32.ofInt ⌊f.toRat / 16⌋

section Coordinate

variable {f : JFloat}

theorem toInt_chunkCoord (h : InReach f) :
    (chunkCoord f).toInt = ⌊f.toRat / 16⌋ ∧ -2 ^ 27 ≤ ⌊f.toRat / 16⌋ ∧ ⌊f.toRat / 16⌋ < 2 ^ 27 := by
  obtain ⟨hlo, hhi⟩ := abs_lt.mp h.2
  have h1 : -2 ^ 27 ≤ ⌊f.toRat / 16⌋ := by
    rw [Int.le_floor, le_div_iff₀ (by norm_num)]
    push_cast
    linarith
  have h2 : ⌊f.toRat / 16⌋ < 2 ^ 27 := by
    rw [Int.floor_lt, div_lt_iff₀ (by norm_num)]
    push_cast
    linarith
  exact ⟨Int32.toInt_ofInt_of_le (by omega) (by omega), h1, h2⟩

theorem toInt_shift (f : JFloat) : (f.toInt32 >>> 4).toInt = f.toInt32.toInt / 16 :=
  toInt_shiftRight f.toInt32 4 (by norm_num)

/-- The shift never gives a chunk below the right one. -/
theorem chunkCoord_le_shift (h : InReach f) : (chunkCoord f).toInt ≤ (f.toInt32 >>> 4).toInt := by
  rw [toInt_shift, (toInt_chunkCoord h).1]
  exact (JFloat.toInt32_truncates h.1 h.2).floor_le_ediv (by norm_num)

/-- **One coordinate**: the cast and the shift give the chunk unless the position is just below a
multiple of 16 that is not positive. -/
theorem shift_eq_chunk_iff (h : InReach f) : f.toInt32 >>> 4 = chunkCoord f ↔ ¬JustBelow 16 f.toRat := by
  rw [← Int32.toInt_inj, toInt_shift, (toInt_chunkCoord h).1]
  exact (JFloat.toInt32_truncates h.1 h.2).ediv_eq_floor_iff (by norm_num)

end Coordinate

/-! ## Groups of the same size -/

section Groups

variable {α κ : Type} [DecidableEq κ]

/-- The size of a group, for objects of different sizes. -/
def groupSize (size : α → ℕ) (f : α → κ) (k : κ) (as : List α) : ℕ :=
  (as.map fun a => if f a = k then size a else 0).sum

/-- If objects are only moved to groups of higher rank, and the groups where they belong keep their
sizes, no object was moved. -/
theorem eq_of_groupSize {size : α → ℕ} {f g : α → κ} {rank : κ → ℤ} {as : List α}
    (hsize : ∀ a ∈ as, 0 < size a) (hrank : ∀ a ∈ as, f a ≠ g a → rank (g a) < rank (f a))
    (h : ∀ a ∈ as, groupSize size f (g a) as = groupSize size g (g a) as) : ∀ a ∈ as, f a = g a := by
  by_contra hcon
  -- an object of least rank among those that were moved
  have hfin : {a | a ∈ as ∧ f a ≠ g a}.Finite := (List.finite_toSet as).subset fun a ha => ha.1
  have hne : {a | a ∈ as ∧ f a ≠ g a}.Nonempty := by
    push Not at hcon
    obtain ⟨a, ha, hfg⟩ := hcon
    exact ⟨a, ha, hfg⟩
  obtain ⟨a, ⟨ha, hfg⟩, hmin⟩ := Set.exists_min_image _ (fun a => rank (g a)) hfin hne
  apply (h a ha).not_lt
  apply List.sum_lt_sum
  · intro b hb
    by_cases hfb : f b = g a
    · have hgb : g b = g a := by
        by_contra hgb
        have hmoved : f b ≠ g b := fun h => hgb (h ▸ hfb)
        have hlt := hrank b hb hmoved
        have hle := hmin b ⟨hb, hmoved⟩
        rw [hfb] at hlt
        omega
      rw [if_pos hfb, if_pos hgb]
    · rw [if_neg hfb]
      exact Nat.zero_le _
  · exact ⟨a, ha, by rw [if_neg hfg, if_pos rfl]; exact hsize a ha⟩

end Groups

/-! ## Entities -/

namespace LevelDBConverter

open RecordKind

/-- The key of the chunk that contains the entity. -/
def floorKey (e : Entity) : DBKey := ⟨chunkCoord e.base.location.x, chunkCoord e.base.location.z, 50⟩

/-- After saving the list, the record of the chunk of an entity holds the entities of that chunk. -/
def FiledUnderChunks (es : List Entity) : Prop := ∀ db, ∃ db', writeAllEntities .none es db = .ok () db' ∧
  ∀ e ∈ es, ∃ v, db'[(floorKey e).toBytes]? = some v ∧
    entityRecords.Encodes (es.filter fun e' => floorKey e' = floorKey e) v

/-- The coordinates of the entity are finite and in the range of `int`. -/
def EntityInReach (e : Entity) : Prop := InReach e.base.location.x ∧ InReach e.base.location.z

/-- No coordinate of the entity is just below a multiple of 16 that is not positive. -/
def EntityClear (e : Entity) : Prop :=
  ¬JustBelow 16 e.base.location.x.toRat ∧ ¬JustBelow 16 e.base.location.z.toRat

theorem keyOf_eq_floorKey_iff {e : Entity} (he : EntityInReach e) :
    entityRecords.keyOf e = floorKey e ↔ EntityClear e := by
  unfold EntityClear
  rw [← shift_eq_chunk_iff he.1, ← shift_eq_chunk_iff he.2]
  simp [keyOf, floorKey, entityRecords]

/-- The encoded size of an object, `0` if it has no encoding. -/
def encodedSize (e : Entity) : ℕ :=
  match entityRecords.encode e with
  | .ok enc => enc.length
  | .error _ => 0

theorem encodedSize_pos {e : Entity} {enc : List UInt8} (h : entityRecords.encode e = .ok enc) :
    0 < encodedSize e := by
  obtain ⟨tag, -, hw⟩ := bind_eq_ok.mp h
  have hlen : 0 < enc.length := by
    unfold writeTag at hw
    by_cases ht : tag.type = .endTag
    · rw [if_pos ht] at hw
      cases hw
    · rw [if_neg ht] at hw
      obtain ⟨payload, -, hw⟩ := bind_eq_ok.mp hw
      obtain rfl := Except.ok.inj hw
      simp [headerBytes]
  unfold encodedSize
  rw [h]
  exact hlen

/-- The length of a record is the size of its group. -/
theorem Encodes.length_eq {es : List Entity} {v : List UInt8} {key : Entity → DBKey} {k : DBKey}
    (h : entityRecords.Encodes (es.filter fun e => key e = k) v) :
    v.length = groupSize encodedSize key k es := by
  obtain ⟨encs, hall, rfl⟩ := h
  unfold groupSize
  induction es generalizing encs with
  | nil =>
    cases hall
    rfl
  | cons e es ih =>
    rw [List.map_cons, List.sum_cons]
    by_cases hk : key e = k
    · rw [List.filter_cons_of_pos (by simpa using hk)] at hall
      cases hall with
      | cons henc hrest =>
        rw [List.flatten_cons, List.length_append, ih _ hrest, if_pos hk, encodedSize, henc]
    · rw [List.filter_cons_of_neg (by simpa using hk)] at hall
      rw [if_neg hk, zero_add]
      exact ih _ hall

/-- A save that finds every encoding ends normally. -/
theorem saved_of_allEncode {es : List Entity} (h : entityRecords.AllEncode es) (db : DB) :
    ∃ db', entityRecords.replaceRecords .none es db = .ok () db' := by
  rcases replaceRecords_cases .none es db with ⟨hno, -⟩ | ⟨-, ⟨e, he, -⟩ | ⟨e, -, he, -⟩ | ⟨-, -, hok⟩⟩
  · exact absurd h hno
  · cases he
  · cases he
  · exact ⟨_, hok⟩

/-- The records that a save makes hold the entities that were assigned to their keys. -/
theorem assigned_of_saved {es : List Entity} {db' : DB}
    (h : entityRecords.replaceRecords .none es ∅ = .ok () db') {key : DBKey} (ht : key.type = 50)
    {v : List UInt8} (hv : db'[key.toBytes]? = some v) :
    entityRecords.Encodes (es.filter fun e => entityRecords.keyOf e = key) v := by
  by_cases hin : ∃ e ∈ es, (entityRecords.keyOf e).toBytes = key.toBytes
  · obtain ⟨e, he, hk⟩ := hin
    obtain rfl : key = entityRecords.keyOf e := eq_keyOf_of_toBytes ht hk.symm
    obtain ⟨v', hv', henc⟩ := getElem?_of_mem h he
    obtain rfl := Option.some.inj (hv.symm.trans hv')
    simpa only [keyOf_toBytes_iff] using henc
  · have hnot : ∀ e ∈ es, (entityRecords.keyOf e).toBytes ≠ key.toBytes :=
      fun e he hk => hin ⟨e, he, hk⟩
    have hget := getElem?_of_not_mem h (by decide) hnot
    rw [hv] at hget
    split at hget
    · cases hget
    · simp at hget

/-- The chunks from north-west to south-east. -/
def keyRank (k : DBKey) : ℤ := k.x.toInt + k.z.toInt

/-- The cast never moves an entity to a chunk with a smaller coordinate. -/
theorem keyRank_lt {e : Entity} (he : EntityInReach e) (hne : entityRecords.keyOf e ≠ floorKey e) :
    keyRank (floorKey e) < keyRank (entityRecords.keyOf e) := by
  have hx : (floorKey e).x.toInt ≤ (entityRecords.keyOf e).x.toInt := chunkCoord_le_shift he.1
  have hz : (floorKey e).z.toInt ≤ (entityRecords.keyOf e).z.toInt := chunkCoord_le_shift he.2
  unfold keyRank
  by_contra hcon
  have hx' : (entityRecords.keyOf e).x = (floorKey e).x := Int32.toInt_inj.mp (by omega)
  have hz' : (entityRecords.keyOf e).z = (floorKey e).z := Int32.toInt_inj.mp (by omega)
  exact hne (DBKey.mk.injEq .. ▸ ⟨hx', hz', rfl⟩)

theorem clear_of_filed {es : List Entity} (hes : ∀ e ∈ es, EntityInReach e) (h : FiledUnderChunks es) :
    entityRecords.AllEncode es ∧ ∀ e ∈ es, EntityClear e := by
  obtain ⟨db', hsave, hfiled⟩ := h ∅
  have hall : entityRecords.AllEncode es := by
    by_contra hcon
    -- nothing at all was saved
    have hempty : writeAllEntities .none es ∅ = .ok () ∅ := by
      rcases replaceRecords_cases .none es ∅ with ⟨-, e, he⟩ | ⟨hyes, -⟩
      · rw [writeAllEntities, he]
      · exact absurd hyes hcon
    obtain ⟨-, rfl⟩ := EStateM.Result.ok.inj (hempty.symm.trans hsave)
    cases es with
    | nil => exact hcon fun e he => absurd he List.not_mem_nil
    | cons e es =>
      obtain ⟨v, hv, -⟩ := hfiled e List.mem_cons_self
      simp at hv
  refine ⟨hall, fun e he => (keyOf_eq_floorKey_iff (hes e he)).mp ?_⟩
  obtain ⟨db'', hdb⟩ := saved_of_allEncode hall ∅
  obtain ⟨-, rfl⟩ := EStateM.Result.ok.inj ((writeAllEntities_eq hdb).symm.trans hsave)
  have hpos : ∀ e ∈ es, 0 < encodedSize e := by
    intro e he
    obtain ⟨enc, henc⟩ := hall e he
    exact encodedSize_pos henc
  have hsize : ∀ e ∈ es, groupSize encodedSize entityRecords.keyOf (floorKey e) es =
      groupSize encodedSize floorKey (floorKey e) es := by
    intro e he
    obtain ⟨v, hv, henc⟩ := hfiled e he
    rw [← Encodes.length_eq henc, ← Encodes.length_eq (assigned_of_saved hdb rfl hv)]
  exact eq_of_groupSize hpos (fun e he => keyRank_lt (hes e he)) hsize e he

theorem filed_of_clear {es : List Entity} (hes : ∀ e ∈ es, EntityInReach e)
    (hall : entityRecords.AllEncode es) (hclear : ∀ e ∈ es, EntityClear e) : FiledUnderChunks es := by
  intro db
  obtain ⟨db', hdb⟩ := saved_of_allEncode hall db
  refine ⟨db', writeAllEntities_eq hdb, ?_⟩
  have hkey : ∀ e ∈ es, entityRecords.keyOf e = floorKey e :=
    fun e he => (keyOf_eq_floorKey_iff (hes e he)).mpr (hclear e he)
  intro e he
  obtain ⟨v, hv, henc⟩ := getElem?_of_mem hdb he
  rw [hkey e he] at hv
  refine ⟨v, hv, ?_⟩
  have hfilter : (es.filter fun e' => (entityRecords.keyOf e').toBytes = (entityRecords.keyOf e).toBytes) =
      es.filter fun e' => floorKey e' = floorKey e := by
    apply List.filter_congr
    intro e' he'
    rw [decide_eq_decide, keyOf_toBytes_iff, hkey e' he', hkey e he]
  rwa [hfilter] at henc

/-- **Entities**: each is filed under its chunk if and only if all have encodings and no coordinate is
just below a multiple of 16 that is not positive. -/
theorem filed_iff {es : List Entity} (hes : ∀ e ∈ es, EntityInReach e) :
    FiledUnderChunks es ↔ entityRecords.AllEncode es ∧ ∀ e ∈ es, EntityClear e :=
  ⟨clear_of_filed hes, fun h => filed_of_clear hes h.1 h.2⟩

end LevelDBConverter

/-! ## The window around the player -/

namespace ConvertState

/-- One coordinate of the window. -/
theorem window_coord_iff {f : JFloat} (h : InReach f) :
    chunkCoord f ≥ f.toInt32 >>> 4 ∧ chunkCoord f < f.toInt32 >>> 4 + 2 ↔ ¬JustBelow 16 f.toRat := by
  have hle := chunkCoord_le_shift h
  have hs := toInt_shift f
  have hlo := f.toInt32.le_toInt
  have hhi := f.toInt32.toInt_lt
  have h2 : (2 : Int32).toInt = 2 := rfl
  have hsum : (f.toInt32 >>> 4 + 2).toInt = (f.toInt32 >>> 4).toInt + 2 := by
    rw [toInt_add_of_fits] <;> rw [h2] <;> omega
  rw [← shift_eq_chunk_iff h, ← Int32.toInt_inj, ge_iff_le, Int32.le_iff_toInt_le,
    Int32.lt_iff_toInt_lt, hsum]
  omega

/-- **The window of a limited conversion** holds the chunk of the player if and only if no coordinate
is just below a multiple of 16 that is not positive. -/
theorem window_iff {x z : JFloat} (hx : InReach x) (hz : InReach z) :
    (windowOf x z true).admits (chunkCoord x) (chunkCoord z) ↔
      ¬JustBelow 16 x.toRat ∧ ¬JustBelow 16 z.toRat := by
  rw [← window_coord_iff hx, ← window_coord_iff hz]
  constructor
  · rintro (h | ⟨h1, h2, h3, h4⟩)
    · exact absurd h (show ¬(2 : Int32) ≤ 0 by decide)
    · exact ⟨⟨h1, h2⟩, h3, h4⟩
  · rintro ⟨⟨h1, h2⟩, h3, h4⟩
    exact .inr ⟨h1, h2, h3, h4⟩

end ConvertState

open LevelDBConverter ConvertState

/-- **Positions and chunks**: where entities are filed under the chunks that contain them, and where the
window of a limited conversion holds the chunk of the player. -/
theorem positions_iff (es : List Entity) (x z : JFloat) :
    ((∀ e ∈ es, EntityInReach e) →
      (FiledUnderChunks es ↔ entityRecords.AllEncode es ∧ ∀ e ∈ es, EntityClear e)) ∧
    (InReach x → InReach z →
      ((windowOf x z true).admits (chunkCoord x) (chunkCoord z) ↔
        ¬JustBelow 16 x.toRat ∧ ¬JustBelow 16 z.toRat)) :=
  ⟨fun hes => filed_iff hes, fun hx hz => window_iff hx hz⟩

/-- A chicken at `(x, 64, z)`. -/
def chickenAt (x z : JFloat) : Entity :=
  let e := (Entity.new .Chicken).setTypeId 10
  e.setBase { e.base with location := ⟨x, JFloat.ofBits 0x42800000, z⟩ }

/-- `-20.5f`. -/
def farWest : JFloat := JFloat.ofBits 0xC1A40000

/-- `-0.5f`. -/
def nearWest : JFloat := JFloat.ofBits 0xBF000000

theorem toRat_farWest : farWest.toRat = -41 / 2 := by
  norm_num [JFloat.toRat, JFloat.magnitude, show farWest.exponent = 131 by decide,
    show farWest.fraction = 2359296 by decide, show farWest.bits ≥ 0x80000000 by decide]

theorem toRat_nearWest : nearWest.toRat = -1 / 2 := by
  norm_num [JFloat.toRat, JFloat.magnitude, show nearWest.exponent = 126 by decide,
    show nearWest.fraction = 0 by decide, show nearWest.bits ≥ 0x80000000 by decide]

theorem inReach_farWest : InReach farWest := by
  refine ⟨by decide, ?_⟩
  rw [toRat_farWest]
  norm_num [abs_lt]

theorem inReach_nearWest : InReach nearWest := by
  refine ⟨by decide, ?_⟩
  rw [toRat_nearWest]
  norm_num [abs_lt]

/-- The band below `-16` does not reach `-20.5`. -/
theorem not_justBelow_farWest : ¬JustBelow 16 farWest.toRat := by
  rw [toRat_farWest]
  rintro ⟨k, -, h1, h2⟩
  have h3 : k < 0 := by
    have : (k : ℚ) < 0 := by linarith
    exact_mod_cast this
  have h4 : -2 < k := by
    have : (-2 : ℚ) < k := by push_cast at h2; linarith
    exact_mod_cast this
  obtain rfl : k = -1 := by omega
  norm_num at h1

theorem justBelow_nearWest : JustBelow 16 nearWest.toRat := by
  rw [toRat_nearWest]
  exact ⟨0, le_rfl, by norm_num, by norm_num⟩

theorem positions_farWest : FiledUnderChunks [chickenAt farWest farWest] ∧
    (windowOf farWest farWest true).admits (chunkCoord farWest) (chunkCoord farWest) := by
  have hreach : ∀ e ∈ [chickenAt farWest farWest], EntityInReach e :=
    List.forall_mem_singleton.mpr ⟨inReach_farWest, inReach_farWest⟩
  have henc : entityRecords.AllEncode [chickenAt farWest farWest] :=
    List.forall_mem_singleton.mpr ⟨_, rfl⟩
  obtain ⟨hfiled, hwindow⟩ := positions_iff [chickenAt farWest farWest] farWest farWest
  refine ⟨(hfiled hreach).mpr ⟨henc, ?_⟩, ?_⟩
  · exact List.forall_mem_singleton.mpr ⟨not_justBelow_farWest, not_justBelow_farWest⟩
  · exact (hwindow inReach_farWest inReach_farWest).mpr ⟨not_justBelow_farWest, not_justBelow_farWest⟩

/-- Half a block west of the origin, both the entity and the player are taken to be in chunk 0. -/
theorem not_positions_nearWest : EntityInReach (chickenAt nearWest nearWest) ∧
    ¬FiledUnderChunks [chickenAt nearWest nearWest] ∧
    ¬(windowOf nearWest nearWest true).admits (chunkCoord nearWest) (chunkCoord nearWest) := by
  have hreach : EntityInReach (chickenAt nearWest nearWest) := ⟨inReach_nearWest, inReach_nearWest⟩
  refine ⟨hreach, ?_, ?_⟩
  · intro h
    obtain ⟨-, hclear⟩ := clear_of_filed (List.forall_mem_singleton.mpr hreach) h
    exact (hclear _ (List.mem_singleton_self _)).1 justBelow_nearWest
  · rw [window_iff inReach_nearWest inReach_nearWest]
    exact fun h => h.1 justBelow_nearWest

end WorldToPE
