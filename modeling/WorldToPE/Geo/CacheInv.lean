import WorldToPE.Geo.ChunkManager

/-!
# WorldToPE.Geo.CacheInv — what the cache of a `ChunkManager` represents

`typeOf s k i` and `dataOf s k i` are the block the manager holds for cell `i` of chunk `k`: that of
the loaded chunk if there is one, else that of the stored record.  `CacheInv` is the invariant that ties
map, heap, shortcut and database together; it allows the shortcut to point to a chunk that is no
longer in the map (`Detached`), which is what unloading leaves behind.

* `getChunk_effect`: `getChunk` succeeds, keeps `CacheInv` and every block.
* `effect_rewritten`: an edit of a chunk in the map sets the cells it names and no other.
* `quiet_saved`, `quiet_unloaded`: saving keeps every block and makes the records agree with the
  loaded chunks, so that dropping the chunks afterwards keeps every block too.
-/

namespace WorldToPE.ChunkManager

open Java Run Chunk

/-! ## The blocks a manager holds -/

/-- Every chunk record is absent or long enough to be loaded. -/
def RecordsOk (db : DB) : Prop :=
  ∀ x z raw, getChunkData db x z = some raw → minRecord ≤ raw.length

/-- The type stored for cell `i` of chunk `k`, `0` without a record. -/
def dbType (db : DB) (k : Key) (i : ℕ) : UInt8 :=
  match getChunkData db k.x k.z with
  | some raw => recordType raw i
  | none => 0

/-- The data stored for cell `i` of chunk `k`, `0` without a record. -/
def dbData (db : DB) (k : Key) (i : ℕ) : Int32 :=
  match getChunkData db k.x k.z with
  | some raw => recordData raw i
  | none => 0

/-- The loaded chunk at `k`, if the map has one. -/
def chunkAt (s : ChunkManager) (k : Key) : Option Chunk := s.chunks[k]?.bind (s.heap[·]?)

def typeOf (s : ChunkManager) (k : Key) (i : ℕ) : UInt8 :=
  match s.chunkAt k with
  | some c => c.typeCell i
  | none => dbType s.db k i

def dataOf (s : ChunkManager) (k : Key) (i : ℕ) : Int32 :=
  match s.chunkAt k with
  | some c => c.dataCell i
  | none => dbData s.db k i

/-- Chunk `c` agrees with the record of `k`. -/
def Agrees (db : DB) (k : Key) (c : Chunk) : Prop :=
  ∀ i < 32768, c.typeCell i = dbType db k i ∧ c.dataCell i = dbData db k i

/-- The shortcut points to a chunk that the map does not have. -/
def Detached (s : ChunkManager) (k : Key) : Prop := s.lastKey = some k ∧ s.chunks[k]? = none

/-- The chunk at `k` has a record, or will get one at the next save. -/
def Stored (s : ChunkManager) (k : Key) : Prop :=
  getChunkData s.db k.x k.z ≠ none ∨ ∃ c, s.chunkAt k = some c ∧ c.needsSaving = true

/-- The cache invariant. -/
structure CacheInv (s : ChunkManager) : Prop where
  records : RecordsOk s.db
  valid : ∀ (k : Key) (r : Ref), s.chunks[k]? = some r → ∃ c, s.heap[r]? = some c ∧ c.x = k.x ∧ c.z = k.z ∧
    (c.needsSaving = false → Agrees s.db k c)
  inj : ∀ (k k' : Key) (r : Ref), s.chunks[k]? = some r → s.chunks[k']? = some r → k = k'
  last : ∀ k : Key, s.lastKey = some k → ∃ r c, s.lastChunk = some r ∧ s.heap[r]? = some c ∧
    (s.chunks[k]? = some r ∨ s.chunks[k]? = none)

theorem inv_opened {db : DB} (h : RecordsOk db) : CacheInv (opened db) where
  records := h
  valid := fun k r hr => by simp [opened] at hr
  inj := fun k k' r hr => by simp [opened] at hr
  last := fun k hk => by simp [opened] at hk

theorem chunkAt_of_mapped {s : ChunkManager} {k : Key} {r : Ref} {c : Chunk}
    (hr : s.chunks[k]? = some r) (hc : s.heap[r]? = some c) : s.chunkAt k = some c := by
  simp [chunkAt, hr, hc]

theorem chunkAt_of_unmapped {s : ChunkManager} {k : Key} (hr : s.chunks[k]? = none) :
    s.chunkAt k = none := by
  simp [chunkAt, hr]

theorem typeOf_of_chunkAt {s : ChunkManager} {k : Key} {c : Chunk} (h : s.chunkAt k = some c)
    (i : ℕ) : s.typeOf k i = c.typeCell i := by
  rw [typeOf, h]

theorem dataOf_of_chunkAt {s : ChunkManager} {k : Key} {c : Chunk} (h : s.chunkAt k = some c)
    (i : ℕ) : s.dataOf k i = c.dataCell i := by
  rw [dataOf, h]

/-- What a good record or a missing one is loaded to. -/
theorem readChunk_ok {db : DB} (h : RecordsOk db) (k : Key) :
    ∃ c, readChunk db k = .ok c ∧ c.x = k.x ∧ c.z = k.z ∧ c.needsSaving = false ∧
      Agrees db k c := by
  unfold readChunk Agrees dbType dbData
  cases hd : getChunkData db k.x k.z with
  | none =>
    exact ⟨_, rfl, rfl, rfl, rfl, fun i hi => ⟨new_typeCell _ _ hi, new_dataCell _ _ hi⟩⟩
  | some raw =>
    obtain ⟨c, hc, hx, hz, hn, ht, hdt⟩ := loadFromByteArray_spec (Chunk.new k.x k.z) (h _ _ _ hd)
    exact ⟨c, hc, hx, hz, hn, fun i hi => ⟨ht i hi, hdt i hi⟩⟩

/-! ## The effect of a step -/

/-- `s'` is reached from `s` by a step that sets the given blocks and keeps all others. -/
structure Effect (s s' : ChunkManager) (ty : Key → ℕ → Option UInt8)
    (da : Key → ℕ → Option Int32) : Prop where
  inv : CacheInv s'
  type : ∀ k, ∀ i < 32768, s'.typeOf k i = (ty k i).getD (s.typeOf k i)
  data : ∀ k, ∀ i < 32768, s'.dataOf k i = (da k i).getD (s.dataOf k i)
  stored : ∀ k, (s.Stored k ∨ ∃ i, (ty k i).isSome ∨ (da k i).isSome) → s'.Stored k

/-- A step that changes no block. -/
abbrev Quiet (s s' : ChunkManager) : Prop := Effect s s' (fun _ _ => none) (fun _ _ => none)

theorem quiet_of {s s' : ChunkManager} (hI : CacheInv s')
    (ht : ∀ k, ∀ i < 32768, s'.typeOf k i = s.typeOf k i)
    (hd : ∀ k, ∀ i < 32768, s'.dataOf k i = s.dataOf k i)
    (hs : ∀ k, s.Stored k → s'.Stored k) : Quiet s s' :=
  ⟨hI, ht, hd, fun k hk => hk.elim (hs k) fun ⟨_, hi⟩ => by simp at hi⟩

theorem Effect.congr {s s' : ChunkManager} {ty ty' : Key → ℕ → Option UInt8}
    {da da' : Key → ℕ → Option Int32} (h : Effect s s' ty da) (ht : ∀ k i, ty' k i = ty k i)
    (hd : ∀ k i, da' k i = da k i) : Effect s s' ty' da' := by
  obtain rfl : ty' = ty := funext fun k => funext (ht k)
  obtain rfl : da' = da := funext fun k => funext (hd k)
  exact h

theorem Quiet.refl {s : ChunkManager} (h : CacheInv s) : Quiet s s :=
  quiet_of h (fun _ _ _ => rfl) (fun _ _ _ => rfl) fun _ hs => hs

theorem Quiet.trans_effect {s s' s'' : ChunkManager} {ty : Key → ℕ → Option UInt8}
    {da : Key → ℕ → Option Int32} (h : Quiet s s') (h' : Effect s' s'' ty da) :
    Effect s s'' ty da where
  inv := h'.inv
  type := fun k i hi => by rw [h'.type k i hi, h.type k i hi]; rfl
  data := fun k i hi => by rw [h'.data k i hi, h.data k i hi]; rfl
  stored := fun k hk => h'.stored k (hk.imp (fun hs => h.stored k (Or.inl hs)) id)

/-! ### `getChunk` -/

theorem CacheInv.ref_lt {s : ChunkManager} (hI : CacheInv s) {k : Key} {r : Ref}
    (hr : s.chunks[k]? = some r) : r < s.heap.length := by
  obtain ⟨c, hc, -⟩ := hI.valid k r hr
  exact (List.getElem?_eq_some_iff.mp hc).1

/-- The state after `loadChunk` put `c` in the map under `key`. -/
def loaded (s : ChunkManager) (key : Key) (c : Chunk) : ChunkManager :=
  ⟨s.chunks.insert key s.heap.length, s.db, some s.heap.length, some key, s.heap ++ [c]⟩

theorem loaded_chunks (s : ChunkManager) (key : Key) (c : Chunk) (k : Key) :
    (s.loaded key c).chunks[k]? = if key = k then some s.heap.length else s.chunks[k]? := by
  simp [loaded, Std.HashMap.getElem?_insert]

theorem loaded_heap_new (s : ChunkManager) (key : Key) (c : Chunk) :
    (s.loaded key c).heap[s.heap.length]? = some c := by
  simp [loaded]

theorem loaded_heap_old (s : ChunkManager) (key : Key) (c : Chunk) {r : Ref}
    (hr : r < s.heap.length) : (s.loaded key c).heap[r]? = s.heap[r]? :=
  List.getElem?_append_left hr

section Load

variable {s : ChunkManager} (hI : CacheInv s) {key : Key} {c : Chunk}
include hI

theorem chunkAt_loaded (k : Key) :
    (s.loaded key c).chunkAt k = if key = k then some c else s.chunkAt k := by
  unfold chunkAt
  rw [loaded_chunks]
  by_cases hk : key = k
  · rw [if_pos hk, if_pos hk]
    exact loaded_heap_new s key c
  · rw [if_neg hk, if_neg hk]
    cases hr : s.chunks[k]? with
    | none => rfl
    | some r => exact loaded_heap_old s key c (hI.ref_lt hr)

theorem cacheInv_loaded (hx : c.x = key.x) (hz : c.z = key.z) (ha : Agrees s.db key c) :
    CacheInv (s.loaded key c) where
  records := hI.records
  valid := fun k r hr => by
    rw [loaded_chunks] at hr
    by_cases hk : key = k
    · rw [if_pos hk] at hr
      obtain rfl := Option.some.inj hr
      subst hk
      exact ⟨c, loaded_heap_new s key c, hx, hz, fun _ => ha⟩
    · rw [if_neg hk] at hr
      obtain ⟨c', hc', h'⟩ := hI.valid k r hr
      exact ⟨c', by rw [loaded_heap_old s key c (hI.ref_lt hr), hc'], h'⟩
  inj := fun k k' r hr hr' => by
    rw [loaded_chunks] at hr hr'
    by_cases hk : key = k <;> by_cases hk' : key = k'
    · exact hk.symm.trans hk'
    · rw [if_pos hk] at hr
      rw [if_neg hk'] at hr'
      exact absurd (Option.some.inj hr) (Nat.ne_of_gt (hI.ref_lt hr'))
    · rw [if_neg hk] at hr
      rw [if_pos hk'] at hr'
      exact absurd (Option.some.inj hr') (Nat.ne_of_gt (hI.ref_lt hr))
    · rw [if_neg hk] at hr
      rw [if_neg hk'] at hr'
      exact hI.inj k k' r hr hr'
  last := fun k hk => by
    obtain rfl : key = k := Option.some.inj hk
    exact ⟨_, c, rfl, loaded_heap_new s key c, Or.inl (by rw [loaded_chunks, if_pos rfl])⟩

theorem quiet_loaded (hm : s.chunks[key]? = none) (hx : c.x = key.x) (hz : c.z = key.z)
    (ha : Agrees s.db key c) : Quiet s (s.loaded key c) := by
  have hnone := chunkAt_of_unmapped hm
  refine quiet_of (cacheInv_loaded hI hx hz ha) (fun k i hi => ?_) (fun k i hi => ?_) fun k hs => ?_
  · unfold typeOf
    rw [chunkAt_loaded hI]
    by_cases hk : key = k
    · subst hk
      rw [if_pos rfl, hnone]
      exact (ha i hi).1
    · rw [if_neg hk]
      rfl
  · unfold dataOf
    rw [chunkAt_loaded hI]
    by_cases hk : key = k
    · subst hk
      rw [if_pos rfl, hnone]
      exact (ha i hi).2
    · rw [if_neg hk]
      rfl
  · refine hs.imp id fun ⟨c', hc', hn⟩ => ⟨c', ?_, hn⟩
    rw [chunkAt_loaded hI, if_neg, hc']
    rintro rfl
    rw [hnone] at hc'
    cases hc'

end Load

/-- **`getChunk` on a good database** returns a chunk object: the one in the map, or the one the
shortcut kept although the map lost it. -/
theorem getChunk_effect {s : ChunkManager} (hI : CacheInv s) (x z : Int32) :
    ∃ r c s', getChunk x z s = .ok (some r) s' ∧ Quiet s s' ∧ s'.heap[r]? = some c ∧
      s'.lastKey = some ⟨x, z⟩ ∧
      (s'.chunks[(⟨x, z⟩ : Key)]? = some r ∨ (s' = s ∧ s.Detached ⟨x, z⟩)) := by
  by_cases hl : s.lastKey = some ⟨x, z⟩
  · obtain ⟨r, c, hr, hc, hm⟩ := hI.last _ hl
    exact ⟨r, c, s, by rw [getChunk_hit hl, hr], Quiet.refl hI, hc, hl,
      hm.imp id fun h => ⟨rfl, hl, h⟩⟩
  · cases hm : s.chunks[(⟨x, z⟩ : Key)]? with
    | some r =>
      obtain ⟨c, hc, -⟩ := hI.valid _ _ hm
      refine ⟨r, c, _, getChunk_mapped hl hm, quiet_of ⟨hI.records, hI.valid, hI.inj, ?_⟩
        (fun _ _ _ => rfl) (fun _ _ _ => rfl) (fun _ hs => hs), hc, rfl, Or.inl hm⟩
      intro k hk
      obtain rfl : Key.mk x z = k := Option.some.inj hk
      exact ⟨r, c, rfl, hc, Or.inl hm⟩
    | none =>
      obtain ⟨c, hc, hx, hz, -, ha⟩ := readChunk_ok hI.records ⟨x, z⟩
      exact ⟨_, c, s.loaded ⟨x, z⟩ c, getChunk_loaded hl hm hc, quiet_loaded hI hm hx hz ha,
        loaded_heap_new s _ c, rfl, Or.inl (by rw [loaded_chunks, if_pos rfl])⟩

/-! ### Editing a mapped chunk -/

/-- The state after a writing method turned the chunk object `r` into `c`. -/
def rewritten (s : ChunkManager) (r : Ref) (c : Chunk) : ChunkManager :=
  { s with heap := s.heap.set r c }

theorem rewritten_heap {s : ChunkManager} {r : Ref} (c : Chunk) (hlt : r < s.heap.length) (r' : Ref) :
    (s.rewritten r c).heap[r']? = if r = r' then some c else s.heap[r']? := by
  unfold rewritten
  rw [List.getElem?_set]
  by_cases h : r = r'
  · subst h
    rw [if_pos rfl, if_pos hlt, if_pos rfl]
  · rw [if_neg h, if_neg h]

section Rewrite

variable {s : ChunkManager} (hI : CacheInv s) {key : Key} {r : Ref} {c c' : Chunk}
  (hr : s.chunks[key]? = some r) (hc : s.heap[r]? = some c)
include hI hr

theorem chunkAt_rewritten (k : Key) :
    (s.rewritten r c').chunkAt k = if key = k then some c' else s.chunkAt k := by
  have hlt := hI.ref_lt hr
  show s.chunks[k]?.bind ((s.rewritten r c').heap[·]?) = _
  by_cases hk : key = k
  · subst hk
    rw [if_pos rfl, hr]
    show (s.rewritten r c').heap[r]? = _
    rw [rewritten_heap c' hlt, if_pos rfl]
  · rw [if_neg hk]
    unfold chunkAt
    cases hr' : s.chunks[k]? with
    | none => rfl
    | some r' =>
      show (s.rewritten r c').heap[r']? = s.heap[r']?
      rw [rewritten_heap c' hlt, if_neg]
      rintro rfl
      exact hk (hI.inj _ _ _ hr hr')

include hc

theorem cacheInv_rewritten {ty : ℕ → UInt8} {da : ℕ → Int32} (he : Edited c c' ty da) :
    CacheInv (s.rewritten r c') where
  records := hI.records
  valid := fun k r' hr' => by
    have hr'' : s.chunks[k]? = some r' := hr'
    rw [rewritten_heap c' (hI.ref_lt hr)]
    obtain ⟨c2, hc2, hx, hz, ha⟩ := hI.valid k r' hr''
    by_cases h : r = r'
    · subst h
      obtain rfl : c = c2 := Option.some.inj (hc.symm.trans hc2)
      refine ⟨c', by rw [if_pos rfl], he.x.trans hx, he.z.trans hz, fun hn => ?_⟩
      rw [he.needsSaving] at hn
      cases hn
    · exact ⟨c2, by rw [if_neg h, hc2], hx, hz, ha⟩
  inj := hI.inj
  last := fun k hk => by
    obtain ⟨r2, c2, h1, h2, h3⟩ := hI.last k hk
    by_cases h : r = r2
    · exact ⟨r2, c', h1, by rw [rewritten_heap c' (hI.ref_lt hr), if_pos h], h3⟩
    · exact ⟨r2, c2, h1, by rw [rewritten_heap c' (hI.ref_lt hr), if_neg h, h2], h3⟩

/-- **An edit of a mapped chunk** sets the cells the edit sets and nothing else. -/
theorem effect_rewritten {ty : ℕ → Option UInt8} {da : ℕ → Option Int32}
    (he : Edited c c' (fun i => (ty i).getD (c.typeCell i)) (fun i => (da i).getD (c.dataCell i))) :
    Effect s (s.rewritten r c') (fun k i => if key = k then ty i else none)
      (fun k i => if key = k then da i else none) := by
  have hkey := chunkAt_of_mapped hr hc
  have hat : ∀ k, (s.rewritten r c').chunkAt k = if key = k then some c' else s.chunkAt k :=
    chunkAt_rewritten hI hr
  refine ⟨cacheInv_rewritten hI hr hc he, fun k i _ => ?_, fun k i _ => ?_, fun k hs => ?_⟩
  · unfold typeOf
    rw [hat]
    by_cases hk : key = k
    · subst hk
      rw [if_pos rfl, if_pos rfl, hkey]
      exact he.type i
    · rw [if_neg hk, if_neg hk]
      rfl
  · unfold dataOf
    rw [hat]
    by_cases hk : key = k
    · subst hk
      rw [if_pos rfl, if_pos rfl, hkey]
      exact he.data i
    · rw [if_neg hk, if_neg hk]
      rfl
  · by_cases hk : key = k
    · exact Or.inr ⟨c', by rw [hat, if_pos hk], he.needsSaving⟩
    · rcases hs with (hs | ⟨c2, hc2, hn⟩) | ⟨i, hi⟩
      · exact Or.inl hs
      · exact Or.inr ⟨c2, by rw [hat, if_neg hk, hc2], hn⟩
      · simp [hk] at hi

end Rewrite

/-! ### Saving -/

/-- The database after saving the chunks of `entries` that need it. -/
def savedDB (heap : List Chunk) : List (Key × Ref) → DB → DB
  | [], db => db
  | (_, r) :: entries, db =>
    savedDB heap entries (match heap[r]? with
      | some c => if c.needsSaving then writeChunkData db c.x c.z c.saveToByteArray else db
      | none => db)

/-- The entries point to chunks with the coordinates of their key. -/
def ValidEntries (heap : List Chunk) (entries : List (Key × Ref)) : Prop :=
  ∀ p ∈ entries, ∃ c, heap[p.2]? = some c ∧ c.x = p.1.x ∧ c.z = p.1.z

theorem saveEntries_eq : ∀ (entries : List (Key × Ref)) (n : Int32) (s : ChunkManager),
    ValidEntries s.heap entries → ∃ m, saveEntries entries n s =
      .ok m { s with db := savedDB s.heap entries s.db }
  | [], n, s, _ => ⟨n, rfl⟩
  | (k, r) :: entries, n, s, hv => by
    obtain ⟨c, hc, hx, hz⟩ := hv (k, r) List.mem_cons_self
    have hne : ¬ (k.x ≠ c.x ∨ k.z ≠ c.z) := by
      rintro (h | h)
      · exact h hx.symm
      · exact h hz.symm
    have hv' : ValidEntries s.heap entries := fun p hp => hv p (List.mem_cons_of_mem _ hp)
    have hc' : s.heap[r]? = some c := hc
    by_cases hn : c.needsSaving = true
    · obtain ⟨m, hm⟩ := saveEntries_eq entries (n + 1)
        { s with db := writeChunkData s.db c.x c.z c.saveToByteArray } hv'
      refine ⟨m, ?_⟩
      simp only [saveEntries, savedDB, bind_apply, get_apply, hc', if_neg hne, if_pos hn, saveChunk,
        modify_apply]
      exact hm
    · obtain ⟨m, hm⟩ := saveEntries_eq entries n s hv'
      refine ⟨m, ?_⟩
      simp only [saveEntries, savedDB, bind_apply, get_apply, hc', if_neg hne, if_neg hn]
      exact hm

/-- A key outside the entries keeps its record. -/
theorem getChunkData_savedDB_of_not_mem {heap : List Chunk} : ∀ (entries : List (Key × Ref)) (db : DB)
    {k : Key}, ValidEntries heap entries → k ∉ entries.map Prod.fst →
    getChunkData (savedDB heap entries db) k.x k.z = getChunkData db k.x k.z
  | [], _, _, _, _ => rfl
  | (k', r) :: entries, db, k, hv, hk => by
    obtain ⟨c, hc, hx, hz⟩ := hv (k', r) List.mem_cons_self
    simp only [List.map_cons, List.mem_cons, not_or] at hk
    have hc' : heap[r]? = some c := hc
    rw [savedDB, getChunkData_savedDB_of_not_mem entries _
      (fun p hp => hv p (List.mem_cons_of_mem _ hp)) hk.2, hc']
    show getChunkData (if c.needsSaving = true then _ else _) _ _ = _
    split
    · rw [getChunkData_writeChunkData, if_neg]
      rintro ⟨h1, h2⟩
      apply hk.1
      cases k
      cases k'
      simp only [Key.mk.injEq]
      exact ⟨(h1.symm.trans hx), (h2.symm.trans hz)⟩
    · rfl

/-- A chunk of the entries that needs saving is saved, one that does not keeps its record. -/
theorem getChunkData_savedDB_of_mem {heap : List Chunk} : ∀ (entries : List (Key × Ref)) (db : DB)
    {k : Key} {r : Ref} {c : Chunk}, ValidEntries heap entries → (entries.map Prod.fst).Nodup →
    (k, r) ∈ entries → heap[r]? = some c → getChunkData (savedDB heap entries db) k.x k.z =
      if c.needsSaving then some c.saveToByteArray else getChunkData db k.x k.z
  | [], _, _, _, _, _, _, h, _ => by cases h
  | (k', r') :: entries, db, k, r, c, hv, hd, h, hc => by
    have hv' : ValidEntries heap entries := fun p hp => hv p (List.mem_cons_of_mem _ hp)
    simp only [List.map_cons, List.nodup_cons] at hd
    obtain ⟨c', hc', hx, hz⟩ := hv (k', r') List.mem_cons_self
    have hc'' : heap[r']? = some c' := hc'
    rcases List.mem_cons.mp h with h | h
    · obtain ⟨rfl, rfl⟩ := Prod.mk.inj h
      obtain rfl : c' = c := Option.some.inj (hc''.symm.trans hc)
      rw [savedDB, getChunkData_savedDB_of_not_mem entries _ hv' hd.1, hc]
      show getChunkData (if c'.needsSaving = true then _ else _) _ _ = _
      split
      · rw [getChunkData_writeChunkData, if_pos ⟨hx, hz⟩]
      · rfl
    · have hne : k' ≠ k := by
        rintro rfl
        exact hd.1 (List.mem_map.mpr ⟨_, h, rfl⟩)
      rw [savedDB, getChunkData_savedDB_of_mem entries _ hv' hd.2 h hc, hc'']
      split
      · rfl
      · show getChunkData (if c'.needsSaving = true then _ else _) _ _ = _
        split
        · rw [getChunkData_writeChunkData, if_neg]
          rintro ⟨h1, h2⟩
          apply hne
          cases k
          cases k'
          simp only [Key.mk.injEq]
          exact ⟨(hx.symm.trans h1), (hz.symm.trans h2)⟩
        · rfl

theorem CacheInv.validEntries {s : ChunkManager} (hI : CacheInv s) :
    ValidEntries s.heap s.chunks.toList := fun p hp => by
  obtain ⟨c, hc, hx, hz, -⟩ := hI.valid p.1 p.2 (Std.HashMap.mem_toList_iff_getElem?_eq_some.mp hp)
  exact ⟨c, hc, hx, hz⟩

theorem nodup_keys (m : Std.HashMap Key Ref) : (m.toList.map Prod.fst).Nodup := by
  rw [Std.HashMap.map_fst_toList_eq_keys]
  exact Std.HashMap.nodup_keys

/-- The state after `saveAll`. -/
def saved (s : ChunkManager) : ChunkManager :=
  { s with db := savedDB s.heap s.chunks.toList s.db }

section Save

variable {s : ChunkManager} (hI : CacheInv s)
include hI

theorem saveAll_eq : ∃ n, saveAll s = .ok n s.saved := by
  obtain ⟨n, hn⟩ := saveEntries_eq s.chunks.toList 0 s hI.validEntries
  exact ⟨n, by simp only [saveAll, bind_apply, get_apply]; exact hn⟩

theorem getChunkData_saved_mapped {k : Key} {c : Chunk} (h : s.chunkAt k = some c) :
    getChunkData s.saved.db k.x k.z =
      if c.needsSaving then some c.saveToByteArray else getChunkData s.db k.x k.z := by
  unfold chunkAt at h
  obtain ⟨r, hr, hc⟩ := Option.bind_eq_some_iff.mp h
  exact getChunkData_savedDB_of_mem _ _ hI.validEntries (nodup_keys _)
    (Std.HashMap.mem_toList_iff_getElem?_eq_some.mpr hr) hc

theorem getChunkData_saved_unmapped {k : Key} (h : s.chunkAt k = none) :
    getChunkData s.saved.db k.x k.z = getChunkData s.db k.x k.z := by
  refine getChunkData_savedDB_of_not_mem _ _ hI.validEntries fun hk => ?_
  obtain ⟨⟨k', r⟩, hp, rfl⟩ := List.mem_map.mp hk
  have hr := Std.HashMap.mem_toList_iff_getElem?_eq_some.mp hp
  obtain ⟨c, hc, -⟩ := hI.valid _ _ hr
  rw [chunkAt_of_mapped hr hc] at h
  cases h

/-- After a save every loaded chunk agrees with its record. -/
theorem agrees_saved {k : Key} {c : Chunk} (h : s.chunkAt k = some c) : Agrees s.saved.db k c := by
  have hg := getChunkData_saved_mapped hI h
  by_cases hn : c.needsSaving = true
  · rw [if_pos hn] at hg
    intro i hi
    unfold dbType dbData
    rw [hg]
    exact ⟨(record_save c hi).1.symm, (record_save c hi).2.symm⟩
  · rw [if_neg hn] at hg
    obtain ⟨r, hr, hc⟩ := Option.bind_eq_some_iff.mp h
    obtain ⟨c', hc', -, -, ha⟩ := hI.valid k r hr
    obtain rfl : c = c' := Option.some.inj (hc.symm.trans hc')
    intro i hi
    unfold dbType dbData
    rw [hg]
    exact ha (by simpa using hn) i hi

theorem recordsOk_saved : RecordsOk s.saved.db := by
  intro x z raw hraw
  cases h : s.chunkAt ⟨x, z⟩ with
  | none =>
    rw [getChunkData_saved_unmapped hI h] at hraw
    exact hI.records x z raw hraw
  | some c =>
    rw [getChunkData_saved_mapped hI h] at hraw
    split at hraw
    · obtain rfl := Option.some.inj hraw
      rw [length_saveToByteArray]
      unfold minRecord
      omega
    · exact hI.records x z raw hraw

theorem stored_saved {k : Key} (hs : s.Stored k) : getChunkData s.saved.db k.x k.z ≠ none := by
  cases h : s.chunkAt k with
  | none =>
    rw [getChunkData_saved_unmapped hI h]
    rcases hs with hs | ⟨c, hc, -⟩
    · exact hs
    · rw [h] at hc
      cases hc
  | some c =>
    rw [getChunkData_saved_mapped hI h]
    by_cases hn : c.needsSaving = true
    · rw [if_pos hn]
      simp
    · rw [if_neg hn]
      rcases hs with hs | ⟨c', hc', hn'⟩
      · exact hs
      · rw [h] at hc'
        obtain rfl := Option.some.inj hc'
        exact absurd hn' hn

theorem dbType_saved (k : Key) {i : ℕ} (hi : i < 32768) :
    dbType s.saved.db k i = s.typeOf k i ∧ dbData s.saved.db k i = s.dataOf k i := by
  unfold typeOf dataOf
  cases h : s.chunkAt k with
  | none =>
    unfold dbType dbData
    rw [getChunkData_saved_unmapped hI h]
    exact ⟨rfl, rfl⟩
  | some c => exact ⟨(agrees_saved hI h i hi).1.symm, (agrees_saved hI h i hi).2.symm⟩

theorem cacheInv_saved : CacheInv s.saved where
  records := recordsOk_saved hI
  valid := fun k r hr => by
    have hr' : s.chunks[k]? = some r := hr
    obtain ⟨c, hc, hx, hz, -⟩ := hI.valid k r hr'
    exact ⟨c, hc, hx, hz, fun _ => agrees_saved hI (chunkAt_of_mapped hr' hc)⟩
  inj := hI.inj
  last := hI.last

theorem quiet_saved : Quiet s s.saved := by
  refine quiet_of (cacheInv_saved hI) (fun k i hi => ?_) (fun k i hi => ?_)
    fun k hs => Or.inl (stored_saved hI hs)
  · cases h : s.chunkAt k with
    | none =>
      have h' : s.saved.chunkAt k = none := h
      rw [typeOf, h']
      exact (dbType_saved hI k hi).1
    | some c =>
      have h' : s.saved.chunkAt k = some c := h
      rw [typeOf_of_chunkAt h, typeOf_of_chunkAt h']
  · cases h : s.chunkAt k with
    | none =>
      have h' : s.saved.chunkAt k = none := h
      rw [dataOf, h']
      exact (dbType_saved hI k hi).2
    | some c =>
      have h' : s.saved.chunkAt k = some c := h
      rw [dataOf_of_chunkAt h, dataOf_of_chunkAt h']

/-- Saving and then dropping the loaded chunks keeps every block: the records have them. -/
theorem quiet_unloaded : Quiet s { s.saved with chunks := ∅ } := by
  have hnone : ∀ k, chunkAt { s.saved with chunks := ∅ } k = none := fun k =>
    chunkAt_of_unmapped (by simp)
  refine quiet_of ⟨recordsOk_saved hI, fun k r hr => by simp at hr, fun k k' r hr => by simp at hr,
    fun k hk => ?_⟩ (fun k i hi => ?_) (fun k i hi => ?_) fun k hs => Or.inl (stored_saved hI hs)
  · obtain ⟨r, c, h1, h2, -⟩ := hI.last k hk
    exact ⟨r, c, h1, h2, Or.inr (by simp)⟩
  · rw [typeOf, hnone]
    exact (dbType_saved hI k hi).1
  · rw [dataOf, hnone]
    exact (dbType_saved hI k hi).2

end Save

end WorldToPE.ChunkManager
