import WorldToPE.Geo.ChunkManager

/-!
# WorldToPE.Geo.FailedLoad — what a failed load leaves in the shortcut

`getChunk` stores the key it is asked for in `lastKey` before it loads the chunk, and `lastChunk`
only afterwards.  When the load throws, the shortcut pairs the new key with the old chunk.

* `exec_access`: a block access is `getChunk` followed by a change of the heap that moves no chunk.
* `Paired`: the invariant of runs that never ask for a record that is too short.
* `cacheSound_run_iff`: the shortcut stays sound through a run exactly when the run asks for no
  such record.
-/

namespace WorldToPE.ChunkManager

open Java Run Chunk

/-- The record of chunk `k` is absent or long enough to be loaded. -/
def Loadable (db : DB) (k : Key) : Prop :=
  ∀ raw, getChunkData db k.x k.z = some raw → minRecord ≤ raw.length

/-- The chunk object `r` exists and has the coordinates of `k`. -/
def HasCoords (heap : List Chunk) (r : Option Ref) (k : Key) : Prop :=
  ∃ c, r.bind (heap[·]?) = some c ∧ c.x = k.x ∧ c.z = k.z

/-- Every `getChunk` in state `s` throws or returns a chunk with the coordinates asked for. -/
def CacheSound (s : ChunkManager) : Prop :=
  ∀ x z r s', getChunk x z s = .ok r s' → HasCoords s'.heap r ⟨x, z⟩

/-! ## Loading -/

theorem readChunk_of_loadable {db : DB} {k : Key} (h : Loadable db k) :
    ∃ c, readChunk db k = .ok c ∧ c.x = k.x ∧ c.z = k.z := by
  unfold readChunk
  cases hd : getChunkData db k.x k.z with
  | none => exact ⟨_, rfl, rfl, rfl⟩
  | some raw =>
    obtain ⟨c, hc, hx, hz, -⟩ := loadFromByteArray_spec (Chunk.new k.x k.z) (h raw hd)
    exact ⟨c, hc, hx, hz⟩

theorem readChunk_of_not_loadable {db : DB} {k : Key} (h : ¬ Loadable db k) :
    readChunk db k = .error .arrayIndexOutOfBounds := by
  unfold Loadable at h
  push Not at h
  obtain ⟨raw, hraw, hlt⟩ := h
  rw [readChunk, hraw]
  exact loadFromByteArray_error _ hlt

theorem coords_of_readChunk {db : DB} {k : Key} {c : Chunk} (h : readChunk db k = .ok c) :
    c.x = k.x ∧ c.z = k.z := by
  by_cases hl : Loadable db k
  · obtain ⟨c', hc', hx⟩ := readChunk_of_loadable hl
    obtain rfl := Except.ok.inj (h.symm.trans hc')
    exact hx
  · rw [readChunk_of_not_loadable hl] at h
    cases h

/-! ## Block accesses -/

/-- The operations that only ask for one chunk. -/
def Op.isAccess : Op → Bool
  | .saveAll => false
  | .unloadChunks _ => false
  | _ => true

/-- The same objects with the same coordinates. -/
def SameCoords (heap heap' : List Chunk) : Prop :=
  ∀ r : Ref, (heap'[r]?).map (fun c => Key.mk c.x c.z) = (heap[r]?).map fun c => Key.mk c.x c.z

theorem SameCoords.refl (heap : List Chunk) : SameCoords heap heap := fun _ => rfl

theorem SameCoords.hasCoords {heap heap' : List Chunk} (h : SameCoords heap heap') {r : Option Ref}
    {k : Key} : HasCoords heap' r k ↔ HasCoords heap r k := by
  have key : ∀ hp : List Chunk, HasCoords hp r k ↔
      r.bind (fun r => (hp[r]?).map fun c => Key.mk c.x c.z) = some k := by
    intro hp
    cases r with
    | none => simp [HasCoords]
    | some r =>
      simp only [HasCoords, Option.bind_some, Option.map_eq_some_iff]
      refine exists_congr fun c => and_congr_right fun _ => ?_
      cases k
      simp
  rw [key, key]
  simp only [h _]

theorem sameCoords_set {heap : List Chunk} {r : Ref} {c c' : Chunk} (hc : heap[r]? = some c)
    (hx : c'.x = c.x) (hz : c'.z = c.z) : SameCoords heap (heap.set r c') := by
  intro r'
  have hlt := (List.getElem?_eq_some_iff.mp hc).1
  rw [List.getElem?_set]
  by_cases h : r = r'
  · subst h
    rw [if_pos rfl, if_pos hlt, hc]
    simp [hx, hz]
  · rw [if_neg h]

/-- What a block access leaves behind, given how its `getChunk` ended. -/
def AccessLeaves (g : EStateM.Result Exn ChunkManager (Option Ref)) (t : ChunkManager) : Prop :=
  match g with
  | .error _ s' => t = s'
  | .ok _ s' => ∃ heap, SameCoords s'.heap heap ∧ t = { s' with heap := heap }

theorem access_call (x z : Int32) (f : Chunk → Except Exn Int32) (s : ChunkManager) :
    AccessLeaves (getChunk x z s) (after (do let r ← getChunk x z; call r f) s) := by
  rw [after_bind]
  cases getChunk x z s with
  | error e s' => rfl
  | ok r s' => exact ⟨s'.heap, SameCoords.refl _, after_call r f s'⟩

theorem access_update (x z : Int32) {f : Chunk → Except Exn Chunk}
    (hf : ∀ c c', f c = .ok c' → c'.x = c.x ∧ c'.z = c.z) (s : ChunkManager) :
    AccessLeaves (getChunk x z s) (after (do let r ← getChunk x z; update r f) s) := by
  rw [after_bind]
  cases getChunk x z s with
  | error e s' => rfl
  | ok r s' =>
    rcases after_update r f s' with h | ⟨i, c, c', hc, hfc, h⟩
    · exact ⟨s'.heap, SameCoords.refl _, h⟩
    · exact ⟨_, sameCoords_set hc (hf c c' hfc).1 (hf c c' hfc).2, h⟩

/-- An access outside the world height asks for no chunk. -/
theorem exec_no_access {op : Op} (ha : op.isAccess = true) (hk : op.key? = none)
    (s : ChunkManager) : after (exec op) s = s := by
  cases op with
  | getBlockTypeId x y z =>
    have hy : ¬ inHeight y := fun h => by simp [Op.key?, h] at hk
    show after (Outcome.int <$> getBlockTypeId x y z) s = s
    rw [after_map, getBlockTypeId, if_pos (ge_height_iff.mpr hy)]
    rfl
  | getBlockData x y z =>
    have hy : ¬ inHeight y := fun h => by simp [Op.key?, h] at hk
    show after (Outcome.int <$> getBlockData x y z) s = s
    rw [after_map, getBlockData, if_pos (ge_height_iff.mpr hy)]
    rfl
  | setBlockTypeId x y z type =>
    have hy : ¬ inHeight y := fun h => by simp [Op.key?, h] at hk
    show after (Bind.bind (setBlockTypeId x y z type) fun _ => pure Outcome.unit) s = s
    rw [after_bind_pure, setBlockTypeId, if_neg (by rw [lt_height_iff]; exact hy)]
    rfl
  | setBlockData x y z data =>
    have hy : ¬ inHeight y := fun h => by simp [Op.key?, h] at hk
    show after (Bind.bind (setBlockData x y z data) fun _ => pure Outcome.unit) s = s
    rw [after_bind_pure, setBlockData, if_neg (by rw [lt_height_iff]; exact hy)]
    rfl
  | getChunk x z => cases hk
  | getHighestBlockYAt x z => cases hk
  | saveAll => cases ha
  | unloadChunks b => cases ha

/-- **A block access** is `getChunk`, followed by a change of the heap that keeps coordinates. -/
theorem exec_access {op : Op} {k : Key} (hk : op.key? = some k) (s : ChunkManager) :
    AccessLeaves (getChunk k.x k.z s) (after (exec op) s) := by
  rcases after_exec_cases hk with ⟨f, h⟩ | ⟨f, hf, h⟩ | h
  · rw [h]
    exact access_call k.x k.z f s
  · rw [h]
    exact access_update k.x k.z hf s
  · rw [h, after]
    cases getChunk k.x k.z s with
    | error e s' => rfl
    | ok r s' => exact ⟨s'.heap, SameCoords.refl _, rfl⟩

/-! ## Runs over loadable records -/

/-- The shortcut, the map and the heap agree on coordinates, and only loadable chunks were loaded. -/
structure Paired (db : DB) (s : ChunkManager) : Prop where
  db_eq : s.db = db
  mapped : ∀ (k : Key) (r : Ref), s.chunks[k]? = some r → Loadable db k ∧ HasCoords s.heap (some r) k
  fresh : s.lastKey = none → s.lastChunk = none
  last : ∀ k : Key, s.lastKey = some k → Loadable db k ∧ HasCoords s.heap s.lastChunk k

theorem paired_opened (db : DB) : Paired db (opened db) where
  db_eq := rfl
  mapped := fun k r hr => by simp [opened] at hr
  fresh := fun _ => rfl
  last := fun k hk => by cases hk

theorem Paired.sameCoords {db : DB} {s : ChunkManager} (h : Paired db s) {heap : List Chunk}
    (hc : SameCoords s.heap heap) : Paired db { s with heap := heap } where
  db_eq := h.db_eq
  mapped := fun k r hr => (h.mapped k r hr).imp_right hc.hasCoords.mpr
  fresh := h.fresh
  last := fun k hk => (h.last k hk).imp_right hc.hasCoords.mpr

theorem HasCoords.append {heap : List Chunk} {r : Option Ref} {k : Key} (h : HasCoords heap r k)
    (c : Chunk) : HasCoords (heap ++ [c]) r k := by
  obtain ⟨c', hc', hx⟩ := h
  obtain ⟨r, rfl, hr⟩ := Option.bind_eq_some_iff.mp hc'
  refine ⟨c', ?_, hx⟩
  show (heap ++ [c])[r]? = some c'
  rw [List.getElem?_append_left (List.getElem?_eq_some_iff.mp hr).1, hr]

theorem hasCoords_new {heap : List Chunk} {k : Key} {c : Chunk} (hc : c.x = k.x ∧ c.z = k.z) :
    HasCoords (heap ++ [c]) (some heap.length) k :=
  ⟨c, by simp, hc⟩

section Paired

variable {db : DB} {s : ChunkManager} (h : Paired db s)
include h

/-- What `getChunk` returns in a paired state. -/
theorem Paired.cacheSound : CacheSound s := by
  intro x z r s' hg
  by_cases hl : s.lastKey = some ⟨x, z⟩
  · rw [getChunk_hit hl] at hg
    obtain ⟨rfl, rfl⟩ := EStateM.Result.ok.inj hg
    exact (h.last _ hl).2
  · cases hm : s.chunks[(⟨x, z⟩ : Key)]? with
    | some r' =>
      rw [getChunk_mapped hl hm] at hg
      obtain ⟨rfl, rfl⟩ := EStateM.Result.ok.inj hg
      exact (h.mapped _ _ hm).2
    | none =>
      cases hc : readChunk s.db ⟨x, z⟩ with
      | error e =>
        rw [getChunk_failed hl hm hc] at hg
        cases hg
      | ok c =>
        rw [getChunk_loaded hl hm hc] at hg
        obtain ⟨rfl, rfl⟩ := EStateM.Result.ok.inj hg
        exact hasCoords_new (coords_of_readChunk hc)

/-- Asking for a loadable chunk keeps the state paired. -/
theorem Paired.getChunk {k : Key} (hk : Loadable db k) :
    ∃ r s', ChunkManager.getChunk k.x k.z s = .ok r s' ∧ Paired db s' := by
  obtain ⟨x, z⟩ := k
  by_cases hl : s.lastKey = some ⟨x, z⟩
  · exact ⟨_, s, getChunk_hit hl, h⟩
  · cases hm : s.chunks[(⟨x, z⟩ : Key)]? with
    | some r =>
      refine ⟨_, _, getChunk_mapped hl hm, h.db_eq, h.mapped, ?_, ?_⟩
      · rintro ⟨⟩
      · rintro k ⟨⟩
        exact h.mapped _ _ hm
    | none =>
      obtain ⟨c, hc, hx⟩ := readChunk_of_loadable hk
      rw [← h.db_eq] at hc
      refine ⟨_, _, getChunk_loaded hl hm hc, h.db_eq, ?_, ?_, ?_⟩
      · intro k r hr
        rw [Std.HashMap.getElem?_insert] at hr
        split at hr
        · rename_i he
          obtain rfl := eq_of_beq he
          obtain rfl := Option.some.inj hr
          exact ⟨hk, hasCoords_new hx⟩
        · exact (h.mapped k r hr).imp_right (HasCoords.append · c)
      · rintro ⟨⟩
      · rintro k ⟨⟩
        exact ⟨hk, hasCoords_new hx⟩

/-- **Step lemma**: an access to a loadable chunk keeps the state paired. -/
theorem Paired.step {op : Op} (ha : op.isAccess = true)
    (hk : ∀ k, op.key? = some k → Loadable db k) : Paired db (after (exec op) s) := by
  cases hop : op.key? with
  | none =>
    rw [exec_no_access ha hop]
    exact h
  | some k =>
    have hl := exec_access hop s
    obtain ⟨r, s', hg, hp⟩ := h.getChunk (hk k hop)
    rw [hg] at hl
    obtain ⟨heap, hc, he⟩ := hl
    rw [he]
    exact hp.sameCoords hc

/-- **A failed load poisons the shortcut**: it leaves the key of the failed chunk with the chunk of
another key, or with none. -/
theorem Paired.poisoned {op : Op} {k : Key} (hk : op.key? = some k) (hn : ¬ Loadable db k) :
    ¬ CacheSound (after (exec op) s) := by
  have hl : s.lastKey ≠ some k := fun he => hn (h.last k he).1
  have hm : s.chunks[k]? = none := by
    cases hr : s.chunks[k]? with
    | none => rfl
    | some r => exact absurd (h.mapped k r hr).1 hn
  have hg := getChunk_failed hl hm (by rw [h.db_eq]; exact readChunk_of_not_loadable hn)
  have ha := exec_access hk s
  rw [hg] at ha
  rw [ha]
  intro hs
  -- the shortcut answers the next request for `k` with the chunk it had before
  obtain ⟨c, hc, hx, hz⟩ := hs k.x k.z _ _ (getChunk_hit rfl)
  cases hlk : s.lastKey with
  | none =>
    dsimp only at hc
    rw [h.fresh hlk] at hc
    cases hc
  | some k' =>
    obtain ⟨c', hc', hx', hz'⟩ := (h.last k' hlk).2
    obtain rfl : c = c' := Option.some.inj (hc.symm.trans hc')
    apply hl
    rw [hlk]
    cases k
    cases k'
    simp only [Option.some.injEq, Key.mk.injEq]
    exact ⟨hx'.symm.trans hx, hz'.symm.trans hz⟩

end Paired

/-- **Run lemma**: a run that asks for loadable chunks only ends in a paired state. -/
theorem paired_run {db : DB} {ops : List Op} (ha : ∀ op ∈ ops, op.isAccess = true)
    (hk : ∀ op ∈ ops, ∀ k, op.key? = some k → Loadable db k) :
    Paired db (run exec (opened db) ops) := by
  refine run_induction_of (I := fun _ s => Paired db s) (paired_opened db) ?_ ops
    (steps_of_forall fun op hop => And.intro (ha op hop) (hk op hop))
  intro _ op s hs hop
  exact hs.step hop.1 hop.2

/-- **The shortcut stays sound exactly as long as no load fails.**  In every state of a run of block
accesses whose exceptions are caught, `getChunk` throws or returns a chunk with the coordinates
asked for, if and only if every chunk the run asks for has no record or one that can be loaded. -/
theorem cacheSound_run_iff (db : DB) (ops : List Op) (ha : ∀ op ∈ ops, op.isAccess = true) :
    (∀ pre, pre <+: ops → CacheSound (run exec (opened db) pre)) ↔
      ∀ op ∈ ops, ∀ k, op.key? = some k → Loadable db k := by
  constructor
  · intro hs
    induction ops using List.reverseRecOn with
    | nil =>
      intro op hop
      cases hop
    | append_singleton ops op ih =>
      have ha' : ∀ o ∈ ops, o.isAccess = true := fun o ho => ha o (List.mem_append_left _ ho)
      have hk := ih ha' fun pre hp => hs pre (hp.trans (List.prefix_append _ _))
      intro o ho k hok
      rcases List.mem_append.mp ho with ho | ho
      · exact hk o ho k hok
      · obtain rfl := List.mem_singleton.mp ho
        by_contra hn
        have hfinal := hs _ (List.prefix_refl _)
        rw [run_concat] at hfinal
        exact (paired_run ha' hk).poisoned hok hn hfinal
  · intro hk pre hp
    exact (paired_run (fun o ho => ha o (hp.subset ho)) fun o ho => hk o (hp.subset ho)).cacheSound

/-- No record at all: negative coordinates and a block outside the world height. -/
theorem cacheSound_run_empty : CacheSound (run exec (opened ∅) [.getChunk (-1) 0,
    .setBlockTypeId 3 200 (-5) 7, .getBlockData 3 20 (-5)]) := by
  refine (cacheSound_run_iff ∅ _ (by decide)).mpr (fun op _ k _ raw hraw => ?_) _
    (List.prefix_refl _)
  rw [getChunkData, Std.ExtTreeMap.getElem?_empty] at hraw
  cases hraw

/-- A record of ten bytes for chunk `(1, 0)`: after the failed load, `getChunk(1, 0)` returns chunk
`(0, 0)`. -/
theorem getChunk_poisoned : (∀ op ∈ [Op.getChunk 0 0, .getChunk 1 0], op.isAccess = true) ∧
    ¬ CacheSound (run exec (opened (writeChunkData ∅ 1 0 (List.replicate 10 0)))
      [.getChunk 0 0, .getChunk 1 0]) := by
  refine ⟨by decide, ?_⟩
  have hp : Paired (writeChunkData ∅ 1 0 (List.replicate 10 0))
      (run exec (opened (writeChunkData ∅ 1 0 (List.replicate 10 0))) [.getChunk 0 0]) := by
    refine paired_run (by decide) ?_
    intro op hop k hk raw hraw
    obtain rfl := List.mem_singleton.mp hop
    obtain rfl := Option.some.inj hk
    rw [getChunkData_writeChunkData, if_neg (by decide), getChunkData,
      Std.ExtTreeMap.getElem?_empty] at hraw
    cases hraw
  refine hp.poisoned (show (Op.getChunk 1 0).key? = some ⟨1, 0⟩ from rfl) fun hl => ?_
  have := hl (List.replicate 10 0) (by rw [getChunkData_writeChunkData, if_pos ⟨rfl, rfl⟩])
  exact absurd this (by decide)

end WorldToPE.ChunkManager
