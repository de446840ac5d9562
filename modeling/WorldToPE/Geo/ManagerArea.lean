import WorldToPE.Geo.AreaBlockAccess
import WorldToPE.Geo.Durability

/-!
# WorldToPE.Geo.ManagerArea — a `ChunkManager` as an area of blocks

A manager whose shortcut is attached is a map of blocks in the sense of `AreaLaws`.  A manager reached
by any operations, unloading included, is `Sound`; what its shortcut may lack is only that.

* `managerLaws`: an attached manager is a map of blocks.
* `Sound`, `sound_run`: what holds in every state reached on a readable database.
* `Sound.exec`: every operation succeeds in such a state.
* `Reached`: the states that the results about worlds are about.
-/

namespace WorldToPE.ChunkManager

open Java Run Chunk

def managerArea : AreaBlockAccess ChunkManager where
  getBlockTypeId := getBlockTypeId
  getBlockData := getBlockData
  setBlockTypeId := setBlockTypeId
  setBlockData := setBlockData

/-- The shortcut does not point to a chunk that the map lost. -/
def Attached (s : ChunkManager) : Prop := ∀ k, ¬ s.Detached k

/-- The blocks of the manager by their position: air outside the height of the world. -/
def blocksOf (s : ChunkManager) (c : Pos) : Block :=
  if inHeight c.y then
    ⟨unsigned (s.typeOf (keyOf c.x c.z) (cellOf c.x c.y c.z)),
      s.dataOf (keyOf c.x c.z) (cellOf c.x c.y c.z)⟩
  else ⟨0, 0⟩

/-- What an operation on the block at `c` does to the blocks. -/
theorem blocksOf_of_effect {s s' : ChunkManager} {op : Op} (h : Effect s s' op.typeEdit op.dataEdit)
    {c : Pos} (hop : op.block? = some (c.x, c.y, c.z)) (c' : Pos) : s'.blocksOf c' =
      if c' = c ∧ inHeight c.y then
        ⟨((op.typeAt c.x c.y c.z).map (· &&& 255)).getD (s.blocksOf c).type,
          ((op.dataAt c.x c.y c.z).map (· &&& 15)).getD (s.blocksOf c).data⟩
      else s.blocksOf c' := by
  by_cases hy : inHeight c'.y
  · have hs' : s'.blocksOf c' =
        ⟨unsigned (((op.typeAt c'.x c'.y c'.z).map narrow).getD
            (s.typeOf (keyOf c'.x c'.z) (cellOf c'.x c'.y c'.z))),
          ((op.dataAt c'.x c'.y c'.z).map (· &&& 15)).getD
            (s.dataOf (keyOf c'.x c'.z) (cellOf c'.x c'.y c'.z))⟩ := by
      rw [blocksOf, if_pos hy, h.type _ _ (cellOf_lt hy c'.x c'.z), h.data _ _ (cellOf_lt hy c'.x c'.z),
        typeEdit_cellOf op hy, dataEdit_cellOf op hy]
    rw [hs']
    by_cases hc : c' = c
    · subst hc
      rw [if_pos ⟨rfl, hy⟩, blocksOf, if_pos hy]
      cases op.typeAt c'.x c'.y c'.z with
      | none => rfl
      | some type => simp [unsigned_narrow]
    · have hne : op.block? ≠ some (c'.x, c'.y, c'.z) := by
        rw [hop]
        intro h
        cases c
        cases c'
        simp_all
      obtain ⟨ht, hd⟩ := typeAt_of_block_ne hne
      rw [ht, hd, if_neg fun h => hc h.1, blocksOf, if_pos hy]
      rfl
  · have hnot : ¬ (c' = c ∧ inHeight c.y) := by
      rintro ⟨rfl, h⟩
      exact hy h
    rw [if_neg hnot, blocksOf, blocksOf, if_neg hy, if_neg hy]

theorem blocksOf_of_quiet {s s' : ChunkManager} (h : Quiet s s') : s'.blocksOf = s.blocksOf := by
  funext c
  unfold blocksOf
  by_cases hy : inHeight c.y
  · rw [if_pos hy, if_pos hy, h.type _ _ (cellOf_lt hy c.x c.z), h.data _ _ (cellOf_lt hy c.x c.z)]
    rfl
  · rw [if_neg hy, if_neg hy]

section Attached

variable {s : ChunkManager} (hI : CacheInv s) (ha : s.Attached)
include hI ha

theorem result_getBlockTypeId (c : Pos) :
    result (getBlockTypeId c.x c.y c.z) s = .ok (s.blocksOf c).type := by
  unfold blocksOf
  by_cases hy : inHeight c.y
  · rw [if_pos hy]
    exact getBlockTypeId_result hI (ha _) hy
  · rw [if_neg hy, getBlockTypeId, if_pos (ge_height_iff.mpr hy)]
    rfl

theorem result_getBlockData (c : Pos) :
    result (getBlockData c.x c.y c.z) s = .ok (s.blocksOf c).data := by
  unfold blocksOf
  by_cases hy : inHeight c.y
  · rw [if_pos hy]
    exact getBlockData_result hI (ha _) hy
  · rw [if_neg hy, getBlockData, if_pos (ge_height_iff.mpr hy)]
    rfl

/-- An operation of an attached manager other than unloading. -/
theorem exec_attached (op : Op) (hop : op.keepsLoaded) : ∃ v s', exec op s = .ok v s' ∧
    (CacheInv s' ∧ s'.Attached) ∧ Effect s s' op.typeEdit op.dataEdit := by
  obtain ⟨v, s', h, he, hk⟩ := exec_effect hI (hop false) fun k _ => ha k
  exact ⟨v, s', h, ⟨he.inv, fun k hd => ha k (hk (hop true) k hd)⟩, he⟩

/-- A reader of an attached manager, by its result. -/
theorem read_attached (op : Op) (hop : op.keepsLoaded) (ht : op.typeEdit = fun _ _ => none)
    (hd : op.dataEdit = fun _ _ => none) {m : M Int32} (hm : exec op = Outcome.int <$> m) {v : Int32}
    (hv : result m s = .ok v) :
    ∃ s', m s = .ok v s' ∧ (CacheInv s' ∧ s'.Attached) ∧ s'.blocksOf = s.blocksOf := by
  obtain ⟨s', h⟩ := result_eq_ok.mp hv
  obtain ⟨w, t, ht', hval, he⟩ := exec_attached hI ha op hop
  rw [hm, map_apply, h] at ht'
  cases ht'
  rw [ht, hd] at he
  exact ⟨s', h, hval, blocksOf_of_quiet he⟩

theorem setBlockTypeId_attached (c : Pos) (type : Int32) : ∃ s', setBlockTypeId c.x c.y c.z type s =
    .ok () s' ∧ (CacheInv s' ∧ s'.Attached) ∧ ∀ c', s'.blocksOf c' =
      if c' = c ∧ inHeight c.y then { s.blocksOf c with type := type &&& 255 } else s.blocksOf c' := by
  obtain ⟨v, s', h, hv, he⟩ := exec_attached hI ha (.setBlockTypeId c.x c.y c.z type)
    fun _ h => by cases h
  obtain ⟨u, s₁, h1, h2⟩ := bind_eq_ok.mp h
  cases h2
  refine ⟨s', h1, hv, fun c' => ?_⟩
  rw [blocksOf_of_effect he rfl c']
  simp [Op.typeAt, Op.dataAt]

theorem setBlockData_attached (c : Pos) (data : Int32) : ∃ s', setBlockData c.x c.y c.z data s =
    .ok () s' ∧ (CacheInv s' ∧ s'.Attached) ∧ ∀ c', s'.blocksOf c' =
      if c' = c ∧ inHeight c.y then { s.blocksOf c with data := data &&& 15 } else s.blocksOf c' := by
  obtain ⟨v, s', h, hv, he⟩ := exec_attached hI ha (.setBlockData c.x c.y c.z data)
    fun _ h => by cases h
  obtain ⟨u, s₁, h1, h2⟩ := bind_eq_ok.mp h
  cases h2
  refine ⟨s', h1, hv, fun c' => ?_⟩
  rw [blocksOf_of_effect he rfl c']
  simp [Op.typeAt, Op.dataAt]

end Attached

/-- **An attached manager is a map of blocks**: the type is kept modulo 256, the data modulo 16. -/
def managerLaws : AreaLaws managerArea where
  Valid s := CacheInv s ∧ s.Attached
  blocks := blocksOf
  InArea _ := True
  Kept c := inHeight c.y
  keptType type := type &&& 255
  keptData data := data &&& 15
  getBlockTypeId hs c _ := read_attached hs.1 hs.2 (.getBlockTypeId c.x c.y c.z)
    (fun _ h => by cases h) rfl rfl rfl (result_getBlockTypeId hs.1 hs.2 c)
  getBlockData hs c _ := read_attached hs.1 hs.2 (.getBlockData c.x c.y c.z)
    (fun _ h => by cases h) rfl rfl rfl (result_getBlockData hs.1 hs.2 c)
  setBlockTypeId hs c _ type := setBlockTypeId_attached hs.1 hs.2 c type
  setBlockData hs c _ data := setBlockData_attached hs.1 hs.2 c data

/-! ## The values of blocks -/

theorem and_255_unsigned (b : UInt8) : unsigned b &&& 255 = unsigned b := by
  have h : (unsigned b &&& 255).toInt = (unsigned b).toInt % 2 ^ 8 := toInt_and_mask _ 8 (by norm_num)
  have hb := b.toNat_lt
  apply Int32.toInt_inj.mp
  rw [h, toInt_unsigned]
  omega

theorem dataOf_and_15 (s : ChunkManager) (k : Key) (i : ℕ) : s.dataOf k i &&& 15 = s.dataOf k i := by
  unfold dataOf
  cases s.chunkAt k with
  | some c => exact Nibble.half_and_15 _ _
  | none =>
    show dbData s.db k i &&& 15 = dbData s.db k i
    unfold dbData
    cases getChunkData s.db k.x k.z with
    | some raw => exact Nibble.half_and_15 _ _
    | none =>
      show (0 : Int32) &&& 15 = 0
      decide

/-- A block that a manager shows is kept as it is when it is set. -/
theorem stored_blocksOf (s : ChunkManager) (c : Pos) :
    managerLaws.stored (s.blocksOf c) = s.blocksOf c := by
  unfold blocksOf
  split
  · exact Block.ext (and_255_unsigned _) (dataOf_and_15 s _ _)
  · rfl

/-! ## Every state on a readable database -/

/-- The cache invariant, and the shortcut has a chunk with the coordinates of its key. -/
structure Sound (s : ChunkManager) : Prop where
  inv : CacheInv s
  own : ∀ k r c, s.lastKey = some k → s.lastChunk = some r → s.heap[r]? = some c → c.x = k.x ∧ c.z = k.z

theorem sound_opened {db : DB} (h : RecordsOk db) : Sound (opened db) where
  inv := inv_opened h
  own := fun k r c hk => by cases hk

section Sound

variable {s : ChunkManager} (h : Sound s)
include h

theorem Sound.getChunk (x z : Int32) : ∃ r c s', ChunkManager.getChunk x z s = .ok (some r) s' ∧
    Sound s' ∧ s'.heap[r]? = some c ∧ s'.lastKey = some ⟨x, z⟩ ∧ s'.lastChunk = some r := by
  obtain ⟨r, c, s', hg, hq, hc, hl, hm | ⟨rfl, hd⟩⟩ := getChunk_effect h.inv x z
  · obtain ⟨c', hc', hx, hz, -⟩ := hq.inv.valid _ _ hm
    have hlast : s'.lastChunk = some r := by
      obtain ⟨r2, c2, hr2, -, hm2⟩ := hq.inv.last _ hl
      rw [hm] at hm2
      rcases hm2 with hm2 | hm2
      · rw [hr2, Option.some.inj hm2]
      · cases hm2
    refine ⟨r, c, s', hg, ⟨hq.inv, fun k r2 c2 hk hr2 hc2 => ?_⟩, hc, hl, hlast⟩
    obtain rfl : Key.mk x z = k := Option.some.inj (hl.symm.trans hk)
    obtain rfl : r = r2 := Option.some.inj (hlast.symm.trans hr2)
    obtain rfl : c' = c2 := Option.some.inj (hc'.symm.trans hc2)
    exact ⟨hx, hz⟩
  · rw [getChunk_hit hd.1] at hg
    injection hg with hr
    exact ⟨r, c, s', by rw [getChunk_hit hd.1, hr], h, hc, hl, hr⟩

/-- No key of the map has a chunk with the coordinates of a key that the map lacks. -/
theorem Sound.ne_of_unmapped {k : Key} (hk : s.chunks[k]? = none) {r : Ref} {c : Chunk} (hx : c.x = k.x)
    (hz : c.z = k.z) (hc : s.heap[r]? = some c) (k' : Key) (r' : Ref) (hk' : s.chunks[k']? = some r') :
    r ≠ r' := by
  rintro rfl
  obtain ⟨c2, hc2, hx2, hz2, -⟩ := h.inv.valid k' r hk'
  obtain rfl : c = c2 := Option.some.inj (hc.symm.trans hc2)
  have hkk : k = k' := by
    cases k
    cases k'
    simp only [Key.mk.injEq]
    exact ⟨hx.symm.trans hx2, hz.symm.trans hz2⟩
  rw [hkk, hk'] at hk
  cases hk

/-- A write to the chunk of the shortcut, also if the map lost it. -/
theorem Sound.rewritten {k : Key} {r : Ref} {c c' : Chunk} {ty : ℕ → UInt8} {da : ℕ → Int32}
    (hl : s.lastKey = some k) (hr : s.lastChunk = some r) (hc : s.heap[r]? = some c)
    (he : Edited c c' ty da) : Sound (s.rewritten r c') := by
  have hlt : r < s.heap.length := (List.getElem?_eq_some_iff.mp hc).1
  obtain ⟨hx, hz⟩ := h.own k r c hl hr hc
  have hown : ∀ k' r' c2, s.lastKey = some k' → s.lastChunk = some r' →
      (s.rewritten r c').heap[r']? = some c2 → c2.x = k'.x ∧ c2.z = k'.z := by
    intro k' r' c2 hk' hr' hc2
    obtain rfl : k = k' := Option.some.inj (hl.symm.trans hk')
    obtain rfl : r = r' := Option.some.inj (hr.symm.trans hr')
    rw [rewritten_heap c' hlt, if_pos rfl] at hc2
    obtain rfl := Option.some.inj hc2
    exact ⟨he.x.trans hx, he.z.trans hz⟩
  obtain ⟨r2, c2, hr2, -, hm⟩ := h.inv.last k hl
  obtain rfl : r = r2 := Option.some.inj (hr.symm.trans hr2)
  rcases hm with hm | hm
  · exact ⟨cacheInv_rewritten h.inv hm hc he, hown⟩
  · have hne := h.ne_of_unmapped hm hx hz hc
    refine ⟨⟨h.inv.records, fun k' r' hk' => ?_, h.inv.inj, fun k' hk' => ?_⟩, hown⟩
    · obtain ⟨c2, hc2, hrest⟩ := h.inv.valid k' r' hk'
      exact ⟨c2, by rw [rewritten_heap c' hlt, if_neg (hne k' r' hk'), hc2], hrest⟩
    · obtain rfl : k = k' := Option.some.inj (hl.symm.trans hk')
      exact ⟨r, c', hr, by rw [rewritten_heap c' hlt, if_pos rfl], Or.inr hm⟩

theorem Sound.update (x z : Int32) {f : Chunk → Except Exn Chunk}
    (hf : ∀ c, ∃ c' ty da, f c = .ok c' ∧ Edited c c' ty da) :
    ∃ s', (do let r ← ChunkManager.getChunk x z; ChunkManager.update r f) s = .ok () s' ∧ Sound s' := by
  obtain ⟨r, c, s', hg, hs', hc, hl, hr⟩ := h.getChunk x z
  obtain ⟨c', ty, da, hc', he⟩ := hf c
  exact ⟨s'.rewritten r c', by rw [bind_of_ok hg, update_ok hc hc']; rfl, hs'.rewritten hl hr hc he⟩

theorem Sound.call (x z : Int32) {f : Chunk → Except Exn Int32} (hf : ∀ c, ∃ v, f c = .ok v) :
    ∃ v s', (do let r ← ChunkManager.getChunk x z; ChunkManager.call r f) s = .ok v s' ∧ Sound s' := by
  obtain ⟨r, c, s', hg, hs', hc, -, -⟩ := h.getChunk x z
  obtain ⟨v, hv⟩ := hf c
  exact ⟨v, s', by rw [bind_of_ok hg, call_ok hc hv], hs'⟩

theorem Sound.setBlockTypeId (x y z type : Int32) :
    ∃ s', ChunkManager.setBlockTypeId x y z type s = .ok () s' ∧ Sound s' := by
  unfold ChunkManager.setBlockTypeId
  by_cases hy : inHeight y
  · rw [if_pos (lt_height_iff.mpr hy)]
    refine h.update _ _ fun c => ?_
    obtain ⟨c', hc', he⟩ := setBlockTypeId_edits hy x z type c
    exact ⟨c', _, _, hc', he⟩
  · rw [if_neg fun h => hy (lt_height_iff.mp h)]
    exact ⟨s, rfl, h⟩

theorem Sound.setBlockData (x y z data : Int32) :
    ∃ s', ChunkManager.setBlockData x y z data s = .ok () s' ∧ Sound s' := by
  unfold ChunkManager.setBlockData
  by_cases hy : inHeight y
  · rw [if_pos (lt_height_iff.mpr hy)]
    refine h.update _ _ fun c => ?_
    obtain ⟨c', hc', he⟩ := setBlockData_edits hy x z data c
    exact ⟨c', _, _, hc', he⟩
  · rw [if_neg fun h => hy (lt_height_iff.mp h)]
    exact ⟨s, rfl, h⟩

/-- **Every operation of a sound manager** succeeds and leaves it sound. -/
theorem Sound.exec (op : Op) : ∃ v s', ChunkManager.exec op s = .ok v s' ∧ Sound s' := by
  have hread : ∀ {m : M Int32}, (∃ v s', m s = .ok v s' ∧ Sound s') →
      ∃ v s', (Outcome.int <$> m) s = .ok v s' ∧ Sound s' := by
    rintro m ⟨v, s', hm, hs'⟩
    exact ⟨.int v, s', by rw [map_apply, hm], hs'⟩
  have hwrite : ∀ {m : M Unit}, (∃ s', m s = .ok () s' ∧ Sound s') →
      ∃ v s', (do m; pure Outcome.unit) s = .ok v s' ∧ Sound s' := by
    rintro m ⟨s', hm, hs'⟩
    exact ⟨.unit, s', by rw [bind_of_ok hm]; rfl, hs'⟩
  have hsaved : Sound s.saved := ⟨cacheInv_saved h.inv, h.own⟩
  cases op with
  | getBlockTypeId x y z =>
    refine hread (m := ChunkManager.getBlockTypeId x y z) ?_
    unfold ChunkManager.getBlockTypeId
    by_cases hy : inHeight y
    · rw [if_neg (by rw [ge_height_iff, not_not]; exact hy)]
      exact h.call _ _ fun c => ⟨_, c.getBlockTypeId_spec (inRange_of_inHeight hy x z)⟩
    · rw [if_pos (ge_height_iff.mpr hy)]
      exact ⟨0, s, rfl, h⟩
  | getBlockData x y z =>
    refine hread (m := ChunkManager.getBlockData x y z) ?_
    unfold ChunkManager.getBlockData
    by_cases hy : inHeight y
    · rw [if_neg (by rw [ge_height_iff, not_not]; exact hy)]
      exact h.call _ _ fun c => ⟨_, c.getBlockData_spec (inRange_of_inHeight hy x z)⟩
    · rw [if_pos (ge_height_iff.mpr hy)]
      exact ⟨0, s, rfl, h⟩
  | setBlockTypeId x y z type => exact hwrite (h.setBlockTypeId x y z type)
  | setBlockData x y z data => exact hwrite (h.setBlockData x y z data)
  | getChunk x z =>
    obtain ⟨r, c, s', hg, hs', -⟩ := h.getChunk x z
    exact ⟨.chunk (some r), s', by
      show (Outcome.chunk <$> ChunkManager.getChunk x z) s = _
      rw [map_apply, hg], hs'⟩
  | getHighestBlockYAt x z =>
    exact hread (h.call _ _ fun c => (getHighestBlockYAt_spec c x z).imp fun _ h => h.1)
  | saveAll =>
    obtain ⟨n, hn⟩ := saveAll_eq h.inv
    exact hread ⟨n, s.saved, hn, hsaved⟩
  | unloadChunks saveFirst =>
    have hunload : ∀ {t : ChunkManager}, Sound t → Sound { t with chunks := ∅ } := by
      intro t ht
      refine ⟨⟨ht.inv.records, fun k r hr => by simp at hr, fun k k' r hr => by simp at hr,
        fun k hk => ?_⟩, ht.own⟩
      obtain ⟨r, c, h1, h2, -⟩ := ht.inv.last k hk
      exact ⟨r, c, h1, h2, Or.inr (by simp)⟩
    cases saveFirst with
    | false => exact hwrite ⟨_, rfl, hunload h⟩
    | true =>
      obtain ⟨n, hn⟩ := saveAll_eq h.inv
      exact hwrite ⟨_, by simp [unloadChunks, hn], hunload hsaved⟩

end Sound

/-- **Run lemma**: every state reached on a readable database is sound. -/
theorem sound_run {db : DB} (hdb : RecordsOk db) (ops : List Op) : Sound (run exec (opened db) ops) := by
  refine run_induction_of (I := fun _ s => Sound s) (sound_opened hdb) (fun _ op s hs _ => ?_) ops
    (steps_of_forall (P := fun _ => True) fun _ _ => trivial)
  obtain ⟨v, s', h, hs'⟩ := hs.exec op
  rw [after_of_ok h]
  exact hs'

/-- The states reached by operations on a readable database. -/
def Reached (s : ChunkManager) : Prop := ∃ db ops, RecordsOk db ∧ run exec (opened db) ops = s

theorem reached_run {db : DB} (hdb : RecordsOk db) (ops : List Op) : Reached (run exec (opened db) ops) :=
  ⟨db, ops, hdb, rfl⟩

theorem reached_opened {db : DB} (hdb : RecordsOk db) : Reached (opened db) := reached_run hdb []

theorem Reached.sound {s : ChunkManager} (h : Reached s) : Sound s := by
  obtain ⟨db, ops, hdb, rfl⟩ := h
  exact sound_run hdb ops

theorem attached_opened (db : DB) : (opened db).Attached := by
  rintro k ⟨hk, -⟩
  cases hk

/-- A world on an empty database is air. -/
theorem blocksOf_empty (c : Pos) : (opened ∅).blocksOf c = ⟨0, 0⟩ := by
  have hdb : ∀ x z, getChunkData (opened ∅).db x z = none := by
    intro x z
    simp [getChunkData, opened]
  unfold blocksOf
  simp only [typeOf, dataOf, chunkAt_of_unmapped (s := opened ∅) (by simp [opened]), dbType, dbData, hdb]
  split <;> rfl

theorem valid_empty : managerLaws.Valid (opened ∅) := ⟨inv_opened recordsOk_empty, attached_opened ∅⟩

/-- A world with one block, of a type above 127. -/
def oneBlock : ChunkManager := run exec (opened ∅) [.setBlockTypeId 0 0 0 200]

theorem oneBlock_spec : Reached oneBlock ∧ oneBlock.Attached ∧
    ∀ c, oneBlock.blocksOf c = if c = ⟨0, 0, 0⟩ then ⟨200, 0⟩ else ⟨0, 0⟩ := by
  obtain ⟨s, hs, hvs, hb⟩ := managerLaws.setBlockTypeId valid_empty (c := ⟨0, 0, 0⟩) trivial 200
  have hrun : oneBlock = s := by
    have hset : setBlockTypeId 0 0 0 200 (opened ∅) = .ok () s := hs
    have hexec : exec (.setBlockTypeId 0 0 0 200) (opened ∅) = .ok .unit s := bind_of_ok hset
    exact after_of_ok hexec
  refine ⟨reached_run recordsOk_empty _, ?_, fun c => ?_⟩
  · rw [hrun]
    exact hvs.2
  · have hin : inHeight (0 : Int32) := by decide
    rw [hrun]
    refine (hb c).trans (if_congr (and_iff_left hin) ?_ (blocksOf_empty c))
    have hdata : (managerLaws.blocks (opened ∅) ⟨0, 0, 0⟩).data = 0 :=
      congrArg Block.data (blocksOf_empty ⟨0, 0, 0⟩)
    exact Block.ext rfl hdata

end WorldToPE.ChunkManager
