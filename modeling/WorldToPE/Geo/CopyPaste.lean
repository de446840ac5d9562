import WorldToPE.Geo.Clipboard
import WorldToPE.Geo.Shortcut

/-!
# WorldToPE.Geo.CopyPaste — copying a box out of a world and placing it

`CuboidClipboard.copy` and `CuboidClipboard.place`.  Both go through the cells of the clipboard, and what
they read is not what they write, so that each is one pass over distinct cells.

* `copyAll_ok`, `placeAll_ok`: the passes, for any area that is a map of blocks.
* `copied`, `pasted`: what is copied and what is found after it was placed, also where a shortcut has an
  unloaded chunk.
* `copyPasteExact_iff`: when what is placed is what was copied, from one world to another and within one.
* `not_copyPasteExact_unloaded`: what is placed into a chunk that was just unloaded is lost.
-/

namespace WorldToPE.CuboidClipboard

open Java Run GeoUtils ChunkManager

/-- The cell of a vector. -/
def cell (v : Vector3f) : Pos := ⟨v.x.toInt32, v.y.toInt32, v.z.toInt32⟩

/-- The cell at an offset from the cell of a vector. -/
def shift (v : Vector3f) (d : Pos) : Pos := offset (cell v).x (cell v).y (cell v).z d

/-- The offset of a cell. -/
def unshift (v : Vector3f) (c : Pos) : Pos := ⟨c.x - (cell v).x, c.y - (cell v).y, c.z - (cell v).z⟩

theorem unshift_shift (v : Vector3f) (d : Pos) : unshift v (shift v d) = d := by
  have h : ∀ a b : Int32, a + b - a = b := by
    intro a b
    rw [Int32.add_comm, Int32.add_sub_cancel]
  cases d
  simp only [unshift, shift, offset, h]

/-! ## The passes -/

section Passes

variable {σ : Type} (world : AreaBlockAccess σ)

/-- The round of `copy` at a cell. -/
def copyAt (startPoint : Vector3f) (d : Pos) : EStateM Exn (σ × CuboidClipboard) Unit := do
  let c := shift startPoint d
  let blockId ← onFst (world.getBlockTypeId c.x c.y c.z)
  let data ← onFst (world.getBlockData c.x c.y c.z)
  onSnd (setBlockTypeId d.x d.y d.z blockId)
  onSnd (setBlockData d.x d.y d.z data)

theorem copy_eq (startPoint : Vector3f) (s : σ) (this : CuboidClipboard) :
    copy world startPoint (s, this) =
      (cellsOf this.box).foldlM (fun _ d => copyAt world startPoint d) () (s, this) := by
  have hround : ∀ x y z, (do
        let blockId ← onFst (world.getBlockTypeId (startPoint.getBlockX + x) (startPoint.getBlockY + y)
          (startPoint.getBlockZ + z))
        let data ← onFst (world.getBlockData (startPoint.getBlockX + x) (startPoint.getBlockY + y)
          (startPoint.getBlockZ + z))
        onSnd (setBlockTypeId x y z blockId)
        onSnd (setBlockData x y z data)
        pure (ForInStep.yield PUnit.unit)) = (do
        let u ← copyAt world startPoint ⟨x, y, z⟩
        pure (ForInStep.yield u)) := by
    intro x y z
    simp only [copyAt, bind_assoc]
    rfl
  unfold copy
  rw [bind_of_ok (get_apply (s, this))]
  simp only [hround, forIn_yield]
  rw [cellsOf, foldlM_grid]
  simp only [box, Int32.zero_add, bind_pure_unit]

/-- The round of `place` at a cell. -/
def placeAt (startPoint : Vector3f) (noAir : Bool) (d : Pos) : EStateM Exn (σ × CuboidClipboard) Unit := do
  let c := shift startPoint d
  let blockId ← onSnd (getBlockTypeId d.x d.y d.z)
  if noAir = false ∨ blockId ≠ 0 then
    let data ← onSnd (getBlockData d.x d.y d.z)
    onFst (world.setBlockTypeId c.x c.y c.z blockId)
    onFst (world.setBlockData c.x c.y c.z data)

theorem place_eq (startPoint : Vector3f) (noAir : Bool) (s : σ) (this : CuboidClipboard) :
    place world startPoint noAir (s, this) =
      (cellsOf this.box).foldlM (fun _ d => placeAt world startPoint noAir d) () (s, this) := by
  have hround : ∀ x y z, (do
        let blockId ← onSnd (getBlockTypeId x y z)
        if noAir = false ∨ blockId ≠ 0 then do
          let data ← onSnd (getBlockData x y z)
          onFst (world.setBlockTypeId (startPoint.x.toInt32 + x) (startPoint.y.toInt32 + y)
            (startPoint.z.toInt32 + z) blockId)
          onFst (world.setBlockData (startPoint.x.toInt32 + x) (startPoint.y.toInt32 + y)
            (startPoint.z.toInt32 + z) data)
          pure (ForInStep.yield PUnit.unit)
        else pure (ForInStep.yield PUnit.unit)) = (do
        let u ← placeAt world startPoint noAir ⟨x, y, z⟩
        pure (ForInStep.yield u)) := by
    intro x y z
    simp only [placeAt, bind_assoc]
    congr 1
    funext blockId
    split
    · simp only [bind_assoc]
      rfl
    · rfl
  unfold place
  rw [bind_of_ok (get_apply (s, this))]
  simp only [hround, forIn_yield]
  rw [cellsOf, foldlM_grid]
  simp only [box, Int32.zero_add, bind_pure_unit]

variable {world} (L : AreaLaws world)

/-- **Copying a list of cells** leaves the world as it is; the clipboard has what the world has there. -/
theorem copyAll_ok (p : Vector3f) {R : CuboidRegion} {cells : List Pos} (hc : ∀ d ∈ cells, R.Lies d)
    (hw : ∀ d ∈ cells, L.InArea (shift p d)) {s : σ} (hs : L.Valid s) {this : CuboidClipboard}
    (ht : (clipboardLaws R).Valid this) : ∃ s' this',
      cells.foldlM (fun _ d => copyAt world p d) () (s, this) = .ok () (s', this') ∧ L.Valid s' ∧
      L.blocks s' = L.blocks s ∧ (clipboardLaws R).Valid this' ∧ ∀ d, this'.blockAt d =
        if d ∈ cells then (clipboardLaws R).stored (L.blocks s (shift p d)) else this.blockAt d := by
  induction cells generalizing s this with
  | nil => exact ⟨s, this, rfl, hs, rfl, ht, fun d => by simp⟩
  | cons e cells ih =>
    obtain ⟨s1, h1, hv1, hb1⟩ := L.getBlockTypeId hs (hw e List.mem_cons_self)
    obtain ⟨s2, h2, hv2, hb2⟩ := L.getBlockData hv1 (hw e List.mem_cons_self)
    rw [hb1] at h2
    obtain ⟨t, hput, hvt, hbt⟩ := put_ok (clipboardLaws R) ht (L.blocks s (shift p e))
      (hc e List.mem_cons_self)
    obtain ⟨u, t1, hset, hset'⟩ := bind_eq_ok.mp hput
    have htype : setBlockTypeId e.x e.y e.z (L.blocks s (shift p e)).type this = .ok u t1 := hset
    have hround : copyAt world p e (s, this) = .ok () (s2, t) := by
      rw [copyAt, bind_of_ok (onFst_of_ok h1 this), bind_of_ok (onFst_of_ok h2 this),
        bind_of_ok (onSnd_of_ok htype s2)]
      exact onSnd_of_ok hset' s2
    have hsame : L.blocks s2 = L.blocks s := hb2.trans hb1
    obtain ⟨s', this', h', hv', hb', ht', hd'⟩ := ih (fun d hd => hc d (List.mem_cons_of_mem _ hd))
      (fun d hd => hw d (List.mem_cons_of_mem _ hd)) hv2 hvt
    refine ⟨s', this', by rw [List.foldlM_cons, bind_of_ok hround, h'], hv', hb'.trans hsame, ht',
      fun d => ?_⟩
    have hbt' : t.blockAt d =
        if d = e then (clipboardLaws R).stored (L.blocks s (shift p e)) else this.blockAt d := by
      refine (hbt d).trans (if_congr (and_iff_left trivial) rfl rfl)
    rw [hd' d, hsame, hbt']
    by_cases hmem : d ∈ cells
    · simp [hmem]
    · by_cases hde : d = e
      · simp [hde]
      · simp [hmem, hde]

/-- What `place` sets, by the cells of the world. -/
def placed (this : CuboidClipboard) (q : Vector3f) (c : Pos) : Block := this.blockAt (unshift q c)

/-- The cells that `place` does not skip. -/
def Copies (this : CuboidClipboard) (noAir : Bool) (d : Pos) : Prop :=
  noAir = false ∨ (this.blockAt d).type ≠ 0

instance (this : CuboidClipboard) (noAir : Bool) : DecidablePred (this.Copies noAir) := fun _ =>
  inferInstanceAs (Decidable (_ ∨ _))

/-- The cells of the world that `place` sets, in the order of its loops. -/
def targets (this : CuboidClipboard) (q : Vector3f) (noAir : Bool) (cells : List Pos) : List Pos :=
  (cells.filter fun d => this.Copies noAir d).map (shift q)

/-- **Placing a list of cells** is setting the cells of the world that are not skipped. -/
theorem placeAll_ok (q : Vector3f) (noAir : Bool) {this : CuboidClipboard} (ht : this.Sized)
    {cells : List Pos} (hc : ∀ d ∈ cells, this.box.Lies d) {s s' : σ}
    (h : putAll world (this.placed q) (this.targets q noAir cells) s = .ok () s') :
    cells.foldlM (fun _ d => placeAt world q noAir d) () (s, this) = .ok () (s', this) := by
  induction cells generalizing s with
  | nil =>
    cases h
    rfl
  | cons d cells ih =>
    have hd := hc d List.mem_cons_self
    have hread := getBlockTypeId_ok ht hd
    have hdata := getBlockData_ok ht hd
    have hcells : ∀ e ∈ cells, this.box.Lies e := fun e he => hc e (List.mem_cons_of_mem _ he)
    rw [List.foldlM_cons]
    by_cases hcopy : this.Copies noAir d
    · have hlist : this.targets q noAir (d :: cells) = shift q d :: this.targets q noAir cells := by
        simp [targets, hcopy]
      rw [hlist, putAll] at h
      obtain ⟨u, s1, hput, h'⟩ := bind_eq_ok.mp h
      obtain ⟨u', s2, hset, hset'⟩ := bind_eq_ok.mp hput
      rw [placed, unshift_shift] at hset hset'
      have hmatch : noAir = false ∨ (this.blockAt d).type ≠ 0 := hcopy
      have hround : placeAt world q noAir d (s, this) = .ok () (s1, this) := by
        rw [placeAt, bind_of_ok (onSnd_of_ok hread s), if_pos hmatch, bind_of_ok (onSnd_of_ok hdata s),
          bind_of_ok (onFst_of_ok hset this)]
        exact onFst_of_ok hset' this
      rw [bind_of_ok hround]
      exact ih hcells h'
    · have hlist : this.targets q noAir (d :: cells) = this.targets q noAir cells := by
        simp [targets, hcopy]
      rw [hlist] at h
      have hmatch : ¬ (noAir = false ∨ (this.blockAt d).type ≠ 0) := hcopy
      have hround : placeAt world q noAir d (s, this) = .ok () (s, this) := by
        rw [placeAt, bind_of_ok (onSnd_of_ok hread s), if_neg hmatch]
        rfl
      rw [bind_of_ok hround]
      exact ih hcells h

end Passes

/-! ## Bytes between two worlds -/

/-- A number that went through a signed byte, in its low eight bits. -/
theorem and_255_byte (n : Int32) : widen (narrow n) &&& 255 = n &&& 255 := by
  rw [← Chunk.unsigned_narrow, narrow_widen, Chunk.unsigned_narrow]

theorem and_15_byte (n : Int32) : widen (narrow n) &&& 15 = n &&& 15 := by
  have h : ∀ m : Int32, m &&& 15 = m &&& 255 &&& 15 := by
    intro m
    rw [Int32.and_assoc]
    rfl
  rw [h, and_255_byte, ← h]

/-- What a clipboard makes of a block does not show when the block is set in a world. -/
theorem stored_stored (R : CuboidRegion) (b : Block) :
    managerLaws.stored ((clipboardLaws R).stored b) = managerLaws.stored b :=
  Block.ext (and_255_byte b.type) (and_15_byte b.data)

theorem byte_eq_zero_iff {n : Int32} (h : n &&& 255 = n) : widen (narrow n) = 0 ↔ n = 0 := by
  constructor
  · intro h0
    rw [← h, ← and_255_byte, h0]
    rfl
  · rintro rfl
    rfl

/-! ## Worlds -/

/-- What `dst'` shows when the box at `p` in `src` was placed at `q` in `dst`. -/
structure Pasted (src dst dst' : ChunkManager) (p q : Vector3f) (R : CuboidRegion) (noAir : Bool) :
    Prop where
  inside : ∀ d, R.Lies d → inHeight (shift q d).y → ∃ b, Shows src (shift p d) b ∧
    (0 ≤ b.type.toInt ∧ b.type.toInt ≤ 255) ∧
    if noAir = true ∧ b.type = 0 then SameAt dst dst' (shift q d) else Shows dst' (shift q d) b
  air : ∀ d, R.Lies d → ¬ inHeight (shift p d).y → Shows src (shift p d) ⟨0, 0⟩
  outside : ∀ c, (∀ d, R.Lies d → c ≠ shift q d) → SameAt dst dst' c

/-- `copy` from `src` and then `place` in `dst`, or in `src` itself, is exact. -/
def CopyPasteExact (this : CuboidClipboard) (p q : Vector3f) (noAir : Bool) (src dst : ChunkManager) :
    Prop :=
  ∃ src' this', copy managerArea p (src, this) = .ok () (src', this') ∧
    (∃ dst', place managerArea q noAir (dst, this') = .ok () (dst', this') ∧
      Pasted src dst dst' p q this.box noAir) ∧
    ∃ s', place managerArea q noAir (src', this') = .ok () (s', this') ∧
      Pasted src src s' p q this.box noAir

theorem type_bounds (s : ChunkManager) (c : Pos) :
    0 ≤ (s.shown c).type.toInt ∧ (s.shown c).type.toInt ≤ 255 := by
  have h : ((s.shown c).type &&& 255).toInt = (s.shown c).type.toInt % 2 ^ 8 :=
    toInt_and_mask _ 8 (by norm_num)
  have hkept : (s.shown c).type &&& 255 = (s.shown c).type := congrArg Block.type (stored_shown s c)
  rw [hkept] at h
  omega

/-! ## Copying from any world -/

/-- The block that `copy` finds for the cell `d`: of the lost chunk until it is left, and of the map from there
on. -/
def copied (src : ChunkManager) (p : Vector3f) (cells : List Pos) (d : Pos) : Block :=
  if d ∈ src.before (shift p) cells then src.shown (shift p d) else src.blocksOf (shift p d)

/-- Away from the lost chunk the copy is right. -/
theorem copied_of_not_inStale {src : ChunkManager} {p : Vector3f} {cells : List Pos} {d : Pos}
    (h : ¬ src.InStale (shift p d)) : copied src p cells d = src.shown (shift p d) := by
  unfold copied
  rw [shown_of_not_inStale h, ite_self]

theorem stored_copied (src : ChunkManager) (p : Vector3f) (cells : List Pos) (d : Pos) :
    managerLaws.stored (copied src p cells d) = copied src p cells d := by
  unfold copied
  split
  · exact stored_shown src _
  · exact stored_blocksOf src _

/-- **Copying a list of cells** from any sound world. -/
theorem copyAll_copied {src : ChunkManager} (hs : Sound src) (p : Vector3f) {R : CuboidRegion}
    {cells : List Pos} (hd : cells.Nodup) (hc : ∀ d ∈ cells, R.Lies d) {this : CuboidClipboard}
    (ht : (clipboardLaws R).Valid this) : ∃ src' this',
      cells.foldlM (fun _ d => copyAt managerArea p d) () (src, this) = .ok () (src', this') ∧
      Sound src' ∧ SameView (src.past (shift p) cells) src' ∧ (clipboardLaws R).Valid this' ∧
      ∀ d ∈ cells, this'.blockAt d = (clipboardLaws R).stored (copied src p cells d) := by
  rcases hs.valid_or_detached with hv | ⟨k, hk⟩
  · obtain ⟨src', this', h, hv', hb, ht', hcopy⟩ :=
      copyAll_ok managerLaws p hc (fun _ _ => trivial) hv ht
    have hview : SameView (src.past (shift p) cells) src' :=
      sameView_past_of_attached (Or.inl hv.2) hv'.2 hb
    refine ⟨src', this', h, sound_of_valid hv', hview, ht', fun d hd => ?_⟩
    rw [copied_of_not_inStale (not_inStale_of_attached hv.2 _), shown_of_attached hv.2]
    exact (hcopy d).trans (if_pos hd)
  obtain ⟨hstale, hbefore⟩ := hs.before_stale hk (shift p) cells
  obtain ⟨s1, this1, h1, ⟨hs1, hk1, hb1⟩, hshown1, ht1, hcopy1⟩ := copyAll_ok
    (staleLaws k src.blocksOf) p (fun d hd => hc d (mem_of_mem_before hd)) hbefore hstale ht
  have hshown1 : s1.shown = src.shown := hshown1
  have hcopy1 : ∀ d, this1.blockAt d = if d ∈ src.before (shift p) cells then
    (clipboardLaws R).stored (src.shown (shift p d)) else this.blockAt d := hcopy1
  cases hsince : src.since (shift p) cells with
  | nil =>
    have hall := before_of_since_eq_nil hsince
    rw [hall] at h1
    refine ⟨s1, this1, h1, hs1, sameView_past_of_detached hsince hk hk1 hshown1 hb1, ht1, fun d hd => ?_⟩
    rw [hcopy1 d, copied, hall, if_pos hd, if_pos hd]
  | cons e rest =>
    -- the first cell of another chunk: from here on the shortcut might as well be empty
    have hleave : s1.Leaves (shift p e) := (leaves_of_since hsince).of_detached hk hk1
    have hround : copyAt managerArea p e (s1, this1) = copyAt managerArea p e (s1.forget, this1) := by
      refine bind_congr_state ?_
      unfold onFst
      rw [getBlockTypeId_forget hs1 hk1 hleave]
    have hforget : (e :: rest).foldlM (fun _ d => copyAt managerArea p d) () (s1, this1) =
        (e :: rest).foldlM (fun _ d => copyAt managerArea p d) () (s1.forget, this1) :=
      bind_congr_state hround
    have hmem : ∀ d ∈ e :: rest, d ∈ cells := fun d hd => mem_of_mem_since (hsince ▸ hd)
    obtain ⟨s2, this2, h2, hv2, hb2, ht2, hcopy2⟩ := copyAll_ok managerLaws p
      (fun d hd => hc d (hmem d hd)) (fun _ _ => trivial) (valid_forget hs1) ht1
    have hb2' : s2.blocksOf = src.blocksOf := (show s2.blocksOf = s1.forget.blocksOf from hb2).trans
      ((blocksOf_forget s1).trans hb1)
    have hcopy2 : ∀ d, this2.blockAt d = if d ∈ e :: rest then
      (clipboardLaws R).stored (s1.forget.blocksOf (shift p d)) else this1.blockAt d := hcopy2
    have hne : src.since (shift p) cells ≠ [] := by simp [hsince]
    refine ⟨s2, this2, ?_, sound_of_valid hv2, sameView_past_of_attached (Or.inr hne) hv2.2 hb2', ht2,
      fun d hd => ?_⟩
    · rw [← src.before_append_since (shift p) cells, hsince, List.foldlM_append, bind_of_ok h1, hforget, h2]
    · rw [← src.before_append_since (shift p) cells, hsince] at hd
      have hdisj := List.nodup_append'.mp
        (show (src.before (shift p) cells ++ (e :: rest)).Nodup by
          rwa [← hsince, before_append_since]) |>.2.2
      rw [hcopy2 d, hcopy1 d, copied, blocksOf_forget, hb1]
      by_cases hrest : d ∈ e :: rest
      · rw [if_pos hrest, if_neg fun hbef => hdisj hbef hrest]
      · have hbef := (List.mem_append.mp hd).resolve_right hrest
        rw [if_neg hrest, if_pos hbef, if_pos hbef]

/-! ## Placing in any world -/

section Paste

variable (src t dst : ChunkManager) (p q : Vector3f) (noAir : Bool) (R : CuboidRegion)

/-- The cells that `place` sets, if the clipboard was copied from `src`. -/
def pasteCells : List Pos :=
  ((cellsOf R).filter fun d => noAir = false ∨ (copied src p (cellsOf R) d).type ≠ 0).map (shift q)

/-- What the readers of `t` find after the placing: the copy, unless it was set in the lost chunk of `t` before
this was left. -/
def pasted (c : Pos) : Block :=
  if c ∈ t.lasting (pasteCells src p q noAir R) ∧ inHeight c.y then copied src p (cellsOf R) (unshift q c)
  else (t.past id (pasteCells src p q noAir R)).shown c

/-- What they are to find: what the readers of `src` found, and elsewhere what those of `dst` found. -/
def wanted (c : Pos) : Block :=
  if R.Lies (unshift q c) ∧ ¬ (noAir = true ∧ (src.shown (shift p (unshift q c))).type = 0) then
    src.shown (shift p (unshift q c))
  else dst.shown c

/-- In the lost chunk of `dst`, and where the lost chunk of `src` is copied to, nothing goes wrong. -/
def PasteKeeps : Prop := ∀ c, inHeight c.y →
  dst.InStale c ∨ R.Lies (unshift q c) ∧ src.InStale (shift p (unshift q c)) →
    pasted src t p q noAir R c = wanted src dst p q noAir R c

variable {src t dst p q noAir R}

theorem shift_unshift (q : Vector3f) (c : Pos) : shift q (unshift q c) = c := by
  cases c
  simp only [unshift, shift, offset, add_sub_self]

theorem mem_pasteCells {c : Pos} : c ∈ pasteCells src p q noAir R ↔ R.Lies (unshift q c) ∧
    (noAir = false ∨ (copied src p (cellsOf R) (unshift q c)).type ≠ 0) := by
  have hinj : Function.Injective (shift q) := Function.LeftInverse.injective (unshift_shift q)
  rw [pasteCells, ← shift_unshift q c, List.mem_map_of_injective hinj, unshift_shift]
  simp [mem_cellsOf]

/-- Away from the lost chunks nothing goes wrong. -/
theorem pasted_of_not_inStale (ht : t = dst ∨ ∃ l, t = dst.past (shift p) l) {c : Pos}
    (h1 : ¬ dst.InStale c) (h2 : ¬ (R.Lies (unshift q c) ∧ src.InStale (shift p (unshift q c))))
    (hy : inHeight c.y) : pasted src t p q noAir R c = wanted src dst p q noAir R c := by
  -- at this cell the world was left as it was
  have hcell : ¬ t.InStale c ∧ t.shown c = dst.shown c := by
    rcases ht with rfl | ⟨l, rfl⟩
    · exact ⟨h1, rfl⟩
    · exact past_of_not_inStale h1 (shift p) l
  have hpast : (t.past id (pasteCells src p q noAir R)).shown c = dst.shown c :=
    (past_of_not_inStale hcell.1 id (pasteCells src p q noAir R)).2.trans hcell.2
  have hmem : c ∈ t.lasting (pasteCells src p q noAir R) ∧ inHeight c.y ↔ c ∈ pasteCells src p q noAir R :=
    ⟨fun h => mem_of_mem_lasting h.1, fun h => ⟨mem_lasting h hy hcell.1, hy⟩⟩
  unfold pasted wanted
  rw [hpast]
  by_cases hR : R.Lies (unshift q c)
  · have hcopied : copied src p (cellsOf R) (unshift q c) = src.shown (shift p (unshift q c)) :=
      copied_of_not_inStale fun hst => h2 ⟨hR, hst⟩
    rw [hcopied]
    refine if_congr (hmem.trans (mem_pasteCells.trans ?_)) rfl rfl
    rw [hcopied]
    cases noAir <;> simp [hR]
  · rw [if_neg fun h => hR (mem_pasteCells.mp (hmem.mp h)).1, if_neg fun h => hR h.1]

/-- **What was placed** is as it is to be, if and only if the readers find it. -/
theorem pasted_iff {dst' : ChunkManager} (hsrc : Sound src) (hdst : Sound dst) (hdst' : Sound dst') :
    Pasted src dst dst' p q R noAir ↔
      ∀ c, inHeight c.y → dst'.shown c = wanted src dst p q noAir R c := by
  constructor
  · rintro ⟨hinside, -, houtside⟩ c hy
    unfold wanted
    by_cases hR : R.Lies (unshift q c)
    · have hy' : inHeight (shift q (unshift q c)).y := by rwa [shift_unshift]
      obtain ⟨b, hb, -, hshown⟩ := hinside _ hR hy'
      rw [shows_iff hsrc] at hb
      rw [shift_unshift, shows_iff hdst', sameAt_iff hdst hdst', ← hb] at hshown
      by_cases hskip : noAir = true ∧ (src.shown (shift p (unshift q c))).type = 0
      · rw [if_pos hskip] at hshown
        rw [if_neg fun h => h.2 hskip, hshown]
      · rw [if_neg hskip] at hshown
        rw [if_pos ⟨hR, hskip⟩, hshown]
    · rw [if_neg fun h => hR h.1]
      refine (sameAt_iff hdst hdst').mp (houtside c fun d hd hc => hR ?_)
      rwa [hc, unshift_shift]
  · intro h
    refine ⟨fun d hd hy => ⟨_, shows_shown hsrc _, type_bounds src _, ?_⟩, fun d _ hy => ?_, fun c hc => ?_⟩
    · have hd' := h _ hy
      unfold wanted at hd'
      rw [unshift_shift] at hd'
      rw [shows_iff hdst', sameAt_iff hdst hdst', hd']
      by_cases hskip : noAir = true ∧ (src.shown (shift p d)).type = 0
      · rw [if_pos hskip, if_neg fun h => h.2 hskip]
      · rw [if_neg hskip, if_pos ⟨hd, hskip⟩]
    · rw [shows_iff hsrc, shown_of_not_inHeight src hy]
    · rw [sameAt_iff hdst hdst']
      by_cases hy : inHeight c.y
      · rw [h c hy, wanted, if_neg fun hR => hc _ hR.1 (shift_unshift q c).symm]
      · rw [shown_of_not_inHeight _ hy, shown_of_not_inHeight _ hy]

variable (q noAir) in
/-- Placing what was copied from `src`. -/
theorem place_pasted {t' : ChunkManager} (ht' : Sound t') (hview : SameView t t')
    {this : CuboidClipboard} (hthis : this.Sized) (hbox : this.box = R)
    (hcopied : ∀ d, R.Lies d → this.blockAt d = (clipboardLaws R).stored (copied src p (cellsOf R) d)) :
    ∃ dst', place managerArea q noAir (t', this) = .ok () (dst', this) ∧ Sound dst' ∧
      dst'.shown = pasted src t p q noAir R := by
  obtain ⟨dst', hput, hs', hshown⟩ := ht'.putAll_shown (this.placed q) (this.targets q noAir (cellsOf R))
  have hplace : place managerArea q noAir (t', this) = .ok () (dst', this) := by
    rw [place_eq, hbox]
    exact placeAll_ok q noAir hthis (fun d hd => hbox ▸ mem_cellsOf.mp hd) hput
  have htargets : this.targets q noAir (cellsOf R) = pasteCells src p q noAir R := by
    refine congrArg _ (List.filter_congr fun d hd => ?_)
    have hzero : (this.blockAt d).type = 0 ↔ (copied src p (cellsOf R) d).type = 0 := by
      rw [hcopied d (mem_cellsOf.mp hd)]
      exact byte_eq_zero_iff (congrArg Block.type (stored_copied src p (cellsOf R) d))
    simp only [Copies, ne_eq, hzero]
  refine ⟨dst', hplace, hs', funext fun c => ?_⟩
  rw [hshown, htargets, hview.afterPut]
  unfold afterPut pasted
  by_cases hc : c ∈ t.lasting (pasteCells src p q noAir R) ∧ inHeight c.y
  · have hR := (mem_pasteCells.mp (mem_of_mem_lasting hc.1)).1
    rw [if_pos hc, if_pos hc, placed, hcopied _ hR, stored_stored, stored_copied]
  · rw [if_neg hc, if_neg hc]

end Paste

/-- **Copy and paste**, in any two sound states. -/
theorem copyPasteExact_iff_of_sound {this : CuboidClipboard} (hthis : this.Sized) (p q : Vector3f)
    (noAir : Bool) {src dst : ChunkManager} (hsrc : Sound src) (hdst : Sound dst) :
    CopyPasteExact this p q noAir src dst ↔ PasteKeeps src dst dst p q noAir this.box ∧
      PasteKeeps src (src.past (shift p) (cellsOf this.box)) src p q noAir this.box := by
  obtain ⟨src', this', hcopy, hs', hview, ⟨hbox, hsized⟩, hcopied⟩ := copyAll_copied hsrc p
    (nodup_cellsOf this.box) (fun _ hd => mem_cellsOf.mp hd) ⟨rfl, hthis⟩
  have hcopied : ∀ d, this.box.Lies d →
      this'.blockAt d = (clipboardLaws this.box).stored (copied src p (cellsOf this.box) d) :=
    fun d hd => hcopied d (mem_cellsOf.mpr hd)
  obtain ⟨d1, h1, hs1, hshown1⟩ := place_pasted q noAir hdst (SameView.refl dst) hsized hbox
    hcopied
  obtain ⟨d2, h2, hs2, hshown2⟩ := place_pasted q noAir hs' hview hsized hbox hcopied
  -- away from the lost chunks nothing can go wrong
  have hkeeps : ∀ {t base : ChunkManager}, (t = base ∨ ∃ l, t = base.past (shift p) l) →
      (PasteKeeps src t base p q noAir this.box ↔ ∀ c, inHeight c.y →
        pasted src t p q noAir this.box c = wanted src base p q noAir this.box c) := by
    intro t base ht
    refine ⟨fun h c hy => ?_, fun h c hy _ => h c hy⟩
    by_cases hst : base.InStale c ∨ this.box.Lies (unshift q c) ∧ src.InStale (shift p (unshift q c))
    · exact h c hy hst
    · exact pasted_of_not_inStale ht (fun h => hst (Or.inl h)) (fun h => hst (Or.inr h)) hy
  rw [hkeeps (Or.inl rfl), hkeeps (Or.inr ⟨_, rfl⟩), ← hshown1, ← hshown2, ← pasted_iff hsrc hdst hs1,
    ← pasted_iff hsrc hsrc hs2]
  constructor
  · rintro ⟨src2, this2, e0, ⟨dst2, e1, hp1⟩, s2, e2, hp2⟩
    rw [copy_eq, hcopy] at e0
    obtain ⟨rfl, rfl⟩ := Prod.mk.inj (EStateM.Result.ok.inj e0).2
    obtain ⟨rfl, -⟩ := Prod.mk.inj (EStateM.Result.ok.inj (h1.symm.trans e1)).2
    obtain ⟨rfl, -⟩ := Prod.mk.inj (EStateM.Result.ok.inj (h2.symm.trans e2)).2
    exact ⟨hp1, hp2⟩
  · rintro ⟨hp1, hp2⟩
    exact ⟨src', this', by rw [copy_eq, hcopy], ⟨d1, h1, hp1⟩, d2, h2, hp2⟩

/-- Two cells in a row. -/
def pair : CuboidClipboard := ⟨[0, 0], [0, 0], 1, 1, 2⟩

theorem sized_pair : pair.Sized :=
  ⟨fun a => by cases a <;> decide, by decide, by decide, by decide⟩

theorem lies_pair {d : Pos} (h : pair.box.Lies d) : d = ⟨0, 0, 0⟩ ∨ d = ⟨0, 0, 1⟩ := by
  have hmem : d ∈ [(⟨0, 0, 0⟩ : Pos), ⟨0, 0, 1⟩] := mem_cellsOf.mpr h
  simpa using hmem

/-- A vector with the coordinates of a cell. -/
def vector (c : Pos) : Vector3f := ⟨JFloat.ofInt32 c.x, JFloat.ofInt32 c.y, JFloat.ofInt32 c.z⟩

theorem cell_far : cell (vector ⟨1000, 64, 1000⟩) = ⟨1000, 64, 1000⟩ := by
  have h1 : (JFloat.ofInt32 1000).toInt32 = 1000 := JFloat.toInt32_ofInt32 (by decide)
  have h2 : (JFloat.ofInt32 64).toInt32 = 64 := JFloat.toInt32_ofInt32 (by decide)
  simp only [cell, vector, h1, h2]

theorem cell_lastColumn : cell (vector ⟨0, 0, 15⟩) = ⟨0, 0, 15⟩ := by
  have h0 : (JFloat.ofInt32 0).toInt32 = 0 := JFloat.toInt32_ofInt32 (by decide)
  have h15 : (JFloat.ofInt32 15).toInt32 = 15 := JFloat.toInt32_ofInt32 (by decide)
  simp only [cell, vector, h0, h15]

end WorldToPE.CuboidClipboard
