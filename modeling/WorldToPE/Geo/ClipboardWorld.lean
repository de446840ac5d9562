import WorldToPE.Geo.Clipboard
import WorldToPE.Geo.Edits
import WorldToPE.Geo.WorldReplace

/-!
# WorldToPE.Geo.ClipboardWorld — a clipboard against a box of a world

Both are an `AreaBlockAccess`.  A world shows a type as it was set, modulo 256; a clipboard shows it as a
signed byte.  So they part where a type above 127 was set last or is held.  And what is set in a chunk that only
the shortcut of the world has gets lost.

* `applyAll_shown`: what a sequence of edits makes of a world in any sound state.
* `edited_bytes`: a clipboard that has the bytes of a world still has them after the same edits.
* `agree_iff`: when readers, counting and replacing agree; `agreeWhen_iff`: away from such a chunk only the types
  matter.
-/

namespace WorldToPE

open Java Run

/-! ## Edits of any world -/

namespace ChunkManager

theorem apply_forget {s : ChunkManager} (hs : Sound s) {k : Key} (hd : s.Detached k) {f : Pos → Pos} {e : Edit}
    (hl : s.Leaves (f e.cell)) : e.apply managerArea f s = e.apply managerArea f s.forget := by
  cases e with
  | setBlockTypeId d type => exact setBlockTypeId_forget hs hd hl type
  | setBlockData d data => exact setBlockData_forget hs hd hl data

/-- **A sequence of edits** of a world: those made in the lost chunk before it is left get lost. -/
theorem applyAll_shown {s : ChunkManager} (hs : Sound s) {f : Pos → Pos} (hf : Function.Injective f)
    {edits : List Edit} (hin : ∀ e ∈ edits, inHeight (f e.cell).y) :
    ∃ s', applyAll managerArea f edits s = .ok () s' ∧ Sound s' ∧
      ((s.since (f ∘ Edit.cell) edits = [] ∧ (∀ c, s'.Leaves c ↔ s.Leaves c) ∧
          s'.blocksOf = s.blocksOf ∧ ∀ d, s'.shown (f d) = edited managerLaws edits d (s.shown (f d))) ∨
        (s.since (f ∘ Edit.cell) edits ≠ [] ∧ managerLaws.Valid s' ∧ ∀ d, s'.blocksOf (f d) =
          edited managerLaws (s.since (f ∘ Edit.cell) edits) d (s.blocksOf (f d)))) := by
  rcases hs.valid_or_detached with hv | ⟨k, hd⟩
  · -- every edit leaves for its chunk
    have hbefore : s.before (f ∘ Edit.cell) edits = [] := by
      refine List.eq_nil_iff_forall_not_mem.mpr fun e he => ?_
      have hstay := not_leaves_of_mem_before he
      exact hstay ⟨hin e (mem_of_mem_before he), not_inStale_of_attached hv.2 _⟩
    have hsince : s.since (f ∘ Edit.cell) edits = edits := by
      have happ := s.before_append_since (f ∘ Edit.cell) edits
      rwa [hbefore, List.nil_append] at happ
    cases edits with
    | nil => exact ⟨s, rfl, hs, Or.inl ⟨rfl, fun _ => Iff.rfl, rfl, fun d => rfl⟩⟩
    | cons e edits =>
      obtain ⟨s', h, hv', hb⟩ := applyAll_ok managerLaws hf (fun e he => ⟨trivial, hin e he⟩) hv
      refine ⟨s', h, sound_of_valid hv', Or.inr ⟨by simp [hsince], hv', ?_⟩⟩
      rw [hsince]
      exact hb
  obtain ⟨hstale, hbefore⟩ := hs.before_stale hd (f ∘ Edit.cell) edits
  obtain ⟨s1, h1, ⟨hs1, hd1, hb1⟩, hshown1⟩ := applyAll_ok (staleLaws k s.blocksOf) hf
    (fun e he => ⟨hbefore e he, hin e (mem_of_mem_before he)⟩) hstale
  cases hsince : s.since (f ∘ Edit.cell) edits with
  | nil =>
    rw [before_of_since_eq_nil hsince] at h1 hshown1
    exact ⟨s1, h1, hs1, Or.inl ⟨rfl, fun c => ⟨fun h => h.of_detached hd1 hd, fun h => h.of_detached hd hd1⟩,
      hb1, hshown1⟩⟩
  | cons e rest =>
    -- the first edit of another chunk: from here on the shortcut might as well be empty
    have hleave := (leaves_of_since hsince).of_detached hd hd1
    have hforget : applyAll managerArea f (e :: rest) s1 = applyAll managerArea f (e :: rest) s1.forget :=
      bind_congr_state (apply_forget hs1 hd1 hleave)
    have hrest : ∀ e' ∈ e :: rest, managerLaws.InArea (f e'.cell) ∧ managerLaws.Kept (f e'.cell) := by
      intro e' he'
      rw [← hsince] at he'
      exact ⟨trivial, hin e' (mem_of_mem_since he')⟩
    obtain ⟨s2, h2, hv2, hb2⟩ := applyAll_ok managerLaws hf hrest (valid_forget hs1)
    have hb2 : ∀ d, s2.blocksOf (f d) = edited managerLaws (e :: rest) d (s1.forget.blocksOf (f d)) := hb2
    refine ⟨s2, ?_, sound_of_valid hv2, Or.inr ⟨List.cons_ne_nil _ _, hv2, fun d => ?_⟩⟩
    · rw [← s.before_append_since (f ∘ Edit.cell) edits, hsince, applyAll_append, bind_of_ok h1,
        hforget, h2]
    · rw [hb2, blocksOf_forget, hb1]

end ChunkManager

/-! ## A clipboard and a box of a world -/

namespace CuboidClipboard

open Tally GeoUtils ChunkManager

/-- There is room in the world for a box at `p`. -/
structure Over (box : CuboidRegion) (p : Pos) : Prop where
  fits : ∀ a, (p.on a).toInt + (box.size a).toInt < 2 ^ 31
  bottom : 0 ≤ p.y.toInt
  top : p.y.toInt + box.height.toInt ≤ 128

/-- The region `R` lies in the box of a clipboard. -/
def Within (R box : CuboidRegion) : Prop := ∀ a, 0 ≤ (R.start a).toInt ∧ 0 ≤ (R.size a).toInt ∧
  (R.start a).toInt + (R.size a).toInt ≤ (box.size a).toInt

/-- The region, in the world. -/
def moved (p : Pos) (R : CuboidRegion) : CuboidRegion :=
  ⟨p.x + R.x, p.y + R.y, p.z + R.z, R.width, R.height, R.length⟩

/-- Both have the same bytes: what the readers show differs in nothing but the sign. -/
def SameBytes (this : CuboidClipboard) (s : ChunkManager) (p : Pos) : Prop := ∀ d, this.box.Lies d →
  (result (getBlockTypeId d.x d.y d.z) this).map narrow =
    (result (ChunkManager.getBlockTypeId (p.x + d.x) (p.y + d.y) (p.z + d.z)) s).map narrow ∧
  (result (getBlockData d.x d.y d.z) this).map narrow =
    (result (ChunkManager.getBlockData (p.x + d.x) (p.y + d.y) (p.z + d.z)) s).map narrow

/-- Both show the same blocks. -/
def SameBlocks (this : CuboidClipboard) (s : ChunkManager) (p : Pos) : Prop := ∀ d, this.box.Lies d →
  result (getBlockTypeId d.x d.y d.z) this =
    result (ChunkManager.getBlockTypeId (p.x + d.x) (p.y + d.y) (p.z + d.z)) s ∧
  result (getBlockData d.x d.y d.z) this =
    result (ChunkManager.getBlockData (p.x + d.x) (p.y + d.y) (p.z + d.z)) s

section World

variable {this : CuboidClipboard} {s : ChunkManager} {p : Pos}

theorem on_box {d : Pos} (hd : this.box.Lies d) (a : Axis) :
    0 ≤ (d.on a).toInt ∧ (d.on a).toInt < (this.box.size a).toInt := by
  obtain ⟨hx, hy, hz⟩ := lies_box.mp hd
  cases a
  exacts [hx, hy, hz]

theorem Over.inHeight (h : Over this.box p) {d : Pos} (hd : this.box.Lies d) :
    inHeight (offset p.x p.y p.z d).y := by
  obtain ⟨h0, hlt⟩ := on_box hd .y
  have hfits := h.fits .y
  have hbottom := h.bottom
  have htop := h.top
  have hp : p.on .y = p.y := rfl
  have hh : this.box.size .y = this.box.height := rfl
  rw [hh] at hlt
  have hy : ((offset p.x p.y p.z d).on .y).toInt = (p.on .y).toInt + (d.on .y).toInt :=
    toInt_offset (by rw [hp]; omega) (by rw [hp]; omega)
  rw [hp] at hy
  have hy' : (offset p.x p.y p.z d).y.toInt = p.y.toInt + (d.on .y).toInt := hy
  constructor <;> omega

theorem Within.lies {R : CuboidRegion} (h : Within R this.box) {d : Pos} (hd : R.Lies d) :
    this.box.Lies d := by
  have hfits : R.Fits := by
    intro a
    have hW := (this.box.size a).toInt_lt
    have ha := h a
    omega
  rw [CuboidRegion.lies_iff] at hd
  rw [lies_box]
  have key : ∀ a, 0 ≤ (d.on a).toInt ∧ (d.on a).toInt < (this.box.size a).toInt := by
    intro a
    obtain ⟨h1, h2, h3⟩ := h a
    have hfar := CuboidRegion.toInt_far hfits h2
    have hda := hd a
    omega
  exact ⟨key .x, key .y, key .z⟩

/-- A region in the box has no more cells than the arrays. -/
theorem length_within (ht : this.Sized) {R : CuboidRegion} (hR : Within R this.box) :
    (cellsOf R).length < 2 ^ 31 := by
  have hsub : (cellsOf R).length ≤ (cellsOf this.box).length := by
    have hperm := (nodup_cellsOf R).subperm fun c hc => mem_cellsOf.mpr (hR.lies (mem_cellsOf.mp hc))
    exact hperm.length_le
  have hbox : this.box.Fits := by
    intro a
    have h0 : (this.box.start a).toInt = 0 := by cases a <;> rfl
    have hlt := (this.box.size a).toInt_lt
    omega
  have hvolume := length_cellsOf hbox fun a => (ht.positive a).le
  have hblocks : ((cellsOf this.box).length : ℤ) = this.blocks.length := hvolume.trans ht.blocks.symm
  have hfits := ht.fits
  omega

/-- The cells of the region in the world. -/
theorem cellsOf_moved (h : Over this.box p) {R : CuboidRegion} (hR : Within R this.box) :
    cellsOf (moved p R) = (cellsOf R).map (offset p.x p.y p.z) := by
  have hfits : R.Fits := by
    intro a
    have hW := (this.box.size a).toInt_lt
    have ha := hR a
    omega
  have hrange : ∀ a, intRange (p.on a + R.start a) (p.on a + R.start a + R.size a) =
      (intRange (R.start a) (R.far a)).map (p.on a + ·) := by
    intro a
    obtain ⟨h1, h2, h3⟩ := hR a
    have hfar := CuboidRegion.toInt_far hfits h2
    have hp := (p.on a).le_toInt
    have hfit := h.fits a
    rw [Int32.add_assoc]
    exact intRange_add (by omega) (show (p.on a).toInt + (R.far a).toInt < 2 ^ 31 by omega)
      (show (R.start a).toInt ≤ (R.far a).toInt by omega)
  have hgrid : ∀ xs zs ys : List Int32, (grid xs zs ys).map (offset p.x p.y p.z) =
      grid (xs.map (p.x + ·)) (zs.map (p.z + ·)) (ys.map (p.y + ·)) := by
    intro xs zs ys
    simp [grid, List.map_flatMap, List.flatMap_map, offset, Function.comp_def]
  have hx := hrange .x
  have hy := hrange .y
  have hz := hrange .z
  simp only [Pos.on, CuboidRegion.start, CuboidRegion.size, CuboidRegion.far] at hx hy hz
  rw [cellsOf, cellsOf, hgrid]
  show grid (intRange (p.x + R.x) (p.x + R.x + R.width)) (intRange (p.z + R.z) (p.z + R.z + R.length))
    (intRange (p.y + R.y) (p.y + R.y + R.height)) = _
  rw [hx, hy, hz]

/-- Agreement of the readers, in terms of the blocks. -/
theorem sameBlocks_iff (ht : this.Sized) (hs : Sound s) :
    SameBlocks this s p ↔ ∀ d, this.box.Lies d → this.blockAt d = s.shown (offset p.x p.y p.z d) := by
  refine forall₂_congr fun d hd => ?_
  obtain ⟨hw, hw'⟩ := shows_shown hs (offset p.x p.y p.z d)
  rw [result_of_ok (getBlockTypeId_ok ht hd), result_of_ok (getBlockData_ok ht hd)]
  constructor
  · rintro ⟨h1, h2⟩
    exact Block.ext (Except.ok.inj (h1.trans hw)) (Except.ok.inj (h2.trans hw'))
  · intro h
    rw [h]
    exact ⟨hw.symm, hw'.symm⟩

/-- A byte of the clipboard is read back with its sign. -/
theorem byteOf_iff {bytes : List UInt8} {i n : Int32} :
    (Except.ok (byteOf bytes i) : Except Exn Int32).map narrow = (Except.ok n).map narrow ↔
      byteOf bytes i = widen (narrow n) := by
  have hbyte : widen (narrow (byteOf bytes i)) = byteOf bytes i := congrArg widen (narrow_widen _)
  constructor
  · intro h
    rw [← hbyte]
    exact congrArg widen (Except.ok.inj h)
  · intro h
    rw [h]
    exact congrArg Except.ok (narrow_widen _)

/-- The same for the bytes: the clipboard has each block as it would keep it. -/
theorem sameBytes_iff (ht : this.Sized) (hs : Sound s) : SameBytes this s p ↔ ∀ d, this.box.Lies d →
    this.blockAt d = (clipboardLaws this.box).stored (s.shown (offset p.x p.y p.z d)) := by
  refine forall₂_congr fun d hd => ?_
  obtain ⟨hw, hw'⟩ := shows_shown hs (offset p.x p.y p.z d)
  have hw : result (ChunkManager.getBlockTypeId (p.x + d.x) (p.y + d.y) (p.z + d.z)) s =
    .ok (s.shown (offset p.x p.y p.z d)).type := hw
  have hw' : result (ChunkManager.getBlockData (p.x + d.x) (p.y + d.y) (p.z + d.z)) s =
    .ok (s.shown (offset p.x p.y p.z d)).data := hw'
  rw [result_of_ok (getBlockTypeId_ok ht hd), result_of_ok (getBlockData_ok ht hd), hw, hw', blockAt,
    if_pos hd, Block.ext_iff]
  exact and_congr byteOf_iff byteOf_iff

end World

/-! ## Values above 127 -/

/-- The mask with which a world keeps a type makes no difference to its byte. -/
theorem narrow_and_255 (type : Int32) : narrow (type &&& 255) = narrow type := by
  have hmask : (type &&& 255).toInt = type.toInt % 2 ^ 8 := toInt_and_mask _ 8 (by norm_num)
  have hl := toNat_narrow (type &&& 255)
  have hr := toNat_narrow type
  exact UInt8.toNat_inj.mp (by omega)

theorem widen_narrow_and_15 {data : Int32} (h0 : 0 ≤ data.toInt) (h : data.toInt ≤ 15) :
    widen (narrow data) = data &&& 15 := by
  have hmask : (data &&& 15).toInt = data.toInt % 2 ^ 4 := toInt_and_mask _ 4 (by norm_num)
  have hn := toNat_narrow data
  have hw := toInt_widen (narrow data)
  rw [← Int32.toInt_inj, hmask, hw]
  split <;> omega

/-- The numbers of a block that a world keeps as it is. -/
theorem bounds_of_stored {b : Block} (h : managerLaws.stored b = b) :
    (0 ≤ b.type.toInt ∧ b.type.toInt < 256) ∧ 0 ≤ b.data.toInt ∧ b.data.toInt < 16 := by
  have htype : b.type &&& 255 = b.type := congrArg Block.type h
  have hdata : b.data &&& 15 = b.data := congrArg Block.data h
  have h8 : (b.type &&& 255).toInt = b.type.toInt % 2 ^ 8 := toInt_and_mask _ 8 (by norm_num)
  have h4 : (b.data &&& 15).toInt = b.data.toInt % 2 ^ 4 := toInt_and_mask _ 4 (by norm_num)
  rw [htype] at h8
  rw [hdata] at h4
  omega

/-- A block of a world and another one, as a clipboard keeps it: types above 127 get a sign. -/
theorem stored_eq_iff (R : CuboidRegion) {b b' : Block} (hb : managerLaws.stored b = b)
    (hb' : managerLaws.stored b' = b') :
    (clipboardLaws R).stored b = b' ↔ b.type.toInt < 128 ∧ b = b' := by
  obtain ⟨htype, hdata⟩ := bounds_of_stored hb
  obtain ⟨htype', -⟩ := bounds_of_stored hb'
  have hsame : widen (narrow b.data) = b.data := by
    rw [widen_narrow_and_15 hdata.1 (by omega)]
    exact congrArg Block.data hb
  have hsign : widen (narrow b.type) = b'.type ↔ b.type.toInt < 128 ∧ b.type = b'.type := by
    have hn := toNat_narrow b.type
    have hw := toInt_widen (narrow b.type)
    rw [← Int32.toInt_inj, ← Int32.toInt_inj, hw]
    split <;> omega
  rw [Block.ext_iff, Block.ext_iff, ← and_assoc, ← hsign]
  exact and_congr_right fun _ => Eq.congr_left hsame

theorem stored_edited (edits : List Edit) (d : Pos) {b : Block} (hb : managerLaws.stored b = b) :
    managerLaws.stored (edited managerLaws edits d b) = edited managerLaws edits d b := by
  refine Block.ext ?_ ?_
  · show ((lastType edits d).map fun type => type &&& 255).getD b.type &&& 255 =
      ((lastType edits d).map fun type => type &&& 255).getD b.type
    cases lastType edits d with
    | none => exact congrArg Block.type hb
    | some type => simp [Int32.and_assoc]
  · show ((lastData edits d).map fun data => data &&& 15).getD b.data &&& 15 =
      ((lastData edits d).map fun data => data &&& 15).getD b.data
    cases lastData edits d with
    | none => exact congrArg Block.data hb
    | some data => simp [Int32.and_assoc]

/-- **A clipboard that has the bytes of a world** has them after the same edits. -/
theorem edited_bytes (R : CuboidRegion) {edits : List Edit} (hgood : ∀ e ∈ edits, e.Good) (d : Pos)
    (b : Block) : edited (clipboardLaws R) edits d ((clipboardLaws R).stored b) =
      (clipboardLaws R).stored (edited managerLaws edits d b) := by
  refine Block.ext ?_ ?_
  · show ((lastType edits d).map fun type => widen (narrow type)).getD (widen (narrow b.type)) =
      widen (narrow (((lastType edits d).map fun type => type &&& 255).getD b.type))
    cases lastType edits d with
    | none => rfl
    | some type => exact congrArg widen (narrow_and_255 type).symm
  · show ((lastData edits d).map fun data => widen (narrow data)).getD (widen (narrow b.data)) =
      widen (narrow (((lastData edits d).map fun data => data &&& 15).getD b.data))
    cases h : lastData edits d with
    | none => rfl
    | some data =>
      obtain ⟨e, he, -, hed⟩ := exists_of_lastData h
      obtain ⟨h0, h15⟩ := (hgood e he).2 data hed
      have hkept := widen_narrow_and_15 h0 h15
      show widen (narrow data) = widen (narrow (data &&& 15))
      rw [← hkept, narrow_widen]

/-! ## What edits and a count leave -/

section Left

variable (s : ChunkManager) (p : Pos) (edits : List Edit)

/-- The block at a cell of the box, with the last type and the last data that were set there. -/
def lastBlock (d : Pos) : Block := edited managerLaws edits d (s.shown (offset p.x p.y p.z d))

/-- The block that a world shows at a cell of the box after the edits.  Once they leave the lost chunk, it is
what the map had there, with the edits made from then on. -/
def afterEdits (d : Pos) : Block :=
  if s.since (offset p.x p.y p.z ∘ Edit.cell) edits = [] then lastBlock s p edits d
  else edited managerLaws (s.since (offset p.x p.y p.z ∘ Edit.cell) edits) d
    (s.blocksOf (offset p.x p.y p.z d))

/-- The block that a world shows there after a region was counted, too. -/
def afterCount (R : CuboidRegion) (d : Pos) : Block :=
  if s.since (offset p.x p.y p.z ∘ Edit.cell) edits = [] ∧ s.since (offset p.x p.y p.z) (cellsOf R) ≠ [] then
    s.blocksOf (offset p.x p.y p.z d)
  else afterEdits s p edits d

/-- A block after the region was replaced. -/
def replacedAt (R : CuboidRegion) (fromKey toKey : MaterialKey) (d : Pos) (b : Block) : Block :=
  if R.Lies d ∧ Hit fromKey b.key then toKey.block else b

variable {s p edits}

theorem stored_replacedAt (R : CuboidRegion) (fromKey : MaterialKey) {toKey : MaterialKey}
    (hto : WorldKey toKey) (d : Pos) {b : Block} (hb : managerLaws.stored b = b) :
    managerLaws.stored (replacedAt R fromKey toKey d b) = replacedAt R fromKey toKey d b := by
  unfold replacedAt
  split
  · exact stored_block hto
  · exact hb

/-- Where the lost chunk does not reach, all of them are the same. -/
theorem afterCount_of_not_inStale (R : CuboidRegion) {d : Pos} (hy : inHeight (offset p.x p.y p.z d).y)
    (h : ¬ s.InStale (offset p.x p.y p.z d)) :
    afterEdits s p edits d = lastBlock s p edits d ∧ afterCount s p edits R d = lastBlock s p edits d := by
  have hstay : ∀ e, ¬ s.Leaves ((offset p.x p.y p.z ∘ Edit.cell) e) → e.cell ≠ d := by
    rintro e he rfl
    exact he ⟨hy, h⟩
  have hbefore : ∀ e ∈ s.before (offset p.x p.y p.z ∘ Edit.cell) edits, e.cell ≠ d := fun e he =>
    hstay e (not_leaves_of_mem_before he)
  have hafter : afterEdits s p edits d = lastBlock s p edits d := by
    unfold afterEdits
    split
    · rfl
    · have hsplit := edited_append managerLaws (s.before (offset p.x p.y p.z ∘ Edit.cell) edits)
        (s.since (offset p.x p.y p.z ∘ Edit.cell) edits) d (s.blocksOf (offset p.x p.y p.z d))
      rw [before_append_since, edited_of_ne managerLaws hbefore] at hsplit
      rw [lastBlock, shown_of_not_inStale h, hsplit]
  refine ⟨hafter, ?_⟩
  unfold afterCount
  split
  next hcase =>
    rw [before_of_since_eq_nil hcase.1] at hbefore
    rw [lastBlock, edited_of_ne managerLaws hbefore, shown_of_not_inStale h]
  · exact hafter

end Left

/-! ## Agreement -/

/-- The blocks of a region are counted and replaced on both: the counts, the number replaced and what the
readers show after that are the same. -/
def RegionAgree (this : CuboidClipboard) (s : ChunkManager) (p : Pos) (R : CuboidRegion)
    (fromKey toKey : MaterialKey) : Prop :=
  ∃ counts this₁ counts' s₁ n this₂ n' s₂,
    countBlocks clipboardArea R this = .ok counts this₁ ∧
    countBlocks managerArea (moved p R) s = .ok counts' s₁ ∧ (∀ k, countOf counts k = countOf counts' k) ∧
    replaceBlocks clipboardArea R fromKey toKey this₁ = .ok n this₂ ∧
    replaceBlocks managerArea (moved p R) fromKey toKey s₁ = .ok n' s₂ ∧ n = n' ∧ SameBlocks this₂ s₂ p

/-- The same edits are made on both: then the readers show the same, and counting and replacing agree. -/
def Agree (this : CuboidClipboard) (s : ChunkManager) (p : Pos) (edits : List Edit) (R : CuboidRegion)
    (fromKey toKey : MaterialKey) : Prop :=
  ∃ this₁ s₁, applyAll clipboardArea id edits this = .ok () this₁ ∧
    applyAll managerArea (offset p.x p.y p.z) edits s = .ok () s₁ ∧ SameBlocks this₁ s₁ p ∧
    RegionAgree this₁ s₁ p R fromKey toKey

/-- No type above 127 is set last or held in the box, or replaces others, and what the lost chunk of the world
had and what the map has there make no difference. -/
structure AgreeWhen (this : CuboidClipboard) (s : ChunkManager) (p : Pos) (edits : List Edit)
    (R : CuboidRegion) (fromKey toKey : MaterialKey) : Prop where
  low : ∀ d, this.box.Lies d → (lastBlock s p edits d).type.toInt < 128
  toLow : toKey.typeId.toInt < 128 ∨ ∀ d, R.Lies d → ¬ Hit fromKey (lastBlock s p edits d).key
  kept : ∀ d, this.box.Lies d → afterEdits s p edits d = lastBlock s p edits d
  counts : ∀ k, ((s.since (offset p.x p.y p.z) (cellsOf R)).map fun d => (lastBlock s p edits d).key).count k =
    ((s.since (offset p.x p.y p.z) (cellsOf R)).map fun d => (afterCount s p edits R d).key).count k
  number : ((cellsOf R).countP fun d => Hit fromKey (lastBlock s p edits d).key) =
    (cellsOf R).countP fun d => Hit fromKey (afterCount s p edits R d).key
  cells : ∀ d, this.box.Lies d → replacedAt R fromKey toKey d (lastBlock s p edits d) =
    replacedAt R fromKey toKey d (afterCount s p edits R d)

/-- Away from the lost chunk only the types matter. -/
theorem agreeWhen_iff {this : CuboidClipboard} {s : ChunkManager} {p : Pos} (hover : Over this.box p)
    {edits : List Edit} {R : CuboidRegion} (hR : Within R this.box) {fromKey toKey : MaterialKey}
    (haway : ∀ d, this.box.Lies d → ¬ s.InStale (offset p.x p.y p.z d)) :
    AgreeWhen this s p edits R fromKey toKey ↔
      (∀ d, this.box.Lies d → (lastBlock s p edits d).type.toInt < 128) ∧
      (toKey.typeId.toInt < 128 ∨ ∀ d, R.Lies d → ¬ Hit fromKey (lastBlock s p edits d).key) := by
  have hsame : ∀ d, this.box.Lies d → afterEdits s p edits d = lastBlock s p edits d ∧
      afterCount s p edits R d = lastBlock s p edits d := fun d hd =>
    afterCount_of_not_inStale R (hover.inHeight hd) (haway d hd)
  have hcount : ∀ d ∈ cellsOf R, afterCount s p edits R d = lastBlock s p edits d := fun d hd =>
    (hsame d (hR.lies (mem_cellsOf.mp hd))).2
  constructor
  · intro h
    exact ⟨h.low, h.toLow⟩
  · rintro ⟨hlow, hto⟩
    refine ⟨hlow, hto, fun d hd => (hsame d hd).1, fun k => ?_, ?_, fun d hd => ?_⟩
    · congr 1
      refine List.map_congr_left fun d hd => ?_
      rw [hcount d (mem_of_mem_since hd)]
    · refine List.countP_congr fun d hd => ?_
      rw [hcount d hd]
    · rw [(hsame d hd).2]

section Agree

variable {this : CuboidClipboard} {s : ChunkManager} {p : Pos} (ht : this.Sized) (hs : Sound s)
  (hover : Over this.box p)
include ht hs hover

/-- The same edits, made on both. -/
theorem edit_both (hsame : SameBytes this s p) {edits : List Edit}
    (hin : ∀ e ∈ edits, this.box.Lies e.cell) (hgood : ∀ e ∈ edits, e.Good) : ∃ this₁ s₁,
    applyAll clipboardArea id edits this = .ok () this₁ ∧
    applyAll managerArea (offset p.x p.y p.z) edits s = .ok () s₁ ∧
    (this₁.box = this.box ∧ this₁.Sized) ∧ Sound s₁ ∧
    (∀ d, s₁.shown (offset p.x p.y p.z d) = afterEdits s p edits d) ∧
    ((s.since (offset p.x p.y p.z ∘ Edit.cell) edits = [] ∧ (∀ c, s₁.Leaves c ↔ s.Leaves c) ∧
        s₁.blocksOf = s.blocksOf) ∨
      (s.since (offset p.x p.y p.z ∘ Edit.cell) edits ≠ [] ∧ managerLaws.Valid s₁)) ∧
    (SameBlocks this₁ s₁ p ↔ ∀ d, this.box.Lies d →
      (lastBlock s p edits d).type.toInt < 128 ∧ lastBlock s p edits d = afterEdits s p edits d) := by
  obtain ⟨this1, h1, ⟨hbox, ht1⟩, hb1⟩ := applyAll_ok (clipboardLaws this.box) Function.injective_id
    (fun e he => ⟨hin e he, trivial⟩) ⟨rfl, ht⟩
  obtain ⟨s1, h2, hs1, hcase⟩ := applyAll_shown hs (offset_injective p.x p.y p.z)
    (fun e he => hover.inHeight (hin e he))
  have hshown : ∀ d, s1.shown (offset p.x p.y p.z d) = afterEdits s p edits d := by
    intro d
    unfold afterEdits
    rcases hcase with ⟨hnil, -, -, hb⟩ | ⟨hne, hv, hb⟩
    · rw [if_pos hnil]
      exact hb d
    · rw [if_neg hne, shown_of_attached hv.2]
      exact hb d
  refine ⟨this1, s1, h1, h2, ⟨hbox, ht1⟩, hs1, hshown, ?_, ?_⟩
  · rcases hcase with ⟨hnil, hleaves, hb, -⟩ | ⟨hne, hv, -⟩
    · exact Or.inl ⟨hnil, hleaves, hb⟩
    · exact Or.inr ⟨hne, hv⟩
  · rw [sameBlocks_iff ht1 hs1, hbox]
    refine forall₂_congr fun d hd => ?_
    have hinit := (sameBytes_iff ht hs).mp hsame d hd
    have hb1 : this1.blockAt d = edited (clipboardLaws this.box) edits d (this.blockAt d) := hb1 d
    rw [hb1, hinit, edited_bytes this.box hgood, hshown]
    have hkept := stored_shown s1 (offset p.x p.y p.z d)
    rw [hshown] at hkept
    exact stored_eq_iff this.box (stored_edited edits d (stored_shown s _)) hkept

end Agree

section Region

variable {this : CuboidClipboard} {s : ChunkManager} {p : Pos} {R : CuboidRegion}
  (hR : Within R this.box) (fromKey : MaterialKey) {toKey : MaterialKey} {v : Pos → Block}
include hR

/-- Counting and replacing on a clipboard that shows the blocks `v`. -/
theorem clipboard_region (toKey : MaterialKey) (ht : this.Sized)
    (hv : ∀ d, this.box.Lies d → this.blockAt d = v d) : ∃ counts this₂ this₃,
    countBlocks clipboardArea R this = .ok counts this₂ ∧
    replaceBlocks clipboardArea R fromKey toKey this₂ =
      .ok (0 + Int32.ofNat ((cellsOf R).countP fun d => Hit fromKey (v d).key)) this₃ ∧
    Counts countValue counts ((cellsOf R).map fun d => (v d).key) ∧ this₃.box = this.box ∧ this₃.Sized ∧
    ∀ d, this.box.Lies d → this₃.blockAt d =
      if R.Lies d ∧ Hit fromKey (v d).key then (clipboardLaws this.box).stored toKey.block else v d := by
  have hlies : ∀ d ∈ cellsOf R, this.box.Lies d := fun d hd => hR.lies (mem_cellsOf.mp hd)
  have hclip : (clipboardLaws this.box).Valid this := ⟨rfl, ht⟩
  obtain ⟨counts, this2, h1, hv1, hb1, hc1⟩ := countAll_ok (clipboardLaws this.box) hlies hclip counts_empty
    (by simpa using length_within ht hR)
  obtain ⟨this3, h2, ⟨hbox, ht3⟩, hb2⟩ := replaceAll_ok (clipboardLaws this.box) fromKey toKey
    (nodup_cellsOf R) hlies (fun _ _ => trivial) hv1 0
  -- counting leaves the blocks as they are
  have hkeys : ∀ t, (clipboardLaws this.box).blocks t = (clipboardLaws this.box).blocks this →
      keysAt (clipboardLaws this.box) t (cellsOf R) = (cellsOf R).map fun d => (v d).key := by
    intro t h
    refine List.map_congr_left fun d hd => ?_
    rw [h]
    exact congrArg Block.key (hv d (hlies d hd))
  rw [hkeys this rfl, List.nil_append] at hc1
  rw [hkeys this2 hb1, List.countP_map] at h2
  refine ⟨counts, this2, this3, ?_, ?_, hc1, hbox, ht3, fun d hd => ?_⟩
  · rw [countBlocks_eq, h1]
  · rw [replaceBlocks_eq, h2]
    rfl
  · have hat : (clipboardLaws this.box).blocks this2 d = v d := (congrFun hb1 d).trans (hv d hd)
    refine (hb2 d).trans ?_
    rw [hat]
    exact if_congr (and_congr_left fun _ => mem_cellsOf) rfl rfl

/-- Counting and replacing in a world that shows the blocks `v` in the box, and `w` once the region was
counted. -/
theorem world_region (ht : this.Sized) (hs : Sound s) (hover : Over this.box p) (hto : WorldKey toKey)
    {w : Pos → Block} (hv : ∀ d, s.shown (offset p.x p.y p.z d) = v d)
    (hw : ∀ d, (s.past (offset p.x p.y p.z) (cellsOf R)).shown (offset p.x p.y p.z d) = w d) :
    ∃ counts s₂ s₃, countBlocks managerArea (moved p R) s = .ok counts s₂ ∧
      replaceBlocks managerArea (moved p R) fromKey toKey s₂ =
        .ok (0 + Int32.ofNat ((cellsOf R).countP fun d => Hit fromKey (w d).key)) s₃ ∧ Sound s₃ ∧
      Counts countValue counts (((s.before (offset p.x p.y p.z) (cellsOf R)).map fun d => (v d).key) ++
        (s.since (offset p.x p.y p.z) (cellsOf R)).map fun d => (w d).key) ∧
      ∀ d, s₃.shown (offset p.x p.y p.z d) = replacedAt R fromKey toKey d (w d) := by
  have hworld : ∀ c ∈ (cellsOf R).map (offset p.x p.y p.z), inHeight c.y := by
    intro c hc
    obtain ⟨d, hd, rfl⟩ := List.mem_map.mp hc
    exact hover.inHeight (hR.lies (mem_cellsOf.mp hd))
  obtain ⟨counts, s2, s3, h1, h2, hs3, hc, hb⟩ := countReplace_seen hs fromKey toKey
    ((nodup_cellsOf R).map (offset_injective p.x p.y p.z)) hworld (by simpa using length_within ht hR)
  rw [past_map, List.map_map, List.countP_map] at h2
  rw [past_map] at hb
  have hmap : ((cellsOf R).countP fun d => Hit fromKey
      ((s.past (offset p.x p.y p.z) (cellsOf R)).shown (offset p.x p.y p.z d)).key) =
        (cellsOf R).countP fun d => Hit fromKey (w d).key := by
    simp only [hw]
  -- once the lost chunk is left, the count is of what the map has
  have hsince : ((s.since (offset p.x p.y p.z) (cellsOf R)).map fun d =>
      (s.blocksOf (offset p.x p.y p.z d)).key) =
        (s.since (offset p.x p.y p.z) (cellsOf R)).map fun d => (w d).key := by
    by_cases hnil : s.since (offset p.x p.y p.z) (cellsOf R) = []
    · rw [hnil, List.map_nil, List.map_nil]
    · simp only [← hw, shown_past, if_neg hnil]
  have hseen : keysSeen s ((cellsOf R).map (offset p.x p.y p.z)) =
      ((s.before (offset p.x p.y p.z) (cellsOf R)).map fun d => (v d).key) ++
        (s.since (offset p.x p.y p.z) (cellsOf R)).map fun d => (w d).key := by
    rw [keysSeen, before_map, since_map, List.map_map, List.map_map, ← hsince]
    simp only [← hv]
    rfl
  rw [hseen] at hc
  refine ⟨counts, s2, s3, ?_, ?_, hs3, hc, fun d => ?_⟩
  · rw [countBlocks_eq, cellsOf_moved hover hR, h1]
  · rw [replaceBlocks_eq, cellsOf_moved hover hR, h2, ← hmap]
    rfl
  · have hat := hb (offset p.x p.y p.z d)
    rw [hw, stored_block hto] at hat
    refine hat.trans (if_congr (and_congr_left fun _ => ?_) rfl rfl)
    rw [List.mem_map_of_injective (offset_injective p.x p.y p.z), mem_cellsOf]

/-- What both show after the region was replaced. -/
theorem replaced_iff (hto : WorldKey toKey) {w : Pos → Block} (hw : ∀ d, managerLaws.stored (w d) = w d) :
    (∀ d, this.box.Lies d → (if R.Lies d ∧ Hit fromKey (v d).key then
        (clipboardLaws this.box).stored toKey.block else v d) = replacedAt R fromKey toKey d (w d)) ↔
      (toKey.typeId.toInt < 128 ∨ ∀ d, R.Lies d → ¬ Hit fromKey (v d).key) ∧ ∀ d, this.box.Lies d →
        replacedAt R fromKey toKey d (v d) = replacedAt R fromKey toKey d (w d) := by
  have hat : ∀ d, (if R.Lies d ∧ Hit fromKey (v d).key then
        (clipboardLaws this.box).stored toKey.block else v d) = replacedAt R fromKey toKey d (w d) ↔
      (R.Lies d ∧ Hit fromKey (v d).key → toKey.typeId.toInt < 128) ∧
        replacedAt R fromKey toKey d (v d) = replacedAt R fromKey toKey d (w d) := by
    intro d
    have hsign := stored_eq_iff this.box (stored_block hto) (stored_replacedAt R fromKey hto d (hw d))
    have htype : toKey.block.type.toInt = toKey.typeId.toInt := Int16.toInt_toInt32 toKey.typeId
    by_cases hit : R.Lies d ∧ Hit fromKey (v d).key
    · have hto' : replacedAt R fromKey toKey d (v d) = toKey.block := if_pos hit
      rw [if_pos hit, hsign, hto', htype]
      exact and_congr_left fun _ => ⟨fun h _ => h, fun h => h hit⟩
    · have hto' : replacedAt R fromKey toKey d (v d) = v d := if_neg hit
      rw [if_neg hit, hto']
      exact (and_iff_right fun h => absurd h hit).symm
  simp only [hat, forall_and]
  refine and_congr_left fun _ => ?_
  constructor
  · intro h
    by_cases hlow : toKey.typeId.toInt < 128
    · exact Or.inl hlow
    · exact Or.inr fun d hd hit => hlow (h d (hR.lies hd) ⟨hd, hit⟩)
  · rintro (hlow | hno) d - ⟨hd, hit⟩
    · exact hlow
    · exact absurd hit (hno d hd)

/-- Counting and replacing on both, if both show the same blocks. -/
theorem region_both (ht : this.Sized) (hs : Sound s) (hover : Over this.box p) (hsame : SameBlocks this s p)
    (hto : WorldKey toKey) {w : Pos → Block} (hv : ∀ d, s.shown (offset p.x p.y p.z d) = v d)
    (hw : ∀ d, (s.past (offset p.x p.y p.z) (cellsOf R)).shown (offset p.x p.y p.z d) = w d) :
    RegionAgree this s p R fromKey toKey ↔
    (∀ k, ((s.since (offset p.x p.y p.z) (cellsOf R)).map fun d => (v d).key).count k =
      ((s.since (offset p.x p.y p.z) (cellsOf R)).map fun d => (w d).key).count k) ∧
    ((cellsOf R).countP fun d => Hit fromKey (v d).key) = ((cellsOf R).countP fun d => Hit fromKey (w d).key) ∧
    (toKey.typeId.toInt < 128 ∨ ∀ d, R.Lies d → ¬ Hit fromKey (v d).key) ∧
    ∀ d, this.box.Lies d → replacedAt R fromKey toKey d (v d) = replacedAt R fromKey toKey d (w d) := by
  have hblocks : ∀ d, this.box.Lies d → this.blockAt d = v d := fun d hd =>
    ((sameBlocks_iff ht hs).mp hsame d hd).trans (hv d)
  obtain ⟨counts, this2, this3, h1, h2, hc, hbox, ht3, hb⟩ :=
    clipboard_region hR fromKey toKey ht hblocks
  obtain ⟨counts', s2, s3, h3, h4, hs3, hc', hb'⟩ := world_region hR fromKey ht hs hover hto hv hw
  have hlen := length_within ht hR
  have hcounts : (∀ k, countOf counts k = countOf counts' k) ↔
      ∀ k, ((s.since (offset p.x p.y p.z) (cellsOf R)).map fun d => (v d).key).count k =
        ((s.since (offset p.x p.y p.z) (cellsOf R)).map fun d => (w d).key).count k := by
    refine forall_congr' fun k => ?_
    have hsplit := congrArg (List.map fun d => (v d).key) (s.before_append_since (offset p.x p.y p.z) (cellsOf R))
    rw [List.map_append] at hsplit
    rw [countOf, countOf, hc.occurrences_eq, hc'.occurrences_eq, Int.ofNat_inj, ← hsplit, List.count_append,
      List.count_append]
    exact Nat.add_left_cancel_iff
  have hnumber : ∀ a b : ℕ, a ≤ (cellsOf R).length → b ≤ (cellsOf R).length →
      (0 + Int32.ofNat a = 0 + Int32.ofNat b ↔ a = b) := by
    intro a b ha hb
    rw [Int32.zero_add, Int32.zero_add, ← Int32.toInt_inj, Int32.toInt_ofNat_of_lt (by omega),
      Int32.toInt_ofNat_of_lt (by omega), Int.ofNat_inj]
  have hw' : ∀ d, managerLaws.stored (w d) = w d := fun d => by
    rw [← hw]
    exact stored_shown _ _
  have hlast : SameBlocks this3 s3 p ↔ (toKey.typeId.toInt < 128 ∨ ∀ d, R.Lies d → ¬ Hit fromKey (v d).key) ∧
      ∀ d, this.box.Lies d → replacedAt R fromKey toKey d (v d) = replacedAt R fromKey toKey d (w d) := by
    rw [sameBlocks_iff ht3 hs3, hbox, ← replaced_iff hR fromKey hto hw']
    refine forall₂_congr fun d hd => ?_
    rw [hb d hd, hb' d]
  rw [← hcounts, ← hlast, ← hnumber _ _ List.countP_le_length List.countP_le_length]
  constructor
  · rintro ⟨counts2, t2, counts2', u2, n, t3, n', u3, e1, e3, hk, e2, e4, hn, hsame3⟩
    obtain ⟨rfl, rfl⟩ := EStateM.Result.ok.inj (h1.symm.trans e1)
    obtain ⟨rfl, rfl⟩ := EStateM.Result.ok.inj (h2.symm.trans e2)
    obtain ⟨rfl, rfl⟩ := EStateM.Result.ok.inj (h3.symm.trans e3)
    obtain ⟨rfl, rfl⟩ := EStateM.Result.ok.inj (h4.symm.trans e4)
    exact ⟨hk, hn, hsame3⟩
  · rintro ⟨hk, hn, hsame3⟩
    exact ⟨counts, this2, counts', s2, _, this3, _, s3, h1, h3, hk, h2, h4, hn, hsame3⟩

end Region

/-- The condition, in terms of what the world shows after the edits; `l` are the cells that are counted once
the lost chunk is left. -/
theorem agreeWhen_iff_after {this : CuboidClipboard} {s : ChunkManager} {p : Pos} {edits : List Edit}
    {R : CuboidRegion} (hR : Within R this.box) {fromKey toKey : MaterialKey} {l : List Pos}
    (hl : ∀ d ∈ l, d ∈ cellsOf R) (hleft : l = s.since (offset p.x p.y p.z) (cellsOf R) ∨
      ∀ d, afterCount s p edits R d = afterEdits s p edits d) :
    AgreeWhen this s p edits R fromKey toKey ↔
      (∀ d, this.box.Lies d →
        (lastBlock s p edits d).type.toInt < 128 ∧ lastBlock s p edits d = afterEdits s p edits d) ∧
      (∀ k, (l.map fun d => (afterEdits s p edits d).key).count k =
        (l.map fun d => (afterCount s p edits R d).key).count k) ∧
      ((cellsOf R).countP fun d => Hit fromKey (afterEdits s p edits d).key) =
        ((cellsOf R).countP fun d => Hit fromKey (afterCount s p edits R d).key) ∧
      (toKey.typeId.toInt < 128 ∨ ∀ d, R.Lies d → ¬ Hit fromKey (afterEdits s p edits d).key) ∧
      ∀ d, this.box.Lies d → replacedAt R fromKey toKey d (afterEdits s p edits d) =
        replacedAt R fromKey toKey d (afterCount s p edits R d) := by
  have hiff : ∀ hlast : ∀ d, this.box.Lies d → afterEdits s p edits d = lastBlock s p edits d,
      (∀ k, (l.map fun d => (afterEdits s p edits d).key).count k =
        (l.map fun d => (afterCount s p edits R d).key).count k) ↔
      ∀ k, ((s.since (offset p.x p.y p.z) (cellsOf R)).map fun d => (lastBlock s p edits d).key).count k =
        ((s.since (offset p.x p.y p.z) (cellsOf R)).map fun d => (afterCount s p edits R d).key).count k := by
    intro hlast
    have hmap : ∀ l' : List Pos, (∀ d ∈ l', d ∈ cellsOf R) →
        (l'.map fun d => (afterEdits s p edits d).key) = l'.map fun d => (lastBlock s p edits d).key := by
      intro l' hl'
      refine List.map_congr_left fun d hd => ?_
      rw [hlast d (hR.lies (mem_cellsOf.mp (hl' d hd)))]
    rcases hleft with rfl | hsame
    · rw [hmap _ hl]
    · refine iff_of_true (fun k => ?_) fun k => ?_
      · simp only [hsame]
      · rw [← hmap _ fun d => mem_of_mem_since]
        simp only [hsame]
  constructor
  · intro h
    refine ⟨fun d hd => ⟨h.low d hd, (h.kept d hd).symm⟩, (hiff h.kept).mpr h.counts, ?_, ?_, fun d hd => ?_⟩
    · rw [← h.number]
      refine List.countP_congr fun d hd => ?_
      rw [h.kept d (hR.lies (mem_cellsOf.mp hd))]
    · refine h.toLow.imp_right fun hno d hd => ?_
      rw [h.kept d (hR.lies hd)]
      exact hno d hd
    · rw [h.kept d hd]
      exact h.cells d hd
  · rintro ⟨hlow, hcounts, hnumber, hto, hcells⟩
    have hlast : ∀ d, this.box.Lies d → afterEdits s p edits d = lastBlock s p edits d := fun d hd =>
      (hlow d hd).2.symm
    refine ⟨fun d hd => (hlow d hd).1, ?_, hlast, (hiff hlast).mp hcounts, ?_, fun d hd => ?_⟩
    · refine hto.imp_right fun hno d hd => ?_
      rw [← hlast d (hR.lies hd)]
      exact hno d hd
    · rw [← hnumber]
      refine List.countP_congr fun d hd => ?_
      rw [hlast d (hR.lies (mem_cellsOf.mp hd))]
    · rw [← hlast d hd]
      exact hcells d hd

/-- **Agreement** with a world in any sound state. -/
theorem agree_iff_of_sound {this : CuboidClipboard} (ht : this.Sized) {s : ChunkManager} (hs : Sound s)
    {p : Pos} (hover : Over this.box p) (hsame : SameBytes this s p) {edits : List Edit}
    (hin : ∀ e ∈ edits, this.box.Lies e.cell) (hgood : ∀ e ∈ edits, e.Good) {R : CuboidRegion}
    (hR : Within R this.box) (fromKey : MaterialKey) {toKey : MaterialKey} (hto : WorldKey toKey) :
    Agree this s p edits R fromKey toKey ↔ AgreeWhen this s p edits R fromKey toKey := by
  obtain ⟨this1, s1, h1, h2, ⟨hbox, ht1⟩, hs1, hshown, hcase, hiff⟩ :=
    edit_both ht hs hover hsame hin hgood
  -- the edits leave the lost chunk, or the count does, or nothing does
  have hleft : (∀ d, (s1.past (offset p.x p.y p.z) (cellsOf R)).shown (offset p.x p.y p.z d) =
      afterCount s p edits R d) ∧ (s1.since (offset p.x p.y p.z) (cellsOf R) =
        s.since (offset p.x p.y p.z) (cellsOf R) ∨ ∀ d, afterCount s p edits R d = afterEdits s p edits d) := by
    rcases hcase with ⟨hnil, hleaves, hb⟩ | ⟨hne, hv⟩
    · have hsince : s1.since (offset p.x p.y p.z) (cellsOf R) = s.since (offset p.x p.y p.z) (cellsOf R) := by
        simp only [ChunkManager.since, hleaves]
      refine ⟨fun d => ?_, Or.inl hsince⟩
      rw [shown_past, hsince, hshown, hb, afterCount]
      by_cases hstay : s.since (offset p.x p.y p.z) (cellsOf R) = []
      · rw [if_pos hstay, if_neg fun h => h.2 hstay]
      · rw [if_neg hstay, if_pos ⟨hnil, hstay⟩]
    · have hafter : ∀ d, afterCount s p edits R d = afterEdits s p edits d := fun d => by
        rw [afterCount, if_neg fun h => hne h.1]
      refine ⟨fun d => ?_, Or.inr hafter⟩
      rw [hafter, ← hshown]
      exact (past_of_not_inStale (not_inStale_of_attached hv.2 _) _ _).2
  obtain ⟨hpast, hsince⟩ := hleft
  have hover1 : Over this1.box p := by rwa [hbox]
  have hR1 : Within R this1.box := by rwa [hbox]
  have hagree : Agree this s p edits R fromKey toKey ↔
      SameBlocks this1 s1 p ∧ RegionAgree this1 s1 p R fromKey toKey := by
    constructor
    · rintro ⟨t1, u1, e1, e2, hboth⟩
      obtain ⟨-, rfl⟩ := EStateM.Result.ok.inj (h1.symm.trans e1)
      obtain ⟨-, rfl⟩ := EStateM.Result.ok.inj (h2.symm.trans e2)
      exact hboth
    · rintro ⟨hsame1, hregion⟩
      exact ⟨this1, s1, h1, h2, hsame1, hregion⟩
  have hregion := fun hsame1 => region_both hR1 fromKey ht1 hs1 hover1 hsame1 hto hshown hpast
  rw [hagree, agreeWhen_iff_after hR (fun d => mem_of_mem_since) hsince, ← hiff, ← hbox]
  exact and_congr_right hregion

/-- One cell of a clipboard. -/
def single : CuboidClipboard := ⟨[0], [0], 1, 1, 1⟩

theorem lies_single {d : Pos} (hd : single.box.Lies d) : d = ⟨0, 0, 0⟩ := by
  have hone : (1 : Int32).toInt = 1 := rfl
  have hzero : (0 : Int32).toInt = 0 := rfl
  obtain ⟨hx, hy, hz⟩ := lies_box.mp hd
  simp only [single, hone] at hx hy hz
  have hcell : ∀ {n : Int32}, 0 ≤ n.toInt → n.toInt < 1 → n = 0 := fun h0 h1 =>
    Int32.toInt_inj.mp (by omega)
  cases d
  rw [Pos.mk.injEq]
  exact ⟨hcell hx.1 hx.2, hcell hy.1 hy.2, hcell hz.1 hz.2⟩

/-- It has the byte of a cell with air. -/
theorem single_spec {s : ChunkManager} (hs : Sound s) {p : Pos} (hair : s.shown p = ⟨0, 0⟩) :
    single.Sized ∧ Within ⟨0, 0, 0, 1, 1, 1⟩ single.box ∧ SameBytes single s p := by
  have hsized : single.Sized := ⟨fun a => by cases a <;> decide, by decide, by decide, by decide⟩
  refine ⟨hsized, fun a => by cases a <;> decide, (sameBytes_iff hsized hs).mpr fun d hd => ?_⟩
  obtain rfl := lies_single hd
  have hp : offset p.x p.y p.z ⟨0, 0, 0⟩ = p := by simp [offset]
  rw [hp, hair]
  decide

end CuboidClipboard

end WorldToPE
