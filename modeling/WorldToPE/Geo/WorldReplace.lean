import WorldToPE.Geo.CountReplace
import WorldToPE.Geo.Shortcut

/-!
# WorldToPE.Geo.WorldReplace — counting and replacing in a world

`countBlocks` and `replaceBlocks` on a `ChunkManager`, one after the other.

* `countAll_seen`: what a count finds when the shortcut has an unloaded chunk.
* `countsAndReplaces_iff`: when the numbers fit together, in any state reached on a readable database.
* `not_countsAndReplaces_unloaded`: they do not when an unloaded chunk was written to.
-/

namespace WorldToPE.GeoUtils

open Java Run Tally ChunkManager

/-- A box in the height of the world, whose far corner fits in an `int`. -/
structure InWorld (R : CuboidRegion) : Prop where
  size : ∀ a, 0 ≤ (R.size a).toInt
  fits : R.Fits
  bottom : 0 ≤ R.y.toInt
  top : R.y.toInt + R.height.toInt ≤ 128

theorem InWorld.inHeight {R : CuboidRegion} (h : InWorld R) {c : Pos} (hc : R.Lies c) :
    inHeight c.y := by
  obtain ⟨h1, h2⟩ := CuboidRegion.lies_iff.mp hc .y
  have hfar : (R.far .y).toInt = R.y.toInt + R.height.toInt := CuboidRegion.toInt_far h.fits (h.size .y)
  have hbottom := h.bottom
  have htop := h.top
  have h1' : R.y.toInt ≤ c.y.toInt := h1
  have h2' : c.y.toInt < (R.far .y).toInt := h2
  constructor <;> omega

/-- The keys that a block of a world can have. -/
structure WorldKey (k : MaterialKey) : Prop where
  type : 0 ≤ k.typeId.toInt ∧ k.typeId.toInt ≤ 255
  data : 0 ≤ k.damage.toInt ∧ k.damage.toInt ≤ 15

/-- A short below a mask is kept by it. -/
theorem and_toInt32 {v : Int16} {k : ℕ} (hk : k < 31) (h0 : 0 ≤ v.toInt) (h : v.toInt < 2 ^ k) :
    v.toInt32 &&& Int32.ofNat (2 ^ k - 1) = v.toInt32 := by
  apply Int32.toInt_inj.mp
  rw [toInt_and_mask _ k hk, Int16.toInt_toInt32, Int.emod_eq_of_lt h0 h]

/-- A world keeps the block of such a key as it is. -/
theorem stored_block {k : MaterialKey} (h : WorldKey k) : managerLaws.stored k.block = k.block := by
  obtain ⟨⟨ht0, ht⟩, ⟨hd0, hd⟩⟩ := h
  exact Block.ext (and_toInt32 (k := 8) (by norm_num) ht0 (by norm_num; omega))
    (and_toInt32 (k := 4) (by norm_num) hd0 (by norm_num; omega))

theorem storable_of_worldKey {k : MaterialKey} (h : WorldKey k) : Storable managerLaws k := by
  rw [Storable, stored_block h]
  show MaterialKey.mk k.typeId.toInt32.toInt16 k.damage.toInt32.toInt16 = k
  rw [Int16.toInt16_toInt32, Int16.toInt16_toInt32]

/-- Counting, replacing, counting and replacing again: all four calls return, and what they return fits
together. -/
def CountsAndReplaces (R : CuboidRegion) (fromKey toKey : MaterialKey) (s : ChunkManager) : Prop :=
  ∃ counts s₁ n s₂ counts' s₃ s₄,
    countBlocks managerArea R s = .ok counts s₁ ∧
    replaceBlocks managerArea R fromKey toKey s₁ = .ok n s₂ ∧
    countBlocks managerArea R s₂ = .ok counts' s₃ ∧
    replaceBlocks managerArea R fromKey toKey s₃ = .ok 0 s₄ ∧
    total counts (fun _ => true) = R.width.toInt * R.height.toInt * R.length.toInt ∧
    Recount counts counts' n fromKey toKey ∧ ∀ c, ¬ R.Lies c → SameAt s s₂ c

/-! ## Counting in any state -/

/-- The keys that a pass over the cells finds: those of the lost chunk until it is left, and those of the map
from there on. -/
def keysSeen (s : ChunkManager) (cells : List Pos) : List MaterialKey :=
  ((s.before id cells).map fun c => (s.shown c).key) ++ (s.since id cells).map fun c => (s.blocksOf c).key

theorem keysSeen_of_shown {s : ChunkManager} {cells : List Pos}
    (h : s.since id cells = [] ∨ s.shown = s.blocksOf) :
    keysSeen s cells = cells.map fun c => (s.shown c).key := by
  unfold keysSeen
  rcases h with h | h
  · rw [h, before_of_since_eq_nil h, List.map_nil, List.append_nil]
  · rw [← h, ← List.map_append, before_append_since]

/-- **Counting the cells of a list** in any sound state.  Once the lost chunk is left, the manager is a map of
blocks. -/
theorem countAll_seen {s : ChunkManager} (hs : Sound s) {cells : List Pos} (hlen : cells.length < 2 ^ 31) :
    ∃ counts s', cells.foldlM (countAt managerArea) ∅ s = .ok counts s' ∧ Sound s' ∧
      SameView (s.past id cells) s' ∧ (s.since id cells ≠ [] → managerLaws.Valid s') ∧
      Counts countValue counts (keysSeen s cells) := by
  rcases hs.valid_or_detached with hv | ⟨k, hd⟩
  · have hall : ∀ c ∈ cells, managerLaws.InArea c := fun _ _ => trivial
    obtain ⟨counts, s', h, hv', hb, hcounts⟩ := countAll_ok managerLaws hall hv counts_empty
      (by simpa using hlen)
    have hview : SameView (s.past id cells) s' := sameView_past_of_attached (Or.inl hv.2) hv'.2 hb
    refine ⟨counts, s', h, sound_of_valid hv', hview, fun _ => hv', ?_⟩
    rw [keysSeen_of_shown (Or.inr (shown_of_attached hv.2)), shown_of_attached hv.2]
    exact hcounts
  obtain ⟨hstale, hbefore⟩ := hs.before_stale hd id cells
  have hsplit := congrArg List.length (s.before_append_since id cells)
  rw [List.length_append] at hsplit
  obtain ⟨counts1, s1, h1, ⟨hs1, hd1, hb1⟩, hshown1, hcounts1⟩ := countAll_ok (staleLaws k s.blocksOf)
    hbefore hstale counts_empty (by simp only [List.length_nil]; omega)
  have hshown1 : s1.shown = s.shown := hshown1
  cases hsince : s.since id cells with
  | nil =>
    rw [before_of_since_eq_nil hsince] at h1 hcounts1
    refine ⟨counts1, s1, h1, hs1, sameView_past_of_detached hsince hd hd1 hshown1 hb1,
      fun hne => absurd rfl hne, ?_⟩
    rw [keysSeen_of_shown (Or.inl hsince)]
    exact hcounts1
  | cons d rest =>
    -- the first cell of another chunk: from here on the shortcut might as well be empty
    have hleave : s1.Leaves d := (leaves_of_since hsince).of_detached hd hd1
    have hforget : (d :: rest).foldlM (countAt managerArea) counts1 s1 =
        (d :: rest).foldlM (countAt managerArea) counts1 s1.forget :=
      bind_congr_state (bind_congr_state (getBlockTypeId_forget hs1 hd1 hleave))
    rw [hsince, List.length_cons] at hsplit
    have hall : ∀ c ∈ d :: rest, managerLaws.InArea c := fun _ _ => trivial
    obtain ⟨counts2, s2, h2, hv2, hb2, hcounts2⟩ := countAll_ok managerLaws hall (valid_forget hs1) hcounts1
      (by simp [keysAt]; omega)
    have hb2' : s2.blocksOf = s.blocksOf := (show s2.blocksOf = s1.forget.blocksOf from hb2).trans
      ((blocksOf_forget s1).trans hb1)
    have hne : s.since id cells ≠ [] := by simp [hsince]
    refine ⟨counts2, s2, ?_, sound_of_valid hv2, sameView_past_of_attached (Or.inr hne) hv2.2 hb2',
      fun _ => hv2, ?_⟩
    · rw [← s.before_append_since id cells, hsince, List.foldlM_append, bind_of_ok h1, hforget, h2]
    · have hkeys : keysAt managerLaws s1.forget (d :: rest) =
          (d :: rest).map fun c => (s.blocksOf c).key := by
        show (d :: rest).map (fun c => (s1.forget.blocksOf c).key) = _
        rw [blocksOf_forget, hb1]
      rw [hkeys, List.nil_append] at hcounts2
      rw [keysSeen, hsince]
      exact hcounts2

/-- **Replacing over a list of cells** that the lost chunk is not left for. -/
theorem replaceAll_shown {s : ChunkManager} (hs : Sound s) (fromKey toKey : MaterialKey) {cells : List Pos}
    (hd : cells.Nodup) (hin : ∀ c ∈ cells, inHeight c.y)
    (hstay : managerLaws.Valid s ∨ ∀ c ∈ cells, ¬ s.Leaves c) : ∃ s',
      cells.foldlM (replaceAt managerArea fromKey toKey) 0 s =
        .ok (0 + Int32.ofNat ((cells.map fun c => (s.shown c).key).countP fun k => Hit fromKey k)) s' ∧
      Sound s' ∧ ∀ c, s'.shown c = if c ∈ cells ∧ Hit fromKey (s.shown c).key
        then managerLaws.stored toKey.block else s.shown c := by
  rcases hs.valid_or_detached with hv | ⟨k, hk⟩
  · obtain ⟨s', h, hv', hb⟩ := replaceAll_ok managerLaws fromKey toKey hd (fun _ _ => trivial) hin hv 0
    have hb : ∀ c, s'.blocksOf c = if c ∈ cells ∧ Hit fromKey (s.blocksOf c).key then
      managerLaws.stored toKey.block else s.blocksOf c := hb
    refine ⟨s', ?_, sound_of_valid hv', fun c => ?_⟩
    · rw [shown_of_attached hv.2]
      exact h
    · rw [shown_of_attached hv'.2, shown_of_attached hv.2, hb c]
  · have hstay : ∀ c ∈ cells, ¬ s.Leaves c := hstay.resolve_left fun hv => hv.2 k hk
    obtain ⟨s', h, ⟨hs', -, -⟩, hb⟩ := replaceAll_ok (staleLaws k s.blocksOf) fromKey toKey hd
      (fun c hc => key_of_not_leaves hk (hstay c hc)) hin ⟨hs, hk, rfl⟩ 0
    exact ⟨s', h, hs', hb⟩

/-- **Counting and then replacing** in any sound state: what is replaced is what the readers show once the lost
chunk is left. -/
theorem countReplace_seen {s : ChunkManager} (hs : Sound s) (fromKey toKey : MaterialKey) {cells : List Pos}
    (hd : cells.Nodup) (hin : ∀ c ∈ cells, inHeight c.y) (hlen : cells.length < 2 ^ 31) :
    ∃ counts s₁ s₂, cells.foldlM (countAt managerArea) ∅ s = .ok counts s₁ ∧
      cells.foldlM (replaceAt managerArea fromKey toKey) 0 s₁ = .ok (0 + Int32.ofNat
        ((cells.map fun c => ((s.past id cells).shown c).key).countP fun k => Hit fromKey k)) s₂ ∧
      Sound s₂ ∧ Counts countValue counts (keysSeen s cells) ∧ ∀ c, s₂.shown c =
        if c ∈ cells ∧ Hit fromKey ((s.past id cells).shown c).key then managerLaws.stored toKey.block
        else (s.past id cells).shown c := by
  obtain ⟨counts, s1, h1, hs1, hview, hvalid, hcounts⟩ := countAll_seen hs hlen
  have hstay : managerLaws.Valid s1 ∨ ∀ c ∈ cells, ¬ s1.Leaves c := by
    rcases past_eq s id cells with ⟨hnil, hp⟩ | ⟨hne, -⟩
    · rw [hp] at hview
      exact Or.inr fun c hc hl => since_eq_nil_iff.mp hnil c hc ((hview.leaves c).mp hl)
    · exact Or.inl (hvalid hne)
  obtain ⟨s2, h2, hs2, hshown⟩ := replaceAll_shown hs1 fromKey toKey hd hin hstay
  rw [hview.shown] at h2 hshown
  exact ⟨counts, s1, s2, h1, h2, hs2, hcounts, hshown⟩

/-! ## Counting and replacing -/

section Agreement

variable {R : CuboidRegion} (hR : InWorld R)
  (hcells : R.width.toInt * R.height.toInt * R.length.toInt < 2 ^ 31) {fromKey toKey : MaterialKey}
  (hto : WorldKey toKey) (hne : ¬ Hit fromKey toKey)
include hR hcells hto hne

/-- On an area that has the whole region the numbers fit together. -/
theorem countsAndReplaces_of_laws {L : AreaLaws managerArea} (hstored : L.stored = managerLaws.stored)
    (hkept : ∀ {c}, inHeight c.y → L.Kept c) {s : ChunkManager} (hs : Sound s) (hv : L.Valid s)
    (hin : ∀ c, R.Lies c → L.InArea c)
    (hshown : ∀ {t}, L.Valid t → Sound t ∧ t.shown = L.blocks t) :
    CountsAndReplaces R fromKey toKey s := by
  have hlen := length_cellsOf hR.fits hR.size
  have hto' : Storable L toKey := by
    unfold Storable
    rw [hstored]
    exact storable_of_worldKey hto
  obtain ⟨counts, s1, n, s2, counts', s3, s4, h1, h2, h3, h4, htotal, hre, hv2, hframe⟩ :=
    recount L hto' hne (nodup_cellsOf R) (fun c hc => hin c (mem_cellsOf.mp hc))
      (fun c hc => hkept (hR.inHeight (mem_cellsOf.mp hc))) (by omega) hv
  refine ⟨counts, s1, n, s2, counts', s3, s4, ?_, ?_, ?_, ?_, htotal.trans hlen, hre, fun c hc => ?_⟩
  · rw [countBlocks_eq, h1]
  · rw [replaceBlocks_eq, h2]
  · rw [countBlocks_eq, h3]
  · rw [replaceBlocks_eq, h4]
  · obtain ⟨hs2, hshown2⟩ := hshown hv2
    rw [sameAt_iff hs hs2, hshown2, (hshown hv).2]
    exact hframe c fun hm => hc (mem_cellsOf.mp hm)

/-- **When counting and replacing agree** although the lost chunk is left: the first count is then of what the
lost chunk had, everything after it of what the map has. -/
theorem countsAndReplaces_iff_of_leaves {s : ChunkManager} (hs : Sound s) {d : Pos} (hd : R.Lies d)
    (hleave : s.Leaves d) : CountsAndReplaces R fromKey toKey s ↔
      (∀ c, ¬ R.Lies c → s.shown c = s.blocksOf c) ∧ ∀ k, ¬ Hit fromKey k →
        ((s.before id (cellsOf R)).map fun c => (s.shown c).key).count k =
          ((s.before id (cellsOf R)).map fun c => (s.blocksOf c).key).count k := by
  have hlen := length_cellsOf hR.fits hR.size
  have hsince : s.since id (cellsOf R) ≠ [] := fun h =>
    since_eq_nil_iff.mp h d (mem_cellsOf.mpr hd) hleave
  have hfits : (cellsOf R).length < 2 ^ 31 := by omega
  obtain ⟨counts, s1, h1, -, hview, hvalid, hcounts⟩ := countAll_seen hs hfits
  have hv1 := hvalid hsince
  have hb1 : s1.blocksOf = s.blocksOf := by
    rw [hview.blocks, blocksOf_past]
  obtain ⟨n, s2, counts', s3, s4, h2, h3, h4, hn, hcounts', hv2, hframe⟩ :=
    replaceCount_ok managerLaws (storable_of_worldKey hto) hne (nodup_cellsOf R) (fun _ _ => trivial)
      (fun c hc => hR.inHeight (mem_cellsOf.mp hc)) (by omega) hv1
  -- the keys of the blocks that the map has
  have hkeys : keysAt managerLaws s1 (cellsOf R) =
      ((s.before id (cellsOf R)).map fun c => (s.blocksOf c).key) ++
        (s.since id (cellsOf R)).map fun c => (s.blocksOf c).key := by
    rw [← List.map_append, before_append_since]
    show (cellsOf R).map (fun c => (s1.blocksOf c).key) = _
    rw [hb1]
  have hlength : (keysSeen s (cellsOf R)).length = (keysAt managerLaws s1 (cellsOf R)).length := by
    rw [hkeys, keysSeen]
    simp
  have hnumbers : Recount counts counts' n fromKey toKey ↔ ∀ k, ¬ Hit fromKey k →
      ((s.before id (cellsOf R)).map fun c => (s.shown c).key).count k =
        ((s.before id (cellsOf R)).map fun c => (s.blocksOf c).key).count k := by
    rw [recount_iff hne hcounts hcounts' hlength hn]
    refine forall₂_congr fun k _ => ?_
    rw [hkeys, keysSeen, List.count_append, List.count_append]
    exact Nat.add_right_cancel_iff
  have hsame : (∀ c, ¬ R.Lies c → SameAt s s2 c) ↔ ∀ c, ¬ R.Lies c → s.shown c = s.blocksOf c := by
    refine forall₂_congr fun c hc => ?_
    have hc2 : s2.blocksOf c = s1.blocksOf c := hframe c fun hm => hc (mem_cellsOf.mp hm)
    rw [sameAt_iff hs (sound_of_valid hv2), shown_of_attached hv2.2, hc2, hb1]
    exact eq_comm
  have htotal : total counts (fun _ => true) = R.width.toInt * R.height.toInt * R.length.toInt := by
    rw [total_eq hcounts, List.countP_true, hlength, keysAt, List.length_map, hlen]
  rw [← hnumbers, ← hsame]
  constructor
  · rintro ⟨counts2, t1, n2, t2, counts2', t3, t4, e1, e2, e3, -, -, hre, hframe⟩
    rw [countBlocks_eq] at e1 e3
    rw [replaceBlocks_eq] at e2
    obtain ⟨rfl, rfl⟩ := EStateM.Result.ok.inj (h1.symm.trans e1)
    obtain ⟨rfl, rfl⟩ := EStateM.Result.ok.inj (h2.symm.trans e2)
    obtain ⟨rfl, -⟩ := EStateM.Result.ok.inj (h3.symm.trans e3)
    exact ⟨hframe, hre⟩
  · rintro ⟨hframe, hre⟩
    refine ⟨counts, s1, n, s2, counts', s3, s4, ?_, ?_, ?_, ?_, htotal, hre, hframe⟩
    · rw [countBlocks_eq, h1]
    · rw [replaceBlocks_eq, h2]
    · rw [countBlocks_eq, h3]
    · rw [replaceBlocks_eq, h4]

/-- The same for every region. -/
theorem countsAndReplaces_iff_of_sound {s : ChunkManager} (hs : Sound s) :
    CountsAndReplaces R fromKey toKey s ↔ (∀ c, R.Lies c → s.InStale c) ∨
      (∀ c, ¬ R.Lies c → s.shown c = s.blocksOf c) ∧ ∀ k, ¬ Hit fromKey k →
        ((s.before id (cellsOf R)).map fun c => (s.shown c).key).count k =
          ((s.before id (cellsOf R)).map fun c => (s.blocksOf c).key).count k := by
  by_cases hall : ∀ c, R.Lies c → s.InStale c
  · refine iff_of_true ?_ (Or.inl hall)
    rcases hs.valid_or_detached with hv | ⟨k, hd⟩
    · exact countsAndReplaces_of_laws hR hcells hto hne (L := managerLaws) rfl id hs hv
        (fun _ _ => trivial) fun ht => ⟨sound_of_valid ht, shown_of_attached ht.2⟩
    · exact countsAndReplaces_of_laws hR hcells hto hne (L := staleLaws k s.blocksOf) rfl id hs
        ⟨hs, hd, rfl⟩ (fun c hc _ => ((inStale_iff hd).mp (hall c hc)).2) fun ht => ⟨ht.1, rfl⟩
  · obtain ⟨d, hd⟩ := not_forall.mp hall
    obtain ⟨hdR, hst⟩ := Classical.not_imp.mp hd
    rw [or_iff_right hall]
    exact countsAndReplaces_iff_of_leaves hR hcells hto hne hs hdR ⟨hR.inHeight hdR, hst⟩

end Agreement

/-- **Counting and replacing agree** in a state reached on a readable database if and only if the region lies
in the chunk that the shortcut has and the map lost, or the readers show outside the region what the map has,
and within it, where the pass still meets the lost chunk, both have each key as often that is not replaced. -/
theorem countsAndReplaces_iff (s : ChunkManager) (hs : Reached s) (R : CuboidRegion) (hR : InWorld R)
    (hcells : R.width.toInt * R.height.toInt * R.length.toInt < 2 ^ 31) (fromKey toKey : MaterialKey)
    (hto : WorldKey toKey) (hne : ¬ Hit fromKey toKey) :
    CountsAndReplaces R fromKey toKey s ↔ (∀ c, R.Lies c → s.InStale c) ∨
      (∀ c, ¬ R.Lies c → s.shown c = s.blocksOf c) ∧ ∀ k, ¬ Hit fromKey k →
        ((s.before id (cellsOf R)).map fun c => (s.shown c).key).count k =
          ((s.before id (cellsOf R)).map fun c => (s.blocksOf c).key).count k :=
  countsAndReplaces_iff_of_sound hR hcells hto hne hs.sound

/-- All air of four blocks becomes stone, away from the chunk that was unloaded. -/
theorem countsAndReplaces_away :
    CountsAndReplaces ⟨1000, 64, 1000, 2, 2, 1⟩ ⟨0, -1⟩ ⟨1, 0⟩ justUnloaded := by
  obtain ⟨-, hair, hshown⟩ := justUnloaded_spec
  have hR : InWorld ⟨1000, 64, 1000, 2, 2, 1⟩ :=
    ⟨fun a => by cases a <;> decide, fun a => by cases a <;> decide, by decide, by decide⟩
  refine (countsAndReplaces_iff justUnloaded reached_justUnloaded _ hR (by decide) ⟨0, -1⟩ ⟨1, 0⟩
    ⟨by decide, by decide⟩ (by decide)).mpr (Or.inr ⟨fun c _ => ?_, fun k _ => ?_⟩)
  · rw [hshown, hair]
  · simp only [hshown, hair]

/-! ## With a detached shortcut -/

/-- A block is set after unloading, in the chunk that the shortcut still has. -/
def setUnloaded : ChunkManager :=
  run exec (opened ∅) [.getBlockTypeId 0 0 0, .unloadChunks true, .setBlockTypeId 0 0 15 1]

theorem reached_setUnloaded : Reached setUnloaded := reached_run recordsOk_empty _

/-- The readers show the block, which the map does not have. -/
theorem setUnloaded_spec : setUnloaded.Detached (keyOf 0 0) ∧ (∀ c, setUnloaded.blocksOf c = ⟨0, 0⟩) ∧
    setUnloaded.shown ⟨0, 0, 15⟩ = ⟨1, 0⟩ := by
  obtain ⟨hd, hair, hshown⟩ := justUnloaded_spec
  obtain ⟨s, h, ⟨-, hd', hb⟩, hs⟩ := setBlockTypeId_stale reached_justUnloaded.sound hd
    (c := ⟨0, 0, 15⟩) (fun _ => by decide) 1
  have hexec : exec (.setBlockTypeId 0 0 15 1) justUnloaded = .ok .unit s := bind_of_ok h
  have hrun : setUnloaded = s := by
    show after (exec (.setBlockTypeId 0 0 15 1)) justUnloaded = s
    exact after_of_ok hexec
  rw [hrun]
  refine ⟨hd', fun c => by rw [hb, hair], ?_⟩
  rw [hs, if_pos ⟨rfl, by decide⟩, hshown]
  rfl

theorem cellsOf_border : cellsOf ⟨0, 0, 15, 1, 1, 2⟩ = [⟨0, 0, 15⟩, ⟨0, 0, 16⟩] := by decide

/-- A block set after unloading, in the chunk that the shortcut still has, is counted and then not
replaced. -/
theorem not_countsAndReplaces_unloaded :
    Reached setUnloaded ∧ InWorld ⟨0, 0, 15, 1, 1, 2⟩ ∧ WorldKey ⟨2, 0⟩ ∧ ¬ Hit ⟨1, -1⟩ ⟨2, 0⟩ ∧
    ¬ CountsAndReplaces ⟨0, 0, 15, 1, 1, 2⟩ ⟨1, -1⟩ ⟨2, 0⟩ setUnloaded := by
  obtain ⟨hd, hair, hstone⟩ := setUnloaded_spec
  have hR : InWorld ⟨0, 0, 15, 1, 1, 2⟩ :=
    ⟨fun a => by cases a <;> decide, fun a => by cases a <;> decide, by decide, by decide⟩
  have hto : WorldKey ⟨2, 0⟩ := ⟨by decide, by decide⟩
  have hne : ¬ Hit ⟨1, -1⟩ ⟨2, 0⟩ := by decide
  have hnext : ¬ setUnloaded.InStale ⟨0, 0, 16⟩ := fun hst => absurd ((inStale_iff hd).mp hst).2 (by decide)
  have hleave : setUnloaded.Leaves ⟨0, 0, 16⟩ := ⟨by decide, hnext⟩
  have hstay : ¬ setUnloaded.Leaves ⟨0, 0, 15⟩ := fun hl => hl.2 ((inStale_iff hd).mpr (by decide))
  refine ⟨reached_setUnloaded, hR, hto, hne, fun h => ?_⟩
  rw [countsAndReplaces_iff_of_leaves hR (by decide) hto hne reached_setUnloaded.sound
    (show CuboidRegion.Lies _ ⟨0, 0, 16⟩ by decide) hleave] at h
  -- the map has air where the stone is found
  have hbefore : setUnloaded.before id (cellsOf ⟨0, 0, 15, 1, 1, 2⟩) = [⟨0, 0, 15⟩] := by
    rw [cellsOf_border]
    simp [before, List.takeWhile, hstay, hleave]
  have hair' := h.2 ⟨0, 0⟩ (by decide)
  rw [hbefore, List.map_singleton, List.map_singleton, hstone, hair] at hair'
  exact absurd hair' (by decide)

end WorldToPE.GeoUtils
