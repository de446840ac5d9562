import WorldToPE.Geo.CuboidRegion
import WorldToPE.Lib.JavaArray
import Std.Data.HashMap

/-!
# WorldToPE.Geo.AreaBlockAccess — areas of blocks behind one interface

`geo/AreaBlockAccess.java`, and what its users rely on.  An area is an object of any type `σ` with the
four accessors; `AreaLaws` says what it takes to be a map of blocks: readers change nothing, a writer
changes its own block and no other.  The laws leave open which cells can be accessed, which of them keep
what is set, and what a value becomes when it is stored.

* `put_ok`: setting type and data of one cell.
* `putAll_ok`: setting a list of cells, in which a cell may occur more than once.
-/

namespace WorldToPE

open Java Run

structure AreaBlockAccess (σ : Type) where
  getBlockTypeId : Int32 → Int32 → Int32 → EStateM Exn σ Int32
  getBlockData : Int32 → Int32 → Int32 → EStateM Exn σ Int32
  setBlockTypeId : Int32 → Int32 → Int32 → Int32 → EStateM Exn σ Unit
  setBlockData : Int32 → Int32 → Int32 → Int32 → EStateM Exn σ Unit

/-- A block, as the readers show it. -/
@[ext]
structure Block where
  type : Int32
  data : Int32
deriving DecidableEq, Repr

/-- `MaterialKey`, with its `equals`: both fields count.  A `damage` of -1 stands for all data values. -/
structure MaterialKey where
  typeId : Int16
  damage : Int16
deriving DecidableEq, Hashable, Repr

/-- The block that is set for a key. -/
def MaterialKey.block (k : MaterialKey) : Block := ⟨k.typeId.toInt32, k.damage.toInt32⟩

/-- The test of `replaceBlocks`. -/
def MaterialKey.Matches (fromKey : MaterialKey) (type data : Int16) : Prop :=
  type = fromKey.typeId ∧ (data = fromKey.damage ∨ fromKey.damage = -1)

instance (fromKey : MaterialKey) (type data : Int16) : Decidable (fromKey.Matches type data) :=
  inferInstanceAs (Decidable (_ ∧ _))

/-! ## The laws -/

/-- The area is a map of blocks. -/
structure AreaLaws {σ : Type} (mgr : AreaBlockAccess σ) where
  Valid : σ → Prop
  blocks : σ → Pos → Block
  /-- the cells that can be accessed -/
  InArea : Pos → Prop
  /-- the cells that keep what is set -/
  Kept : Pos → Prop
  [decKept : DecidablePred Kept]
  keptType : Int32 → Int32
  keptData : Int32 → Int32
  getBlockTypeId : ∀ {s}, Valid s → ∀ {c : Pos}, InArea c →
    ∃ s', mgr.getBlockTypeId c.x c.y c.z s = .ok (blocks s c).type s' ∧ Valid s' ∧ blocks s' = blocks s
  getBlockData : ∀ {s}, Valid s → ∀ {c : Pos}, InArea c →
    ∃ s', mgr.getBlockData c.x c.y c.z s = .ok (blocks s c).data s' ∧ Valid s' ∧ blocks s' = blocks s
  setBlockTypeId : ∀ {s}, Valid s → ∀ {c : Pos}, InArea c → ∀ type,
    ∃ s', mgr.setBlockTypeId c.x c.y c.z type s = .ok () s' ∧ Valid s' ∧ ∀ c', blocks s' c' =
      if c' = c ∧ Kept c then { blocks s c with type := keptType type } else blocks s c'
  setBlockData : ∀ {s}, Valid s → ∀ {c : Pos}, InArea c → ∀ data,
    ∃ s', mgr.setBlockData c.x c.y c.z data s = .ok () s' ∧ Valid s' ∧ ∀ c', blocks s' c' =
      if c' = c ∧ Kept c then { blocks s c with data := keptData data } else blocks s c'

attribute [instance] AreaLaws.decKept

/-- What becomes of a block when it is set. -/
def AreaLaws.stored {σ : Type} {mgr : AreaBlockAccess σ} (L : AreaLaws mgr) (b : Block) : Block :=
  ⟨L.keptType b.type, L.keptData b.data⟩

/-! ## Setting blocks -/

section Put

variable {σ : Type} (mgr : AreaBlockAccess σ)

/-- The two writes that set the block at a cell. -/
def put (b : Block) (c : Pos) : EStateM Exn σ Unit := do
  mgr.setBlockTypeId c.x c.y c.z b.type
  mgr.setBlockData c.x c.y c.z b.data

/-- Setting the blocks at the cells of a list, to `b c` at the cell `c`. -/
def putAll (b : Pos → Block) : List Pos → EStateM Exn σ Unit
  | [] => pure ()
  | c :: cells => do
    put mgr (b c) c
    putAll b cells

theorem putAll_append (b : Pos → Block) (cells cells' : List Pos) :
    putAll mgr b (cells ++ cells') = (do
      putAll mgr b cells
      putAll mgr b cells') := by
  induction cells with
  | nil => rfl
  | cons c cells ih =>
    rw [List.cons_append, putAll, putAll, ih, bind_assoc]

variable {mgr} (L : AreaLaws mgr) {s : σ} (hs : L.Valid s)
include hs

theorem put_ok (b : Block) {c : Pos} (hc : L.InArea c) : ∃ s', put mgr b c s = .ok () s' ∧ L.Valid s' ∧
    ∀ c', L.blocks s' c' = if c' = c ∧ L.Kept c then L.stored b else L.blocks s c' := by
  obtain ⟨s1, h1, hv1, hb1⟩ := L.setBlockTypeId hs hc b.type
  obtain ⟨s2, h2, hv2, hb2⟩ := L.setBlockData hv1 hc b.data
  refine ⟨s2, by rw [put, bind_of_ok h1, h2], hv2, fun c' => ?_⟩
  rw [hb2 c']
  by_cases h : c' = c ∧ L.Kept c
  · rw [if_pos h, if_pos h, hb1 c, if_pos ⟨rfl, h.2⟩]
    rfl
  · rw [if_neg h, if_neg h, hb1 c', if_neg h]

/-- **Setting a list of cells** sets those cells that keep it, and no other. -/
theorem putAll_ok (b : Pos → Block) {cells : List Pos} (hc : ∀ c ∈ cells, L.InArea c) :
    ∃ s', putAll mgr b cells s = .ok () s' ∧ L.Valid s' ∧
      ∀ c, L.blocks s' c = if c ∈ cells ∧ L.Kept c then L.stored (b c) else L.blocks s c := by
  induction cells generalizing s with
  | nil => exact ⟨s, rfl, hs, fun c => by simp⟩
  | cons d cells ih =>
    obtain ⟨s1, h1, hv1, hb1⟩ := put_ok L hs (b d) (hc d List.mem_cons_self)
    obtain ⟨s2, h2, hv2, hb2⟩ := ih hv1 fun c hmem => hc c (List.mem_cons_of_mem _ hmem)
    refine ⟨s2, by rw [putAll, bind_of_ok h1, h2], hv2, fun c => ?_⟩
    rw [hb2 c, hb1 c]
    by_cases hk : L.Kept c
    · by_cases hmem : c ∈ cells
      · rw [if_pos ⟨hmem, hk⟩, if_pos ⟨List.mem_cons_of_mem _ hmem, hk⟩]
      · rw [if_neg fun h => hmem h.1]
        by_cases hcd : c = d
        · subst hcd
          rw [if_pos ⟨rfl, hk⟩, if_pos ⟨List.mem_cons_self, hk⟩]
        · rw [if_neg fun h => hcd h.1, if_neg fun h => (List.mem_cons.mp h.1).elim hcd hmem]
    · have hd : ¬ (c = d ∧ L.Kept d) := by
        rintro ⟨rfl, h⟩
        exact hk h
      rw [if_neg fun h => hk h.2, if_neg hd, if_neg fun h => hk h.2]

end Put

end WorldToPE
