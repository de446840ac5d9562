import WorldToPE.Geo.AreaBlockAccess

/-!
# WorldToPE.Geo.Edits — calls of the writers of an area

The two writers of an `AreaBlockAccess` as data: sequences of calls that are made, and calls that a
function makes.

* `applyAll_ok`: what a sequence of edits makes of any area that is a map of blocks.
* `AreaBlockAccess.recorded`: an area that keeps the calls of its writers; `putAll_logged`: the calls
  that set a list of cells.
* `Sets`, `sets_iff`: when the calls are those that set one block at a set of cells.
-/

namespace WorldToPE

open Java Run

/-! ## Sequences of edits -/

/-- A call of one of the two writers, on the cell `d` of a box. -/
inductive Edit
  | setBlockTypeId (d : Pos) (type : Int32)
  | setBlockData (d : Pos) (data : Int32)
deriving DecidableEq, Repr

namespace Edit

def cell : Edit → Pos
  | .setBlockTypeId d _ => d
  | .setBlockData d _ => d

def type? : Edit → Option Int32
  | .setBlockTypeId _ type => some type
  | .setBlockData _ _ => none

def data? : Edit → Option Int32
  | .setBlockTypeId _ _ => none
  | .setBlockData _ data => some data

/-- The values that a world can keep. -/
def Good (e : Edit) : Prop :=
  (∀ type ∈ e.type?, 0 ≤ type.toInt ∧ type.toInt ≤ 255) ∧ ∀ data ∈ e.data?, 0 ≤ data.toInt ∧ data.toInt ≤ 15

/-- The edit, on an area in which `f` gives the cells of the box. -/
def apply {σ : Type} (mgr : AreaBlockAccess σ) (f : Pos → Pos) : Edit → EStateM Exn σ Unit
  | .setBlockTypeId d type => mgr.setBlockTypeId (f d).x (f d).y (f d).z type
  | .setBlockData d data => mgr.setBlockData (f d).x (f d).y (f d).z data

end Edit

def applyAll {σ : Type} (mgr : AreaBlockAccess σ) (f : Pos → Pos) : List Edit → EStateM Exn σ Unit
  | [] => pure ()
  | e :: edits => do
    e.apply mgr f
    applyAll mgr f edits

theorem applyAll_append {σ : Type} (mgr : AreaBlockAccess σ) (f : Pos → Pos) (edits edits' : List Edit) :
    applyAll mgr f (edits ++ edits') = (do
      applyAll mgr f edits
      applyAll mgr f edits') := by
  induction edits with
  | nil => rfl
  | cons e edits ih =>
    rw [List.cons_append, applyAll, applyAll, ih, bind_assoc]

/-- The last type that was set at a cell. -/
def lastType : List Edit → Pos → Option Int32
  | [], _ => none
  | e :: edits, d => (lastType edits d).or (if e.cell = d then e.type? else none)

/-- The last data that was set at a cell. -/
def lastData : List Edit → Pos → Option Int32
  | [], _ => none
  | e :: edits, d => (lastData edits d).or (if e.cell = d then e.data? else none)

section Edits

variable {σ : Type} {mgr : AreaBlockAccess σ} (L : AreaLaws mgr)

theorem exists_of_lastData {edits : List Edit} {d : Pos} {data : Int32}
    (h : lastData edits d = some data) : ∃ e ∈ edits, e.cell = d ∧ e.data? = some data := by
  induction edits with
  | nil => cases h
  | cons e edits ih =>
    rw [lastData, Option.or_eq_some_iff] at h
    rcases h with h | ⟨-, h⟩
    · obtain ⟨e', he', h'⟩ := ih h
      exact ⟨e', List.mem_cons_of_mem _ he', h'⟩
    · obtain ⟨hcell, h⟩ := Option.ite_none_right_eq_some.mp h
      exact ⟨e, List.mem_cons_self, hcell, h⟩

/-- What edits make of the block `b` at a cell. -/
def edited (edits : List Edit) (d : Pos) (b : Block) : Block :=
  ⟨((lastType edits d).map L.keptType).getD b.type, ((lastData edits d).map L.keptData).getD b.data⟩

theorem edited_cons (e : Edit) (edits : List Edit) (d : Pos) (b : Block) :
    edited L (e :: edits) d b = edited L edits d (edited L [e] d b) := by
  unfold edited
  ext
  · cases h : lastType edits d <;> simp [lastType, h]
  · cases h : lastData edits d <;> simp [lastData, h]

theorem edited_append (edits edits' : List Edit) (d : Pos) (b : Block) :
    edited L (edits ++ edits') d b = edited L edits' d (edited L edits d b) := by
  induction edits generalizing b with
  | nil => rfl
  | cons e edits ih =>
    rw [List.cons_append, edited_cons, ih, ← edited_cons]

theorem edited_of_ne {edits : List Edit} {d : Pos} (h : ∀ e ∈ edits, e.cell ≠ d) (b : Block) :
    edited L edits d b = b := by
  induction edits generalizing b with
  | nil => rfl
  | cons e edits ih =>
    have hne : e.cell ≠ d := h e List.mem_cons_self
    rw [edited_cons, ih fun e' he' => h e' (List.mem_cons_of_mem _ he')]
    simp [edited, lastType, lastData, hne]

theorem apply_ok {f : Pos → Pos} (hf : Function.Injective f) (e : Edit) (hc : L.InArea (f e.cell))
    (hk : L.Kept (f e.cell)) {s : σ} (hs : L.Valid s) : ∃ s', e.apply mgr f s = .ok () s' ∧ L.Valid s' ∧
      ∀ d, L.blocks s' (f d) = edited L [e] d (L.blocks s (f d)) := by
  cases e with
  | setBlockTypeId c type =>
    obtain ⟨s', h, hv, hb⟩ := L.setBlockTypeId hs hc type
    refine ⟨s', h, hv, fun d => ?_⟩
    rw [hb (f d)]
    by_cases hdc : d = c
    · subst hdc
      rw [if_pos ⟨rfl, hk⟩]
      simp [edited, lastType, lastData, Edit.cell, Edit.type?, Edit.data?]
    · rw [if_neg fun h => hdc (hf h.1)]
      simp [edited, lastType, lastData, Edit.cell, Ne.symm hdc]
  | setBlockData c data =>
    obtain ⟨s', h, hv, hb⟩ := L.setBlockData hs hc data
    refine ⟨s', h, hv, fun d => ?_⟩
    rw [hb (f d)]
    by_cases hdc : d = c
    · subst hdc
      rw [if_pos ⟨rfl, hk⟩]
      simp [edited, lastType, lastData, Edit.cell, Edit.type?, Edit.data?]
    · rw [if_neg fun h => hdc (hf h.1)]
      simp [edited, lastType, lastData, Edit.cell, Ne.symm hdc]

/-- **A sequence of edits** gives each cell the last type and the last data that were set there. -/
theorem applyAll_ok {f : Pos → Pos} (hf : Function.Injective f) {edits : List Edit}
    (hin : ∀ e ∈ edits, L.InArea (f e.cell) ∧ L.Kept (f e.cell)) {s : σ} (hs : L.Valid s) :
    ∃ s', applyAll mgr f edits s = .ok () s' ∧ L.Valid s' ∧
      ∀ d, L.blocks s' (f d) = edited L edits d (L.blocks s (f d)) := by
  induction edits generalizing s with
  | nil => exact ⟨s, rfl, hs, fun d => rfl⟩
  | cons e edits ih =>
    obtain ⟨hc, hk⟩ := hin e List.mem_cons_self
    obtain ⟨s1, h1, hv1, hb1⟩ := apply_ok L hf e hc hk hs
    obtain ⟨s2, h2, hv2, hb2⟩ := ih (fun e' he' => hin e' (List.mem_cons_of_mem _ he')) hv1
    refine ⟨s2, by rw [applyAll, bind_of_ok h1, h2], hv2, fun d => ?_⟩
    rw [hb2 d, hb1 d, ← edited_cons]

end Edits

/-! ## Calls that are kept -/

section Logged

variable {σ α : Type} (mgr : AreaBlockAccess σ) (f : Edit → List α)

/-- The area together with a list to which every call of a writer adds what `f` makes of it. -/
def AreaBlockAccess.logged : AreaBlockAccess (σ × List α) where
  getBlockTypeId x y z := onFst (mgr.getBlockTypeId x y z)
  getBlockData x y z := onFst (mgr.getBlockData x y z)
  setBlockTypeId x y z type := do
    onSnd (modify fun log => log ++ f (.setBlockTypeId ⟨x, y, z⟩ type))
    onFst (mgr.setBlockTypeId x y z type)
  setBlockData x y z data := do
    onSnd (modify fun log => log ++ f (.setBlockData ⟨x, y, z⟩ data))
    onFst (mgr.setBlockData x y z data)

/-- The area together with the calls of its writers. -/
def AreaBlockAccess.recorded : AreaBlockAccess (σ × List Edit) := mgr.logged fun e => [e]

/-- The calls that set the block `b` at a cell. -/
def editsAt (b : Block) (c : Pos) : List Edit := [.setBlockTypeId c b.type, .setBlockData c b.data]

variable {mgr f} {s s' : σ}

/-- An entry in the list, and then the call. -/
theorem logged_eq_ok {m : EStateM Exn σ Unit} {new log log' : List α} :
    (do onSnd (modify fun log => log ++ new); onFst m) (s, log) = .ok () (s', log') ↔
      m s = .ok () s' ∧ log' = log ++ new := by
  have hlog : onSnd (modify fun log => log ++ new) (s, log) =
      (.ok () (s, log ++ new) : EStateM.Result Exn (σ × List α) PUnit) := onSnd_of_ok (modify_apply _ _) s
  rw [bind_of_ok hlog]
  exact onFst_eq_ok

theorem put_logged {b : Block} {c : Pos} {log log' : List α} :
    put (mgr.logged f) b c (s, log) = .ok () (s', log') ↔
      put mgr b c s = .ok () s' ∧ log' = log ++ (editsAt b c).flatMap f := by
  constructor
  · intro h
    obtain ⟨_, ⟨t, log1⟩, h1, h2⟩ := bind_eq_ok.mp h
    obtain ⟨htype, e1⟩ := logged_eq_ok.mp h1
    obtain ⟨hdata, e2⟩ := logged_eq_ok.mp h2
    refine ⟨bind_eq_ok.mpr ⟨_, _, htype, hdata⟩, ?_⟩
    rw [e2, e1]
    simp [editsAt]
  · rintro ⟨h, rfl⟩
    obtain ⟨_, t, h1, h2⟩ := bind_eq_ok.mp h
    refine bind_eq_ok.mpr ⟨(), (t, log ++ f (.setBlockTypeId c b.type)), logged_eq_ok.mpr ⟨h1, rfl⟩,
      logged_eq_ok.mpr ⟨h2, ?_⟩⟩
    simp [editsAt]

/-- **The calls that are kept** are those for the cells of the list, in its order. -/
theorem putAll_logged {b : Pos → Block} {cells : List Pos} {log log' : List α} :
    putAll (mgr.logged f) b cells (s, log) = .ok () (s', log') ↔
      putAll mgr b cells s = .ok () s' ∧ log' = log ++ cells.flatMap fun c => (editsAt (b c) c).flatMap f := by
  induction cells generalizing s log with
  | nil =>
    simp only [putAll, pure_apply, EStateM.Result.ok.injEq, Prod.mk.injEq, true_and, List.flatMap_nil,
      List.append_nil]
    exact and_congr_right fun _ => eq_comm
  | cons c cells ih =>
    rw [putAll, putAll, List.flatMap_cons, ← List.append_assoc]
    constructor
    · intro h
      obtain ⟨_, ⟨t, log1⟩, h1, h2⟩ := bind_eq_ok.mp h
      obtain ⟨hput, rfl⟩ := put_logged.mp h1
      obtain ⟨hrest, rfl⟩ := ih.mp h2
      exact ⟨bind_eq_ok.mpr ⟨_, _, hput, hrest⟩, rfl⟩
    · rintro ⟨h, rfl⟩
      obtain ⟨_, t, h1, h2⟩ := bind_eq_ok.mp h
      exact bind_eq_ok.mpr ⟨_, _, put_logged.mpr ⟨h1, rfl⟩, ih.mpr ⟨h2, rfl⟩⟩

end Logged

/-- The calls are those that set the block `b` at the cells of `S`: all of them and no others. -/
def Sets (log : List Edit) (S : Pos → Prop) (b : Block) : Prop :=
  ∀ e, e ∈ log ↔ S e.cell ∧ e ∈ editsAt b e.cell

/-- **The calls for a list of cells** set the block at a set of cells if and only if the list has the cells of
the set. -/
theorem sets_iff {b : Block} {cells : List Pos} {S : Pos → Prop} :
    Sets (cells.flatMap (editsAt b)) S b ↔ ∀ c, c ∈ cells ↔ S c := by
  have hmem : ∀ e, e ∈ cells.flatMap (editsAt b) ↔ e.cell ∈ cells ∧ e ∈ editsAt b e.cell := by
    intro e
    rw [List.mem_flatMap]
    constructor
    · rintro ⟨c, hc, he⟩
      have hcell : e.cell = c := by
        rcases List.mem_pair.mp he with rfl | rfl <;> rfl
      rw [hcell]
      exact ⟨hc, he⟩
    · rintro ⟨hc, he⟩
      exact ⟨e.cell, hc, he⟩
  constructor
  · intro h c
    have hin : Edit.setBlockTypeId c b.type ∈ editsAt b c := List.mem_cons_self
    have hc := (hmem (.setBlockTypeId c b.type)).symm.trans (h (.setBlockTypeId c b.type))
    exact (and_iff_left hin).symm.trans (hc.trans (and_iff_left hin))
  · intro h e
    rw [hmem, h]

end WorldToPE
