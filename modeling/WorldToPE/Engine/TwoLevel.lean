import WorldToPE.Engine.Merger
import WorldToPE.Lib.Frames

/-!
# WorldToPE.Engine.TwoLevel — an iterator over the blocks that an index names

`table/two_level_iterator.cc`: the values of an index iterator are handles, and a function makes an
iterator for each handle.  Blocks without entries are skipped in the direction of the move.

`TwoLevel.at_flatMap`: if the keys of the index separate the blocks, the iterator is a cursor in all
entries of the blocks.  The loops of the source are given fuel here, as those of `DBIter`.
-/

namespace Leveldb

open Cursor

variable {σ τ : Type}

/-- The state of a `TwoLevelIterator`. -/
structure TwoLevel (σ τ : Type) where
  index_iter : σ
  data_iter : Option τ
  data_block_handle : Slice
  /-- Whether `status_` is OK. -/
  ok : Bool

namespace TwoLevel

variable (index : Iter σ Entry Slice) (data : Iter τ Entry Slice) (block_function : Slice → τ)

def new (index_iter : σ) : TwoLevel σ τ := ⟨index_iter, none, [], true⟩

/-- The status of the iterator that is given up is saved. -/
def setDataIterator (t : TwoLevel σ τ) (data_iter : Option τ) : TwoLevel σ τ :=
  { t with data_iter := data_iter, ok := t.ok && t.data_iter.all data.ok }

def initDataBlock (t : TwoLevel σ τ) : TwoLevel σ τ :=
  match index.current t.index_iter with
  | none => t.setDataIterator data none
  | some e =>
    -- data_iter is already constructed with this iterator, so no need to change anything
    if t.data_iter.isSome ∧ e.2 = t.data_block_handle then t
    else { t.setDataIterator data (some (block_function e.2)) with data_block_handle := e.2 }

def moveIndex (m : Move Slice) (t : TwoLevel σ τ) : TwoLevel σ τ :=
  { t with index_iter := index.move t.index_iter m }

def moveData (m : Move Slice) (t : TwoLevel σ τ) : TwoLevel σ τ :=
  { t with data_iter := t.data_iter.map fun d => data.move d m }

/-- The index makes a move, and then the data of the block it leads to. -/
def moveBoth (m m' : Move Slice) (t : TwoLevel σ τ) : TwoLevel σ τ :=
  ((t.moveIndex index m).initDataBlock index data block_function).moveData data m'

def current? (t : TwoLevel σ τ) : Option Entry := t.data_iter.bind data.current

def skipEmptyDataBlocksForward : ℕ → TwoLevel σ τ → Option (TwoLevel σ τ)
  | 0, _ => none
  | fuel + 1, t =>
    if (t.current? data).isSome then some t
    else if (index.current t.index_iter).isNone then some (t.setDataIterator data none)
    else
      -- Move to next block
      skipEmptyDataBlocksForward fuel (t.moveBoth index data block_function .next .seekToFirst)

def skipEmptyDataBlocksBackward : ℕ → TwoLevel σ τ → Option (TwoLevel σ τ)
  | 0, _ => none
  | fuel + 1, t =>
    if (t.current? data).isSome then some t
    else if (index.current t.index_iter).isNone then some (t.setDataIterator data none)
    else skipEmptyDataBlocksBackward fuel (t.moveBoth index data block_function .prev .seekToLast)

def seek (fuel : ℕ) (target : Slice) (t : TwoLevel σ τ) : Option (TwoLevel σ τ) :=
  skipEmptyDataBlocksForward index data block_function fuel
    (t.moveBoth index data block_function (.seek target) (.seek target))

def seekToFirst (fuel : ℕ) (t : TwoLevel σ τ) : Option (TwoLevel σ τ) :=
  skipEmptyDataBlocksForward index data block_function fuel
    (t.moveBoth index data block_function .seekToFirst .seekToFirst)

def seekToLast (fuel : ℕ) (t : TwoLevel σ τ) : Option (TwoLevel σ τ) :=
  skipEmptyDataBlocksBackward index data block_function fuel
    (t.moveBoth index data block_function .seekToLast .seekToLast)

def next (fuel : ℕ) (t : TwoLevel σ τ) : Option (TwoLevel σ τ) :=
  skipEmptyDataBlocksForward index data block_function fuel (t.moveData data .next)

def prev (fuel : ℕ) (t : TwoLevel σ τ) : Option (TwoLevel σ τ) :=
  skipEmptyDataBlocksBackward index data block_function fuel (t.moveData data .prev)

/-- The iterator; `none` is the state after a loop that has run out of fuel. -/
def iterator (fuel : ℕ) : Iter (Option (TwoLevel σ τ)) Entry Slice where
  move s m := s.bind fun t =>
    match m with
    | .seekToFirst => t.seekToFirst index data block_function fuel
    | .seekToLast => t.seekToLast index data block_function fuel
    | .seek target => t.seek index data block_function fuel target
    | .next => t.next index data block_function fuel
    | .prev => t.prev index data block_function fuel
  current s := s.bind fun t => t.current? data
  ok s := s.any fun t => index.ok t.index_iter && t.data_iter.all data.ok && t.ok

/-! ## Two levels of entries -/

/-- The keys of the index `ix` separate the blocks that its values name. -/
structure Separated (comparator : Comparator) (ix : List Entry) (content : Slice → List Entry) : Prop where
  index : Sorted comparator.compare Prod.fst ix
  sorted : Sorted comparator.compare Prod.fst (ix.flatMap fun e => content e.2)
  upper : ∀ e ∈ ix, ∀ x ∈ content e.2, (comparator.compare x.1 e.1).isLE
  lower : ix.Pairwise fun e e' => ∀ x ∈ content e'.2, comparator.compare e.1 x.1 = .lt

section Levels

variable {index data block_function}
variable {comparator : Comparator} {ix : List Entry} {content : Slice → List Entry} {t : TwoLevel σ τ}
  {i j p fuel : ℕ} {e : Entry}

/-- Where the block `i` begins. -/
abbrev blockOff (ix : List Entry) (content : Slice → List Entry) (i : ℕ) : ℕ :=
  Frames.off (fun e => content e.2) ix i

/-- The iterators are cursors: the one of the index at `i`, and that of the data in the block of its handle. -/
structure Holds (comparator : Comparator) (index : Iter σ Entry Slice) (data : Iter τ Entry Slice)
    (ix : List Entry) (content : Slice → List Entry) (i : ℕ) (t : TwoLevel σ τ) : Prop where
  index : At (entryLt comparator) ix index t.index_iter i
  data : ∀ d, t.data_iter = some d → ∃ j, At (entryLt comparator) (content t.data_block_handle) data d j
  ok : t.ok = true

/-- The data iterator stands at the place `j` of the block `i`, or both are at their ends. -/
def Between (comparator : Comparator) (index : Iter σ Entry Slice) (data : Iter τ Entry Slice)
    (ix : List Entry) (content : Slice → List Entry) (i j : ℕ) (t : TwoLevel σ τ) : Prop :=
  Holds comparator index data ix content i t ∧
    (i = ix.length ∧ j = 0 ∧ t.data_iter = none ∨
      ∃ e d, ix[i]? = some e ∧ t.data_iter = some d ∧ t.data_block_handle = e.2 ∧
        At (entryLt comparator) (content e.2) data d j)

/-- The iterator stands at the place `p` of all entries. -/
def Stands (comparator : Comparator) (index : Iter σ Entry Slice) (data : Iter τ Entry Slice)
    (ix : List Entry) (content : Slice → List Entry) (p : ℕ) (t : TwoLevel σ τ) : Prop :=
  ∃ i j, Between comparator index data ix content i j t ∧ p = blockOff ix content i + j ∧
    ∀ e, ix[i]? = some e → j < (content e.2).length

theorem Holds.dataOk (h : Holds comparator index data ix content i t) : t.data_iter.all data.ok = true := by
  cases hd : t.data_iter with
  | none => rfl
  | some d =>
    obtain ⟨j, hj⟩ := h.data d hd
    exact hj.ok

/-- `InitDataBlock`, where the index stands. -/
theorem Holds.initDataBlock (h : Holds comparator index data ix content i t)
    (hf : ∀ e ∈ ix, ∃ j, At (entryLt comparator) (content e.2) data (block_function e.2) j) :
    Holds comparator index data ix content i (t.initDataBlock index data block_function) ∧
      (i = ix.length ∧ (t.initDataBlock index data block_function).data_iter = none ∨
        ∃ e d j, ix[i]? = some e ∧ (t.initDataBlock index data block_function).data_iter = some d ∧
          (t.initDataBlock index data block_function).data_block_handle = e.2 ∧
          At (entryLt comparator) (content e.2) data d j) := by
  have hok : (t.ok && t.data_iter.all data.ok) = true := by rw [h.ok, h.dataOk]; rfl
  unfold TwoLevel.initDataBlock
  cases hcur : index.current t.index_iter with
  | none =>
    exact ⟨⟨h.index, (fun d hd => by cases hd), hok⟩, Or.inl ⟨h.index.eq_length hcur, rfl⟩⟩
  | some e =>
    have he := h.index.getElem? hcur
    simp only
    split_ifs with hsame
    · -- the block is the one there is
      obtain ⟨d, hd⟩ := Option.isSome_iff_exists.mp hsame.1
      obtain ⟨j, hj⟩ := h.data d hd
      exact ⟨h, Or.inr ⟨e, d, j, he, hd, hsame.2.symm, hsame.2 ▸ hj⟩⟩
    · obtain ⟨j, hj⟩ := hf e (List.mem_of_getElem? he)
      refine ⟨⟨h.index, ?_, hok⟩, Or.inr ⟨e, _, j, he, rfl, rfl, hj⟩⟩
      intro d hd
      obtain rfl := Option.some.inj hd
      exact ⟨j, hj⟩

/-- Both iterators make a move: where the block stands that the index leads to. -/
theorem Holds.moveBoth (h : Holds comparator index data ix content i t) (m m' : Move Slice)
    (hm : Legal ix i m) (hm' : ∀ (l : List Entry) j, Legal l j m')
    (hf : ∀ e ∈ ix, ∃ j, At (entryLt comparator) (content e.2) data (block_function e.2) j) :
    ∃ j, Between comparator index data ix content (place (entryLt comparator) ix i m) j
        (t.moveBoth index data block_function m m') ∧
      ∀ e, ix[place (entryLt comparator) ix i m]? = some e →
        ∃ j', j = place (entryLt comparator) (content e.2) j' m' := by
  have hmove : Holds comparator index data ix content (place (entryLt comparator) ix i m) (t.moveIndex index m) :=
    ⟨h.index.move hm, h.data, h.ok⟩
  obtain ⟨hinit, hcases⟩ := hmove.initDataBlock hf
  rcases hcases with ⟨hend, hnone⟩ | ⟨e, d, j, he, hd, hhandle, hj⟩
  · refine ⟨0, ⟨⟨hinit.index, ?_, hinit.ok⟩, Or.inl ⟨hend, rfl, ?_⟩⟩, ?_⟩
    · intro d hd
      rw [TwoLevel.moveBoth, TwoLevel.moveData, hnone] at hd
      cases hd
    · rw [TwoLevel.moveBoth, TwoLevel.moveData, hnone]
      rfl
    · intro e he
      rw [hend, List.getElem?_eq_none le_rfl] at he
      cases he
  · have hmoved := hj.move (hm' _ j)
    refine ⟨_, ⟨⟨hinit.index, ?_, hinit.ok⟩, Or.inr ⟨e, _, he, ?_, hhandle, hmoved⟩⟩, ?_⟩
    · intro d' hd'
      rw [TwoLevel.moveBoth, TwoLevel.moveData, hd] at hd'
      obtain rfl := Option.some.inj hd'
      exact ⟨_, hhandle.symm ▸ hmoved⟩
    · rw [TwoLevel.moveBoth, TwoLevel.moveData, hd]
      rfl
    · intro e' he'
      obtain rfl := Option.some.inj (he.symm.trans he')
      exact ⟨j, rfl⟩

/-- Behind the last block there are no more entries. -/
theorem Between.at_end (h : Between comparator index data ix content i j t) (hi : ix.length ≤ i) :
    i = ix.length ∧ j = 0 ∧ t.data_iter = none := by
  rcases h.2 with hend | ⟨e, d, he, -⟩
  · exact hend
  · rw [List.getElem?_eq_none hi] at he
    cases he

theorem Between.at_block (h : Between comparator index data ix content i j t) (he : ix[i]? = some e) :
    ∃ d, t.data_iter = some d ∧ t.data_block_handle = e.2 ∧ At (entryLt comparator) (content e.2) data d j := by
  rcases h.2 with ⟨rfl, -⟩ | ⟨e', d, he', hd, hhandle, hat⟩
  · rw [List.getElem?_eq_none le_rfl] at he
    cases he
  · obtain rfl := Option.some.inj (he.symm.trans he')
    exact ⟨d, hd, hhandle, hat⟩

theorem Between.current (h : Between comparator index data ix content i j t) (he : ix[i]? = some e) :
    t.current? data = (content e.2)[j]? := by
  obtain ⟨d, hd, -, hat⟩ := h.at_block he
  rw [TwoLevel.current?, hd, Option.bind_some, hat.current]

theorem Between.current_none (h : Between comparator index data ix content i j t) (hi : ix.length ≤ i) :
    t.current? data = none := by
  rw [TwoLevel.current?, (h.at_end hi).2.2, Option.bind_none]

theorem Between.index_none (h : Between comparator index data ix content i j t) :
    (index.current t.index_iter).isNone = true ↔ ix.length ≤ i := by
  rw [h.1.index.current, Option.isNone_iff_eq_none, List.getElem?_eq_none_iff]

theorem blockOff_end (ix : List Entry) (content : Slice → List Entry) :
    blockOff ix content ix.length = (ix.flatMap fun e => content e.2).length := Frames.off_length _ _

theorem blockOff_succ (content : Slice → List Entry) (he : ix[i]? = some e) :
    blockOff ix content (i + 1) = blockOff ix content i + (content e.2).length := Frames.off_succ he

/-- The iterator gives up at the end. -/
theorem Between.stop (h : Between comparator index data ix content i j t) (hi : ix.length ≤ i) :
    Stands comparator index data ix content (ix.flatMap fun e => content e.2).length (t.setDataIterator data none) := by
  obtain ⟨rfl, rfl, hnone⟩ := h.at_end hi
  refine ⟨ix.length, 0, ⟨⟨h.1.index, (fun d hd => by cases hd), ?_⟩, Or.inl ⟨rfl, rfl, rfl⟩⟩, ?_, ?_⟩
  · show (t.ok && t.data_iter.all data.ok) = true
    rw [h.1.ok, h.1.dataOk]
    rfl
  · rw [blockOff_end]
    rfl
  · intro e he
    rw [List.getElem?_eq_none le_rfl] at he
    cases he

/-! ## Skipping -/

section Skip

variable (hf : ∀ e ∈ ix, ∃ j, At (entryLt comparator) (content e.2) data (block_function e.2) j)

include hf

/-- Forward, the place stays: the end of a block is the beginning of the next one. -/
theorem Between.skipForward : ∀ {fuel i j : ℕ} {t : TwoLevel σ τ},
    Between comparator index data ix content i j t → ix.length - i < fuel →
    ∃ t', t.skipEmptyDataBlocksForward index data block_function fuel = some t' ∧
      Stands comparator index data ix content (blockOff ix content i + j) t'
  | fuel + 1, i, j, t, h, hfuel => by
    unfold skipEmptyDataBlocksForward
    rcases lt_or_ge i ix.length with hi | hi
    · have he := List.getElem?_eq_getElem hi
      obtain ⟨d, -, -, hat⟩ := h.at_block he
      rw [h.current he]
      rcases hat.le.lt_or_eq with hj | hj
      · rw [if_pos (by rw [List.getElem?_eq_getElem hj]; rfl)]
        refine ⟨t, rfl, i, j, h, rfl, fun e he' => ?_⟩
        obtain rfl := Option.some.inj (he.symm.trans he')
        exact hj
      · -- on to the next block
        rw [if_neg (by rw [List.getElem?_eq_none hj.ge]; simp), if_neg (by rw [h.index_none]; omega)]
        obtain ⟨j', h', hj'⟩ := h.1.moveBoth .next .seekToFirst hi (fun _ _ => trivial) hf
        have hzero : j' = 0 := by
          rcases lt_or_ge (i + 1) ix.length with hi' | hi'
          · exact (hj' _ (List.getElem?_eq_getElem hi')).choose_spec
          · exact (h'.at_end hi').2.1
        subst hzero
        have hrest : ix.length - (i + 1) < fuel := by omega
        obtain ⟨t', ht', hstands⟩ := h'.skipForward hrest
        refine ⟨t', ht', ?_⟩
        rw [hj, ← blockOff_succ content he]
        exact hstands
    · obtain ⟨rfl, rfl, -⟩ := h.at_end hi
      rw [h.current_none hi, if_neg (by simp), if_pos (h.index_none.mpr hi), blockOff_end]
      exact ⟨_, rfl, h.stop hi⟩

/-- The place before the entries of the block `i`. -/
def placeBefore (ix : List Entry) (content : Slice → List Entry) (i : ℕ) : ℕ :=
  if blockOff ix content i = 0 then (ix.flatMap fun e => content e.2).length else blockOff ix content i - 1

/-- Backward, from the end of a block it goes before its first entry. -/
theorem Between.skipBackward : ∀ {fuel i j : ℕ} {t : TwoLevel σ τ},
    Between comparator index data ix content i j t → (ix.length ≤ i ∧ 0 < fuel ∨ i + 1 < fuel) →
    ∃ t', t.skipEmptyDataBlocksBackward index data block_function fuel = some t' ∧
      Stands comparator index data ix content (if (t.current? data).isSome then blockOff ix content i + j
        else if ix.length ≤ i then (ix.flatMap fun e => content e.2).length else placeBefore ix content i) t'
  | 0, _, _, _, _, hfuel => by omega
  | fuel + 1, i, j, t, h, hfuel => by
    unfold skipEmptyDataBlocksBackward
    rcases lt_or_ge i ix.length with hi | hi
    · have he := List.getElem?_eq_getElem hi
      obtain ⟨d, -, -, hat⟩ := h.at_block he
      rw [h.current he]
      rcases hat.le.lt_or_eq with hj | hj
      · have hsome : ((content ix[i].2)[j]?).isSome = true := by rw [List.getElem?_eq_getElem hj]; rfl
        rw [if_pos hsome, if_pos hsome]
        refine ⟨t, rfl, i, j, h, rfl, fun e he' => ?_⟩
        obtain rfl := Option.some.inj (he.symm.trans he')
        exact hj
      · -- on to the block before
        have hnone : ¬ ((content ix[i].2)[j]?).isSome = true := by rw [List.getElem?_eq_none hj.ge]; simp
        rw [if_neg hnone, if_neg hnone, if_neg (not_le.mpr hi), if_neg (by rw [h.index_none]; omega)]
        obtain ⟨j', h', hj'⟩ := h.1.moveBoth .prev .seekToLast hi (fun _ _ => trivial) hf
        cases i with
        | zero =>
          have hrest : 0 < fuel := by omega
          obtain ⟨t', ht', hstands⟩ := h'.skipBackward (Or.inl ⟨le_rfl, hrest⟩)
          refine ⟨t', ht', ?_⟩
          rw [h'.current_none le_rfl, if_neg (by simp),
            if_pos (show ix.length ≤ place (entryLt comparator) ix 0 .prev from le_rfl)] at hstands
          rw [placeBefore, blockOff, Frames.off_zero, if_pos rfl]
          exact hstands
        | succ i =>
          have he' := List.getElem?_eq_getElem (Nat.lt_of_succ_lt hi)
          obtain ⟨j'', rfl⟩ := hj' _ he'
          have hrest : i + 1 < fuel := by omega
          obtain ⟨t', ht', hstands⟩ := h'.skipBackward (Or.inr hrest)
          refine ⟨t', ht', ?_⟩
          have hcur := h'.current he'
          have hsucc := blockOff_succ content he'
          rw [hcur] at hstands
          have hplace : (if ((content ix[i].2)[(content ix[i].2).length - 1]?).isSome then
              blockOff ix content i + ((content ix[i].2).length - 1)
              else if ix.length ≤ i then (ix.flatMap fun e => content e.2).length else placeBefore ix content i) =
              placeBefore ix content (i + 1) := by
            simp only [isSome_getElem?, placeBefore, hsucc]
            split_ifs <;> omega
          rw [← hplace]
          exact hstands
    · obtain ⟨rfl, rfl, -⟩ := h.at_end hi
      have hnone : ¬ (none : Option Entry).isSome = true := by simp
      rw [h.current_none hi, if_neg hnone, if_pos (h.index_none.mpr hi), if_neg hnone, if_pos hi]
      exact ⟨_, rfl, h.stop hi⟩

end Skip

/-! ## The iterator is a cursor -/

/-- Where the target is, by the index and within a block. -/
theorem Separated.cut_eq [Std.TransCmp comparator.compare] (h : Separated comparator ix content) (target : Slice)
    (hi : i = cut (fun e => entryLt comparator e target) ix)
    (hj : ∀ e, ix[i]? = some e → j = cut (fun e => entryLt comparator e target) (content e.2))
    (hend : ix[i]? = none → j = 0) :
    cut (fun e => entryLt comparator e target) (ix.flatMap fun e => content e.2) = blockOff ix content i + j := by
  have hix := initial_below h.index target
  have hbefore : ∀ x ∈ (ix.take i).flatMap (fun e => content e.2), entryLt comparator x target = true := by
    intro x hx
    obtain ⟨e, he, hx⟩ := List.mem_flatMap.mp hx
    obtain ⟨k, hk⟩ := List.mem_iff_getElem?.mp he
    have hki : k < i := by
      have := (List.getElem?_eq_some_iff.mp hk).1
      rw [List.length_take] at this
      omega
    rw [List.getElem?_take_of_lt hki] at hk
    have hlt : entryLt comparator e target = true :=
      getElem?_lt_cut (D := fun e => entryLt comparator e target) (hi ▸ hki) hk
    exact decide_eq_true (Std.TransCmp.lt_of_isLE_of_lt (h.upper e (List.mem_of_getElem? hk) x hx) (of_decide_eq_true hlt))
  cases he : ix[i]? with
  | none =>
    have hlen := List.getElem?_eq_none_iff.mp he
    rw [List.take_of_length_le hlen] at hbefore
    have hcut := cut_append hbefore (fun a ha => absurd ha (List.not_mem_nil : a ∉ []))
    rw [List.append_nil] at hcut
    rw [hcut, hend he, Nat.add_zero, blockOff, Frames.off, List.take_of_length_le hlen]
  | some e =>
    have hcut := hj e he
    have hlen := (List.getElem?_eq_some_iff.mp he).1
    have hblock : Sorted comparator.compare Prod.fst (content e.2) := by
      have hsub := List.pairwise_flatMap.mp h.sorted
      exact hsub.1 e (List.mem_of_getElem? he)
    have hsplit : ix.flatMap (fun e => content e.2) = ((ix.take i).flatMap (fun e => content e.2) ++
        (content e.2).take j) ++ ((content e.2).drop j ++ (ix.drop (i + 1)).flatMap fun e => content e.2) := by
      rw [Frames.flatMap_split (fun e => content e.2) he, List.append_assoc, ← List.append_assoc ((content e.2).take j),
        List.take_append_drop]
    rw [hsplit, cut_append, List.length_append, List.length_take, Nat.min_eq_left (hcut ▸ cut_le _ _)]
    · rfl
    · intro x hx
      rcases List.mem_append.mp hx with hx | hx
      · exact hbefore x hx
      · rw [hcut, take_cut] at hx
        have hx' : x ∈ (content e.2).takeWhile fun e => entryLt comparator e target := hx
        exact (List.mem_takeWhile_imp hx' :)
    · intro x hx
      rcases List.mem_append.mp hx with hx | hx
      · rw [hcut, drop_cut] at hx
        exact initial_below hblock target x hx
      · -- a later block lies behind the key of this one
        obtain ⟨e', he', hx⟩ := List.mem_flatMap.mp hx
        obtain ⟨k, hk⟩ := List.mem_iff_getElem?.mp he'
        rw [List.getElem?_drop] at hk
        have hlt : comparator.compare e.1 x.1 = .lt := by
          obtain ⟨hi', rfl⟩ := List.getElem?_eq_some_iff.mp he
          obtain ⟨hk', rfl⟩ := List.getElem?_eq_some_iff.mp hk
          exact List.pairwise_iff_getElem.mp h.lower i (i + 1 + k) hi' hk' (by omega) x hx
        have hge : entryLt comparator e target = false :=
          getElem?_cut_le (D := fun e => entryLt comparator e target) hix (hi ▸ le_rfl) he
        refine decide_eq_false fun hxt => ?_
        exact of_decide_eq_false hge (Std.TransCmp.lt_trans hlt hxt)

theorem Stands.lt_length {p : ℕ} (h : Stands comparator index data ix content p t)
    (hp : p < (ix.flatMap fun e => content e.2).length) : ∃ i j e, Between comparator index data ix content i j t ∧
      ix[i]? = some e ∧ j < (content e.2).length ∧ p = blockOff ix content i + j := by
  obtain ⟨i, j, hbetween, rfl, hj⟩ := h
  rcases lt_or_ge i ix.length with hi | hi
  · have he := List.getElem?_eq_getElem hi
    exact ⟨i, j, _, hbetween, he, hj _ he, rfl⟩
  · obtain ⟨rfl, rfl, -⟩ := hbetween.at_end hi
    rw [blockOff_end] at hp
    exact absurd hp (lt_irrefl _)

theorem Stands.current {p : ℕ} (h : Stands comparator index data ix content p t) :
    t.current? data = (ix.flatMap fun e => content e.2)[p]? := by
  obtain ⟨i, j, hbetween, rfl, hj⟩ := h
  rcases lt_or_ge i ix.length with hi | hi
  · have he := List.getElem?_eq_getElem hi
    have hdrop := Frames.drop_off (f := fun e : Entry => content e.2) he
    rw [hbetween.current he, ← List.getElem?_drop, blockOff, hdrop, List.getElem?_append_left (hj _ he)]
  · obtain ⟨rfl, rfl, -⟩ := hbetween.at_end hi
    rw [hbetween.current_none hi, List.getElem?_eq_none (by rw [blockOff_end]; exact le_rfl)]

theorem Stands.le {p : ℕ} (h : Stands comparator index data ix content p t) :
    p ≤ (ix.flatMap fun e => content e.2).length := by
  obtain ⟨i, j, hbetween, rfl, hj⟩ := h
  rcases lt_or_ge i ix.length with hi | hi
  · have he := List.getElem?_eq_getElem hi
    have hle := Frames.off_le (fun e : Entry => content e.2) ix (i + 1)
    have hsucc := blockOff_succ content he
    have := hj _ he
    change blockOff ix content (i + 1) ≤ _ at hle
    omega
  · obtain ⟨rfl, rfl, -⟩ := hbetween.at_end hi
    rw [blockOff_end]
    exact le_rfl

/-- A move within the block. -/
theorem Between.moveData (h : Between comparator index data ix content i j t) (he : ix[i]? = some e) {m : Move Slice}
    (hm : Legal (content e.2) j m) :
    Between comparator index data ix content i (place (entryLt comparator) (content e.2) j m) (t.moveData data m) := by
  obtain ⟨d, hd, hhandle, hat⟩ := h.at_block he
  have hmoved := hat.move hm
  refine ⟨⟨h.1.index, ?_, h.1.ok⟩, Or.inr ⟨e, data.move d m, he, ?_, hhandle, hmoved⟩⟩
  · intro d' hd'
    rw [TwoLevel.moveData, hd] at hd'
    obtain rfl := Option.some.inj hd'
    exact ⟨_, hhandle.symm ▸ hmoved⟩
  · rw [TwoLevel.moveData, hd]
    rfl

theorem simulates [Std.TransCmp comparator.compare] (h : Separated comparator ix content)
    (hf : ∀ e ∈ ix, ∃ j, At (entryLt comparator) (content e.2) data (block_function e.2) j)
    (hfuel : ix.length + 1 < fuel) :
    Simulates (entryLt comparator) (ix.flatMap fun e => content e.2) (iterator index data block_function fuel)
      fun s p => ∃ t, s = some t ∧ Stands comparator index data ix content p t where
  le := by
    rintro _ p ⟨t, rfl, hstands⟩
    exact hstands.le
  ok := by
    rintro _ p ⟨t, rfl, i, j, hbetween, -⟩
    show (index.ok t.index_iter && t.data_iter.all data.ok && t.ok) = true
    rw [hbetween.1.index.ok, hbetween.1.dataOk, hbetween.1.ok]
    rfl
  current := by
    rintro _ p ⟨t, rfl, hstands⟩
    exact hstands.current
  move := by
    rintro _ p m ⟨t, rfl, hstands⟩ hm
    obtain ⟨i₀, j₀, hbetween, -⟩ := id hstands
    cases m with
    | seekToFirst =>
      obtain ⟨j, h', hj⟩ := hbetween.1.moveBoth .seekToFirst .seekToFirst trivial (fun _ _ => trivial) hf
      have hzero : j = 0 := by
        rcases Nat.eq_zero_or_pos ix.length with hix | hix
        · exact (h'.at_end hix.le).2.1
        · exact (hj _ (List.getElem?_eq_getElem hix)).choose_spec
      subst hzero
      have hrest : ix.length - 0 < fuel := by omega
      obtain ⟨t', ht', hres⟩ := h'.skipForward hf hrest
      have hplace : blockOff ix content 0 + 0 = 0 := Frames.off_zero (fun e : Entry => content e.2) ix
      have hgoal : Stands comparator index data ix content (blockOff ix content 0 + 0) t' := hres
      rw [hplace] at hgoal
      exact ⟨t', ht', hgoal⟩
    | seekToLast =>
      obtain ⟨j, h', hj⟩ := hbetween.1.moveBoth .seekToLast .seekToLast trivial (fun _ _ => trivial) hf
      have hrest : ix.length - 1 + 1 < fuel := by omega
      obtain ⟨t', ht', hres⟩ := h'.skipBackward hf (Or.inr hrest)
      refine ⟨t', ht', ?_⟩
      rcases Nat.eq_zero_or_pos ix.length with hix | hix
      · have hend : ix.length ≤ place (entryLt comparator) ix i₀ .seekToLast := by rw [hix]; exact Nat.zero_le _
        rw [h'.current_none hend, if_neg (by simp), if_pos hend] at hres
        have hlast : (ix.flatMap fun e => content e.2).length - 1 = (ix.flatMap fun e => content e.2).length := by
          rw [List.length_eq_zero_iff.mp hix]
          rfl
        rw [← hlast] at hres
        exact hres
      · obtain ⟨n, hn⟩ : ∃ n, ix.length = n + 1 := ⟨ix.length - 1, by omega⟩
        have hplace : place (entryLt comparator) ix i₀ (.seekToLast : Move Slice) = n := by
          show ix.length - 1 = n
          omega
        rw [hplace] at h' hj hres
        have he := List.getElem?_eq_getElem (show n < ix.length by omega)
        obtain ⟨j', rfl⟩ := hj _ he
        have hsucc := blockOff_succ content he
        rw [← hn, blockOff_end] at hsucc
        have hlast : (if ((content ix[n].2)[place (entryLt comparator) (content ix[n].2) j'
              (.seekToLast : Move Slice)]?).isSome then
            blockOff ix content n + place (entryLt comparator) (content ix[n].2) j' (.seekToLast : Move Slice)
            else if ix.length ≤ n then (ix.flatMap fun e => content e.2).length else placeBefore ix content n) =
            place (entryLt comparator) (ix.flatMap fun e => content e.2) p (.seekToLast : Move Slice) := by
          simp only [isSome_getElem?, placeBefore, place]
          split_ifs <;> omega
        rw [h'.current he, hlast] at hres
        exact hres
    | seek target =>
      obtain ⟨j, h', hj⟩ := hbetween.1.moveBoth (.seek target) (.seek target) trivial (fun _ _ => trivial) hf
      have hrest : ix.length - place (entryLt comparator) ix i₀ (.seek target) < fuel := by omega
      obtain ⟨t', ht', hres⟩ := h'.skipForward hf hrest
      refine ⟨t', ht', ?_⟩
      have hcut := h.cut_eq target (i := place (entryLt comparator) ix i₀ (.seek target)) (j := j) rfl
        (fun e he => (hj e he).choose_spec) fun hnone => (h'.at_end (List.getElem?_eq_none_iff.mp hnone)).2.1
      rw [← hcut] at hres
      exact hres
    | next =>
      obtain ⟨i, j, e, hbetween, he, hj, rfl⟩ := hstands.lt_length hm
      have h' := hbetween.moveData (m := .next) he hj
      have hrest : ix.length - i < fuel := by omega
      obtain ⟨t', ht', hres⟩ := h'.skipForward hf hrest
      exact ⟨t', ht', hres⟩
    | prev =>
      obtain ⟨i, j, e, hbetween, he, hj, rfl⟩ := hstands.lt_length hm
      have hi := (List.getElem?_eq_some_iff.mp he).1
      have h' := hbetween.moveData (m := .prev) he hj
      have hrest : i + 1 < fuel := by omega
      obtain ⟨t', ht', hres⟩ := h'.skipBackward hf (Or.inr hrest)
      refine ⟨t', ht', ?_⟩
      have hplace : (if ((content e.2)[place (entryLt comparator) (content e.2) j (.prev : Move Slice)]?).isSome then
          blockOff ix content i + place (entryLt comparator) (content e.2) j (.prev : Move Slice)
          else if ix.length ≤ i then (ix.flatMap fun e => content e.2).length else placeBefore ix content i) =
          place (entryLt comparator) (ix.flatMap fun e => content e.2) (blockOff ix content i + j)
            (.prev : Move Slice) := by
        simp only [isSome_getElem?, placeBefore, place]
        split_ifs <;> omega
      rw [h'.current he, hplace] at hres
      exact hres

/-- **Two levels of iterators are one**: with an index whose keys separate the blocks, the iterator is a cursor
in the entries of all the blocks, one block behind the other. -/
theorem at_flatMap [Std.TransCmp comparator.compare] {index_iter : σ} (h : Separated comparator ix content)
    (hindex : At (entryLt comparator) ix index index_iter ix.length)
    (hf : ∀ e ∈ ix, ∃ j, At (entryLt comparator) (content e.2) data (block_function e.2) j)
    (hfuel : ix.length + 1 < fuel) :
    At (entryLt comparator) (ix.flatMap fun e => content e.2) (iterator index data block_function fuel)
      (some (new index_iter)) (ix.flatMap fun e => content e.2).length := by
  refine (simulates h hf hfuel).at ⟨new index_iter, rfl, ix.length, 0, ?_, ?_, ?_⟩
  · exact ⟨⟨hindex, (fun d hd => by cases hd), rfl⟩, Or.inl ⟨rfl, rfl, rfl⟩⟩
  · exact (blockOff_end ix content).symm
  · intro e he
    rw [List.getElem?_eq_none le_rfl] at he
    cases he

end Levels

/-- Three blocks, the second of them empty. -/
theorem at_flatMap_three : ∃ content : Slice → List Entry,
    At (entryLt bytewiseComparator) [([1], [7]), ([2], [8]), ([4], [9])]
      (iterator (ofList (entryLt bytewiseComparator)) (ofList (entryLt bytewiseComparator))
        (fun handle => (content handle, 0)) 5)
      (some (new ([([2], [0]), ([3], [1]), ([5], [2])], 3))) 3 := by
  refine ⟨fun handle => if handle = [0] then [([1], [7]), ([2], [8])] else if handle = [2] then [([4], [9])] else [],
    ?_⟩
  have h : Separated bytewiseComparator [([2], [0]), ([3], [1]), ([5], [2])]
      (fun handle => if handle = [0] then [([1], [7]), ([2], [8])] else if handle = [2] then [([4], [9])] else []) :=
    ⟨by decide, by decide, by decide, by decide⟩
  exact at_flatMap h (at_ofList (by decide)) (fun _ _ => ⟨0, at_ofList (Nat.zero_le _)⟩) (by decide)

end TwoLevel

end Leveldb
