import WorldToPE.Geo.GeoLoops
import WorldToPE.Lib.Tally

/-!
# WorldToPE.Geo.CountReplace — `countBlocks` and `replaceBlocks` on a map of blocks

Both functions pass over the cells of a box.  On an area that is a map of blocks the one returns how often
each key occurs in the box, and the other puts one block in the place of all that match a key; that it
reads and writes the same cells does no harm, since it meets each cell once.

* `countAll_ok`, `replaceAll_ok`: the two passes over any list of cells.
* `Recount`: the numbers before and after a replacement fit together.
* `recount_iff`: when they do; `recount`: on an area that is a map of blocks they do.
-/

namespace WorldToPE

open Java Run Tally

/-- The key of a block: both numbers as `short`s. -/
def Block.key (b : Block) : MaterialKey := ⟨b.type.toInt16, b.data.toInt16⟩

namespace GeoUtils

/-- The keys that `replaceBlocks` replaces. -/
def Hit (fromKey k : MaterialKey) : Prop := fromKey.Matches k.typeId k.damage

instance (fromKey : MaterialKey) : DecidablePred (Hit fromKey) := fun k =>
  inferInstanceAs (Decidable (fromKey.Matches k.typeId k.damage))

abbrev BlockCounts := Std.HashMap MaterialKey MaterialCount

def countValue (m : MaterialCount) : ℤ := m.count.toInt

/-- The sum of the counts of the keys with a property. -/
def total (counts : BlockCounts) (p : MaterialKey → Bool) : ℤ :=
  ((counts.toList.filter fun e => p e.1).map fun e => countValue e.2).sum

/-- The count of a key, `0` if the map does not have it. -/
def countOf (counts : BlockCounts) (k : MaterialKey) : ℤ := occurrences countValue counts k

/-- The counts of the blocks in a box, the number `n` of blocks replaced and the counts after that fit
together. -/
structure Recount (counts counts' : BlockCounts) (n : Int32) (fromKey toKey : MaterialKey) : Prop where
  replaced : n.toInt = total counts (fun k => Hit fromKey k)
  gone : ∀ k, Hit fromKey k → countOf counts' k = 0
  added : countOf counts' toKey = countOf counts toKey + n.toInt
  others : ∀ k, ¬ Hit fromKey k → k ≠ toKey → countOf counts' k = countOf counts k

/-! ## The passes -/

section Passes

variable {σ : Type} {mgr : AreaBlockAccess σ} (L : AreaLaws mgr)

/-- The keys of the blocks at a list of cells. -/
def keysAt (s : σ) (cells : List Pos) : List MaterialKey := cells.map fun c => (L.blocks s c).key

theorem counts_counted {counts : BlockCounts} {l : List MaterialKey} (h : Counts countValue counts l)
    (hlen : l.length + 1 < 2 ^ 31) (k : MaterialKey) :
    Counts countValue (counted counts k) (l ++ [k]) := by
  have hone : (1 : Int32).toInt = 1 := rfl
  have hk := h k
  have hle := List.count_le_length (a := k) (l := l)
  unfold counted
  cases hget : counts[k]? with
  | none =>
    rw [hget, Option.map_none] at hk
    have hnot : k ∉ l := by
      intro hmem
      rw [if_pos hmem] at hk
      cases hk
    refine h.insert ?_
    rw [List.count_eq_zero_of_not_mem hnot]
    rfl
  | some old =>
    rw [hget, Option.map_some] at hk
    have hold : old.count.toInt = l.count k := by
      by_cases hmem : k ∈ l
      · rw [if_pos hmem] at hk
        exact Option.some.inj hk
      · rw [if_neg hmem] at hk
        cases hk
    refine h.insert ?_
    show (old.count + 1).toInt = _
    rw [toInt_add_of_fits] <;> rw [hone, hold] <;> omega

/-- **Counting the cells of a list** changes nothing and counts their keys. -/
theorem countAll_ok {cells : List Pos} (hc : ∀ c ∈ cells, L.InArea c) {s : σ} (hs : L.Valid s)
    {counts : BlockCounts} {l : List MaterialKey} (hcounts : Counts countValue counts l)
    (hlen : l.length + cells.length < 2 ^ 31) :
    ∃ counts' s', cells.foldlM (countAt mgr) counts s = .ok counts' s' ∧ L.Valid s' ∧
      L.blocks s' = L.blocks s ∧ Counts countValue counts' (l ++ keysAt L s cells) := by
  induction cells generalizing s counts l with
  | nil => exact ⟨counts, s, rfl, hs, rfl, by simpa [keysAt] using hcounts⟩
  | cons c cells ih =>
    rw [List.length_cons] at hlen
    obtain ⟨s1, h1, hv1, hb1⟩ := L.getBlockTypeId hs (hc c List.mem_cons_self)
    obtain ⟨s2, h2, hv2, hb2⟩ := L.getBlockData hv1 (hc c List.mem_cons_self)
    rw [hb1] at h2
    have hround : countAt mgr counts c s = .ok (counted counts (L.blocks s c).key) s2 := by
      rw [countAt, bind_of_ok h1, bind_of_ok h2]
      rfl
    obtain ⟨counts', s', h', hv', hb', hcounts'⟩ := ih
      (fun d hd => hc d (List.mem_cons_of_mem _ hd)) hv2
      (counts_counted hcounts (by omega) (L.blocks s c).key)
      (by rw [List.length_append, List.length_singleton]; omega)
    have hsame : L.blocks s2 = L.blocks s := hb2.trans hb1
    refine ⟨counts', s', by rw [List.foldlM_cons, bind_of_ok hround, h'], hv', hb'.trans hsame, ?_⟩
    rw [List.append_assoc] at hcounts'
    simpa [keysAt, hsame] using hcounts'

/-- The round of `replaceBlocks` at one cell. -/
theorem replaceAt_ok (fromKey toKey : MaterialKey) {d : Pos} (hc : L.InArea d) (hk : L.Kept d) {s : σ}
    (hs : L.Valid s) (n : Int32) : ∃ s', replaceAt mgr fromKey toKey n d s =
      .ok (if Hit fromKey (L.blocks s d).key then n + 1 else n) s' ∧ L.Valid s' ∧
        ∀ c, L.blocks s' c =
          if c = d ∧ Hit fromKey (L.blocks s d).key then L.stored toKey.block else L.blocks s c := by
  obtain ⟨s1, h1, hv1, hb1⟩ := L.getBlockTypeId hs hc
  obtain ⟨s2, h2, hv2, hb2⟩ := L.getBlockData hv1 hc
  rw [hb1] at h2
  have hsame : L.blocks s2 = L.blocks s := hb2.trans hb1
  rw [replaceAt, bind_of_ok h1, bind_of_ok h2, visit]
  by_cases hit : Hit fromKey (L.blocks s d).key
  · have hmatch : fromKey.Matches (L.blocks s d).type.toInt16 (L.blocks s d).data.toInt16 := hit
    obtain ⟨s3, h3, hv3, hb3⟩ := put_ok L hv2 toKey.block hc
    refine ⟨s3, ?_, hv3, fun c => ?_⟩
    · rw [if_pos hit, if_pos hmatch, bind_of_ok h3]
      rfl
    · rw [hb3 c, hsame]
      by_cases hcd : c = d
      · rw [if_pos ⟨hcd, hk⟩, if_pos ⟨hcd, hit⟩]
      · rw [if_neg fun h => hcd h.1, if_neg fun h => hcd h.1]
  · have hmatch : ¬ fromKey.Matches (L.blocks s d).type.toInt16 (L.blocks s d).data.toInt16 := hit
    refine ⟨s2, ?_, hv2, fun c => ?_⟩
    · rw [if_neg hit, if_neg hmatch]
      rfl
    · rw [if_neg fun h => hit h.2, hsame]

/-- **Replacing over a list of distinct cells**: the blocks that match are replaced, and counted. -/
theorem replaceAll_ok (fromKey toKey : MaterialKey) {cells : List Pos} (hd : cells.Nodup)
    (hc : ∀ c ∈ cells, L.InArea c) (hk : ∀ c ∈ cells, L.Kept c) {s : σ} (hs : L.Valid s) (n : Int32) :
    ∃ s', cells.foldlM (replaceAt mgr fromKey toKey) n s =
        .ok (n + Int32.ofNat ((keysAt L s cells).countP fun k => Hit fromKey k)) s' ∧ L.Valid s' ∧
      ∀ c, L.blocks s' c =
        if c ∈ cells ∧ Hit fromKey (L.blocks s c).key then L.stored toKey.block else L.blocks s c := by
  induction cells generalizing s n with
  | nil => exact ⟨s, by simp [keysAt], hs, fun c => by simp⟩
  | cons d cells ih =>
    obtain ⟨hnot, hd⟩ := List.nodup_cons.mp hd
    obtain ⟨s3, h3, hv3, hb3⟩ := replaceAt_ok L fromKey toKey (hc d List.mem_cons_self)
      (hk d List.mem_cons_self) hs n
    obtain ⟨s', h', hv', hb'⟩ := ih hd (fun c h => hc c (List.mem_cons_of_mem _ h))
      (fun c h => hk c (List.mem_cons_of_mem _ h)) hv3
      (if Hit fromKey (L.blocks s d).key then n + 1 else n)
    -- the other cells are still to come, with the blocks they had
    have hrest : ∀ c ∈ cells, L.blocks s3 c = L.blocks s c := by
      intro c hcm
      rw [hb3 c, if_neg]
      rintro ⟨rfl, -⟩
      exact hnot hcm
    have hkeys : keysAt L s3 cells = keysAt L s cells :=
      List.map_congr_left fun c hcm => by rw [hrest c hcm]
    refine ⟨s', ?_, hv', fun c => ?_⟩
    · rw [List.foldlM_cons, bind_of_ok h3, h', hkeys]
      have hcons : keysAt L s (d :: cells) = (L.blocks s d).key :: keysAt L s cells := rfl
      rw [hcons, List.countP_cons]
      by_cases hit : Hit fromKey (L.blocks s d).key
      · rw [if_pos hit, if_pos (by simpa using hit), Nat.add_comm _ 1, Int32.ofNat_add,
          ← Int32.add_assoc]
        rfl
      · rw [if_neg hit, if_neg (by simpa using hit), Nat.add_zero]
    · rw [hb' c]
      by_cases hcd : c = d
      · subst hcd
        rw [if_neg fun h => hnot h.1, hb3 c]
        simp
      · have hsame : L.blocks s3 c = L.blocks s c := by rw [hb3 c, if_neg fun h => hcd h.1]
        simp only [hsame, List.mem_cons, hcd, false_or]

/-! ## The numbers before and after -/

theorem total_eq {counts : BlockCounts} {l : List MaterialKey} (h : Counts countValue counts l)
    (p : MaterialKey → Bool) : total counts p = l.countP p :=
  h.sum_filter p

/-- `toKey` can be stored, and is read back as it was set. -/
def Storable (toKey : MaterialKey) : Prop := (L.stored toKey.block).key = toKey

/-- The keys after a replacement. -/
theorem keysAt_replaced {fromKey toKey : MaterialKey} (hto : Storable L toKey) {cells : List Pos}
    {s s' : σ} (h : ∀ c, L.blocks s' c =
      if c ∈ cells ∧ Hit fromKey (L.blocks s c).key then L.stored toKey.block else L.blocks s c) :
    keysAt L s' cells = (keysAt L s cells).map (replaced (Hit fromKey) toKey) := by
  unfold keysAt
  rw [List.map_map]
  refine List.map_congr_left fun c hc => ?_
  show (L.blocks s' c).key = replaced (Hit fromKey) toKey (L.blocks s c).key
  rw [h c, replaced]
  by_cases hit : Hit fromKey (L.blocks s c).key
  · rw [if_pos ⟨hc, hit⟩, if_pos hit, hto]
  · rw [if_neg fun h => hit h.2, if_neg hit]

/-- **When the numbers fit together**: the keys counted before, `l`, and those that were replaced, `l₁`, are as
often the same, except for the keys that are replaced. -/
theorem recount_iff {fromKey toKey : MaterialKey} (hne : ¬ Hit fromKey toKey) {counts counts' : BlockCounts}
    {l l₁ : List MaterialKey} (h : Counts countValue counts l)
    (h' : Counts countValue counts' (l₁.map (replaced (Hit fromKey) toKey))) (hlen : l.length = l₁.length)
    {n : Int32} (hn : n.toInt = l₁.countP fun k => Hit fromKey k) :
    Recount counts counts' n fromKey toKey ↔ ∀ k, ¬ Hit fromKey k → l.count k = l₁.count k := by
  have hafter : ∀ k, countOf counts' k = ((l₁.map (replaced (Hit fromKey) toKey)).count k : ℤ) :=
    h'.occurrences_eq
  have hbefore : ∀ k, countOf counts k = (l.count k : ℤ) := h.occurrences_eq
  constructor
  · intro hre k hk
    by_cases hto : k = toKey
    · have hadded := hre.added
      rw [hafter, hbefore, hn, count_replaced_to l₁ hne] at hadded
      push_cast at hadded
      rw [hto]
      omega
    · have hother := hre.others k hk hto
      rw [hafter, hbefore, count_replaced_other l₁ hk hto] at hother
      exact (Int.ofNat_inj.mp hother).symm
  · intro hsame
    have hhit : (l.countP fun k => Hit fromKey k) = l₁.countP fun k => Hit fromKey k :=
      countP_eq_of_count_eq hlen (fun k hk => hsame k (by simpa using hk))
    refine ⟨?_, fun k hit => ?_, ?_, fun k hit hk => ?_⟩
    · rw [hn, total_eq h, ← hhit]
    · rw [hafter, count_replaced_of l₁ hne hit]
      rfl
    · rw [hafter, hbefore, hn, count_replaced_to l₁ hne, hsame _ hne]
      push_cast
      rfl
    · rw [hafter, hbefore, count_replaced_other l₁ hit hk, hsame k hit]

/-- Replacing, counting and replacing again. -/
theorem replaceCount_ok {fromKey toKey : MaterialKey} (hto : Storable L toKey) (hne : ¬ Hit fromKey toKey)
    {cells : List Pos} (hd : cells.Nodup) (hc : ∀ c ∈ cells, L.InArea c) (hk : ∀ c ∈ cells, L.Kept c)
    (hlen : cells.length < 2 ^ 31) {s : σ} (hs : L.Valid s) :
    ∃ n s₂ counts' s₃ s₄, cells.foldlM (replaceAt mgr fromKey toKey) 0 s = .ok n s₂ ∧
      cells.foldlM (countAt mgr) ∅ s₂ = .ok counts' s₃ ∧
      cells.foldlM (replaceAt mgr fromKey toKey) 0 s₃ = .ok 0 s₄ ∧
      n.toInt = ((keysAt L s cells).countP fun k => Hit fromKey k) ∧
      Counts countValue counts' ((keysAt L s cells).map (replaced (Hit fromKey) toKey)) ∧
      L.Valid s₂ ∧ ∀ c, c ∉ cells → L.blocks s₂ c = L.blocks s c := by
  obtain ⟨s2, h2, hv2, hb2⟩ := replaceAll_ok L fromKey toKey hd hc hk hs 0
  obtain ⟨counts', s3, h3, hv3, hb3, hcounts'⟩ :=
    countAll_ok L hc hv2 counts_empty (by simpa using hlen)
  obtain ⟨s4, h4, -, -⟩ := replaceAll_ok L fromKey toKey hd hc hk hv3 0
  -- counting leaves the blocks as they are
  have hkeys3 : keysAt L s3 cells = keysAt L s2 cells := by rw [keysAt, keysAt, hb3]
  rw [hkeys3] at h4
  rw [List.nil_append] at hcounts'
  set l := keysAt L s cells with hl
  have hl' : keysAt L s2 cells = l.map (replaced (Hit fromKey) toKey) := keysAt_replaced L hto hb2
  have hlength : l.length = cells.length := by simp [hl, keysAt]
  have hcountP := List.countP_le_length (p := fun k => decide (Hit fromKey k)) (l := l)
  have hn : (0 + Int32.ofNat (l.countP fun k => Hit fromKey k)).toInt =
      l.countP fun k => Hit fromKey k := by
    rw [Int32.zero_add, Int32.toInt_ofNat_of_lt (by omega)]
  -- nothing is left to replace
  have hzero : (keysAt L s2 cells).countP (fun k => Hit fromKey k) = 0 := by
    rw [hl', List.countP_eq_zero]
    intro k hk
    obtain ⟨k', -, rfl⟩ := List.mem_map.mp hk
    simpa using not_replaced hne k'
  rw [hzero] at h4
  rw [hl'] at hcounts'
  refine ⟨_, s2, counts', s3, s4, h2, h3, h4, hn, hcounts', hv2, fun c hcm => ?_⟩
  rw [hb2 c, if_neg fun h => hcm h.1]

/-- **Counting and replacing agree** on any list of distinct cells. -/
theorem recount {fromKey toKey : MaterialKey} (hto : Storable L toKey) (hne : ¬ Hit fromKey toKey)
    {cells : List Pos} (hd : cells.Nodup) (hc : ∀ c ∈ cells, L.InArea c) (hk : ∀ c ∈ cells, L.Kept c)
    (hlen : cells.length < 2 ^ 31) {s : σ} (hs : L.Valid s) :
    ∃ counts s₁ n s₂ counts' s₃ s₄,
      cells.foldlM (countAt mgr) ∅ s = .ok counts s₁ ∧
      cells.foldlM (replaceAt mgr fromKey toKey) 0 s₁ = .ok n s₂ ∧
      cells.foldlM (countAt mgr) ∅ s₂ = .ok counts' s₃ ∧
      cells.foldlM (replaceAt mgr fromKey toKey) 0 s₃ = .ok 0 s₄ ∧
      total counts (fun _ => true) = cells.length ∧ Recount counts counts' n fromKey toKey ∧
      L.Valid s₂ ∧ ∀ c, c ∉ cells → L.blocks s₂ c = L.blocks s c := by
  obtain ⟨counts, s1, h1, hv1, hb1, hcounts⟩ := countAll_ok L hc hs counts_empty (by simpa using hlen)
  obtain ⟨n, s2, counts', s3, s4, h2, h3, h4, hn, hcounts', hv2, hframe⟩ :=
    replaceCount_ok L hto hne hd hc hk hlen hv1
  have hkeys1 : keysAt L s1 cells = keysAt L s cells := by rw [keysAt, keysAt, hb1]
  rw [hkeys1] at hn hcounts'
  rw [List.nil_append] at hcounts
  rw [hb1] at hframe
  refine ⟨counts, s1, n, s2, counts', s3, s4, h1, h2, h3, h4, ?_,
    (recount_iff hne hcounts hcounts' rfl hn).mpr fun _ _ => rfl, hv2, hframe⟩
  rw [total_eq hcounts, List.countP_true, keysAt, List.length_map]

end Passes

end GeoUtils

end WorldToPE
