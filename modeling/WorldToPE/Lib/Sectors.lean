import WorldToPE.Lib.JavaArray

/-!
# WorldToPE.Lib.Sectors — a first-fit allocator over a table of free sectors

A table of booleans says which sectors of a device are free.  The first `header` sectors are never
given away, and every owner `k` holds one extent `runs k`, a run of consecutive sectors.

* `Exact`: the table says of every sector exactly whether it is held.  `Exact.release`,
  `Exact.occupy` and `Exact.grow` are the three changes of an allocator.
* `firstFit`: the scan for a run of free sectors, and `firstFit_spec`: it finds one if there is one.
* `Exact.length_le_of_noRoom`: without room for a run of sectors the table is short.
-/

namespace Sectors

open Java (overwrite length_overwrite getElem?_overwrite)

/-- A run of consecutive sectors. -/
@[ext] structure Extent where
  start : ℕ
  count : ℕ
deriving DecidableEq, Repr

instance : Membership ℕ Extent := ⟨fun e s => e.start ≤ s ∧ s < e.start + e.count⟩

theorem mem_def {s : ℕ} {e : Extent} : s ∈ e ↔ e.start ≤ s ∧ s < e.start + e.count := Iff.rfl

theorem not_mem_of_count {e : Extent} (h : e.count = 0) (s : ℕ) : s ∉ e := by
  rw [mem_def]
  omega

/-- Two runs that share no sector lie one behind the other. -/
theorem apart_of_disjoint {e f : Extent} (he : e.count ≠ 0) (hf : f.count ≠ 0)
    (h : ∀ s, s ∈ e → s ∉ f) : e.start + e.count ≤ f.start ∨ f.start + f.count ≤ e.start := by
  have h1 := h e.start
  have h2 := h f.start
  simp only [mem_def] at h1 h2
  omega

/-! ## The table -/

variable {κ : Type} {header : ℕ} {runs : κ → Extent} {free : List Bool}

/-- The table after the sectors of an extent were marked. -/
def mark (free : List Bool) (e : Extent) (b : Bool) : List Bool :=
  overwrite free e.start (List.replicate e.count b)

theorem length_mark {e : Extent} (he : e.start + e.count ≤ free.length) (b : Bool) :
    (mark free e b).length = free.length := by
  rw [mark, length_overwrite (by omega), List.length_replicate]
  omega

theorem getElem?_mark {e : Extent} (he : e.start + e.count ≤ free.length) (b : Bool) (s : ℕ) :
    (mark free e b)[s]? = some false ↔ s ∈ e ∧ b = false ∨ s ∉ e ∧ free[s]? = some false := by
  rw [mark, getElem?_overwrite (by omega), List.length_replicate, List.getElem?_replicate]
  by_cases hs : e.start ≤ s ∧ s < e.start + e.count
  · rw [if_pos hs, if_pos (by omega)]
    simp [mem_def, hs]
  · rw [if_neg hs]
    simp only [mem_def, hs, false_and, not_false_eq_true, true_and, false_or]

/-- A table is determined by its length and the sectors that are not free. -/
theorem table_ext {free' : List Bool} (hlen : free.length = free'.length)
    (h : ∀ s : ℕ, free[s]? = some false ↔ free'[s]? = some false) : free = free' := by
  apply List.ext_getElem hlen
  intro s h1 h2
  have hs := h s
  rw [List.getElem?_eq_getElem h1, List.getElem?_eq_getElem h2, Option.some.injEq,
    Option.some.injEq] at hs
  exact Bool.eq_iff_iff.mpr (by simpa using not_congr hs)

/-- **The table is exact**: the runs lie behind the header and inside the table, no two share a
sector, and what is not free is the header and the runs. -/
structure Exact (header : ℕ) (runs : κ → Extent) (free : List Bool) : Prop where
  header_le : header ≤ free.length
  inside : ∀ k, (runs k).count ≠ 0 →
    header ≤ (runs k).start ∧ (runs k).start + (runs k).count ≤ free.length
  disjoint : ∀ k l, k ≠ l → ∀ s, s ∈ runs k → s ∉ runs l
  used : ∀ s, free[s]? = some false ↔ s < header ∨ ∃ k, s ∈ runs k

namespace Exact

theorem le_length (h : Exact header runs free) {k : κ} {s : ℕ} (hs : s ∈ runs k) :
    header ≤ s ∧ s < free.length := by
  rw [mem_def] at hs
  have := h.inside k (by omega)
  omega

theorem not_mem_of_free (h : Exact header runs free) {s : ℕ} (hs : free[s]? = some true) (k : κ) :
    s ∉ runs k := by
  intro hk
  have hused := (h.used s).mpr (.inr ⟨k, hk⟩)
  rw [hs] at hused
  cases hused

variable [DecidableEq κ]

theorem mem_update {k l : κ} {e : Extent} {s : ℕ} :
    s ∈ Function.update runs k e l ↔ l = k ∧ s ∈ e ∨ l ≠ k ∧ s ∈ runs l := by
  rcases eq_or_ne l k with rfl | hne
  · simp
  · simp [hne]

/-- Another extent for one owner, in a table that changes accordingly. -/
theorem replace (h : Exact header runs free) {k : κ} {e : Extent} {free' : List Bool}
    (hlen : free.length ≤ free'.length)
    (hin : e.count ≠ 0 → header ≤ e.start ∧ e.start + e.count ≤ free'.length)
    (hdis : ∀ l, l ≠ k → ∀ s, s ∈ e → s ∉ runs l)
    (hused : ∀ s, free'[s]? = some false ↔ s ∈ e ∨ free[s]? = some false ∧ s ∉ runs k) :
    Exact header (Function.update runs k e) free' where
  header_le := h.header_le.trans hlen
  inside l hl := by
    rcases eq_or_ne l k with rfl | hne
    · rw [Function.update_self] at hl ⊢
      exact hin hl
    · rw [Function.update_of_ne hne] at hl ⊢
      have := h.inside l hl
      omega
  disjoint l m hlm s hl hm := by
    rcases mem_update.mp hl with ⟨rfl, h1⟩ | ⟨hlk, h1⟩ <;>
      rcases mem_update.mp hm with ⟨rfl, h2⟩ | ⟨hmk, h2⟩
    · exact hlm rfl
    · exact hdis m hmk s h1 h2
    · exact hdis l hlk s h2 h1
    · exact h.disjoint l m hlm s h1 h2
  used s := by
    rw [hused, h.used]
    constructor
    · rintro (he | ⟨hs | ⟨l, hl⟩, hk⟩)
      · exact .inr ⟨k, mem_update.mpr (.inl ⟨rfl, he⟩)⟩
      · exact .inl hs
      · exact .inr ⟨l, mem_update.mpr (.inr ⟨fun hlk => hk (hlk ▸ hl), hl⟩)⟩
    · rintro (hs | ⟨l, hl⟩)
      · refine .inr ⟨.inl hs, fun hk => ?_⟩
        have := h.le_length hk
        omega
      · rcases mem_update.mp hl with ⟨-, he⟩ | ⟨hlk, hl⟩
        · exact .inl he
        · exact .inr ⟨.inr ⟨l, hl⟩, h.disjoint l k hlk s hl⟩

/-- Giving an extent back. -/
theorem release (h : Exact header runs free) {k : κ}
    (hk : (runs k).start + (runs k).count ≤ free.length) :
    Exact header (Function.update runs k ⟨0, 0⟩) (mark free (runs k) true) := by
  refine h.replace (length_mark hk true).ge (by simp) (by simp [mem_def]) fun s => ?_
  rw [getElem?_mark hk]
  simp [mem_def, and_comm]

/-- Taking an extent of free sectors. -/
theorem occupy (h : Exact header runs free) {k : κ} (hk : (runs k).count = 0) {e : Extent}
    (he : e.start + e.count ≤ free.length) (hfree : ∀ s, s ∈ e → free[s]? = some true) :
    Exact header (Function.update runs k e) (mark free e false) := by
  have hlen := length_mark he false
  refine h.replace hlen.ge (fun hc => ⟨?_, by omega⟩)
    (fun l _ s hs => h.not_mem_of_free (hfree s hs) l) fun s => ?_
  · by_contra hlt
    have hs := hfree e.start (by rw [mem_def]; omega)
    have hused := (h.used e.start).mpr (.inl (by omega))
    rw [hs] at hused
    cases hused
  · have hn := not_mem_of_count hk s
    rw [getElem?_mark he]
    by_cases hs : s ∈ e <;> simp [hs, hn]

/-- Taking an extent behind the last sector. -/
theorem grow (h : Exact header runs free) {k : κ} (hk : (runs k).count = 0) (n : ℕ) :
    Exact header (Function.update runs k ⟨free.length, n⟩) (free ++ List.replicate n false) := by
  refine h.replace (by simp) (fun _ => ⟨h.header_le, by simp⟩) (fun l _ s hs hl => ?_) fun s => ?_
  · have := (h.le_length hl).2
    simp only [mem_def] at hs
    omega
  · have hn := not_mem_of_count hk s
    rw [List.getElem?_append, List.getElem?_replicate]
    by_cases hs : s < free.length
    · rw [if_pos hs]
      simp [mem_def, hn]
      omega
    · rw [if_neg hs, List.getElem?_eq_none (by omega)]
      simp [mem_def]
      omega

end Exact

/-! ## The scan -/

/-- One sector more: a run of free sectors that is being counted goes on or ends, and a free sector
starts one. -/
def advance (r : Extent) (i : ℕ) (isFree : Bool) : Extent :=
  if r.count ≠ 0 then if isFree then ⟨r.start, r.count + 1⟩ else ⟨r.start, 0⟩
  else if isFree then ⟨i, 1⟩ else r

theorem advance_false (r : Extent) (i : ℕ) : advance r i false = ⟨r.start, 0⟩ := by
  unfold advance
  by_cases h : r.count = 0
  · simp [h, Extent.ext_iff]
  · simp [h]

theorem advance_true_of_zero {r : Extent} (h : r.count = 0) (i : ℕ) :
    advance r i true = ⟨i, 1⟩ := by
  simp [advance, h]

theorem advance_true_of_ne {r : Extent} (h : r.count ≠ 0) (i : ℕ) :
    advance r i true = ⟨r.start, r.count + 1⟩ := by
  simp [advance, h]

/-- The scan over the sectors from `i` on; it stops when the run is long enough. -/
def scan (needed : Int) : List Bool → ℕ → Extent → Extent
  | [], _, r => r
  | f :: fs, i, r =>
    if needed ≤ (advance r i f).count then advance r i f else scan needed fs (i + 1) (advance r i f)

/-- The scan from the first free sector, if there is one. -/
def firstFit (needed : Int) (free : List Bool) : Option Extent :=
  (free.findIdx? id).map fun p => scan needed (free.drop p) p ⟨p, 0⟩

/-- What the scan knows before sector `i`: the run it counts consists of the free sectors that end
there, and it is the longest such run. -/
structure Scanned (free : List Bool) (i : ℕ) (r : Extent) : Prop where
  stop : r.count ≠ 0 → r.start + r.count = i
  isFree : ∀ s, s ∈ r → free[s]? = some true
  longest : ∀ a ≤ i, (∀ s, a ≤ s → s < i → free[s]? ≠ some false) → i ≤ a + r.count

theorem Scanned.advance {i : ℕ} {r : Extent} (h : Scanned free i r) {f : Bool}
    (hf : free[i]? = some f) : Scanned free (i + 1) (advance r i f) := by
  cases f with
  | false =>
    -- the run ends: a window that ends here contains sector `i`
    rw [advance_false]
    refine ⟨fun hc => absurd rfl hc, fun s hs => absurd hs (not_mem_of_count rfl s), ?_⟩
    intro a ha hall
    by_contra hlt
    exact hall i (by omega) (by omega) hf
  | true =>
    have hlong : ∀ a ≤ i + 1, (∀ s, a ≤ s → s < i + 1 → free[s]? ≠ some false) →
        i + 1 ≤ a + (r.count + 1) := by
      intro a ha hall
      rcases Nat.lt_or_ge i a with hia | hia
      · omega
      · have := h.longest a hia fun s h1 h2 => hall s h1 (by omega)
        omega
    by_cases h0 : r.count = 0
    · rw [advance_true_of_zero h0]
      rw [h0] at hlong
      refine ⟨fun _ => rfl, fun s hs => ?_, hlong⟩
      simp only [mem_def] at hs
      obtain rfl : s = i := by omega
      exact hf
    · rw [advance_true_of_ne h0]
      have hstop := h.stop h0
      refine ⟨fun _ => by dsimp only; omega, fun s hs => ?_, hlong⟩
      simp only [mem_def] at hs
      rcases Nat.lt_or_ge s i with hsi | hsi
      · exact h.isFree s (by rw [mem_def]; omega)
      · obtain rfl : s = i := by omega
        exact hf

/-- There is no run of `needed` free sectors among the first `i`. -/
def NoRoom (needed : ℕ) (free : List Bool) (i : ℕ) : Prop :=
  ∀ a, a + needed ≤ i → ∃ s, a ≤ s ∧ s < a + needed ∧ free[s]? = some false

/-- A run that is too short does not fill any window that ends with it. -/
theorem Scanned.noRoom {needed i : ℕ} {r : Extent} (h : Scanned free (i + 1) r)
    (hlt : r.count < needed) (hno : NoRoom needed free i) :
    NoRoom needed free (i + 1) := by
  intro a ha
  rcases Nat.lt_or_ge i (a + needed) with hia | hia
  · by_contra hnone
    have := h.longest a (by omega) fun s h1 h2 h3 => hnone ⟨s, h1, by omega, h3⟩
    omega
  · exact hno a hia

/-- A run of free sectors inside the table that is long enough. -/
structure Found (needed : ℕ) (free : List Bool) (r : Extent) : Prop where
  enough : needed ≤ r.count
  inside : r.start + r.count ≤ free.length
  isFree : ∀ s, s ∈ r → free[s]? = some true

/-- The scan stops with a run that is long enough, or it has seen every window. -/
theorem scan_spec {needed : ℕ} (h0 : 0 < needed) : ∀ (fs : List Bool) {i : ℕ} {r : Extent},
    free.drop i = fs → Scanned free i r → r.count < needed → NoRoom needed free i →
    Found needed free (scan needed fs i r) ∨
      (scan needed fs i r).count < needed ∧ NoRoom needed free free.length
  | [], i, r, hdrop, hr, hlt, hno => by
    have hi : free.length ≤ i := List.drop_eq_nil_iff.mp hdrop
    exact .inr ⟨hlt, fun a ha => hno a (by omega)⟩
  | f :: fs, i, r, hdrop, hr, hlt, hno => by
    have hi : free[i]? = some f := by
      rw [← List.head?_drop, hdrop, List.head?_cons]
    have hlen : i < free.length := (List.getElem?_eq_some_iff.mp hi).1
    have hr' := hr.advance hi
    rw [scan]
    by_cases hbreak : needed ≤ (advance r i f).count
    · have hstop := hr'.stop (by omega)
      rw [if_pos (by exact_mod_cast hbreak)]
      exact .inl ⟨hbreak, by omega, hr'.isFree⟩
    · rw [if_neg (by exact_mod_cast hbreak)]
      have hdrop' : free.drop (i + 1) = fs := by
        rw [← List.tail_drop, hdrop, List.tail_cons]
      exact scan_spec h0 fs hdrop' hr' (by omega) (hr'.noRoom (by omega) hno)

/-- **First fit**: the scan finds a run of free sectors if there is one. -/
theorem firstFit_spec {needed : ℕ} (h0 : 0 < needed) (free : List Bool) :
    (∃ r, firstFit needed free = some r ∧ Found needed free r) ∨
      (∀ r, firstFit needed free = some r → r.count < needed) ∧
        NoRoom needed free free.length := by
  unfold firstFit
  cases hidx : free.findIdx? id with
  | none =>
    rw [List.findIdx?_eq_none_iff] at hidx
    refine .inr ⟨by simp, fun a ha => ⟨a, le_rfl, by omega, ?_⟩⟩
    have hlt : a < free.length := by omega
    have hf := hidx free[a] (List.getElem_mem hlt)
    rw [List.getElem?_eq_getElem hlt]
    simpa using hf
  | some p =>
    rw [List.findIdx?_eq_some_iff_getElem] at hidx
    obtain ⟨hp, -, hbefore⟩ := hidx
    have hused : ∀ s < p, free[s]? = some false := by
      intro s hs
      rw [List.getElem?_eq_getElem (by omega)]
      simpa using hbefore s hs
    have hstart : Scanned free p ⟨p, 0⟩ := by
      refine ⟨fun hc => absurd rfl hc, fun s hs => absurd hs (not_mem_of_count rfl s), ?_⟩
      intro a ha hall
      by_contra hlt
      exact hall a le_rfl (by omega) (hused a (by omega))
    have hno : NoRoom needed free p := fun a ha => ⟨a, le_rfl, by omega, hused a (by omega)⟩
    rcases scan_spec h0 _ rfl hstart h0 hno with hfound | ⟨hlt, hno⟩
    · exact .inl ⟨_, rfl, hfound⟩
    · exact .inr ⟨fun r hr => Option.some.inj hr ▸ hlt, hno⟩

/-! ## How long a table without room can be -/

/-- **Bound.**  Without room for a run of `needed` sectors, every window of this size meets the header
or a run; the windows that meet a run of at most `c` sectors start in `c + (needed - 1)` places. -/
theorem Exact.length_le_of_noRoom [Fintype κ] [DecidableEq κ] (h : Exact header runs free)
    {needed c : ℕ} (hno : NoRoom needed free free.length) (hcount : ∀ k, (runs k).count ≤ c) {j : κ}
    (hj : (runs j).count = 0) :
    free.length ≤ header + (Fintype.card κ - 1) * (c + (needed - 1)) + (needed - 1) := by
  let starts (k : κ) := Finset.Ico ((runs k).start - (needed - 1)) ((runs k).start + (runs k).count)
  have hsub : Finset.range (free.length - (needed - 1)) ⊆
      Finset.range header ∪ (Finset.univ.erase j).biUnion starts := by
    intro a ha
    have hlt := Finset.mem_range.mp ha
    obtain ⟨s, h1, h2, hs⟩ := hno a (by omega)
    rw [Finset.mem_union, Finset.mem_range]
    rcases (h.used s).mp hs with hlt | ⟨k, hk⟩
    · exact .inl (by omega)
    · rw [mem_def] at hk
      have hne : k ≠ j := by
        rintro rfl
        omega
      refine .inr (Finset.mem_biUnion.mpr ⟨k, Finset.mem_erase.mpr ⟨hne, Finset.mem_univ k⟩, ?_⟩)
      rw [Finset.mem_Ico]
      omega
  have hstarts : ∀ k ∈ Finset.univ.erase j, (starts k).card ≤ c + (needed - 1) := by
    intro k _
    have := hcount k
    rw [Nat.card_Ico]
    omega
  have hcard : (Finset.range header ∪ (Finset.univ.erase j).biUnion starts).card ≤
      header + (Fintype.card κ - 1) * (c + (needed - 1)) := by
    refine (Finset.card_union_le _ _).trans (Nat.add_le_add (Finset.card_range _).le ?_)
    have := Finset.card_biUnion_le_card_mul _ starts _ hstarts
    rwa [Finset.card_erase_of_mem (Finset.mem_univ j), Finset.card_univ] at this
  have hle := (Finset.card_le_card hsub).trans hcard
  rw [Finset.card_range] at hle
  omega

end Sectors
