import Mathlib.Tactic
import Mathlib.Data.List.MinMax
import WorldToPE.Lib.Store

/-!
# WorldToPE.Lib.Versions — numbered versions of the values of a store

A store that keeps several versions of each key: a version has a sequence number and a value, or no
value when it is a deletion.  A reader at number `n` sees the newest version that is not above `n`.

* `read_of_ascending`: a reader at `n` sees the store after the operations up to `n`.
* `newest_append`: when one collection holds the newer versions, it is searched first.
-/

namespace Versions

open Store

variable {K V : Type}

structure Version (K V : Type) where
  key : K
  seq : ℕ
  val : Option V
deriving DecidableEq

/-- No two versions of a key have one number. -/
def Distinct (l : List (Version K V)) : Prop :=
  ∀ v ∈ l, ∀ w ∈ l, v.key = w.key → v.seq = w.seq → v = w

theorem Distinct.of_subset {l kept : List (Version K V)} (hd : Distinct l) (h : ∀ v ∈ kept, v ∈ l) :
    Distinct kept := fun v hv w hw => hd v (h v hv) w (h w hw)

/-- The versions of `l₁` are newer than those of `l₂`. -/
def Newer (l₁ l₂ : List (Version K V)) : Prop := ∀ v ∈ l₁, ∀ w ∈ l₂, v.key = w.key → w.seq < v.seq

/-! ## Numbering operations -/

def ofOp (seq : ℕ) : BatchOp K V → Version K V
  | .put k v => ⟨k, seq, some v⟩
  | .delete k => ⟨k, seq, none⟩

/-- The operation that a version stands for. -/
def toOp (v : Version K V) : BatchOp K V :=
  match v.val with
  | some x => .put v.key x
  | none => .delete v.key

/-- The numbers ascend. -/
def Ascending (l : List (Version K V)) : Prop := l.Pairwise fun v w => v.seq < w.seq

/-- The operations with the numbers from `s` on. -/
def number (s : ℕ) : List (BatchOp K V) → List (Version K V)
  | [] => []
  | op :: ops => ofOp s op :: number (s + 1) ops

@[simp] theorem ofOp_seq (s : ℕ) (op : BatchOp K V) : (ofOp s op).seq = s := by cases op <;> rfl

@[simp] theorem ofOp_key (s : ℕ) (op : BatchOp K V) : (ofOp s op).key = op.key := by cases op <;> rfl

theorem number_append {s : ℕ} (ops ops' : List (BatchOp K V)) :
    number s (ops ++ ops') = number s ops ++ number (s + ops.length) ops' := by
  induction ops generalizing s with
  | nil => rfl
  | cons op ops ih =>
    show ofOp s op :: number (s + 1) (ops ++ ops') = ofOp s op :: (number (s + 1) ops ++ _)
    rw [ih, List.length_cons, show s + 1 + ops.length = s + (ops.length + 1) by omega]

theorem seq_of_mem_number : ∀ {ops : List (BatchOp K V)} {s : ℕ} {v : Version K V}, v ∈ number s ops →
    s ≤ v.seq ∧ v.seq < s + ops.length
  | [], _, _, h => absurd h List.not_mem_nil
  | op :: ops, s, v, h => by
    rcases List.mem_cons.mp h with rfl | h
    · simp
    · have := seq_of_mem_number h
      rw [List.length_cons]
      omega

theorem ascending_number (s : ℕ) (ops : List (BatchOp K V)) : Ascending (number s ops) := by
  induction ops generalizing s with
  | nil => exact List.Pairwise.nil
  | cons op ops ih =>
    refine List.pairwise_cons.mpr ⟨fun w hw => ?_, ih (s + 1)⟩
    have := (seq_of_mem_number hw).1
    rw [ofOp_seq]
    omega

theorem Ascending.distinct {l : List (Version K V)} (h : Ascending l) : Distinct l := by
  have hnodup : (l.map Version.seq).Nodup := by
    unfold List.Nodup
    rw [List.pairwise_map]
    exact h.imp fun hlt => hlt.ne
  exact fun _ hv _ hw _ hseq => List.inj_on_of_nodup_map hnodup hv hw hseq

/-! ## What a reader sees -/

variable [DecidableEq K]

/-- The version is one of `k` that a reader at `n` may see. -/
def Visible (k : K) (n : ℕ) (v : Version K V) : Prop := v.key = k ∧ v.seq ≤ n

instance (k : K) (n : ℕ) : DecidablePred (Visible (V := V) k n) := fun _ =>
  inferInstanceAs (Decidable (_ ∧ _))

/-- The newest version of `k` that a reader at `n` may see. -/
def newest (l : List (Version K V)) (k : K) (n : ℕ) : Option (Version K V) :=
  (l.filter fun v => Visible k n v).argmax Version.seq

def read (l : List (Version K V)) (k : K) (n : ℕ) : Option V := (newest l k n).bind Version.val

section Newest

variable {l l₁ l₂ : List (Version K V)} {k : K} {n : ℕ} {v : Version K V}

theorem newest_eq_none : newest l k n = none ↔ ∀ v ∈ l, v.key = k → n < v.seq := by
  unfold newest
  rw [List.argmax_eq_none, List.filter_eq_nil_iff]
  simp only [decide_eq_true_eq]
  simp only [Visible, not_and, not_le]

theorem newest_some (h : newest l k n = some v) :
    v ∈ l ∧ v.key = k ∧ v.seq ≤ n ∧ ∀ w ∈ l, w.key = k → w.seq ≤ n → w.seq ≤ v.seq := by
  have hv : v ∈ l.filter fun v => Visible k n v := List.argmax_mem h
  obtain ⟨hm, hvis⟩ := List.mem_filter.mp hv
  have hvis' : Visible k n v := of_decide_eq_true hvis
  refine ⟨hm, hvis'.1, hvis'.2, ?_⟩
  intro w hw hk hn
  exact List.le_of_mem_argmax (List.mem_filter.mpr ⟨hw, decide_eq_true ⟨hk, hn⟩⟩) h

theorem newest_eq_some (hd : Distinct l) : newest l k n = some v ↔
    v ∈ l ∧ v.key = k ∧ v.seq ≤ n ∧ ∀ w ∈ l, w.key = k → w.seq ≤ n → w.seq ≤ v.seq := by
  constructor
  · exact newest_some
  · rintro ⟨hv, rfl, hn, hmax⟩
    cases h : newest l v.key n with
    | none => exact absurd (newest_eq_none.mp h v hv rfl) (not_lt.mpr hn)
    | some w =>
      obtain ⟨hw, hk, hwn, hwmax⟩ := newest_some h
      have hseq : w.seq = v.seq := le_antisymm (hmax w hw hk hwn) (hwmax v hv rfl hn)
      rw [hd w hw v hv hk hseq]

/-- The order in which versions are kept plays no part. -/
theorem newest_congr (hd : Distinct l₁) (h : ∀ v, v ∈ l₁ ↔ v ∈ l₂) : newest l₁ k n = newest l₂ k n := by
  have hd₂ : Distinct l₂ := fun v hv w hw => hd v ((h v).mpr hv) w ((h w).mpr hw)
  cases h₁ : newest l₁ k n with
  | none =>
    symm
    rw [newest_eq_none] at h₁ ⊢
    exact fun v hv => h₁ v ((h v).mpr hv)
  | some v =>
    obtain ⟨hv, hk, hn, hmax⟩ := newest_some h₁
    exact ((newest_eq_some hd₂).mpr ⟨(h v).mp hv, hk, hn, fun w hw => hmax w ((h w).mpr hw)⟩).symm

/-- The newer collection is searched first. -/
theorem newest_append (hd : Distinct (l₁ ++ l₂)) (h : Newer l₁ l₂) :
    newest (l₁ ++ l₂) k n = (newest l₁ k n).or (newest l₂ k n) := by
  cases h₁ : newest l₁ k n with
  | none =>
    have hnil : (l₁.filter fun v => Visible k n v) = [] := List.argmax_eq_none.mp h₁
    rw [Option.none_or, newest, List.filter_append, hnil, List.nil_append, newest]
  | some v =>
    obtain ⟨hv, hk, hn, hmax⟩ := newest_some h₁
    rw [Option.some_or, newest_eq_some hd]
    refine ⟨List.mem_append_left _ hv, hk, hn, ?_⟩
    intro w hw hwk hwn
    rcases List.mem_append.mp hw with hw | hw
    · exact hmax w hw hwk hwn
    · exact (h v hv w hw (hk.trans hwk.symm)).le

theorem newest_concat_of_not_visible (h : ¬ Visible k n v) : newest (l ++ [v]) k n = newest l k n := by
  unfold newest
  rw [List.filter_append, List.filter_cons_of_neg (by rwa [decide_eq_true_eq]), List.filter_nil,
    List.append_nil]

theorem newest_concat_of_visible (h : Visible k n v) (hmax : ∀ w ∈ l, w.key = k → w.seq < v.seq) :
    newest (l ++ [v]) k n = some v := by
  unfold newest
  rw [List.filter_append, List.filter_cons_of_pos (by rwa [decide_eq_true_eq]), List.filter_nil,
    List.argmax_concat]
  cases hl : (l.filter fun v => Visible k n v).argmax Version.seq with
  | none => rfl
  | some w =>
    have hw := List.mem_filter.mp (List.argmax_mem hl)
    have hvis : Visible k n w := of_decide_eq_true hw.2
    simp only
    rw [if_pos (hmax w hw.1 hvis.1)]

end Newest

/-! ## A history of operations -/

/-- The effect of an operation on the contents as a function. -/
def applyOp (m : K → Option V) : BatchOp K V → K → Option V
  | .put k v => Function.update m k (some v)
  | .delete k => Function.update m k none

/-- The contents after the operations. -/
def contents (ops : List (BatchOp K V)) : K → Option V := ops.foldl applyOp fun _ => none

section History

variable {k : K}

theorem applyOp_toOp_self (m : K → Option V) (v : Version K V) : applyOp m (toOp v) v.key = v.val := by
  unfold toOp
  cases v.val <;> exact Function.update_self _ _ _

theorem applyOp_toOp_of_ne {m : K → Option V} {v : Version K V} (h : v.key ≠ k) :
    applyOp m (toOp v) k = m k := by
  unfold toOp
  cases v.val <;> exact Function.update_of_ne (Ne.symm h) _ _

/-- **A reader at `n` sees the contents after the operations up to `n`.** -/
theorem read_of_ascending {l : List (Version K V)} (h : Ascending l) (k : K) (n : ℕ) :
    read l k n = contents ((l.filter fun v => v.seq ≤ n).map toOp) k := by
  induction l using List.reverseRecOn with
  | nil => simp [read, newest, contents]
  | append_singleton l v ih =>
    obtain ⟨h₁, -, h₂⟩ := List.pairwise_append.mp h
    have ih := ih h₁
    have hlt (w : Version K V) (hw : w ∈ l) : w.seq < v.seq := h₂ w hw v (List.mem_singleton_self v)
    by_cases hn : v.seq ≤ n
    · rw [List.filter_append, List.filter_cons_of_pos (by simpa using hn), List.filter_nil,
        List.map_append, contents, List.foldl_append]
      show _ = applyOp (contents ((l.filter fun v => v.seq ≤ n).map toOp)) (toOp v) k
      by_cases hk : v.key = k
      · rw [read, newest_concat_of_visible ⟨hk, hn⟩ fun w hw _ => hlt w hw, ← hk, applyOp_toOp_self]
        rfl
      · rw [applyOp_toOp_of_ne hk, ← ih, read, read, newest_concat_of_not_visible fun hv => hk hv.1]
    · -- the last version is above the reader
      rw [List.filter_append, List.filter_cons_of_neg (by simpa using hn), List.filter_nil,
        List.append_nil, ← ih, read, read, newest_concat_of_not_visible fun hv => hn hv.2]

/-- The contents as a function are those of the ordered store. -/
theorem getElem?_applyBatch [Ord K] [Std.TransOrd K] [Std.LawfulEqOrd K] (ops : List (BatchOp K V)) (k : K) :
    (applyBatch (∅ : Std.ExtTreeMap K V) ops)[k]? = contents ops k := by
  induction ops using List.reverseRecOn with
  | nil => simp [applyBatch, contents]
  | append_singleton ops op ih =>
    rw [applyBatch_append, contents, List.foldl_append]
    show (op.apply (applyBatch ∅ ops))[k]? = applyOp (contents ops) op k
    cases op with
    | put a x =>
      rw [BatchOp.apply, getElem?_insert, ih, applyOp, Function.update_apply]
      exact if_congr eq_comm rfl rfl
    | delete a =>
      rw [BatchOp.apply, getElem?_erase, ih, applyOp, Function.update_apply]
      exact if_congr eq_comm rfl rfl

end History

end Versions
