import WorldToPE.Lib.JavaInt
import WorldToPE.Lib.Run

/-!
# WorldToPE.Lib.IntRange — counted loops over `int`s

A loop `for (int i = lo; i < hi; i++)` visits the list `intRange lo hi`, whatever `lo` and `hi` are: its
counter stays below `hi` and so does not overflow.

* `mem_intRange`, `nodup_intRange`, `length_intRange`: the values of the counter.
* `forIn_yield`, `foldlM_flatMap`: a nest of loops without `break` is one fold over its points.
* `toInt_meetStart`, `toInt_meetEnd`, `nonneg_sub_iff`: the range that two ranges have in common, when its
  size is computed in `int`s.
-/

namespace Java

/-- The values of the counter of `for (int i = lo; i < hi; i++)`. -/
def intRange (lo hi : Int32) : List Int32 :=
  (List.range (hi.toInt - lo.toInt).toNat).map fun i => lo + Int32.ofNat i

theorem toInt_add_ofNat {lo hi : Int32} {i : ℕ} (h : i < (hi.toInt - lo.toInt).toNat) :
    (lo + Int32.ofNat i).toInt = lo.toInt + i := by
  have h1 := lo.le_toInt
  have h2 := hi.toInt_lt
  have h3 : (Int32.ofNat i).toInt = (i : ℤ).bmod (2 ^ 32) := by
    rw [← Int32.toInt_toBitVec]
    exact BitVec.toInt_ofNat i
  rw [Int32.toInt_add, h3, Int.add_bmod_bmod]
  exact Int.bmod_eq_of_le (by omega) (by omega)

theorem mem_intRange {lo hi i : Int32} :
    i ∈ intRange lo hi ↔ lo.toInt ≤ i.toInt ∧ i.toInt < hi.toInt := by
  simp only [intRange, List.mem_map, List.mem_range]
  constructor
  · rintro ⟨k, hk, rfl⟩
    rw [toInt_add_ofNat hk]
    omega
  · rintro ⟨h1, h2⟩
    have hk : (i.toInt - lo.toInt).toNat < (hi.toInt - lo.toInt).toNat := by omega
    refine ⟨(i.toInt - lo.toInt).toNat, hk, Int32.toInt_inj.mp ?_⟩
    rw [toInt_add_ofNat hk]
    omega

theorem length_intRange (lo hi : Int32) : (intRange lo hi).length = (hi.toInt - lo.toInt).toNat := by
  simp [intRange]

theorem nodup_intRange (lo hi : Int32) : (intRange lo hi).Nodup := by
  refine (List.nodup_range).map_on fun i hi j hj h => ?_
  have h' := congrArg Int32.toInt h
  rw [toInt_add_ofNat (List.mem_range.mp hi), toInt_add_ofNat (List.mem_range.mp hj)] at h'
  omega

/-- A loop whose bounds are both moved, without overflow. -/
theorem intRange_add {a lo hi : Int32} (h1 : -2 ^ 31 ≤ a.toInt + lo.toInt)
    (h2 : a.toInt + hi.toInt < 2 ^ 31) (hle : lo.toInt ≤ hi.toInt) :
    intRange (a + lo) (a + hi) = (intRange lo hi).map (a + ·) := by
  have hlo : (a + lo).toInt = a.toInt + lo.toInt := toInt_add_of_fits (by omega) (by omega)
  have hhi : (a + hi).toInt = a.toInt + hi.toInt := toInt_add_of_fits (by omega) (by omega)
  have hn : (a + hi).toInt - (a + lo).toInt = hi.toInt - lo.toInt := by omega
  rw [intRange, hn, intRange, List.map_map]
  refine List.map_congr_left fun i _ => ?_
  exact Int32.add_assoc a lo _

/-! ## Nests of loops -/

section Loops

variable {m : Type → Type} [Monad m] [LawfulMonad m] {α β γ : Type}

/-- A loop whose rounds all go on. -/
theorem forIn_yield (l : List α) (f : α → β → m β) (b : β) :
    (forIn l b fun a b => do
      let b' ← f a b
      pure (ForInStep.yield b')) = l.foldlM (fun b a => f a b) b := by
  induction l generalizing b with
  | nil => rfl
  | cons a l ih =>
    rw [List.forIn_cons, List.foldlM_cons, bind_assoc]
    congr 1
    funext b'
    rw [pure_bind]
    exact ih b'

theorem foldlM_flatMap (l : List α) (g : α → List γ) (f : β → γ → m β) (b : β) :
    (l.flatMap g).foldlM f b = l.foldlM (fun b a => (g a).foldlM f b) b := by
  induction l generalizing b with
  | nil => rfl
  | cons a l ih =>
    rw [List.flatMap_cons, List.foldlM_append, List.foldlM_cons]
    congr 1
    funext b'
    exact ih b'

end Loops

/-! ## The common part of two ranges -/

section Meet

/-- Where the common part of two ranges starts. -/
def meetStart (x x' : Int32) : Int32 := if x > x' then x else x'

/-- Where the common part of two ranges ends. -/
def meetEnd (e e' : Int32) : Int32 := if e < e' then e else e'

theorem toInt_meetStart (x x' : Int32) : (meetStart x x').toInt = max x.toInt x'.toInt := by
  unfold meetStart
  have h : x > x' ↔ x'.toInt < x.toInt := Int32.lt_iff_toInt_lt
  by_cases hx : x > x'
  · rw [if_pos hx]
    rw [h] at hx
    omega
  · rw [if_neg hx]
    rw [h] at hx
    omega

theorem toInt_meetEnd (e e' : Int32) : (meetEnd e e').toInt = min e.toInt e'.toInt := by
  unfold meetEnd
  have h : e < e' ↔ e.toInt < e'.toInt := Int32.lt_iff_toInt_lt
  by_cases he : e < e'
  · rw [if_pos he]
    rw [h] at he
    omega
  · rw [if_neg he]
    rw [h] at he
    omega

/-- A start plus the difference to the end is the end, also when the difference overflows. -/
theorem add_sub_self (a b : Int32) : a + (b - a) = b := by
  grind

/-- When the size of the common part is computed as non-negative: the ranges meet or touch, or they are
so far apart that the difference overflows. -/
theorem nonneg_sub_iff {a b : Int32} (h : b.toInt - a.toInt < 2 ^ 31) :
    0 ≤ (b - a).toInt ↔ a.toInt ≤ b.toInt ∨ b.toInt - a.toInt < -2 ^ 31 := by
  have h1 := a.toInt_lt
  have h2 := b.le_toInt
  rw [Int32.toInt_sub, Int.bmod_def]
  split_ifs <;> omega

end Meet

end Java
