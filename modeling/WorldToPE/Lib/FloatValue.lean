import WorldToPE.Lib.JavaFloat
import Mathlib.Tactic

/-!
# WorldToPE.Lib.FloatValue — the numbers that `float`s stand for

A finite `float` is a sign, an exponent and a fraction of 23 binary digits; `toRat` is its exact value.
The cast to `int` drops the fractional part, that is, it rounds towards zero, while an arithmetic shift
rounds down.

* `toInt32_truncates`: what the cast to `int` makes of a number below `2^31`.
* `Truncates.ediv_eq_floor_iff`: when casting and then dividing is the same as dividing and rounding down.
-/

namespace Java

/-! ## Rounding towards zero -/

/-- The integer `n` is `q` without its fractional part. -/
structure Truncates (q : ℚ) (n : ℤ) : Prop where
  of_nonneg : 0 ≤ q → (n : ℚ) ≤ q ∧ q < n + 1
  of_neg : q < 0 → (n : ℚ) - 1 < q ∧ q ≤ n

/-- The numbers below a multiple `w * k ≤ 0` by less than one. -/
def JustBelow (w : ℤ) (q : ℚ) : Prop := ∃ k : ℤ, k ≤ 0 ∧ (w * k : ℚ) - 1 < q ∧ q < w * k

variable {q : ℚ} {n w : ℤ}

section Dividing

variable (h : Truncates q n) (hw : 0 < w)
include h hw

theorem Truncates.lt_ediv : q < w * ((n / w : ℤ) : ℚ) + w := by
  have hdiv : n + 1 ≤ w * (n / w) + w := Int.lt_mul_ediv_self_add hw
  have hdiv' : (n : ℚ) + 1 ≤ w * ((n / w : ℤ) : ℚ) + w := by exact_mod_cast hdiv
  rcases le_or_gt 0 q with h0 | h0
  · linarith [(h.of_nonneg h0).2]
  · linarith [(h.of_neg h0).2]

theorem Truncates.floor_le_ediv : ⌊q / w⌋ ≤ n / w := by
  have hw' : (0 : ℚ) < w := by exact_mod_cast hw
  rw [← Int.lt_add_one_iff, Int.floor_lt, div_lt_iff₀ hw']
  push_cast
  linarith [h.lt_ediv hw]

/-- **Casting, then dividing**: the result is the quotient rounded down, except just below a multiple
of the divisor that is not positive, where it is more. -/
theorem Truncates.ediv_eq_floor_iff : n / w = ⌊q / w⌋ ↔ ¬JustBelow w q := by
  have hw' : (0 : ℚ) < w := by exact_mod_cast hw
  have hdiv : w * (n / w) ≤ n := Int.mul_ediv_self_le hw.ne'
  have hdiv' : (w : ℚ) * ((n / w : ℤ) : ℚ) ≤ n := by exact_mod_cast hdiv
  rw [eq_comm, ← (h.floor_le_ediv hw).ge_iff_eq, Int.le_floor, le_div_iff₀ hw', mul_comm]
  constructor
  · rintro h1 ⟨k, hk, hk1, hk2⟩
    -- the cast gives the multiple itself
    have hkw : w * k ≤ 0 := mul_nonpos_of_nonneg_of_nonpos hw.le hk
    have hkw' : (w : ℚ) * k ≤ 0 := by exact_mod_cast hkw
    obtain ⟨h2, h3⟩ := h.of_neg (by linarith)
    have h4 : (n : ℚ) < w * k + 1 := by linarith
    have h5 : (w : ℚ) * k < n + 1 := by linarith
    have h6 : n < w * k + 1 := by exact_mod_cast h4
    have h7 : w * k < n + 1 := by exact_mod_cast h5
    obtain rfl : n = w * k := by omega
    rw [Int.mul_ediv_cancel_left _ hw.ne'] at h1
    linarith
  · intro hband
    by_contra hcon
    rcases le_or_gt 0 q with h0 | h0
    · linarith [(h.of_nonneg h0).1]
    · obtain ⟨h1, h2⟩ := h.of_neg h0
      refine hband ⟨n / w, ?_, by linarith, by linarith⟩
      have h3 : (n : ℚ) < 1 := by linarith
      have h4 : n < 1 := by exact_mod_cast h3
      exact Int.ediv_nonpos_of_nonpos_of_neg (by omega) hw

end Dividing

/-! ## The value of a `float` -/

namespace JFloat

def exponent (f : JFloat) : ℕ := (f.bits >>> 23).toNat % 256

def fraction (f : JFloat) : ℕ := f.bits.toNat % 2 ^ 23

/-- Neither infinite nor NaN. -/
def Finite (f : JFloat) : Prop := f.exponent < 255

/-- The absolute value of a finite `float`. -/
def magnitude (f : JFloat) : ℚ :=
  if f.exponent = 0 then f.fraction * 2 ^ (-149 : ℤ)
  else (f.fraction + 2 ^ 23) * 2 ^ ((f.exponent : ℤ) - 150)

/-- The value of a finite `float`. -/
def toRat (f : JFloat) : ℚ := if f.bits ≥ 0x80000000 then -f.magnitude else f.magnitude

instance (f : JFloat) : Decidable f.Finite := inferInstanceAs (Decidable (_ < _))

variable {f : JFloat}

theorem fraction_lt : f.fraction < 2 ^ 23 := Nat.mod_lt _ (by norm_num)

theorem magnitude_nonneg : 0 ≤ f.magnitude := by
  unfold magnitude
  split <;> positivity

theorem not_isNaN_of_finite (h : f.Finite) : ¬isNaN32 f.bits = true := by
  have hexp : f.exponent = f.bits.toNat / 2 ^ 23 % 256 := by
    unfold exponent
    rw [UInt32.toNat_shiftRight, show (23 : UInt32).toNat % 32 = 23 from rfl, Nat.shiftRight_eq_div_pow]
  unfold Finite at h
  rw [isNaN32_iff]
  omega

/-- A number below one has no integral part. -/
theorem magnitude_lt_one (h : f.exponent < 127) : f.magnitude < 1 := by
  have hfrac : (f.fraction : ℚ) < 2 ^ 23 := by exact_mod_cast fraction_lt
  unfold magnitude
  split
  · calc (f.fraction : ℚ) * 2 ^ (-149 : ℤ) < 2 ^ 23 * 2 ^ (-149 : ℤ) := by gcongr
      _ < 1 := by norm_num
  · calc ((f.fraction : ℚ) + 2 ^ 23) * 2 ^ ((f.exponent : ℤ) - 150)
        < (2 ^ 23 + 2 ^ 23) * 2 ^ ((f.exponent : ℤ) - 150) := by gcongr
      _ ≤ (2 ^ 23 + 2 ^ 23) * 2 ^ (-24 : ℤ) := by
        gcongr
        · norm_num
        · omega
      _ = 1 := by norm_num

theorem truncAbs_eq : truncAbs f.bits = if f.exponent < 127 then 0
    else if f.exponent < 150 then (f.fraction + 2 ^ 23) / 2 ^ (150 - f.exponent)
    else (f.fraction + 2 ^ 23) * 2 ^ (f.exponent - 150) := rfl

/-- The integral part of the absolute value. -/
theorem truncAbs_spec : (truncAbs f.bits : ℚ) ≤ f.magnitude ∧ f.magnitude < truncAbs f.bits + 1 := by
  rw [truncAbs_eq]
  split_ifs with h1 h2
  · rw [Nat.cast_zero, zero_add]
    exact ⟨magnitude_nonneg, magnitude_lt_one h1⟩
  · set d := 150 - f.exponent with hd
    have hpos : (0 : ℚ) < 2 ^ d := by positivity
    have hmag : f.magnitude = (f.fraction + 2 ^ 23) / 2 ^ d := by
      unfold magnitude
      rw [if_neg (by omega), show (f.exponent : ℤ) - 150 = -(d : ℤ) by omega, zpow_neg, zpow_natCast]
      rfl
    have hlo := Nat.div_mul_le_self (f.fraction + 2 ^ 23) (2 ^ d)
    have hhi := Nat.lt_div_mul_add (a := f.fraction + 2 ^ 23) (show 0 < 2 ^ d by positivity)
    rw [hmag, le_div_iff₀ hpos, div_lt_iff₀ hpos, add_mul, one_mul]
    exact ⟨by exact_mod_cast hlo, by exact_mod_cast hhi⟩
  · have hmag : f.magnitude = ((f.fraction + 2 ^ 23) * 2 ^ (f.exponent - 150) : ℕ) := by
      unfold magnitude
      rw [if_neg (by omega), show (f.exponent : ℤ) - 150 = ((f.exponent - 150 : ℕ) : ℤ) by omega,
        zpow_natCast]
      push_cast
      rfl
    rw [hmag]
    exact ⟨le_rfl, lt_add_one _⟩

/-- **The cast to `int`** rounds towards zero. -/
theorem toInt32_truncates (h : f.Finite) (hf : |f.toRat| < 2 ^ 31) :
    Truncates f.toRat f.toInt32.toInt := by
  obtain ⟨hlo, hhi⟩ := truncAbs_spec (f := f)
  have habs : |f.toRat| = f.magnitude := by
    unfold toRat
    split
    · rw [abs_neg, abs_of_nonneg magnitude_nonneg]
    · exact abs_of_nonneg magnitude_nonneg
  rw [habs] at hf
  have hlt : truncAbs f.bits < 2 ^ 31 := by exact_mod_cast hlo.trans_lt hf
  unfold toInt32 toRat
  rw [if_neg (not_isNaN_of_finite h)]
  by_cases hs : f.bits ≥ 0x80000000
  · rw [if_pos hs, if_pos hs, max_eq_right (by omega), Int32.toInt_ofInt_of_le (by omega) (by omega)]
    have hcast : ((-(truncAbs f.bits : ℤ) : ℤ) : ℚ) = -(truncAbs f.bits : ℚ) := by push_cast; rfl
    constructor
    · intro h0
      have hzero : f.magnitude = 0 := le_antisymm (by linarith) magnitude_nonneg
      have htrunc : (truncAbs f.bits : ℚ) = 0 := le_antisymm (by linarith) (Nat.cast_nonneg _)
      rw [hcast, hzero, htrunc]
      norm_num
    · intro h0
      rw [hcast]
      constructor <;> linarith
  · rw [if_neg hs, if_neg hs, min_eq_right (by omega), Int32.toInt_ofInt_of_le (by omega) (by omega)]
    exact ⟨fun _ => ⟨by exact_mod_cast hlo, by exact_mod_cast hhi⟩,
      fun h0 => absurd h0 (not_lt.mpr magnitude_nonneg)⟩

end JFloat

end Java
