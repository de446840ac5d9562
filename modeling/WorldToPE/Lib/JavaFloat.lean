import WorldToPE.Lib.JavaInt

/-!
# WorldToPE.Lib.JavaFloat — Java's `float` and `double` as values

Floating-point arithmetic is not modelled: a `float` is its bit pattern, with one pattern for NaN, so
that equality of the model is equality of values up to NaN.  What the program does with the numbers is
store them (`floatToIntBits`, `intBitsToFloat`) and cast them to and from `int`.

* `toInt32_ofInt32`: the casts to `float` and back keep every integer of at most 24 binary digits.
-/

namespace Java

/-! ## `float` -/

def isNaN32 (bits : UInt32) : Bool := bits &&& 0x7FFFFFFF > 0x7F800000

/-- A `float`: its bits, with the canonical pattern for NaN. -/
structure JFloat where
  bits : UInt32
  canonical : isNaN32 bits = true → bits = 0x7FC00000
deriving DecidableEq

namespace JFloat

/-- `Float.intBitsToFloat`. -/
def ofBits (b : UInt32) : JFloat :=
  if h : isNaN32 b = true then ⟨0x7FC00000, fun _ => rfl⟩ else ⟨b, fun h' => absurd h' h⟩

/-- `+0.0f`. -/
def zero : JFloat := ⟨0, by decide⟩

instance : Inhabited JFloat := ⟨zero⟩

@[simp] theorem ofBits_bits (f : JFloat) : ofBits f.bits = f := by
  unfold ofBits
  split
  · rename_i h
    cases f
    simp only [JFloat.mk.injEq]
    exact (JFloat.canonical _ h).symm
  · rfl

/-- The magnitude of a finite `float`, rounded towards zero. -/
def truncAbs (bits : UInt32) : ℕ :=
  let exponent := (bits >>> 23).toNat % 256
  let mantissa := bits.toNat % 2 ^ 23 + 2 ^ 23
  if exponent < 127 then 0
  else if exponent < 150 then mantissa / 2 ^ (150 - exponent)
  else mantissa * 2 ^ (exponent - 150)

/-- The cast `(int) f`: towards zero, `0` for NaN, saturating. -/
def toInt32 (f : JFloat) : Int32 :=
  if isNaN32 f.bits then 0
  else if f.bits ≥ 0x80000000 then Int32.ofInt (max (-2 ^ 31) (-(truncAbs f.bits : Int)))
  else Int32.ofInt (min (2 ^ 31 - 1) (truncAbs f.bits))

/-- The bits of a positive number, rounded to the nearest `float` and to even in the middle.  A carry
out of the mantissa goes to the exponent. -/
def bitsOfNat (n : ℕ) : ℕ :=
  let k := Nat.log2 n
  if k ≤ 23 then (126 + k) * 2 ^ 23 + n * 2 ^ (23 - k)
  else
    let unit := 2 ^ (k - 23)
    let q := n / unit
    let r := n % unit
    (126 + k) * 2 ^ 23 + (if 2 * r > unit ∨ (2 * r = unit ∧ q % 2 = 1) then q + 1 else q)

/-- The cast `(float) n`. -/
def ofInt32 (n : Int32) : JFloat :=
  if n = 0 then zero
  else if n < 0 then ofBits (UInt32.ofNat (2 ^ 31 + bitsOfNat n.toInt.natAbs))
  else ofBits (UInt32.ofNat (bitsOfNat n.toInt.natAbs))

/-- `+0.0` for `-0.0`, which `==` does not tell apart, and every other number itself. -/
def unsignZero (f : JFloat) : JFloat := if f.bits = 0x80000000 then zero else f

/-! ### Integers that are `float`s -/

theorem isNaN32_iff (bits : UInt32) : isNaN32 bits = true ↔ bits.toNat % 2 ^ 31 > 0x7F800000 := by
  unfold isNaN32
  rw [decide_eq_true_iff, gt_iff_lt, UInt32.lt_iff_toNat_lt, UInt32.toNat_and]
  rw [show (0x7FFFFFFF : UInt32).toNat = 2 ^ 31 - 1 from rfl, Nat.and_two_pow_sub_one_eq_mod]
  rfl

theorem bits_ofBits {b : UInt32} (h : b.toNat % 2 ^ 31 ≤ 0x7F800000) : (ofBits b).bits = b := by
  have hn : ¬isNaN32 b = true := by
    rw [isNaN32_iff]
    omega
  unfold ofBits
  rw [dif_neg hn]

/-- A number below `2^24` has all its digits in the mantissa. -/
theorem bitsOfNat_eq {n : ℕ} (h0 : 0 < n) (h : n < 2 ^ 24) :
    ∃ k m, k ≤ 23 ∧ m < 2 ^ 23 ∧ bitsOfNat n = (127 + k) * 2 ^ 23 + m ∧ m + 2 ^ 23 = n * 2 ^ (23 - k) := by
  have hk : Nat.log2 n ≤ 23 := Nat.lt_succ_iff.mp ((Nat.log2_lt h0.ne').mpr h)
  have hlo : 2 ^ Nat.log2 n ≤ n := Nat.log2_self_le h0.ne'
  have hhi : n < 2 ^ (Nat.log2 n + 1) := Nat.lt_log2_self
  set k := Nat.log2 n with hkdef
  have hpow : 2 ^ k * 2 ^ (23 - k) = 2 ^ 23 := by rw [← pow_add]; congr 1; omega
  have hpos : 0 < 2 ^ (23 - k) := by positivity
  have h1 : 2 ^ 23 ≤ n * 2 ^ (23 - k) := by
    rw [← hpow]
    exact Nat.mul_le_mul_right _ hlo
  have h2 : n * 2 ^ (23 - k) < 2 ^ 24 := by
    calc n * 2 ^ (23 - k) < 2 ^ (k + 1) * 2 ^ (23 - k) := Nat.mul_lt_mul_of_pos_right hhi hpos
      _ = 2 ^ 24 := by rw [pow_succ, Nat.mul_right_comm, hpow]; rfl
  refine ⟨k, n * 2 ^ (23 - k) - 2 ^ 23, hk, by omega, ?_, by omega⟩
  unfold bitsOfNat
  simp only
  rw [← hkdef, if_pos hk]
  omega

theorem truncAbs_of_toNat {bits : UInt32} {k m n s : ℕ} (hk : k ≤ 23) (hm : m < 2 ^ 23)
    (hb : bits.toNat = s * 2 ^ 31 + ((127 + k) * 2 ^ 23 + m)) (hn : m + 2 ^ 23 = n * 2 ^ (23 - k)) :
    truncAbs bits = n := by
  have hexp : (bits >>> 23).toNat % 256 = 127 + k := by
    rw [UInt32.toNat_shiftRight, show (23 : UInt32).toNat % 32 = 23 from rfl, Nat.shiftRight_eq_div_pow, hb]
    clear hn
    omega
  have hman : bits.toNat % 2 ^ 23 = m := by
    clear hn
    omega
  unfold truncAbs
  simp only
  rw [hexp, hman, hn, if_neg (show ¬127 + k < 127 by omega)]
  by_cases h23 : k = 23
  · subst h23
    simp
  · rw [if_pos (show 127 + k < 150 by omega), show 150 - (127 + k) = 23 - k by omega]
    exact Nat.mul_div_cancel _ (by positivity)

theorem toInt32_ofBits {b : UInt32} {s k m n : ℕ} (hs : s ≤ 1) (hk : k ≤ 23) (hm : m < 2 ^ 23)
    (hb : b.toNat = s * 2 ^ 31 + ((127 + k) * 2 ^ 23 + m)) (hmn : m + 2 ^ 23 = n * 2 ^ (23 - k))
    (hn : n < 2 ^ 24) : (ofBits b).toInt32 = Int32.ofInt (if s = 1 then -n else n) := by
  have hof : (ofBits b).bits = b := bits_ofBits (by omega)
  have hsign : b ≥ 0x80000000 ↔ s = 1 := by
    rw [ge_iff_le, UInt32.le_iff_toNat_le, hb, show (0x80000000 : UInt32).toNat = 2 ^ 31 from rfl]
    omega
  unfold toInt32
  rw [hof, truncAbs_of_toNat hk hm hb hmn, if_neg (by rw [isNaN32_iff]; omega)]
  by_cases h1 : s = 1
  · rw [if_pos (hsign.mpr h1), if_pos h1]
    congr 1
    omega
  · rw [if_neg (mt hsign.mp h1), if_neg h1]
    congr 1
    omega

/-- **Integers of up to 24 binary digits are `float`s.** -/
theorem toInt32_ofInt32 {n : Int32} (h : n.toInt.natAbs ≤ 2 ^ 24) : (ofInt32 n).toInt32 = n := by
  have hz : (0 : Int32).toInt = 0 := rfl
  by_cases hmax : n.toInt.natAbs = 2 ^ 24
  · have : n = 16777216 ∨ n = -16777216 := by
      rw [← Int32.toInt_inj, ← Int32.toInt_inj]
      have h1 : (16777216 : Int32).toInt = 16777216 := rfl
      have h2 : (-16777216 : Int32).toInt = -16777216 := rfl
      omega
    rcases this with rfl | rfl <;> decide
  by_cases h0 : n = 0
  · subst h0
    decide
  have hne : n.toInt ≠ 0 := fun h => h0 (Int32.toInt_inj.mp h)
  obtain ⟨k, m, hk, hm, hbits, hmn⟩ := bitsOfNat_eq (n := n.toInt.natAbs) (by omega) (by omega)
  have hlt : n.toInt.natAbs < 2 ^ 24 := by omega
  unfold ofInt32
  rw [if_neg h0]
  by_cases hneg : n < 0
  · rw [if_pos hneg, toInt32_ofBits (s := 1) le_rfl hk hm _ hmn hlt, if_pos rfl]
    · rw [Int32.lt_iff_toInt_lt, hz] at hneg
      rw [show -(n.toInt.natAbs : Int) = n.toInt by omega, Int32.ofInt_toInt]
    · rw [UInt32.toNat_ofNat', hbits]
      omega
  · rw [if_neg hneg, toInt32_ofBits (s := 0) (Nat.zero_le 1) hk hm _ hmn hlt, if_neg Nat.zero_ne_one]
    · rw [Int32.lt_iff_toInt_lt, hz] at hneg
      rw [show (n.toInt.natAbs : Int) = n.toInt by omega, Int32.ofInt_toInt]
    · rw [UInt32.toNat_ofNat', hbits]
      omega

theorem toInt32_unsignZero (f : JFloat) : f.unsignZero.toInt32 = f.toInt32 := by
  unfold unsignZero
  split
  · rename_i h
    unfold toInt32
    rw [h]
    decide
  · rfl

end JFloat

-- 1, -12, 16777217 and 2147483647, of which the last two are rounded
example : [1, -12, 16777217, 2147483647].map (fun n => (JFloat.ofInt32 n).bits) =
    [0x3F800000, 0xC1400000, 0x4B800000, 0x4F000000] := by decide

-- 1.5f, -1.5f, -16.0f, 1e10f and NaN
example : [0x3FC00000, 0xBFC00000, 0xC1800000, 0x501502F9, 0x7FC00001].map
    (fun b => (JFloat.ofBits b).toInt32) = [1, -1, -16, 2147483647, 0] := by decide

/-! ## `double` -/

def isNaN64 (bits : UInt64) : Bool := bits &&& 0x7FFFFFFFFFFFFFFF > 0x7FF0000000000000

/-- A `double`: its bits, with the canonical pattern for NaN. -/
structure JDouble where
  bits : UInt64
  canonical : isNaN64 bits = true → bits = 0x7FF8000000000000
deriving DecidableEq

namespace JDouble

/-- `Double.longBitsToDouble`. -/
def ofBits (b : UInt64) : JDouble :=
  if h : isNaN64 b = true then ⟨0x7FF8000000000000, fun _ => rfl⟩ else ⟨b, fun h' => absurd h' h⟩

@[simp] theorem ofBits_bits (f : JDouble) : ofBits f.bits = f := by
  unfold ofBits
  split
  · rename_i h
    cases f
    simp only [JDouble.mk.injEq]
    exact (JDouble.canonical _ h).symm
  · rfl

end JDouble

end Java
