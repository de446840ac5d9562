import Mathlib.Tactic

/-!
# WorldToPE.Lib.Crc — cyclic redundancy checks, bit by bit and by tables

A reflected check over `BitVec w`: one step shifts the register right and adds the polynomial when a
one falls out.  Steps are linear in the register (`steps_xor`), and zeros fall out without a trace
(`steps_of_low_zero`); so a byte, or several at once, can be looked up in tables (`steps_split`,
`steps_add_eight`, `foldl_update`).
-/

namespace Crc

variable {w : ℕ} (poly : BitVec w)

def step (x : BitVec w) : BitVec w := (x >>> 1) ^^^ if x.getLsbD 0 then poly else 0#w

def steps (n : ℕ) (x : BitVec w) : BitVec w := (step poly)^[n] x

variable {poly}

theorem step_xor (x y : BitVec w) : step poly (x ^^^ y) = step poly x ^^^ step poly y := by
  unfold step
  rw [BitVec.ushiftRight_xor_distrib, BitVec.getLsbD_xor]
  cases x.getLsbD 0 <;> cases y.getLsbD 0
  · simp
  · simp [BitVec.xor_assoc]
  · simp only [Bool.xor_false, if_true, Bool.false_eq_true, if_false, BitVec.xor_zero]
    rw [BitVec.xor_assoc, BitVec.xor_assoc, BitVec.xor_comm (y >>> 1)]
  · -- both polynomials cancel
    simp only [Bool.xor_self, if_true, Bool.false_eq_true, if_false, BitVec.xor_zero]
    rw [BitVec.xor_comm (y >>> 1) poly, BitVec.xor_assoc, ← BitVec.xor_assoc poly, BitVec.xor_self,
      BitVec.zero_xor]

theorem steps_xor (n : ℕ) (x y : BitVec w) : steps poly n (x ^^^ y) = steps poly n x ^^^ steps poly n y := by
  induction n generalizing x y with
  | zero => rfl
  | succ n ih =>
    show steps poly n (step poly (x ^^^ y)) = steps poly n (step poly x) ^^^ steps poly n (step poly y)
    rw [step_xor, ih]

theorem steps_add (m n : ℕ) (x : BitVec w) : steps poly (m + n) x = steps poly m (steps poly n x) :=
  Function.iterate_add_apply (step poly) m n x

/-- Zeros fall out without a trace. -/
theorem steps_of_low_zero (n : ℕ) {x : BitVec w} (h : ∀ i < n, x.getLsbD i = false) :
    steps poly n x = x >>> n := by
  induction n generalizing x with
  | zero => exact (BitVec.ushiftRight_zero x).symm
  | succ n ih =>
    have hx : step poly x = x >>> 1 := by
      unfold step
      rw [h 0 (Nat.succ_pos n)]
      simp
    show steps poly n (step poly x) = x >>> (n + 1)
    rw [hx, ih, Nat.add_comm, BitVec.shiftRight_add]
    intro i hi
    rw [BitVec.getLsbD_ushiftRight]
    exact h (1 + i) (by omega)

/-- What lies `n` bits up comes down. -/
theorem steps_shiftLeft (n : ℕ) {x : BitVec w} (hx : (x <<< n) >>> n = x) :
    steps poly n (x <<< n) = x := by
  rw [steps_of_low_zero n, hx]
  intro i hi
  rw [BitVec.getLsbD_shiftLeft]
  simp [hi]

/-- The low `n` bits go through the register, the others are only shifted. -/
theorem steps_split (n : ℕ) (x : BitVec w) :
    steps poly n x = steps poly n (x &&& BitVec.ofNat w (2 ^ n - 1)) ^^^ x >>> n := by
  have hx : x = (x &&& BitVec.ofNat w (2 ^ n - 1)) ^^^ (x >>> n) <<< n := by
    apply BitVec.eq_of_getLsbD_eq
    intro i hi
    rw [BitVec.getLsbD_xor, BitVec.getLsbD_and, BitVec.getLsbD_shiftLeft, BitVec.getLsbD_ushiftRight,
      BitVec.getLsbD_ofNat, Nat.testBit_two_pow_sub_one]
    by_cases hn : i < n
    · simp [hi, hn]
    · simp [hi, hn, Nat.add_sub_cancel' (not_lt.mp hn)]
  have hhigh : ((x >>> n) <<< n) >>> n = x >>> n := by
    apply BitVec.eq_of_getLsbD_eq
    intro i hi
    rw [BitVec.getLsbD_ushiftRight, BitVec.getLsbD_shiftLeft, BitVec.getLsbD_ushiftRight]
    by_cases hn : n + i < w
    · simp [hn]
    · simp [hn, BitVec.getLsbD_of_ge x (n + i) (not_lt.mp hn)]
  conv_lhs => rw [hx]
  rw [steps_xor, steps_shiftLeft n hhigh]

/-- Several bytes at once: the lowest is looked up, the others follow. -/
theorem steps_add_eight (n : ℕ) (x : BitVec w) :
    steps poly (n + 8) x = steps poly (n + 8) (x &&& BitVec.ofNat w 255) ^^^ steps poly n (x >>> 8) := by
  rw [steps_add n 8 x, steps_split 8 x, steps_xor, ← steps_add]
  rfl

/-- A byte that is added after `n` steps could have been added before them, `n` bits up. -/
theorem steps_xor_shiftLeft (n : ℕ) {x y : BitVec w} (hx : (x <<< n) >>> n = x) :
    steps poly n y ^^^ x = steps poly n (y ^^^ x <<< n) := by
  rw [steps_xor, steps_shiftLeft n hx]

/-! ## Bytes -/

variable (poly)

/-- One byte: it is added to the register, and eight bits fall out. -/
def update (l : BitVec w) (b : BitVec 8) : BitVec w := steps poly 8 (l ^^^ b.setWidth w)

/-- The word of some bytes, the lowest first. -/
def leWord : List (BitVec 8) → BitVec w
  | [] => 0#w
  | b :: bs => b.setWidth w ^^^ leWord bs <<< 8

variable {poly}

theorem getLsbD_leWord : ∀ (bs : List (BitVec 8)) {i : ℕ}, 8 * bs.length ≤ i →
    (leWord bs : BitVec w).getLsbD i = false
  | [], i, _ => BitVec.getLsbD_zero
  | b :: bs, i, hi => by
    rw [List.length_cons] at hi
    rw [leWord, BitVec.getLsbD_xor, BitVec.getLsbD_setWidth, BitVec.getLsbD_shiftLeft,
      BitVec.getLsbD_of_ge b i (by omega), getLsbD_leWord bs (by omega : 8 * bs.length ≤ i - 8)]
    simp

/-- The number of some bytes, the lowest first. -/
def leNat : List (BitVec 8) → ℕ
  | [] => 0
  | b :: bs => 2 ^ 8 * leNat bs + b.toNat

theorem leWord_eq : ∀ bs : List (BitVec 8), leWord bs = BitVec.ofNat w (leNat bs)
  | [] => rfl
  | b :: bs => by
    apply BitVec.eq_of_getLsbD_eq
    intro i hi
    rw [leWord, leNat, leWord_eq bs, BitVec.getLsbD_xor, BitVec.getLsbD_setWidth, BitVec.getLsbD_shiftLeft,
      BitVec.getLsbD_ofNat, BitVec.getLsbD_ofNat, Nat.testBit_two_pow_mul_add _ b.isLt]
    by_cases h8 : i < 8
    · simp [hi, h8, BitVec.testBit_toNat]
    · have hlt : i - 8 < w := by omega
      simp [hi, h8, hlt, BitVec.getLsbD_of_ge b i (not_lt.mp h8)]

/-- The bytes of a word may be added to the register all at once. -/
theorem foldl_update : ∀ (bs : List (BitVec 8)) (l : BitVec w), 8 * bs.length ≤ w →
    bs.foldl (update poly) l = steps poly (8 * bs.length) (l ^^^ leWord bs)
  | [], l, _ => (BitVec.xor_zero).symm
  | b :: bs, l, h => by
    rw [List.length_cons] at h
    have hx : ((leWord bs : BitVec w) <<< 8) >>> 8 = leWord bs := by
      apply BitVec.eq_of_getLsbD_eq
      intro i hi
      rw [BitVec.getLsbD_ushiftRight, BitVec.getLsbD_shiftLeft]
      by_cases hw : 8 + i < w
      · simp [hw]
      · rw [getLsbD_leWord bs (by omega : 8 * bs.length ≤ i)]
        simp [hw]
    rw [List.foldl_cons, foldl_update bs _ (by omega), update, steps_xor_shiftLeft 8 hx, ← steps_add,
      List.length_cons, leWord, BitVec.xor_assoc]
    rfl

end Crc
