import Mathlib.Tactic

/-!
# WorldToPE.Lib.JavaInt — Java's `int` and `byte` over Lean's fixed-width integers

A Java `int` is an `Int32`; a Java `byte` is kept as its bit pattern, a `UInt8`.  `widen` is the
implicit (sign-extending) conversion of a `byte` to an `int`, `narrow` is the cast `(byte) n`.
The lemmas here turn shifts, masks and byte-wise encodings into arithmetic on `Int` and `Nat`, so
that everything above is closed by `omega`.

* `toInt_shiftRight`, `toInt_and_mask`: `>> k` is division and `& (2^k - 1)` is remainder.
* `toInt_shiftLeft`, `toInt_or_of_lt`: `<< k` multiplies and `|` adds, without overflow or overlap.
* `beBytes` / `ofBe`: big-endian byte strings of any width, with both round trips.
* `intBytes` / `ofIntBytes` / `reverseBytes`: `writeInt`, `readInt` and `Integer.reverseBytes`.
-/

namespace Java

/-! ## Bytes and ints -/

/-- The widening conversion of a `byte` to an `int`. -/
def widen (b : UInt8) : Int32 := b.toInt8.toInt32

/-- The cast `(byte) n`. -/
def narrow (n : Int32) : UInt8 := n.toInt8.toUInt8

theorem toInt_widen (b : UInt8) :
    (widen b).toInt = if b.toNat < 128 then (b.toNat : Int) else b.toNat - 256 := by
  unfold widen
  rw [Int8.toInt_toInt32]
  show b.toBitVec.toInt = _
  rw [BitVec.toInt_eq_toNat_cond, UInt8.toNat_toBitVec]
  split <;> split <;> omega

theorem widen_toBitVec (b : UInt8) : (widen b).toBitVec = b.toBitVec.signExtend 32 := rfl

theorem narrow_toBitVec (n : Int32) : (narrow n).toBitVec = n.toBitVec.setWidth 8 := by
  show n.toBitVec.signExtend 8 = _
  rw [BitVec.signExtend_eq_setWidth_of_le _ (by omega)]

theorem toNat_narrow (n : Int32) : ((narrow n).toNat : Int) = n.toInt % 256 := by
  rw [← UInt8.toNat_toBitVec, narrow_toBitVec, BitVec.toNat_setWidth, ← Int32.toInt_toBitVec,
    BitVec.toInt_eq_toNat_cond]
  split <;> push_cast <;> omega

@[simp] theorem narrow_widen (b : UInt8) : narrow (widen b) = b := by
  apply UInt8.toNat_inj.mp
  have h := toNat_narrow (widen b)
  have hb := b.toNat_lt
  rw [toInt_widen] at h
  split at h <;> omega

/-! ## Shifts and masks -/

theorem toInt_shiftRight (x : Int32) (k : ℕ) (hk : k < 32) :
    (x >>> Int32.ofNat k).toInt = x.toInt / 2 ^ k := by
  have h1 : (Int32.ofNat k).toBitVec.smod 32 = BitVec.ofNat 32 k := by
    interval_cases k <;> decide
  rw [← Int32.toInt_toBitVec, Int32.toBitVec_shiftRight, h1, BitVec.sshiftRight',
    BitVec.toInt_sshiftRight, BitVec.toNat_ofNat, Nat.mod_eq_of_lt (by omega),
    Int.shiftRight_eq_div_pow]
  rfl

theorem toInt_and_mask (x : Int32) (k : ℕ) (hk : k < 31) :
    (x &&& Int32.ofNat (2 ^ k - 1)).toInt = x.toInt % 2 ^ k := by
  have h2 : 2 ^ k < 2 ^ 31 := Nat.pow_lt_pow_right (by norm_num) hk
  have h1 : (Int32.ofNat (2 ^ k - 1)).toBitVec.toNat = 2 ^ k - 1 := by
    show (BitVec.ofNat 32 (2 ^ k - 1)).toNat = _
    rw [BitVec.toNat_ofNat, Nat.mod_eq_of_lt (by omega)]
  have h3 : x.toBitVec.toNat % 2 ^ k < 2 ^ k := Nat.mod_lt _ (by positivity)
  have h5 : ((x.toBitVec.toNat % 2 ^ k : ℕ) : Int).bmod (2 ^ 32) = (x.toBitVec.toNat % 2 ^ k : ℕ) :=
    Int.bmod_eq_of_le (by omega) (by omega)
  have h4 : ((2 ^ k : ℕ) : Int) ∣ ((2 ^ 32 : ℕ) : Int) := by
    exact_mod_cast pow_dvd_pow _ (by omega)
  have h6 : (x.toBitVec.toNat : Int) % ((2 ^ 32 : ℕ) : Int) = x.toBitVec.toNat := by
    have := x.toBitVec.isLt
    omega
  rw [← Int32.toInt_toBitVec, Int32.toBitVec_and, BitVec.toInt_eq_toNat_bmod, BitVec.toNat_and, h1,
    Nat.and_two_pow_sub_one_eq_mod, h5, ← Int32.toInt_toBitVec, BitVec.toInt_eq_toNat_bmod,
    Int.bmod_def, h6]
  split
  · push_cast; rfl
  · rw [Int.sub_emod, show (2 : Int) ^ k = ((2 ^ k : ℕ) : Int) by push_cast; rfl,
      Int.emod_eq_zero_of_dvd h4]
    simp

/-- No overflow: a sum that fits in an `int` is exact. -/
theorem toInt_add_of_fits {a b : Int32} (h1 : -2 ^ 31 ≤ a.toInt + b.toInt)
    (h2 : a.toInt + b.toInt < 2 ^ 31) : (a + b).toInt = a.toInt + b.toInt := by
  rw [Int32.toInt_add]
  exact Int.bmod_eq_of_le (by omega) (by omega)

/-- No overflow: a product that fits in an `int` is exact. -/
theorem toInt_mul_of_fits {a b : Int32} (h1 : -2 ^ 31 ≤ a.toInt * b.toInt)
    (h2 : a.toInt * b.toInt < 2 ^ 31) : (a * b).toInt = a.toInt * b.toInt := by
  rw [Int32.toInt_mul]
  exact Int.bmod_eq_of_le (by omega) (by omega)

theorem toNat_of_nonneg {a : Int32} (h : 0 ≤ a.toInt) : (a.toBitVec.toNat : Int) = a.toInt := by
  rw [← Int32.toInt_toBitVec, BitVec.toInt_eq_toNat_cond] at h ⊢
  have := a.toBitVec.isLt
  split at h <;> split <;> omega

theorem toInt_of_toNat_lt {a : Int32} (h : a.toBitVec.toNat < 2 ^ 31) :
    a.toInt = a.toBitVec.toNat := by
  rw [← Int32.toInt_toBitVec, BitVec.toInt_eq_toNat_cond, if_pos (by omega)]

/-- A shift to the left that does not overflow multiplies. -/
theorem toInt_shiftLeft {a : Int32} (k : ℕ) (hk : k < 31) (h0 : -2 ^ 31 ≤ a.toInt * 2 ^ k)
    (h1 : a.toInt * 2 ^ k < 2 ^ 31) : (a <<< Int32.ofNat k).toInt = a.toInt * 2 ^ k := by
  have hmul : a <<< Int32.ofNat k = a * Int32.ofNat (2 ^ k) := by
    have hs : (Int32.ofNat k).toBitVec.smod 32 = BitVec.ofNat 32 k := by
      interval_cases k <;> decide
    have hpow : (Int32.ofNat (2 ^ k)).toBitVec = BitVec.twoPow 32 k := by
      interval_cases k <;> decide
    apply Int32.toBitVec_inj.mp
    rw [Int32.toBitVec_shiftLeft, hs, BitVec.shiftLeft_eq', Int32.toBitVec_mul, hpow,
      ← BitVec.shiftLeft_eq_mul_twoPow, BitVec.toNat_ofNat, Nat.mod_eq_of_lt (by omega)]
  have hpow : (Int32.ofNat (2 ^ k)).toInt = 2 ^ k := by
    interval_cases k <;> decide
  rw [hmul, toInt_mul_of_fits] <;> rw [hpow] <;> assumption

/-- An or with no common bits adds. -/
theorem toInt_or_of_lt {a b : Int32} (k : ℕ) (ha : 0 ≤ a.toInt) (hd : (2 : Int) ^ k ∣ a.toInt)
    (hb : 0 ≤ b.toInt) (hbk : b.toInt < 2 ^ k) (hs : a.toInt + b.toInt < 2 ^ 31) :
    (a ||| b).toInt = a.toInt + b.toInt := by
  have hna := toNat_of_nonneg ha
  have hnb := toNat_of_nonneg hb
  obtain ⟨m, hm⟩ : 2 ^ k ∣ a.toBitVec.toNat := by
    rw [← hna] at hd
    exact_mod_cast hd
  have hlt : b.toBitVec.toNat < 2 ^ k := by
    rw [← hnb] at hbk
    exact_mod_cast hbk
  have e : (a ||| b).toBitVec.toNat = a.toBitVec.toNat + b.toBitVec.toNat := by
    rw [Int32.toBitVec_or, BitVec.toNat_or, hm, mul_comm, ← Nat.shiftLeft_eq,
      ← Nat.shiftLeft_add_eq_or_of_lt hlt]
  rw [toInt_of_toNat_lt (by omega), e]
  push_cast
  omega
/-! ## Big-endian byte strings -/

/-- The `k` low-order bytes of `n`, most significant first. -/
def beBytes : ℕ → ℕ → List UInt8
  | 0, _ => []
  | k + 1, n => UInt8.ofNat (n / 256 ^ k) :: beBytes k n

/-- The number whose big-endian bytes are `bs`. -/
def ofBe (bs : List UInt8) : ℕ := bs.foldl (fun acc b => acc * 256 + b.toNat) 0

@[simp] theorem length_beBytes : ∀ k n : ℕ, (beBytes k n).length = k
  | 0, _ => rfl
  | k + 1, n => by simp [beBytes, length_beBytes k n]

theorem foldl_ofBe (bs : List UInt8) (a : ℕ) :
    bs.foldl (fun acc b => acc * 256 + b.toNat) a = a * 256 ^ bs.length + ofBe bs := by
  induction bs generalizing a with
  | nil => simp [ofBe]
  | cons b bs ih =>
    simp only [ofBe, List.foldl_cons, List.length_cons]
    rw [ih, ih (0 * 256 + b.toNat)]
    ring

@[simp] theorem ofBe_cons (b : UInt8) (bs : List UInt8) :
    ofBe (b :: bs) = b.toNat * 256 ^ bs.length + ofBe bs := by
  unfold ofBe
  rw [List.foldl_cons, foldl_ofBe]
  simp [ofBe]

theorem ofBe_lt : ∀ bs : List UInt8, ofBe bs < 256 ^ bs.length
  | [] => by simp [ofBe]
  | b :: bs => by
    have h1 := ofBe_lt bs
    have h2 := b.toNat_lt
    have h3 : 0 < 256 ^ bs.length := by positivity
    rw [ofBe_cons, List.length_cons, pow_succ]
    nlinarith

theorem ofBe_beBytes : ∀ k n : ℕ, ofBe (beBytes k n) = n % 256 ^ k
  | 0, n => by simp [beBytes, ofBe, Nat.mod_one]
  | k + 1, n => by
    have h : n % 256 ^ (k + 1) = n % 256 ^ k + 256 ^ k * (n / 256 ^ k % 256) := by
      rw [pow_succ, Nat.mod_mul]
    rw [beBytes, ofBe_cons, ofBe_beBytes k n, length_beBytes, UInt8.toNat_ofNat', h]
    ring

theorem beBytes_mod : ∀ k j n : ℕ, k ≤ j → beBytes k (n % 256 ^ j) = beBytes k n
  | 0, _, _, _ => rfl
  | k + 1, j, n, h => by
    rw [beBytes, beBytes, beBytes_mod k j n (by omega)]
    congr 1
    apply UInt8.toNat_inj.mp
    rw [UInt8.toNat_ofNat', UInt8.toNat_ofNat']
    obtain ⟨d, rfl⟩ := Nat.exists_eq_add_of_le h
    have e : 256 ^ (k + 1 + d) = 256 ^ k * (256 ^ d * 256) := by ring
    rw [e, Nat.mod_mul_right_div_self]
    exact Nat.mod_mod_of_dvd _ (Dvd.intro_left _ rfl)

theorem beBytes_ofBe : ∀ bs : List UInt8, beBytes bs.length (ofBe bs) = bs
  | [] => rfl
  | b :: bs => by
    have hlt := ofBe_lt bs
    have hpos : 0 < 256 ^ bs.length := by positivity
    rw [List.length_cons, beBytes, ofBe_cons]
    congr 1
    · rw [Nat.add_comm, Nat.add_mul_div_right _ _ hpos, Nat.div_eq_of_lt hlt, Nat.zero_add]
      exact UInt8.ofNat_toNat
    · rw [← beBytes_mod bs.length bs.length _ le_rfl, Nat.add_comm, Nat.add_mul_mod_self_right,
        Nat.mod_eq_of_lt hlt]
      exact beBytes_ofBe bs

/-! ## `writeInt`, `readInt`, `Integer.reverseBytes` -/

/-- The four bytes that `DataOutputStream.writeInt` and `RandomAccessFile.writeInt` emit. -/
def intBytes (n : Int32) : List UInt8 := beBytes 4 n.toBitVec.toNat

/-- The `int` that `readInt` makes of four bytes. -/
def ofIntBytes (bs : List UInt8) : Int32 := Int32.ofBitVec (BitVec.ofNat 32 (ofBe bs))

/-- `Integer.reverseBytes`. -/
def reverseBytes (n : Int32) : Int32 := ofIntBytes (intBytes n).reverse

@[simp] theorem length_intBytes (n : Int32) : (intBytes n).length = 4 := length_beBytes 4 _

@[simp] theorem ofIntBytes_intBytes (n : Int32) : ofIntBytes (intBytes n) = n := by
  have h := n.toBitVec.isLt
  unfold ofIntBytes intBytes
  rw [ofBe_beBytes, Nat.mod_eq_of_lt (by omega)]
  simp

theorem intBytes_ofIntBytes {bs : List UInt8} (h : bs.length = 4) :
    intBytes (ofIntBytes bs) = bs := by
  have hlt := ofBe_lt bs
  rw [h] at hlt
  unfold intBytes ofIntBytes
  rw [Int32.toBitVec_ofBitVec, BitVec.toNat_ofNat, Nat.mod_eq_of_lt (by omega), ← h]
  exact beBytes_ofBe bs

/-- The first byte carries the sign. -/
theorem ofIntBytes_nonneg_iff {b : UInt8} {bs : List UInt8} (h : bs.length = 3) :
    0 ≤ (ofIntBytes (b :: bs)).toInt ↔ b.toNat < 128 := by
  have hb := b.toNat_lt
  have hlt := ofBe_lt bs
  rw [h] at hlt
  have hn : (BitVec.ofNat 32 (ofBe (b :: bs))).toNat = b.toNat * 256 ^ 3 + ofBe bs := by
    rw [BitVec.toNat_ofNat, ofBe_cons, h, Nat.mod_eq_of_lt (by omega)]
  unfold ofIntBytes
  rw [← Int32.toInt_toBitVec, Int32.toBitVec_ofBitVec, BitVec.toInt_eq_toNat_cond, hn]
  split <;> omega

theorem intBytes_injective : Function.Injective intBytes := fun a b h => by
  rw [← ofIntBytes_intBytes a, h, ofIntBytes_intBytes]

/-- Writing the reversed `int` writes the little-endian bytes. -/
@[simp] theorem intBytes_reverseBytes (n : Int32) :
    intBytes (reverseBytes n) = (intBytes n).reverse :=
  intBytes_ofIntBytes (by simp)

@[simp] theorem reverseBytes_reverseBytes (n : Int32) : reverseBytes (reverseBytes n) = n := by
  rw [reverseBytes, intBytes_reverseBytes, List.reverse_reverse, ofIntBytes_intBytes]

end Java
