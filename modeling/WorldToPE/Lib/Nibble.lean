import WorldToPE.Lib.JavaArray

/-!
# WorldToPE.Lib.Nibble — two 4-bit cells packed in a byte

Cell `2 j` of a packed array is the low half of byte `j`, cell `2 j + 1` its high half.  `half b i`
reads the half of `b` that belongs to cell `i`, `setHalf b i v` is the read-modify-write that stores
the low four bits of `v` there.  The shapes are those a Java program writes: the byte is widened
with its sign, masked, or-ed and cast back.
-/

namespace Nibble

open Java

/-- The low half of a byte. -/
def lo (b : UInt8) : Int32 := widen b &&& 15

/-- The high half of a byte. -/
def hi (b : UInt8) : Int32 := (widen b >>> 4) &&& 15

/-- Replace the high half. -/
def setHi (b : UInt8) (v : Int32) : UInt8 := narrow ((v <<< 4) ||| (widen b &&& 15))

/-- Replace the low half. -/
def setLo (b : UInt8) (v : Int32) : UInt8 := narrow ((widen b &&& 240) ||| (v &&& 15))

/-- The half of `b` that holds cell `i`. -/
def half (b : UInt8) (i : ℕ) : Int32 := if i % 2 = 1 then hi b else lo b

/-- Store `v` in the half of `b` that holds cell `i`. -/
def setHalf (b : UInt8) (i : ℕ) (v : Int32) : UInt8 := if i % 2 = 1 then setHi b v else setLo b v

/-! ## Arithmetic of the four primitives -/

theorem toInt_and15 (x : Int32) : (x &&& 15).toInt = x.toInt % 16 :=
  toInt_and_mask x 4 (by norm_num)

theorem toInt_lo (b : UInt8) : (lo b).toInt = b.toNat % 16 := by
  have hb := b.toNat_lt
  rw [lo, toInt_and15, toInt_widen]
  split <;> omega

theorem toInt_hi (b : UInt8) : (hi b).toInt = b.toNat / 16 := by
  have hb := b.toNat_lt
  have h4 : (widen b >>> 4).toInt = (widen b).toInt / 2 ^ 4 := toInt_shiftRight _ 4 (by norm_num)
  rw [hi, toInt_and15, h4, toInt_widen]
  split <;> omega

theorem setHi_toBitVec (b : UInt8) (v : Int32) :
    (setHi b v).toBitVec = v.toBitVec.setWidth 4 ++ b.toBitVec.setWidth 4 := by
  rw [setHi, narrow_toBitVec, Int32.toBitVec_or, Int32.toBitVec_and, Int32.toBitVec_shiftLeft,
    widen_toBitVec]
  show BitVec.setWidth 8 (v.toBitVec <<< (4#32) ||| (b.toBitVec.signExtend 32 &&& 15#32)) = _
  apply BitVec.eq_of_getLsbD_eq
  intro i hi
  simp only [BitVec.getLsbD_append, BitVec.getLsbD_setWidth, BitVec.getLsbD_or, BitVec.getLsbD_and,
    BitVec.getLsbD_signExtend, BitVec.shiftLeft_eq', BitVec.getLsbD_shiftLeft]
  interval_cases i <;> simp

theorem setLo_toBitVec (b : UInt8) (v : Int32) :
    (setLo b v).toBitVec = b.toBitVec.extractLsb' 4 4 ++ v.toBitVec.setWidth 4 := by
  rw [setLo, narrow_toBitVec, Int32.toBitVec_or, Int32.toBitVec_and, Int32.toBitVec_and,
    widen_toBitVec]
  show BitVec.setWidth 8 ((b.toBitVec.signExtend 32 &&& 240#32) ||| v.toBitVec &&& 15#32) = _
  apply BitVec.eq_of_getLsbD_eq
  intro i hi
  simp only [BitVec.getLsbD_append, BitVec.getLsbD_setWidth, BitVec.getLsbD_or, BitVec.getLsbD_and,
    BitVec.getLsbD_signExtend, BitVec.getLsbD_extractLsb']
  interval_cases i <;> simp

theorem toInt_emod16 (v : Int32) : v.toInt % 16 = (v.toBitVec.toNat % 16 : ℕ) := by
  rw [← Int32.toInt_toBitVec, BitVec.toInt_eq_toNat_cond]
  split <;> push_cast <;> omega

theorem toNat_setHi (b : UInt8) (v : Int32) :
    ((setHi b v).toNat : Int) = v.toInt % 16 * 16 + b.toNat % 16 := by
  rw [← UInt8.toNat_toBitVec, setHi_toBitVec, BitVec.toNat_append,
    ← Nat.shiftLeft_add_eq_or_of_lt (by omega), BitVec.toNat_setWidth, BitVec.toNat_setWidth,
    Nat.shiftLeft_eq, UInt8.toNat_toBitVec, toInt_emod16]
  push_cast
  rfl

theorem toNat_setLo (b : UInt8) (v : Int32) :
    ((setLo b v).toNat : Int) = b.toNat / 16 * 16 + v.toInt % 16 := by
  have hb := b.toNat_lt
  rw [← UInt8.toNat_toBitVec, setLo_toBitVec, BitVec.toNat_append,
    ← Nat.shiftLeft_add_eq_or_of_lt (by omega), BitVec.toNat_setWidth, BitVec.extractLsb'_toNat,
    Nat.shiftLeft_eq, Nat.shiftRight_eq_div_pow, UInt8.toNat_toBitVec, toInt_emod16]
  push_cast
  omega

/-! ## Cells -/

theorem toInt_half (b : UInt8) (i : ℕ) :
    (half b i).toInt = if i % 2 = 1 then (b.toNat : Int) / 16 else (b.toNat : Int) % 16 := by
  unfold half
  split
  · exact toInt_hi b
  · exact toInt_lo b

theorem toNat_setHalf (b : UInt8) (i : ℕ) (v : Int32) :
    ((setHalf b i v).toNat : Int) =
      if i % 2 = 1 then v.toInt % 16 * 16 + b.toNat % 16 else b.toNat / 16 * 16 + v.toInt % 16 := by
  unfold setHalf
  split
  · exact toNat_setHi b v
  · exact toNat_setLo b v

/-- **Read after write** in one byte: the written half holds the low four bits, the other half is
unchanged. -/
theorem half_setHalf (b : UInt8) (i j : ℕ) (v : Int32) :
    half (setHalf b i v) j = if i % 2 = j % 2 then v &&& 15 else half b j := by
  have hb := b.toNat_lt
  have h := toNat_setHalf b i v
  apply Int32.toInt_inj.mp
  rw [toInt_half]
  by_cases hij : i % 2 = j % 2
  · rw [if_pos hij, toInt_and15]
    by_cases hj : j % 2 = 1
    · rw [if_pos (hij.trans hj)] at h
      rw [if_pos hj]
      omega
    · rw [if_neg (by omega)] at h
      rw [if_neg hj]
      omega
  · rw [if_neg hij, toInt_half]
    by_cases hj : j % 2 = 1
    · rw [if_neg (by omega)] at h
      rw [if_pos hj, if_pos hj]
      omega
    · rw [if_pos (by omega)] at h
      rw [if_neg hj, if_neg hj]
      omega

@[simp] theorem half_and_15 (b : UInt8) (i : ℕ) : half b i &&& 15 = half b i := by
  have hb := b.toNat_lt
  apply Int32.toInt_inj.mp
  rw [toInt_and15, toInt_half]
  split <;> omega

/-! ## Packed arrays -/

variable {n : ℕ}

/-- Cell `i` of a packed array. -/
def halfAt (v : Vector UInt8 n) (i : ℕ) : Int32 := half (byteAt v (i / 2)) i

/-- Store `x` in cell `i` of a packed array. -/
def putHalf (v : Vector UInt8 n) (i : ℕ) (hi : i / 2 < n) (x : Int32) : Vector UInt8 n :=
  v.set (i / 2) (setHalf (byteAt v (i / 2)) i x) hi

/-- **Read after write** in a packed array. -/
theorem halfAt_putHalf (v : Vector UInt8 n) {i : ℕ} (hi : i / 2 < n) (x : Int32) (j : ℕ) :
    halfAt (putHalf v i hi x) j = if i = j then x &&& 15 else halfAt v j := by
  unfold halfAt putHalf
  rw [byteAt_set]
  by_cases hij : i / 2 = j / 2
  · rw [if_pos hij, half_setHalf, hij]
    by_cases hm : i % 2 = j % 2
    · rw [if_pos hm, if_pos (by omega)]
    · rw [if_neg hm, if_neg (by omega)]
  · rw [if_neg hij, if_neg (by omega)]

/-- The byte with the given halves. -/
def pack (low high : Int32) : UInt8 := UInt8.ofNat (high.toInt.toNat * 16 + low.toInt.toNat)

theorem pack_half (b : UInt8) {i : ℕ} (hi : i % 2 = 0) : pack (half b i) (half b (i + 1)) = b := by
  have hb := b.toNat_lt
  apply UInt8.toNat_inj.mp
  rw [pack, UInt8.toNat_ofNat', toInt_half, toInt_half, if_pos (by omega), if_neg (by omega)]
  omega

theorem half_pack {low high : Int32} (hl : low &&& 15 = low) (hh : high &&& 15 = high) (i : ℕ) :
    half (pack low high) i = if i % 2 = 1 then high else low := by
  have el := toInt_and15 low
  have eh := toInt_and15 high
  rw [hl] at el
  rw [hh] at eh
  apply Int32.toInt_inj.mp
  rw [toInt_half, pack, UInt8.toNat_ofNat']
  split <;> omega

/-- The bytes of a packed array, listed from its cells. -/
theorem toList_eq_map_pack {v : Vector UInt8 n} {f : ℕ → Int32}
    (h : ∀ i < 2 * n, halfAt v i = f i) :
    v.toList = (List.range n).map fun j => pack (f (2 * j)) (f (2 * j + 1)) := by
  refine toList_eq_map_range fun j hj => ?_
  rw [← h (2 * j) (by omega), ← h (2 * j + 1) (by omega), halfAt, halfAt,
    show (2 * j + 1) / 2 = 2 * j / 2 by omega, pack_half _ (by omega)]
  congr 1
  omega

@[simp] theorem half_zero (i : ℕ) : half 0 i = 0 := by
  unfold half
  split <;> decide

theorem halfAt_replicate_zero {i : ℕ} (hi : i / 2 < n) :
    halfAt (Vector.replicate n 0) i = 0 := by
  rw [halfAt, byteAt_replicate 0 hi, half_zero]

end Nibble
