import WorldToPE.Lib.Frames
import WorldToPE.Lib.JavaInt
import WorldToPE.Lib.Varint

/-!
# WorldToPE.Engine.Coding — numbers and slices in the files of the database engine

`util/coding.cc`: fixed-width numbers in little-endian order, numbers in groups of seven bits and
slices with their length in front.  A `Slice` is the list of its bytes; a reader returns what it
leaves of its input, and `none` where the source returns `false` or a null pointer.
-/

namespace Leveldb

open Java

/-- A byte string, also where the source uses `std::string`. -/
abbrev Slice := List UInt8

/-- The bytes of an ASCII string. -/
def bytesOf (s : String) : Slice := s.toList.map fun c => UInt8.ofNat c.toNat

/-! ## Fixed-width numbers -/

/-- The bytes that `memcpy` takes from a number on a little-endian machine. -/
def encodeFixed32 (value : UInt32) : Slice := (beBytes 4 value.toNat).reverse

def encodeFixed64 (value : UInt64) : Slice := (beBytes 8 value.toNat).reverse

def putFixed32 (dst : Slice) (value : UInt32) : Slice := dst ++ encodeFixed32 value

/-- The number in the first four bytes. -/
def decodeFixed32 (ptr : Slice) : UInt32 := UInt32.ofNat (ofBe (ptr.take 4).reverse)

def decodeFixed64 (ptr : Slice) : UInt64 := UInt64.ofNat (ofBe (ptr.take 8).reverse)

@[simp] theorem length_encodeFixed32 (value : UInt32) : (encodeFixed32 value).length = 4 := by
  simp [encodeFixed32]

theorem foldl_putFixed32 (values : List UInt32) (dst : Slice) :
    values.foldl putFixed32 dst = dst ++ values.flatMap encodeFixed32 := by
  induction values generalizing dst with
  | nil => exact (List.append_nil dst).symm
  | cons v values ih => rw [List.foldl_cons, ih, List.flatMap_cons, putFixed32, List.append_assoc]

@[simp] theorem length_encodeFixed64 (value : UInt64) : (encodeFixed64 value).length = 8 := by
  simp [encodeFixed64]

@[simp] theorem decodeFixed32_encodeFixed32 (value : UInt32) (rest : Slice) :
    decodeFixed32 (encodeFixed32 value ++ rest) = value := by
  unfold decodeFixed32
  rw [List.take_left' (length_encodeFixed32 value), encodeFixed32, List.reverse_reverse, ofBe_beBytes]
  have h := value.toNat_lt
  rw [Nat.mod_eq_of_lt (by omega)]
  exact UInt32.ofNat_toNat

@[simp] theorem decodeFixed64_encodeFixed64 (value : UInt64) (rest : Slice) :
    decodeFixed64 (encodeFixed64 value ++ rest) = value := by
  unfold decodeFixed64
  rw [List.take_left' (length_encodeFixed64 value), encodeFixed64, List.reverse_reverse, ofBe_beBytes]
  have h := value.toNat_lt
  rw [Nat.mod_eq_of_lt (by omega)]
  exact UInt64.ofNat_toNat

@[simp] theorem decodeFixed64_encodeFixed64_self (value : UInt64) :
    decodeFixed64 (encodeFixed64 value) = value := by
  have h := decodeFixed64_encodeFixed64 value []
  rwa [List.append_nil] at h

/-! ## Numbers in groups of seven bits -/

def encodeVarint32 (v : UInt32) : Slice :=
  let B : UInt32 := 128
  if v < (1 : UInt32) <<< 7 then
    [v.toUInt8]
  else if v < (1 : UInt32) <<< 14 then
    [(v ||| B).toUInt8, (v >>> 7).toUInt8]
  else if v < (1 : UInt32) <<< 21 then
    [(v ||| B).toUInt8, ((v >>> 7) ||| B).toUInt8, (v >>> 14).toUInt8]
  else if v < (1 : UInt32) <<< 28 then
    [(v ||| B).toUInt8, ((v >>> 7) ||| B).toUInt8, ((v >>> 14) ||| B).toUInt8, (v >>> 21).toUInt8]
  else
    [(v ||| B).toUInt8, ((v >>> 7) ||| B).toUInt8, ((v >>> 14) ||| B).toUInt8,
      ((v >>> 21) ||| B).toUInt8, (v >>> 28).toUInt8]

def putVarint32 (dst : Slice) (v : UInt32) : Slice := dst ++ encodeVarint32 v

/-- The loop writes one byte for each group but the last. -/
def encodeVarint64 (v : UInt64) : Slice :=
  let B : UInt64 := 128
  if v ≥ B then ((v &&& (B - 1)) ||| B).toUInt8 :: encodeVarint64 (v >>> 7) else [v.toUInt8]
termination_by v.toNat
decreasing_by
  rename_i h
  rw [ge_iff_le, UInt64.le_iff_toNat_le] at h
  have h7 : (v >>> 7).toNat = v.toNat / 128 := by
    rw [UInt64.toNat_shiftRight]
    simp [Nat.shiftRight_eq_div_pow]
  have h128 : B.toNat = 128 := rfl
  omega

def putVarint64 (dst : Slice) (v : UInt64) : Slice := dst ++ encodeVarint64 v

/-- `GetVarint32PtrFallback` from the byte at position `shift / 7` on. -/
def getVarint32PtrFallback (shift result : UInt32) : Slice → Option (UInt32 × Slice)
  | [] => none
  | b :: p =>
    if shift ≤ 28 then
      if b.toUInt32 &&& 128 ≠ 0 then
        -- More bytes are present
        getVarint32PtrFallback (shift + 7) (result ||| ((b.toUInt32 &&& 127) <<< shift)) p
      else some (result ||| (b.toUInt32 <<< shift), p)
    else none

def getVarint32Ptr (p : Slice) : Option (UInt32 × Slice) :=
  match p with
  | b :: rest => if b.toUInt32 &&& 128 = 0 then some (b.toUInt32, rest) else getVarint32PtrFallback 0 0 p
  | [] => getVarint32PtrFallback 0 0 p

def getVarint32 (input : Slice) : Option (UInt32 × Slice) := getVarint32Ptr input

/-- The loop of `GetVarint64Ptr`. -/
def getVarint64Loop (shift : UInt32) (result : UInt64) : Slice → Option (UInt64 × Slice)
  | [] => none
  | b :: p =>
    if shift ≤ 63 then
      if b.toUInt64 &&& 128 ≠ 0 then
        getVarint64Loop (shift + 7) (result ||| ((b.toUInt64 &&& 127) <<< shift.toUInt64)) p
      else some (result ||| (b.toUInt64 <<< shift.toUInt64), p)
    else none

def getVarint64Ptr (p : Slice) : Option (UInt64 × Slice) := getVarint64Loop 0 0 p

def getVarint64 (input : Slice) : Option (UInt64 × Slice) := getVarint64Ptr input

/-! ## Slices with their length in front -/

/-- The length is a `size_t` that is written as a `uint32_t`. -/
def putLengthPrefixedSlice (dst value : Slice) : Slice :=
  putVarint32 dst (UInt32.ofNat value.length) ++ value

/-- The slice, and what follows it. -/
def getLengthPrefixedSlice (input : Slice) : Option (Slice × Slice) :=
  match getVarint32 input with
  | some (len, input) =>
    if len.toNat ≤ input.length then some (input.take len.toNat, input.drop len.toNat) else none
  | none => none

/-! ## The two readings of a group agree -/

theorem toUInt8_or_128 (w : UInt32) : (w ||| 128).toUInt8 = UInt8.ofNat (w.toNat % 128 + 128) := by
  apply UInt8.toNat_inj.mp
  rw [UInt32.toNat_toUInt8, UInt32.toNat_or, Varint.toNat_ofNat_of_lt (by omega)]
  exact Varint.or_128_mod w.toNat

theorem toUInt8_eq (w : UInt32) : w.toUInt8 = UInt8.ofNat w.toNat := by
  apply UInt8.toNat_inj.mp
  rw [UInt32.toNat_toUInt8, UInt8.toNat_ofNat']

theorem toNat_shiftRight {w : UInt32} {k : UInt32} (hk : k.toNat < 32) :
    (w >>> k).toNat = w.toNat / 2 ^ k.toNat := by
  rw [UInt32.toNat_shiftRight, Nat.mod_eq_of_lt hk, Nat.shiftRight_eq_div_pow]

theorem encodeVarint32_eq (v : UInt32) : encodeVarint32 v = Varint.encode 5 v.toNat := by
  have hv := v.toNat_lt
  have h7 : (v >>> 7).toNat = v.toNat / 128 := toNat_shiftRight (by decide)
  have h14 : (v >>> 14).toNat = v.toNat / 128 / 128 := by
    rw [Nat.div_div_eq_div_mul]
    exact toNat_shiftRight (by decide)
  have h21 : (v >>> 21).toNat = v.toNat / 128 / 128 / 128 := by
    rw [Nat.div_div_eq_div_mul, Nat.div_div_eq_div_mul]
    exact toNat_shiftRight (by decide)
  have h28 : (v >>> 28).toNat = v.toNat / 128 / 128 / 128 / 128 := by
    rw [Nat.div_div_eq_div_mul, Nat.div_div_eq_div_mul, Nat.div_div_eq_div_mul]
    exact toNat_shiftRight (by decide)
  have b7 : v < (1 : UInt32) <<< 7 ↔ v.toNat < 128 := UInt32.lt_iff_toNat_lt
  have b14 : v < (1 : UInt32) <<< 14 ↔ v.toNat / 128 < 128 := by
    rw [UInt32.lt_iff_toNat_lt, show ((1 : UInt32) <<< 14).toNat = 16384 from rfl]
    omega
  have b21 : v < (1 : UInt32) <<< 21 ↔ v.toNat / 128 / 128 < 128 := by
    rw [UInt32.lt_iff_toNat_lt, show ((1 : UInt32) <<< 21).toNat = 2097152 from rfl]
    omega
  have b28 : v < (1 : UInt32) <<< 28 ↔ v.toNat / 128 / 128 / 128 < 128 := by
    rw [UInt32.lt_iff_toNat_lt, show ((1 : UInt32) <<< 28).toNat = 268435456 from rfl]
    omega
  have last : v.toNat / 128 / 128 / 128 / 128 < 128 := by omega
  unfold encodeVarint32
  simp only [toUInt8_or_128]
  simp only [toUInt8_eq, h7, h14, h21, h28, b7, b14, b21, b28, Varint.encode, last, if_true]
  split_ifs <;> rfl

/-- One round of the loop of `EncodeVarint64`. -/
theorem encodeVarint64_step (v : UInt64) :
    encodeVarint64 v =
      if v.toNat < 128 then [UInt8.ofNat v.toNat]
      else UInt8.ofNat (v.toNat % 128 + 128) :: encodeVarint64 (v >>> 7) := by
  have hge : v ≥ 128 ↔ ¬ v.toNat < 128 := by
    rw [ge_iff_le, UInt64.le_iff_toNat_le, not_lt]
    rfl
  rw [encodeVarint64]
  simp only [hge, ite_not]
  split_ifs
  · rfl
  · congr 1
    apply UInt8.toNat_inj.mp
    rw [UInt64.toNat_toUInt8, UInt64.toNat_or, UInt64.toNat_and, Varint.toNat_ofNat_of_lt (by omega)]
    show (v.toNat &&& 127 ||| 128) % 256 = _
    rw [Varint.and_127, Varint.or_128_mod]
    omega

theorem encodeVarint64_eq : ∀ {k : ℕ} {v : UInt64}, 0 < k → v.toNat < 128 ^ k →
    encodeVarint64 v = Varint.encode k v.toNat
  | k + 1, v, _, h => by
    have h7 : (v >>> 7).toNat = v.toNat / 128 := by
      rw [UInt64.toNat_shiftRight]
      simp [Nat.shiftRight_eq_div_pow]
    rw [encodeVarint64_step]
    unfold Varint.encode
    split_ifs with hv
    · rfl
    · have hlt : (v >>> 7).toNat < 128 ^ k := by
        rw [h7, Nat.div_lt_iff_lt_mul (by omega), ← pow_succ]
        exact h
      have hk : 0 < k := by
        rcases Nat.eq_zero_or_pos k with rfl | hk
        · rw [pow_zero] at hlt
          omega
        · exact hk
      rw [encodeVarint64_eq hk hlt, h7]

/-- The loop is the one of the library, on a word of 32 bits. -/
theorem getVarint32PtrFallback_eq : ∀ (p : Slice) {i : ℕ} (r : UInt32), i ≤ 5 →
    getVarint32PtrFallback (UInt32.ofNat (7 * i)) r p =
      (Varint.decodeOr 32 (5 - i) (7 * i) r.toNat p).map fun m => (UInt32.ofNat m.1, m.2)
  | [], i, r, _ => by
    rcases h : 5 - i with _ | k <;> rfl
  | b :: p, i, r, hi => by
    have hs : (UInt32.ofNat (7 * i)).toNat = 7 * i := by
      rw [UInt32.toNat_ofNat', Nat.mod_eq_of_lt (by omega)]
    have hle : UInt32.ofNat (7 * i) ≤ 28 ↔ i ≤ 4 := by
      rw [UInt32.le_iff_toNat_le, hs, show (28 : UInt32).toNat = 28 from rfl]
      omega
    have hmore : b.toUInt32 &&& 128 ≠ 0 ↔ ¬ b.toNat < 128 := by
      rw [ne_eq, ← UInt32.toNat_inj, UInt32.toNat_and, UInt8.toNat_toUInt32]
      exact not_congr (Varint.and_128_eq_zero_iff b.toNat_lt)
    have hlow : (b.toUInt32 &&& 127).toNat = b.toNat % 128 := by
      rw [UInt32.toNat_and, UInt8.toNat_toUInt32]
      exact Varint.and_127 _
    have hor (x : UInt32) (h4 : i ≤ 4) : (r ||| (x <<< UInt32.ofNat (7 * i))).toNat =
        r.toNat ||| (x.toNat * 2 ^ (7 * i) % 2 ^ 32) := by
      rw [UInt32.toNat_or, UInt32.toNat_shiftLeft, hs, Nat.mod_eq_of_lt (by omega : 7 * i < 32),
        Nat.shiftLeft_eq]
    unfold getVarint32PtrFallback
    simp only [hle, hmore, ite_not]
    by_cases h4 : i ≤ 4
    · obtain ⟨k, hk⟩ : ∃ k, 5 - i = k + 1 := ⟨4 - i, by omega⟩
      rw [if_pos h4, hk]
      unfold Varint.decodeOr
      split_ifs with hlast
      · rw [Option.map_some, ← b.toNat_toUInt32, ← hor _ h4, UInt32.ofNat_toNat]
      · have hshift : UInt32.ofNat (7 * i) + 7 = UInt32.ofNat (7 * (i + 1)) := by
          rw [Nat.mul_add, UInt32.ofNat_add]
          rfl
        rw [hshift, getVarint32PtrFallback_eq p _ (by omega : i + 1 ≤ 5), hor _ h4, hlow,
          show 5 - (i + 1) = k by omega]
        rfl
    · rw [if_neg h4, show 5 - i = 0 by omega]
      rfl

theorem getVarint64Loop_eq : ∀ (p : Slice) {i : ℕ} (r : UInt64), i ≤ 10 →
    getVarint64Loop (UInt32.ofNat (7 * i)) r p =
      (Varint.decodeOr 64 (10 - i) (7 * i) r.toNat p).map fun m => (UInt64.ofNat m.1, m.2)
  | [], i, r, _ => by
    rcases h : 10 - i with _ | k <;> rfl
  | b :: p, i, r, hi => by
    have hs : (UInt32.ofNat (7 * i)).toNat = 7 * i := by
      rw [UInt32.toNat_ofNat', Nat.mod_eq_of_lt (by omega)]
    have hle : UInt32.ofNat (7 * i) ≤ 63 ↔ i ≤ 9 := by
      rw [UInt32.le_iff_toNat_le, hs, show (63 : UInt32).toNat = 63 from rfl]
      omega
    have hmore : b.toUInt64 &&& 128 ≠ 0 ↔ ¬ b.toNat < 128 := by
      rw [ne_eq, ← UInt64.toNat_inj, UInt64.toNat_and, UInt8.toNat_toUInt64]
      exact not_congr (Varint.and_128_eq_zero_iff b.toNat_lt)
    have hlow : (b.toUInt64 &&& 127).toNat = b.toNat % 128 := by
      rw [UInt64.toNat_and, UInt8.toNat_toUInt64]
      exact Varint.and_127 _
    have hor (x : UInt64) (h9 : i ≤ 9) : (r ||| (x <<< (UInt32.ofNat (7 * i)).toUInt64)).toNat =
        r.toNat ||| (x.toNat * 2 ^ (7 * i) % 2 ^ 64) := by
      rw [UInt64.toNat_or, UInt64.toNat_shiftLeft, UInt32.toNat_toUInt64, hs,
        Nat.mod_eq_of_lt (by omega : 7 * i < 64), Nat.shiftLeft_eq]
    unfold getVarint64Loop
    simp only [hle, hmore, ite_not]
    by_cases h9 : i ≤ 9
    · obtain ⟨k, hk⟩ : ∃ k, 10 - i = k + 1 := ⟨9 - i, by omega⟩
      rw [if_pos h9, hk]
      unfold Varint.decodeOr
      split_ifs with hlast
      · rw [Option.map_some, ← b.toNat_toUInt64, ← hor _ h9, UInt64.ofNat_toNat]
      · have hshift : UInt32.ofNat (7 * i) + 7 = UInt32.ofNat (7 * (i + 1)) := by
          rw [Nat.mul_add, UInt32.ofNat_add]
          rfl
        rw [hshift, getVarint64Loop_eq p _ (by omega : i + 1 ≤ 10), hor _ h9, hlow,
          show 10 - (i + 1) = k by omega]
        rfl
    · rw [if_neg h9, show 10 - i = 0 by omega]
      rfl

/-- The fast path for one byte reads what the loop reads. -/
theorem getVarint32_eq (p : Slice) :
    getVarint32 p = (Varint.decode 5 p).map fun m => (UInt32.ofNat m.1, m.2) := by
  have h : getVarint32PtrFallback 0 0 p =
      (Varint.decode 5 p).map fun m => (UInt32.ofNat m.1, m.2) := by
    show getVarint32PtrFallback (UInt32.ofNat (7 * 0)) 0 p = _
    rw [getVarint32PtrFallback_eq p 0 (by omega : 0 ≤ 5), Varint.decodeOr_eq p (by omega) (by simp),
      Option.map_map]
    congr 1
    funext m
    exact Prod.ext (UInt32.toNat_inj.mp (by simp)) rfl
  unfold getVarint32 getVarint32Ptr
  cases p with
  | nil => exact h
  | cons b p =>
    have hlast : b.toUInt32 &&& 128 = 0 ↔ b.toNat < 128 := by
      rw [← UInt32.toNat_inj, UInt32.toNat_and, UInt8.toNat_toUInt32]
      exact Varint.and_128_eq_zero_iff b.toNat_lt
    simp only [hlast]
    split_ifs with hb
    · unfold Varint.decode
      rw [if_pos hb, Option.map_some]
      congr 2
      exact (UInt32.ofNat_toNat.symm.trans (by rw [UInt8.toNat_toUInt32]))
    · exact h

theorem getVarint64_eq (p : Slice) :
    getVarint64 p = (Varint.decode 10 p).map fun m => (UInt64.ofNat m.1, m.2) := by
  show getVarint64Loop (UInt32.ofNat (7 * 0)) 0 p = _
  rw [getVarint64Loop_eq p 0 (by omega : 0 ≤ 10), Varint.decodeOr_eq p (by omega) (by simp),
    Option.map_map]
  congr 1
  funext m
  exact Prod.ext (UInt64.toNat_inj.mp (by simp)) rfl

theorem getVarint32_put (v : UInt32) (rest : Slice) :
    getVarint32 (encodeVarint32 v ++ rest) = some (v, rest) := by
  have h := v.toNat_lt
  rw [getVarint32_eq, encodeVarint32_eq, Varint.decode_encode_append (by omega) (by omega),
    Option.map_some, UInt32.ofNat_toNat]

theorem getVarint64_put (v : UInt64) (rest : Slice) :
    getVarint64 (encodeVarint64 v ++ rest) = some (v, rest) := by
  have h := v.toNat_lt
  rw [getVarint64_eq, encodeVarint64_eq (by omega : 0 < 10) (by omega),
    Varint.decode_encode_append (by omega) (by omega), Option.map_some, UInt64.ofNat_toNat]

theorem getVarint32_of_cut {v : UInt32} {p q : Slice} (h : encodeVarint32 v = p ++ q) (hq : q ≠ []) :
    getVarint32 p = none := by
  rw [encodeVarint32_eq] at h
  rw [getVarint32_eq, Varint.decode_of_cut h hq, Option.map_none]

/-- Every number is read back whatever follows it, takes at most five (ten) bytes, and is refused
when it is cut off. -/
theorem varint_roundTrip :
    (∀ (v : UInt32) (rest : Slice), getVarint32 (putVarint32 [] v ++ rest) = some (v, rest) ∧
      (putVarint32 [] v).length ≤ 5 ∧
      ∀ p q, putVarint32 [] v = p ++ q → q ≠ [] → getVarint32 p = none) ∧
    ∀ (v : UInt64) (rest : Slice), getVarint64 (putVarint64 [] v ++ rest) = some (v, rest) ∧
      (putVarint64 [] v).length ≤ 10 ∧
      ∀ p q, putVarint64 [] v = p ++ q → q ≠ [] → getVarint64 p = none := by
  constructor
  · intro v rest
    refine ⟨getVarint32_put v rest, ?_, ?_⟩
    · show (encodeVarint32 v).length ≤ 5
      rw [encodeVarint32_eq]
      exact Varint.length_encode_le 5 v.toNat
    · intro p q h hq
      exact getVarint32_of_cut h hq
  · intro v rest
    have hv := v.toNat_lt
    have he : encodeVarint64 v = Varint.encode 10 v.toNat := encodeVarint64_eq (by omega) (by omega)
    refine ⟨getVarint64_put v rest, ?_, ?_⟩
    · show (encodeVarint64 v).length ≤ 10
      rw [he]
      exact Varint.length_encode_le 10 v.toNat
    · intro p q h hq
      have h' : Varint.encode 10 v.toNat = p ++ q := he.symm.trans h
      rw [getVarint64_eq, Varint.decode_of_cut h' hq, Option.map_none]

/-! ## Slices -/

/-- A slice whose size a `uint32_t` holds. -/
def Fits (value : Slice) : Prop := value.length < 2 ^ 32

instance (value : Slice) : Decidable (Fits value) := inferInstanceAs (Decidable (_ < _))

theorem getLengthPrefixedSlice_eq (input : Slice) :
    getLengthPrefixedSlice input = (getVarint32 input).bind fun r =>
      if r.1.toNat ≤ r.2.length then some (r.2.take r.1.toNat, r.2.drop r.1.toNat) else none := by
  unfold getLengthPrefixedSlice
  rcases getVarint32 input with _ | ⟨len, rest⟩ <;> rfl

theorem getLengthPrefixedSlice_put {value : Slice} (h : Fits value) (rest : Slice) :
    getLengthPrefixedSlice (putLengthPrefixedSlice [] value ++ rest) = some (value, rest) := by
  have hlen : (UInt32.ofNat value.length).toNat = value.length := by
    rw [UInt32.toNat_ofNat', Nat.mod_eq_of_lt h]
  rw [getLengthPrefixedSlice_eq, putLengthPrefixedSlice, putVarint32, List.nil_append,
    List.append_assoc, getVarint32_put]
  simp [hlen]

/-- A slice that is cut off is refused. -/
theorem getLengthPrefixedSlice_of_cut {value p q : Slice} (h : Fits value)
    (hpq : putLengthPrefixedSlice [] value = p ++ q) (hq : q ≠ []) :
    getLengthPrefixedSlice p = none := by
  have hlen : (UInt32.ofNat value.length).toNat = value.length := by
    rw [UInt32.toNat_ofNat', Nat.mod_eq_of_lt h]
  rw [putLengthPrefixedSlice, putVarint32, List.nil_append] at hpq
  rw [getLengthPrefixedSlice_eq]
  rcases Frames.cut_append hpq with ⟨t, ht, hne⟩ | ⟨t, rfl, ht⟩
  · rw [getVarint32_of_cut ht hne, Option.bind_none]
  · -- the length is there, and bytes of the slice are missing
    have hpos : 0 < q.length := List.length_pos_iff.mpr hq
    have hlt : value.length = t.length + q.length := by rw [ht, List.length_append]
    rw [getVarint32_put, Option.bind_some, if_neg]
    show ¬ (UInt32.ofNat value.length).toNat ≤ t.length
    omega

theorem length_getLengthPrefixedSlice {input value rest : Slice}
    (h : getLengthPrefixedSlice input = some (value, rest)) : rest.length < input.length := by
  rw [getLengthPrefixedSlice_eq, getVarint32_eq] at h
  obtain ⟨⟨len, input'⟩, hm, h⟩ := Option.bind_eq_some_iff.mp h
  obtain ⟨⟨n, r⟩, hd, he⟩ := Option.map_eq_some_iff.mp hm
  have hr : r = input' := congrArg Prod.snd he
  have hlt : r.length < input.length := Varint.length_of_decode hd
  have hle : (List.drop len.toNat input').length ≤ input'.length := by simp
  simp only at h
  split_ifs at h
  obtain ⟨-, rfl⟩ := Prod.mk.inj (Option.some.inj h)
  rw [← hr] at hle ⊢
  omega

end Leveldb
