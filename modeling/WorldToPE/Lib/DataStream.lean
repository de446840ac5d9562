import WorldToPE.Lib.JavaFloat
import WorldToPE.Lib.JavaString
import WorldToPE.Lib.Run

/-!
# WorldToPE.Lib.DataStream — numbers in byte streams

`DataInputStream` over a byte array: the state is what has not been read yet.  A read that finds too
few bytes takes them all and throws.  Every number comes in both byte orders; `reverseBytes` of the
number that was read is the number of the reversed bytes.

Each reader has a lemma `…_append`: it reads back what the writer of the same name wrote and leaves
the rest of the input.
-/

namespace Java

open Run

namespace DataStream

/-- A reader of a byte stream. -/
abbrev In := EStateM Exn (List UInt8)

/-- `readFully(new byte[n])`. -/
def readFully (n : ℕ) : In (List UInt8) := fun input =>
  if n ≤ input.length then .ok (input.take n) (input.drop n) else .error .eof []

theorem readFully_append (bs rest : List UInt8) :
    readFully bs.length (bs ++ rest) = .ok bs rest := by
  unfold readFully
  rw [if_pos (by simp), List.take_left, List.drop_left]

/-- `readByte()`. -/
def readByte : In UInt8
  | [] => .error .eof []
  | b :: input => .ok b input

@[simp] theorem readByte_cons (b : UInt8) (rest : List UInt8) : readByte (b :: rest) = .ok b rest := rfl

/-- `new byte[length]`: the size, if it is one. -/
def arraySize (length : Int) : In ℕ :=
  if length < 0 then throw .negativeArraySize else return length.toNat

theorem arraySize_natCast (n : ℕ) (rest : List UInt8) : arraySize n rest = .ok n rest := by
  unfold arraySize
  rw [if_neg (by omega)]
  rfl

section Numbers

variable (littleEndian : Bool)

/-- The `k` bytes of a number. -/
def number (k n : ℕ) : List UInt8 := if littleEndian then (beBytes k n).reverse else beBytes k n

@[simp] theorem length_number (k n : ℕ) : (number littleEndian k n).length = k := by
  unfold number
  split <;> simp

def readNumber (k : ℕ) : In ℕ := do
  let bs ← readFully k
  return ofBe (if littleEndian then bs.reverse else bs)

theorem readNumber_append {k n : ℕ} (h : n < 256 ^ k) (rest : List UInt8) :
    readNumber littleEndian k (number littleEndian k n ++ rest) = .ok n rest := by
  have hread := readFully_append (number littleEndian k n) rest
  rw [length_number] at hread
  unfold readNumber
  rw [bind_of_ok hread, pure_apply]
  unfold number
  cases littleEndian <;> simp [ofBe_beBytes, Nat.mod_eq_of_lt h]

/-- `writeShort`. -/
def shortBytes (n : Int16) : List UInt8 := number littleEndian 2 n.toBitVec.toNat

/-- `readShort`. -/
def readShort : In Int16 := do
  return Int16.ofBitVec (BitVec.ofNat 16 (← readNumber littleEndian 2))

/-- `writeInt`. -/
def int32Bytes (n : Int32) : List UInt8 := number littleEndian 4 n.toBitVec.toNat

/-- `readInt`. -/
def readInt : In Int32 := do
  return Int32.ofBitVec (BitVec.ofNat 32 (← readNumber littleEndian 4))

/-- `writeLong`. -/
def longBytes (n : Int64) : List UInt8 := number littleEndian 8 n.toBitVec.toNat

/-- `readLong`. -/
def readLong : In Int64 := do
  return Int64.ofBitVec (BitVec.ofNat 64 (← readNumber littleEndian 8))

theorem readShort_append (n : Int16) (rest : List UInt8) :
    readShort littleEndian (shortBytes littleEndian n ++ rest) = .ok n rest := by
  have hn : n.toBitVec.toNat < 256 ^ 2 := n.toBitVec.isLt
  unfold readShort shortBytes
  rw [bind_of_ok (readNumber_append littleEndian hn rest), BitVec.ofNat_toNat, BitVec.setWidth_eq]
  rfl

theorem readInt_append (n : Int32) (rest : List UInt8) :
    readInt littleEndian (int32Bytes littleEndian n ++ rest) = .ok n rest := by
  have hn : n.toBitVec.toNat < 256 ^ 4 := n.toBitVec.isLt
  unfold readInt int32Bytes
  rw [bind_of_ok (readNumber_append littleEndian hn rest), BitVec.ofNat_toNat, BitVec.setWidth_eq]
  rfl

theorem readLong_append (n : Int64) (rest : List UInt8) :
    readLong littleEndian (longBytes littleEndian n ++ rest) = .ok n rest := by
  have hn : n.toBitVec.toNat < 256 ^ 8 := n.toBitVec.isLt
  unfold readLong longBytes
  rw [bind_of_ok (readNumber_append littleEndian hn rest), BitVec.ofNat_toNat, BitVec.setWidth_eq]
  rfl

/-- `Float.floatToIntBits`, written as an `int`. -/
def floatBytes (f : JFloat) : List UInt8 := number littleEndian 4 f.bits.toNat

def readFloat : In JFloat := do
  return JFloat.ofBits (UInt32.ofNat (← readNumber littleEndian 4))

/-- `Double.doubleToLongBits`, written as a `long`. -/
def doubleBytes (f : JDouble) : List UInt8 := number littleEndian 8 f.bits.toNat

def readDouble : In JDouble := do
  return JDouble.ofBits (UInt64.ofNat (← readNumber littleEndian 8))

theorem readFloat_append (f : JFloat) (rest : List UInt8) :
    readFloat littleEndian (floatBytes littleEndian f ++ rest) = .ok f rest := by
  have hf : f.bits.toNat < 256 ^ 4 := f.bits.toNat_lt
  unfold readFloat floatBytes
  rw [bind_of_ok (readNumber_append littleEndian hf rest), UInt32.ofNat_toNat, JFloat.ofBits_bits]
  rfl

theorem readDouble_append (f : JDouble) (rest : List UInt8) :
    readDouble littleEndian (doubleBytes littleEndian f ++ rest) = .ok f rest := by
  have hf : f.bits.toNat < 256 ^ 8 := f.bits.toNat_lt
  unfold readDouble doubleBytes
  rw [bind_of_ok (readNumber_append littleEndian hf rest), UInt64.ofNat_toNat, JDouble.ofBits_bits]
  rfl

end Numbers

/-! ## Sequences -/

section Sequences

variable {α : Type}

/-- `n` times the same reader. -/
def readMany (read : In α) : ℕ → In (List α)
  | 0 => return []
  | n + 1 => do
    let a ← read
    let as ← readMany read n
    return a :: as

theorem readMany_append {read : In α} {bytes : α → List UInt8}
    (h : ∀ a rest, read (bytes a ++ rest) = .ok a rest) : ∀ (as : List α) (rest : List UInt8),
    readMany read as.length (as.flatMap bytes ++ rest) = .ok as rest
  | [], rest => rfl
  | a :: as, rest => by
    rw [List.flatMap_cons, List.append_assoc, List.length_cons, readMany, bind_of_ok (h a _),
      bind_of_ok (readMany_append h as rest)]
    rfl

end Sequences

end DataStream

end Java
