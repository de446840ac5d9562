import WorldToPE.Lib.JavaArray
import WorldToPE.Lib.Run

/-!
# WorldToPE.Lib.SeekFile — a `RandomAccessFile`

The file is its bytes and a file pointer; reads and writes happen at the pointer and move it.  A read
past the end throws `EOFException` after consuming what was left.  The operations are `EStateM`
actions on the file; `onFile` runs one inside an object that owns the file, and `catchIO` is
`try { … } catch (IOException e) { … }`.

* `put_zeros`: writing zeros inside the file overwrites in place and keeps the length.
* `writeBytes_spec`: writing inside the file or at its end puts the bytes over what was there.
* `readInt_spec`: reading inside the file returns the big-endian `int` at the pointer.
-/

namespace Java

open Run

/-- An open file: its content and the file pointer. -/
structure SeekFile where
  bytes : List UInt8
  pos : ℕ
deriving DecidableEq, Repr

namespace SeekFile

abbrev F := EStateM Exn SeekFile

/-- A freshly opened file has its pointer at `0`. -/
def opened (bytes : List UInt8) : SeekFile := ⟨bytes, 0⟩

def length : F ℕ := return (← get).bytes.length

/-- `seek(long)`. -/
def seek (offset : Int) : F Unit := do
  if offset < 0 then throw .io
  modify fun f => { f with pos := offset.toNat }

/-- The file after a byte was written at the pointer; a gap behind the end is filled with zeros. -/
def put (f : SeekFile) (b : UInt8) : SeekFile :=
  if f.pos < f.bytes.length then ⟨f.bytes.set f.pos b, f.pos + 1⟩
  else ⟨f.bytes ++ List.replicate (f.pos - f.bytes.length) 0 ++ [b], f.pos + 1⟩

def write (b : UInt8) : F Unit := modify fun f => f.put b

def writeBytes : List UInt8 → F Unit
  | [] => return ()
  | b :: bs => do
    write b
    writeBytes bs

def writeInt (n : Int32) : F Unit := writeBytes (intBytes n)

/-- `write(data, 0, length)`. -/
def writeRange (data : List UInt8) (length : Int32) : F Unit := do
  if length < 0 ∨ (data.length : Int) < length.toInt then throw .indexOutOfBounds
  writeBytes (data.take length.toInt.toNat)

/-- `read(byte[])` of up to `n` bytes: the bytes that were there. -/
def readUpTo (n : ℕ) : F (List UInt8) := do
  let f ← get
  let bs := (f.bytes.drop f.pos).take n
  set { f with pos := f.pos + bs.length }
  return bs

def readInt : F Int32 := do
  let bs ← readUpTo 4
  if bs.length < 4 then throw .eof
  return ofIntBytes bs

def readByte : F UInt8 := do
  match ← readUpTo 1 with
  | [b] => return b
  | _ => throw .eof

/-! ## Specifications -/

/-- Writing `n` zeros inside the file. -/
theorem put_zeros (f : SeekFile) : ∀ n, f.pos + n ≤ f.bytes.length →
    (fun g => g.put 0)^[n] f =
      ⟨f.bytes.take f.pos ++ List.replicate n 0 ++ f.bytes.drop (f.pos + n), f.pos + n⟩
  | 0, _ => by simp
  | n + 1, h => by
    have ih := put_zeros f n (by omega)
    have hlt : f.pos + n < f.bytes.length := by omega
    rw [Function.iterate_succ_apply', ih, put]
    have hlen : (f.bytes.take f.pos ++ List.replicate n 0).length = f.pos + n := by
      simp
      omega
    dsimp only
    rw [if_pos (by simp; omega)]
    congr 1
    rw [List.set_append_right _ _ (by omega), hlen, Nat.sub_self, List.drop_eq_getElem_cons hlt,
      List.set_cons_zero, List.replicate_succ']
    simp [Nat.add_assoc]

theorem put_eq_overwrite {f : SeekFile} (h : f.pos ≤ f.bytes.length) (b : UInt8) :
    f.put b = ⟨overwrite f.bytes f.pos [b], f.pos + 1⟩ := by
  unfold put overwrite
  by_cases hlt : f.pos < f.bytes.length
  · rw [if_pos hlt, List.set_eq_take_append_cons_drop, if_pos hlt]
    simp
  · have he : f.pos = f.bytes.length := by omega
    rw [if_neg hlt, he]
    simp

/-- **Writing** at a pointer inside the file or at its end. -/
theorem writeBytes_spec : ∀ (bs : List UInt8) {f : SeekFile}, f.pos ≤ f.bytes.length →
    writeBytes bs f = .ok () ⟨overwrite f.bytes f.pos bs, f.pos + bs.length⟩
  | [], f, h => by simp [writeBytes, overwrite]
  | b :: bs, f, h => by
    have hput := put_eq_overwrite h b
    have hw : write b f = .ok () ⟨overwrite f.bytes f.pos [b], f.pos + 1⟩ := by
      rw [← hput]
      rfl
    have hle : f.pos + 1 ≤ (overwrite f.bytes f.pos [b]).length := by
      rw [length_overwrite h, List.length_singleton]
      omega
    have ih := writeBytes_spec bs (f := ⟨overwrite f.bytes f.pos [b], f.pos + 1⟩) hle
    rw [overwrite_cons h, Nat.add_assoc, Nat.add_comm 1] at ih
    rw [writeBytes, bind_of_ok hw, ih, List.length_cons]

theorem writeBytes_append : ∀ as bs : List UInt8,
    writeBytes (as ++ bs) = do writeBytes as; writeBytes bs
  | [], bs => rfl
  | a :: as, bs => by
    rw [List.cons_append, writeBytes, writeBytes, writeBytes_append as bs]
    rfl

theorem writeRange_eq {data : List UInt8} {length : Int32} {n : ℕ} (hn : length.toInt = n)
    (h : n ≤ data.length) : writeRange data length = writeBytes (data.take n) := by
  have hz : (0 : Int32).toInt = 0 := rfl
  have hok : ¬(length < 0 ∨ (data.length : Int) < length.toInt) := by
    rw [Int32.lt_iff_toInt_lt, hz, hn]
    omega
  unfold writeRange
  rw [if_neg hok, hn]
  rfl

theorem writeInt_spec (n : Int32) {f : SeekFile} (h : f.pos ≤ f.bytes.length) :
    writeInt n f = .ok () ⟨overwrite f.bytes f.pos (intBytes n), f.pos + 4⟩ := by
  unfold writeInt
  rw [writeBytes_spec _ h, length_intBytes]

theorem seek_neg {n : Int} (h : n < 0) (f : SeekFile) : seek n f = .error .io f := by
  unfold seek
  rw [if_pos h]
  rfl

theorem seek_nonneg {n : Int} (h : ¬ n < 0) (f : SeekFile) :
    seek n f = .ok () ⟨f.bytes, n.toNat⟩ := by
  unfold seek
  rw [if_neg h]
  rfl

/-- The `int` that starts at byte `p`. -/
def intAt (bytes : List UInt8) (p : ℕ) : Int32 := ofIntBytes ((bytes.drop p).take 4)

theorem intAt_nonneg_iff {bytes : List UInt8} {p : ℕ} (h : p + 4 ≤ bytes.length) :
    0 ≤ (intAt bytes p).toInt ↔ (bytes.getD p 0).toNat < 128 := by
  have hp : p < bytes.length := by omega
  unfold intAt
  rw [List.drop_eq_getElem_cons hp, List.take_succ_cons, ofIntBytes_nonneg_iff (by simp; omega),
    List.getD_eq_getElem?_getD, List.getElem?_eq_getElem hp, Option.getD_some]

theorem readInt_spec {f : SeekFile} (h : f.pos + 4 ≤ f.bytes.length) :
    readInt f = .ok (intAt f.bytes f.pos) { f with pos := f.pos + 4 } := by
  have hlen : ((f.bytes.drop f.pos).take 4).length = 4 := by
    rw [List.length_take, List.length_drop]
    omega
  unfold readInt readUpTo
  simp only [bind_apply, get_apply, set_apply, pure_apply, hlen]
  rfl

theorem readInt_eof {f : SeekFile} (h : f.bytes.length < f.pos + 4) :
    ∃ g, readInt f = .error .eof g := by
  have hlen : ((f.bytes.drop f.pos).take 4).length < 4 := by
    rw [List.length_take, List.length_drop]
    omega
  unfold readInt readUpTo
  simp only [bind_apply, get_apply, set_apply, pure_apply, if_pos hlen]
  exact ⟨_, rfl⟩

theorem readByte_spec {f : SeekFile} (h : f.pos < f.bytes.length) :
    readByte f = .ok (f.bytes.getD f.pos 0) { f with pos := f.pos + 1 } := by
  have htake : (f.bytes.drop f.pos).take 1 = [f.bytes.getD f.pos 0] := by
    rw [List.drop_eq_getElem_cons h, List.getD_eq_getElem?_getD, List.getElem?_eq_getElem h]
    rfl
  unfold readByte readUpTo
  simp only [bind_apply, get_apply, set_apply, pure_apply, htake]
  rfl

theorem readByte_eof {f : SeekFile} (h : f.bytes.length ≤ f.pos) : ∃ g, readByte f = .error .eof g := by
  have hnil : (f.bytes.drop f.pos).take 1 = [] := by
    rw [List.drop_eq_nil_of_le h, List.take_nil]
  unfold readByte readUpTo
  simp only [bind_apply, get_apply, set_apply, pure_apply, hnil]
  exact ⟨_, rfl⟩

/-! ### Reading what lies at the pointer -/

section AtPointer

variable {bytes : List UInt8} {p : ℕ}

theorem readUpTo_of_drop {bs rest : List UInt8} (h : bytes.drop p = bs ++ rest) :
    readUpTo bs.length ⟨bytes, p⟩ = .ok bs ⟨bytes, p + bs.length⟩ := by
  have htake : (bytes.drop p).take bs.length = bs := by
    rw [h, List.take_left]
  unfold readUpTo
  simp only [bind_apply, get_apply, set_apply, pure_apply, htake]

theorem readInt_of_drop {n : Int32} {rest : List UInt8} (h : bytes.drop p = intBytes n ++ rest) :
    readInt ⟨bytes, p⟩ = .ok n ⟨bytes, p + 4⟩ := by
  have hread := readUpTo_of_drop h
  rw [length_intBytes] at hread
  unfold readInt
  rw [bind_of_ok hread]
  simp

theorem readByte_of_drop {b : UInt8} {rest : List UInt8} (h : bytes.drop p = b :: rest) :
    readByte ⟨bytes, p⟩ = .ok b ⟨bytes, p + 1⟩ := by
  have hread := readUpTo_of_drop (show bytes.drop p = [b] ++ rest from h)
  rw [List.length_singleton] at hread
  unfold readByte
  rw [bind_of_ok hread]
  rfl

theorem drop_after {bs rest : List UInt8} (h : bytes.drop p = bs ++ rest) :
    bytes.drop (p + bs.length) = rest := by
  rw [← List.drop_drop, h, List.drop_left]

end AtPointer

end SeekFile

/-- Runs a file operation inside an object that owns the file. -/
def onFile {σ α : Type} (file : σ → SeekFile) (setFile : σ → SeekFile → σ) (m : SeekFile.F α) :
    EStateM Exn σ α := fun s =>
  match m (file s) with
  | .ok a f => .ok a (setFile s f)
  | .error e f => .error e (setFile s f)

/-- `try { m } catch (IOException e) { h }`. -/
def catchIO {σ α : Type} (m h : EStateM Exn σ α) : EStateM Exn σ α := fun s =>
  match m s with
  | .ok a s' => .ok a s'
  | .error e s' => if e.isIO then h s' else .error e s'

theorem catchIO_of_ok {σ α : Type} {m h : EStateM Exn σ α} {s s' : σ} {a : α} (hm : m s = .ok a s') :
    catchIO m h s = .ok a s' := by
  unfold catchIO
  rw [hm]

theorem after_catchIO_pure {σ α : Type} (m : EStateM Exn σ α) (b : α) (s : σ) :
    after ( catchIO m (pure b)) s = after m s := by
  unfold after catchIO
  cases m s with
  | ok a s' => rfl
  | error e s' => cases h : e.isIO <;> simp [h]

theorem result_catchIO_pure {σ α : Type} (m : EStateM Exn σ α) (b : α) (s : σ) :
    result ( catchIO m (pure b)) s = match result m s with
      | .ok a => .ok a
      | .error e => if e.isIO then .ok b else .error e := by
  unfold result catchIO
  cases m s with
  | ok a s' => rfl
  | error e s' => cases h : e.isIO <;> simp [h]

end Java
