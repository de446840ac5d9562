import WorldToPE.Lib.DataStream
import WorldToPE.Nbt.Tag

/-!
# WorldToPE.Nbt.Stream — the binary form of tags

`NBTInputStream` and `NBTOutputStream`, in both byte orders.  A tag is its type, its name and its
payload; the elements of a list have a payload only, and a compound ends with the type `0`.

Java's call stack is not modelled: the readers get a bound on the number of nested calls that is large
enough for every input, `2 * input.length + 3`.
-/

namespace WorldToPE

open Java Run DataStream

/-- `NBTUtils.getTypeCode`. -/
def TagType.code : TagType → UInt8
  | .endTag => 0
  | .byte => 1
  | .short => 2
  | .int => 3
  | .long => 4
  | .float => 5
  | .double => 6
  | .byteArray => 7
  | .string => 8
  | .list => 9
  | .compound => 10
  | .intArray => 11
  | .shortArray => 100

/-- The class with the given type code. -/
def TagType.ofCode (type : UInt8) : Option TagType :=
  [TagType.endTag, .byte, .short, .int, .long, .float, .double, .byteArray, .string, .list, .compound,
    .intArray, .shortArray].find? fun t => t.code = type

@[simp] theorem TagType.ofCode_code (t : TagType) : ofCode t.code = some t := by
  cases t <;> rfl

theorem TagType.code_eq_zero {t : TagType} : t.code = 0 ↔ t = .endTag := by
  cases t <;> decide

section Stream

variable (littleEndian : Bool)

/-! ## Writing -/

/-- A string in UTF-8 behind its length, of which the low 16 bits are written. -/
def stringBytes (s : String) : List UInt8 :=
  shortBytes littleEndian (Int16.ofNat (getBytes s).length) ++ getBytes s

/-- The length of an array or list. -/
def lengthBytes (n : ℕ) : List UInt8 := int32Bytes littleEndian (Int32.ofNat n)

/-- What `writeTag` writes in front of the payload. -/
def headerBytes (t : Tag) : List UInt8 := t.type.code :: stringBytes littleEndian t.name

mutual

def writeTagPayload : Tag → Except Exn (List UInt8)
  | .endTag => return []
  | .byte _ v => return [v]
  | .short _ v => return shortBytes littleEndian v
  | .int _ v => return int32Bytes littleEndian v
  | .long _ v => return longBytes littleEndian v
  | .float _ v => return floatBytes littleEndian v
  | .double _ v => return doubleBytes littleEndian v
  | .byteArray _ v => return lengthBytes littleEndian v.length ++ v
  | .string _ v => return stringBytes littleEndian v
  | .list _ type tags => do
    let payloads ← writePayloads tags
    return type.code :: (lengthBytes littleEndian tags.length ++ payloads)
  | .compound _ tags => do
    let children ← writeTags tags
    return children ++ [0]
  | .intArray _ v => return lengthBytes littleEndian v.length ++ v.flatMap (int32Bytes littleEndian)
  | .shortArray _ v => return lengthBytes littleEndian v.length ++ v.flatMap (shortBytes littleEndian)

/-- The elements of a list. -/
def writePayloads : List Tag → Except Exn (List UInt8)
  | [] => return []
  | t :: ts => do
    let payload ← writeTagPayload t
    let payloads ← writePayloads ts
    return payload ++ payloads

/-- The children of a compound: `writeTag` for each. -/
def writeTags : List Tag → Except Exn (List UInt8)
  | [] => return []
  | t :: ts => do
    if t.type = .endTag then throw .io
    let payload ← writeTagPayload t
    let children ← writeTags ts
    return headerBytes littleEndian t ++ (payload ++ children)

end

def writeTag (t : Tag) : Except Exn (List UInt8) := do
  if t.type = .endTag then throw .io
  let payload ← writeTagPayload littleEndian t
  return headerBytes littleEndian t ++ payload

/-! ## Reading -/

/-- The length of a name: unsigned in big-endian and signed in little-endian streams. -/
def readNameLength : In Int :=
  if littleEndian then do
    let nameLength ← readShort true
    return nameLength.toInt
  else do
    let nameLength ← readNumber false 2
    return (nameLength : Int)

def readName : In String := do
  let nameLength ← readNameLength littleEndian
  let n ← arraySize nameLength
  let nameBytes ← readFully n
  return ofBytes nameBytes

def readString : In String := do
  let length ← readShort littleEndian
  let n ← arraySize length.toInt
  let bytes ← readFully n
  return ofBytes bytes

/-- The size of an array. -/
def readLength : In ℕ := do
  let length ← readInt littleEndian
  arraySize length.toInt

-- The first argument bounds the number of nested calls; `readTag` below gives enough of them.
mutual

def readTagAt : ℕ → ℕ → In Tag
  | 0, _ => throw .stackOverflow
  | fuel + 1, depth => do
    let type ← readByte
    if type = 0 then readTagPayload fuel type "" depth
    else do
      let name ← readName littleEndian
      readTagPayload fuel type name depth
termination_by structural fuel => fuel

def readTagPayload : ℕ → UInt8 → String → ℕ → In Tag
  | 0, _, _, _ => throw .stackOverflow
  | fuel + 1, type, name, depth =>
    match TagType.ofCode type with
    | none => throw .io
    | some .endTag => if depth = 0 then throw .io else return .endTag
    | some .byte => return .byte name (← readByte)
    | some .short => return .short name (← readShort littleEndian)
    | some .int => return .int name (← readInt littleEndian)
    | some .long => return .long name (← readLong littleEndian)
    | some .float => return .float name (← readFloat littleEndian)
    | some .double => return .double name (← readDouble littleEndian)
    | some .byteArray => do
      let n ← readLength littleEndian
      return .byteArray name (← readFully n)
    | some .string => return .string name (← readString littleEndian)
    | some .list => do
      let childType ← readByte
      let length ← readInt littleEndian
      match TagType.ofCode childType with
      | none => throw .illegalArgument
      | some clazz => return .list name clazz (← readElements fuel clazz depth length.toInt.toNat)
    | some .compound => return .compound name (← readChildren fuel depth)
    | some .intArray => do
      let n ← readLength littleEndian
      return .intArray name (← readMany (readInt littleEndian) n)
    | some .shortArray => do
      let n ← readLength littleEndian
      return .shortArray name (← readMany (readShort littleEndian) n)
termination_by structural fuel => fuel

/-- The loop over the elements of a list. -/
def readElements : ℕ → TagType → ℕ → ℕ → In (List Tag)
  | 0, _, _, _ => throw .stackOverflow
  | _ + 1, _, _, 0 => return []
  | fuel + 1, clazz, depth, n + 1 => do
    let tag ← readTagPayload fuel clazz.code "" (depth + 1)
    if tag.type = .endTag then throw .io
    else if tag.type ≠ clazz then throw .io
    else do
      let tags ← readElements fuel clazz depth n
      return tag :: tags
termination_by structural fuel => fuel

/-- The loop over the children of a compound. -/
def readChildren : ℕ → ℕ → In (List Tag)
  | 0, _ => throw .stackOverflow
  | fuel + 1, depth => do
    let tag ← readTagAt fuel (depth + 1)
    if tag.type = .endTag then return []
    else do
      let tags ← readChildren fuel depth
      return tag :: tags
termination_by structural fuel => fuel

end

/-- `readTag()`. -/
def readTag : In Tag := fun input => readTagAt littleEndian (2 * input.length + 3) 0 input

end Stream

end WorldToPE
