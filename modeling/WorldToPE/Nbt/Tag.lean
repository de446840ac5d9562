import WorldToPE.Lib.JavaArray
import WorldToPE.Lib.JavaFloat

/-!
# WorldToPE.Nbt.Tag — NBT tags

The classes of `org.spout.nbt`: a tag has a name and a value, list tags and compounds contain tags.
`toMap` is the lookup by name that all readers start with; the casts `asInt`, `asByte`, … are the
Java casts of a tag that may be `null`.
-/

namespace WorldToPE

open Java

/-- The classes of tags. -/
inductive TagType
  | endTag
  | byte
  | short
  | int
  | long
  | float
  | double
  | byteArray
  | string
  | list
  | compound
  | intArray
  | shortArray
deriving DecidableEq, Repr

/-- A tag.  The bytes of byte tags and byte arrays are kept as bit patterns. -/
inductive Tag
  | endTag
  | byte (name : String) (value : UInt8)
  | short (name : String) (value : Int16)
  | int (name : String) (value : Int32)
  | long (name : String) (value : Int64)
  | float (name : String) (value : JFloat)
  | double (name : String) (value : JDouble)
  | byteArray (name : String) (value : List UInt8)
  | string (name : String) (value : String)
  | list (name : String) (type : TagType) (value : List Tag)
  | compound (name : String) (value : List Tag)
  | intArray (name : String) (value : List Int32)
  | shortArray (name : String) (value : List Int16)

namespace Tag

/-- `getName()`. -/
def name : Tag → String
  | .endTag => ""
  | .byte n _ => n
  | .short n _ => n
  | .int n _ => n
  | .long n _ => n
  | .float n _ => n
  | .double n _ => n
  | .byteArray n _ => n
  | .string n _ => n
  | .list n _ _ => n
  | .compound n _ => n
  | .intArray n _ => n
  | .shortArray n _ => n

/-- The class of a tag. -/
def type : Tag → TagType
  | .endTag => .endTag
  | .byte _ _ => .byte
  | .short _ _ => .short
  | .int _ _ => .int
  | .long _ _ => .long
  | .float _ _ => .float
  | .double _ _ => .double
  | .byteArray _ _ => .byteArray
  | .string _ _ => .string
  | .list _ _ _ => .list
  | .compound _ _ => .compound
  | .intArray _ _ => .intArray
  | .shortArray _ _ => .shortArray

/-- `toMap(tag).get(name)` for the children of a compound: a later child replaces an earlier one of
the same name. -/
def toMap (children : List Tag) (name : String) : Option Tag :=
  children.reverse.find? fun t => t.name = name

/-! ## Casts -/

/-- `((ByteTag) tag).getValue()`. -/
def asByte : Option Tag → Except Exn UInt8
  | none => .error .nullPointer
  | some (.byte _ v) => .ok v
  | some _ => .error .classCast

def asShort : Option Tag → Except Exn Int16
  | none => .error .nullPointer
  | some (.short _ v) => .ok v
  | some _ => .error .classCast

def asInt : Option Tag → Except Exn Int32
  | none => .error .nullPointer
  | some (.int _ v) => .ok v
  | some _ => .error .classCast

def asLong : Option Tag → Except Exn Int64
  | none => .error .nullPointer
  | some (.long _ v) => .ok v
  | some _ => .error .classCast

def asFloat : Option Tag → Except Exn JFloat
  | none => .error .nullPointer
  | some (.float _ v) => .ok v
  | some _ => .error .classCast

def asString : Option Tag → Except Exn String
  | none => .error .nullPointer
  | some (.string _ v) => .ok v
  | some _ => .error .classCast

def asByteArray : Option Tag → Except Exn (List UInt8)
  | none => .error .nullPointer
  | some (.byteArray _ v) => .ok v
  | some _ => .error .classCast

/-- `((ListTag) tag).getValue()`. -/
def asList : Option Tag → Except Exn (List Tag)
  | none => .error .nullPointer
  | some (.list _ _ v) => .ok v
  | some _ => .error .classCast

/-- `((CompoundTag) tag).getValue()`. -/
def asCompound : Option Tag → Except Exn (List Tag)
  | none => .error .nullPointer
  | some (.compound _ v) => .ok v
  | some _ => .error .classCast

end Tag

end WorldToPE
