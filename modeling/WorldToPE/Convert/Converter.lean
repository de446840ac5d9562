import WorldToPE.Geo.Chunk
import WorldToPE.LevelDB.DBKey
import WorldToPE.Lib.Run
import WorldToPE.Nbt.Tag

/-!
# WorldToPE.Convert.Converter — converting one chunk

`DataLayer.java` and the chunk part of `Converter.java`.  The converter keeps one static chunk and one
static key for a whole world; they are the state here, together with the write batch the records are
put in.  An exception leaves the half-converted chunk behind for the next call.
-/

namespace WorldToPE

open Java Run Nibble

/-- `DataLayer`: a nibble array with its row width. -/
structure DataLayer where
  data : List UInt8
  depthBits : Int32

def DataLayer.get (l : DataLayer) (x y z : Int32) : Except Exn Int32 := do
  let pos := ((y <<< (l.depthBits + 4)) ||| (z <<< l.depthBits)) ||| x
  let slot := pos >>> 1
  let b ← lget l.data slot
  return if pos &&& 1 = 0 then widen b &&& 15 else (widen b >>> 4) &&& 15

/-- The statics of `Converter`, and the batch of the call. -/
structure Converter where
  peChunk : Chunk
  tempKey : DBKey
  batch : WriteBatch

namespace Converter

abbrev M := EStateM Exn Converter

/-- The statics as the class is loaded. -/
def initial : Converter := ⟨Chunk.new 0 0, DBKey.zero, []⟩

/-- A computation without effect on the statics. -/
def lift {α : Type} : Except Exn α → M α
  | .ok a => pure a
  | .error e => throw e

/-- A method that changes `peChunk`. -/
def onChunk (f : Chunk → Except Exn Chunk) : M Unit := do
  let s ← get
  let peChunk ← lift (f s.peChunk)
  set { s with peChunk }

def zeroChunk (c : Chunk) : Chunk :=
  { c with
    blocks := Vector.replicate 32768 0
    blockLight := Vector.replicate 16384 0
    skyLight := Vector.replicate 16384 0
    metaData := Vector.replicate 16384 0
    grassColor := Vector.replicate 768 0 }

def chunkSetHalf (arr : Vector UInt8 16384) (x y z newData : Int32) :
    Except Exn (Vector UInt8 16384) :=
  let offset := Chunk.getOffset x y z
  Chunk.setHalfAt arr offset newData (offset &&& 1 = 1)

/-- The four arrays of a section. -/
structure Layers where
  blocks : List UInt8
  data : List UInt8
  blockLight : List UInt8
  skyLight : List UInt8
deriving DecidableEq, Repr

section Convert

-- `Converter.blockTranslate`, filled by `BlockTranslationLoader`
variable (blockTranslate : Vector UInt8 256)

/-- The body of the innermost loop of `convertChunk`. -/
def convertCell (sectionY : Int32) (l : Layers) (x z y : Int32) : M Unit := do
  let yy := (sectionY <<< 4) + y
  let block ← lift (lget l.blocks (((z <<< 4) ||| x) ||| (y <<< 8)))
  let type ← lift (aget blockTranslate (widen block &&& 255))
  onChunk fun c => c.setBlockTypeIdNoDirty x yy z (widen type)
  let data ← lift (DataLayer.get ⟨l.data, 4⟩ x y z)
  onChunk fun c => c.setBlockDataNoDirty x yy z data
  let blockLight ← lift (DataLayer.get ⟨l.blockLight, 4⟩ x y z)
  onChunk fun c => return { c with blockLight := ← chunkSetHalf c.blockLight x yy z blockLight }
  let skyLight ← lift (DataLayer.get ⟨l.skyLight, 4⟩ x y z)
  onChunk fun c => return { c with skyLight := ← chunkSetHalf c.skyLight x yy z skyLight }

def convertSection (sectionTag : Tag) : M Unit := do
  let tags ← lift (Tag.asCompound (some sectionTag))
  let sectionY := widen (← lift (Tag.asByte (Tag.toMap tags "Y")))
  if sectionY < 8 then
    let blocks ← lift (Tag.asByteArray (Tag.toMap tags "Blocks"))
    let data ← lift (Tag.asByteArray (Tag.toMap tags "Data"))
    let blockLight ← lift (Tag.asByteArray (Tag.toMap tags "BlockLight"))
    let skyLight ← lift (Tag.asByteArray (Tag.toMap tags "SkyLight"))
    forUpTo 16 fun x => forUpTo 16 fun z => forUpTo 16 fun y =>
      convertCell blockTranslate sectionY ⟨blocks, data, blockLight, skyLight⟩
        (Int32.ofNat x) (Int32.ofNat z) (Int32.ofNat y)

def convertSections : List Tag → M Unit
  | [] => return ()
  | sectionTag :: sections => do
    convertSection blockTranslate sectionTag
    convertSections sections

/-- The limits a chunk is checked against. -/
structure Limits where
  limitX : Int32
  limitZ : Int32
  limitCount : Int32
deriving DecidableEq, Repr

/-- Whether `convertChunk` converts the chunk at `(chunkX, chunkZ)`. -/
def Limits.admits (l : Limits) (chunkX chunkZ : Int32) : Prop :=
  l.limitCount ≤ 0 ∨ (chunkX ≥ l.limitX ∧ chunkX < l.limitX + l.limitCount ∧
    chunkZ ≥ l.limitZ ∧ chunkZ < l.limitZ + l.limitCount)

instance (l : Limits) (chunkX chunkZ : Int32) : Decidable (l.admits chunkX chunkZ) :=
  inferInstanceAs (Decidable (_ ∨ _))

/-- `batch.put(tempKey…, peChunk.saveToByteArray())`. -/
def putChunk (chunkX chunkZ : Int32) : M Unit :=
  modify fun s =>
    let tempKey := ((s.tempKey.setX chunkX).setZ chunkZ).setType 48
    { s with
      tempKey
      batch := s.batch ++ [.put tempKey.toBytes s.peChunk.saveToByteArray] }

/-- `convertChunk` on the children of a `Level` compound. -/
def convertChunk (limits : Limits) (tags : List Tag) : M Unit := do
  let chunkX ← lift (Tag.asInt (Tag.toMap tags "xPos"))
  let chunkZ ← lift (Tag.asInt (Tag.toMap tags "zPos"))
  if limits.admits chunkX chunkZ then
    modify fun s => { s with peChunk := zeroChunk s.peChunk }
    let sections ← lift (Tag.asList (Tag.toMap tags "Sections"))
    convertSections blockTranslate sections
    modify fun s => { s with peChunk := s.peChunk.setDirtyTable }
    putChunk chunkX chunkZ

end Convert

end Converter

end WorldToPE
