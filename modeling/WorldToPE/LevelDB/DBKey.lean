import WorldToPE.Lib.JavaInt
import WorldToPE.Lib.Store

/-!
# WorldToPE.LevelDB.DBKey — the nine-byte database keys, and the chunk records under them

`DBKey.toBytes` writes `x` and `z` little-endian and one byte for the record type; `fromBytes` is the
program's own decoder, which or-s sign-extended bytes together.  The encoder is injective
(`toBytes_inj`).  The decoder is a projection (`fromBytes_toBytes_fromBytes`): it does not invert
the encoder on every key, but what it returns it decodes again to the same key.
`keyRoundTrip_iff` says which keys it leaves as they are.

The database is an ordered map from byte strings to byte strings.  A chunk record lives under the key of
type `CHUNK`; different chunks have different keys (`chunkKey_inj`), so writing one record leaves the
others alone (`getChunkData_writeChunkData`).
-/

namespace WorldToPE

open Java

/-- A database key; `type` is `CHUNK`, `TILE_ENTITY` or `ENTITY`. -/
structure DBKey where
  x : Int32
  z : Int32
  type : Int32
deriving DecidableEq, Hashable, Repr

namespace DBKey

def CHUNK : Int32 := 48
def TILE_ENTITY : Int32 := 49
def ENTITY : Int32 := 50

/-- `new DBKey()`. -/
def zero : DBKey := ⟨0, 0, 0⟩

def setX (k : DBKey) (x : Int32) : DBKey := { k with x := x }
def setZ (k : DBKey) (z : Int32) : DBKey := { k with z := z }
def setType (k : DBKey) (type : Int32) : DBKey := { k with type := type }

/-- `equals`, between keys. -/
def equals (k key : DBKey) : Bool := key.x == k.x && key.z == k.z && key.type == k.type

def toBytes (k : DBKey) : List UInt8 :=
  intBytes (reverseBytes k.x) ++ intBytes (reverseBytes k.z) ++ [narrow k.type]

/-- One coordinate of `fromBytes`: the bytes are widened with their sign before they are or-ed. -/
def orBytes (b0 b1 b2 b3 : UInt8) : Int32 :=
  ((widen b0 ||| (widen b1 <<< 8)) ||| (widen b2 <<< 16)) ||| (widen b3 <<< 24)

/-- `fromBytes`: a key of at most eight bytes only resets the type. -/
def fromBytes (k : DBKey) : List UInt8 → DBKey
  | b0 :: b1 :: b2 :: b3 :: b4 :: b5 :: b6 :: b7 :: b8 :: _ =>
    ⟨orBytes b0 b1 b2 b3, orBytes b4 b5 b6 b7, widen b8 &&& 255⟩
  | _ => { k with type := 0 }

/-! ## The encoder -/

@[simp] theorem length_toBytes (k : DBKey) : k.toBytes.length = 9 := by
  simp [toBytes]

theorem toBytes_eq (k : DBKey) :
    k.toBytes = (intBytes k.x).reverse ++ (intBytes k.z).reverse ++ [narrow k.type] := by
  rw [toBytes, intBytes_reverseBytes, intBytes_reverseBytes]

/-- The encoder forgets nothing but the high bytes of the type. -/
theorem toBytes_inj {k k' : DBKey} (h : k.toBytes = k'.toBytes) :
    k.x = k'.x ∧ k.z = k'.z ∧ narrow k.type = narrow k'.type := by
  rw [toBytes_eq, toBytes_eq] at h
  obtain ⟨h12, h3⟩ := List.append_inj h (by simp)
  obtain ⟨h1, h2⟩ := List.append_inj h12 (by simp)
  exact ⟨intBytes_injective (List.reverse_injective h1),
    intBytes_injective (List.reverse_injective h2), by simpa using h3⟩

theorem toBytes_inj_of_type {x z x' z' t : Int32} :
    (DBKey.mk x z t).toBytes = (DBKey.mk x' z' t).toBytes ↔ x = x' ∧ z = z' := by
  constructor
  · intro h
    obtain ⟨h1, h2, -⟩ := toBytes_inj h
    exact ⟨h1, h2⟩
  · rintro ⟨rfl, rfl⟩
    rfl

/-! ## The decoder -/

/-- The byte of an `int` with the given place, counted from the low end. -/
def byteAt (n : Int32) (i : ℕ) : UInt8 := UInt8.ofBitVec (n.toBitVec.extractLsb' (8 * i) 8)

theorem reverse_intBytes (n : Int32) :
    (intBytes n).reverse = [byteAt n 0, byteAt n 1, byteAt n 2, byteAt n 3] := by
  have h (i : ℕ) : UInt8.ofNat (n.toBitVec.toNat / 256 ^ i) = byteAt n i := by
    apply UInt8.toNat_inj.mp
    rw [byteAt, UInt8.toNat_ofNat', UInt8.toNat_ofBitVec, BitVec.extractLsb'_toNat,
      Nat.shiftRight_eq_div_pow, pow_mul]
    rfl
  simp [intBytes, beBytes, ← h]

theorem toBitVec_orBytes (b0 b1 b2 b3 : UInt8) : (orBytes b0 b1 b2 b3).toBitVec =
    b0.toBitVec.signExtend 32 ||| b1.toBitVec.signExtend 32 <<< 8 |||
      b2.toBitVec.signExtend 32 <<< 16 ||| b3.toBitVec.signExtend 32 <<< 24 := rfl

/-- The signs of the low bytes have gone into the high bytes already, so a second pass changes
nothing. -/
theorem orBytes_byteAt (b0 b1 b2 b3 : UInt8) {n : Int32} (h : n = orBytes b0 b1 b2 b3) :
    orBytes (byteAt n 0) (byteAt n 1) (byteAt n 2) (byteAt n 3) = n := by
  apply Int32.toBitVec_inj.mp
  rw [toBitVec_orBytes, h]
  simp only [byteAt, toBitVec_orBytes]
  ext i hi
  simp only [BitVec.getElem_or, BitVec.getElem_shiftLeft, BitVec.getElem_signExtend]
  interval_cases i <;> simp [BitVec.msb_eq_getLsbD_last, BitVec.getElem_signExtend]

theorem narrow_and (b : UInt8) : narrow (widen b &&& 255) = b := by
  have h := toNat_narrow (widen b &&& Int32.ofNat (2 ^ 8 - 1))
  have hb := b.toNat_lt
  rw [toInt_and_mask _ 8 (by omega), toInt_widen] at h
  apply UInt8.toNat_inj.mp
  rw [show (255 : Int32) = Int32.ofNat (2 ^ 8 - 1) from rfl]
  split at h <;> omega

theorem fromBytes_toBytes (k k' : DBKey) : k.fromBytes k'.toBytes =
    ⟨orBytes (byteAt k'.x 0) (byteAt k'.x 1) (byteAt k'.x 2) (byteAt k'.x 3),
      orBytes (byteAt k'.z 0) (byteAt k'.z 1) (byteAt k'.z 2) (byteAt k'.z 3),
      widen (narrow k'.type) &&& 255⟩ := by
  rw [toBytes_eq, reverse_intBytes, reverse_intBytes]
  rfl

theorem exists_nine_bytes {bs : List UInt8} (h : 8 < bs.length) : ∃ b0 b1 b2 b3 b4 b5 b6 b7 b8 rest,
    bs = b0 :: b1 :: b2 :: b3 :: b4 :: b5 :: b6 :: b7 :: b8 :: rest := by
  rcases bs with _ | ⟨b0, _ | ⟨b1, _ | ⟨b2, _ | ⟨b3, _ | ⟨b4, _ | ⟨b5, _ | ⟨b6, _ | ⟨b7, _ | ⟨b8, bs⟩⟩⟩⟩⟩⟩⟩⟩⟩
  case cons.cons.cons.cons.cons.cons.cons.cons.cons => exact ⟨_, _, _, _, _, _, _, _, _, _, rfl⟩
  all_goals simp at h

/-- A long key is decoded without a look at the object it is decoded to. -/
theorem fromBytes_eq {bs : List UInt8} (h : 8 < bs.length) (k k' : DBKey) :
    k.fromBytes bs = k'.fromBytes bs := by
  obtain ⟨b0, b1, b2, b3, b4, b5, b6, b7, b8, rest, rfl⟩ := exists_nine_bytes h
  rfl

/-- A short key resets the type. -/
theorem length_of_type_fromBytes {k : DBKey} {bs : List UInt8} (h : (k.fromBytes bs).type ≠ 0) :
    8 < bs.length := by
  unfold fromBytes at h
  split at h
  · simp
  · exact absurd rfl h

/-- **The decoder is a projection.** -/
theorem fromBytes_toBytes_fromBytes {bs : List UInt8} (h : 8 < bs.length) (k k' : DBKey) :
    k.fromBytes (k'.fromBytes bs).toBytes = k'.fromBytes bs := by
  obtain ⟨b0, b1, b2, b3, b4, b5, b6, b7, b8, rest, rfl⟩ := exists_nine_bytes h
  rw [fromBytes_toBytes]
  simp only [fromBytes]
  rw [orBytes_byteAt b0 b1 b2 b3 rfl, orBytes_byteAt b4 b5 b6 b7 rfl, narrow_and]

/-! ### Which keys survive -/

/-- What a byte or-s into the bytes above it. -/
def spread (b : UInt8) : UInt8 := if 128 ≤ b then 255 else 0

theorem toBitVec_spread (b : UInt8) : (spread b).toBitVec = BitVec.fill 8 b.toBitVec.msb := by
  have h : b.toBitVec.msb = decide (128 ≤ b) := by
    rw [BitVec.msb_eq_decide]
    rfl
  rw [h, spread]
  by_cases hb : 128 ≤ b <;> simp [hb]

theorem byteAt_orBytes (b0 b1 b2 b3 : UInt8) :
    byteAt (orBytes b0 b1 b2 b3) 0 = b0 ∧
      byteAt (orBytes b0 b1 b2 b3) 1 = b1 ||| spread b0 ∧
      byteAt (orBytes b0 b1 b2 b3) 2 = b2 ||| spread b1 ||| spread b0 ∧
      byteAt (orBytes b0 b1 b2 b3) 3 = b3 ||| spread b2 ||| spread b1 ||| spread b0 := by
  refine ⟨?_, ?_, ?_, ?_⟩ <;>
  · apply UInt8.toBitVec_inj.mp
    simp only [byteAt, toBitVec_orBytes, UInt8.toBitVec_or, toBitVec_spread]
    ext i hi
    simp only [BitVec.getElem_or, BitVec.getElem_extractLsb', BitVec.getLsbD_or,
      BitVec.getLsbD_shiftLeft, BitVec.getLsbD_signExtend]
    interval_cases i <;> simp [BitVec.msb_eq_getLsbD_last, Bool.or_assoc, Bool.or_comm]

/-- Above a byte with the sign bit set there is only sign. -/
def SignFilled (b0 b1 b2 b3 : UInt8) : Prop :=
  (128 ≤ b0 → b1 = 255) ∧ (128 ≤ b1 → b2 = 255) ∧ (128 ≤ b2 → b3 = 255)

instance (b0 b1 b2 b3 : UInt8) : Decidable (SignFilled b0 b1 b2 b3) :=
  inferInstanceAs (Decidable (_ ∧ _))

@[simp] theorem or_255 (a : UInt8) : a ||| 255 = 255 := by
  apply UInt8.toBitVec_inj.mp
  rw [UInt8.toBitVec_or]
  exact BitVec.or_allOnes

theorem signFilled_iff (b0 b1 b2 b3 : UInt8) :
    SignFilled b0 b1 b2 b3 ↔ b1 ||| spread b0 = b1 ∧ b2 ||| spread b1 ||| spread b0 = b2 ∧
      b3 ||| spread b2 ||| spread b1 ||| spread b0 = b3 := by
  have h255 : (128 : UInt8) ≤ 255 := by decide
  unfold SignFilled spread
  constructor
  · rintro ⟨h1, h2, h3⟩
    split_ifs <;> simp_all
  · rintro ⟨h1, h2, h3⟩
    rw [eq_comm] at h1 h2 h3
    split_ifs at h1 h2 h3 <;> simp_all

/-- A nine-byte key that the decoder does not change. -/
def Survives : List UInt8 → Prop
  | [b0, b1, b2, b3, b4, b5, b6, b7, _] => SignFilled b0 b1 b2 b3 ∧ SignFilled b4 b5 b6 b7
  | _ => False

theorem toBytes_fromBytes_iff {bs : List UInt8} (h : bs.length = 9) (k : DBKey) :
    (k.fromBytes bs).toBytes = bs ↔ Survives bs := by
  obtain ⟨b0, b1, b2, b3, b4, b5, b6, b7, b8, rest, rfl⟩ := exists_nine_bytes (show 8 < bs.length by omega)
  obtain rfl : rest = [] := by simpa using h
  obtain ⟨hx0, hx1, hx2, hx3⟩ := byteAt_orBytes b0 b1 b2 b3
  obtain ⟨hz0, hz1, hz2, hz3⟩ := byteAt_orBytes b4 b5 b6 b7
  rw [toBytes_eq, reverse_intBytes, reverse_intBytes]
  simp only [fromBytes, Survives, signFilled_iff, hx0, hx1, hx2, hx3, hz0, hz1, hz2, hz3, narrow_and]
  simp
  tauto

theorem equals_iff {k key : DBKey} : k.equals key = true ↔ k = key := by
  obtain ⟨x, z, type⟩ := k
  obtain ⟨x', z', type'⟩ := key
  simp only [equals, Bool.and_eq_true, beq_iff_eq, DBKey.mk.injEq]
  constructor
  · rintro ⟨⟨rfl, rfl⟩, rfl⟩
    exact ⟨rfl, rfl, rfl⟩
  · rintro ⟨rfl, rfl, rfl⟩
    exact ⟨⟨rfl, rfl⟩, rfl⟩

/-- A type of one byte is written and read without loss. -/
theorem and_narrow {type : Int32} (h0 : 0 ≤ type) (h : type < 256) :
    widen (narrow type) &&& 255 = type := by
  have h0 := Int32.le_iff_toInt_le.mp h0
  have h := Int32.lt_iff_toInt_lt.mp h
  have hn := toNat_narrow type
  have hz : (0 : Int32).toInt = 0 := rfl
  have hm : (256 : Int32).toInt = 256 := rfl
  apply Int32.toInt_inj.mp
  rw [show (255 : Int32) = Int32.ofNat (2 ^ 8 - 1) from rfl, toInt_and_mask _ 8 (by norm_num),
    toInt_widen]
  split <;> omega

/-- **Which keys round-trip**, from the object and from the bytes: those with nothing but sign above a
byte with the sign bit set. -/
theorem keyRoundTrip_iff (x z type : Int32) (bs : List UInt8) :
    (0 ≤ type → type < 256 →
      ((zero.fromBytes (DBKey.mk x z type).toBytes).equals ⟨x, z, type⟩ = true ↔
        Survives (DBKey.mk x z type).toBytes)) ∧
    (bs.length = 9 → ((zero.fromBytes bs).toBytes = bs ↔ Survives bs)) := by
  refine ⟨fun h0 h => ?_, fun hbs => toBytes_fromBytes_iff hbs zero⟩
  rw [equals_iff, ← toBytes_fromBytes_iff (length_toBytes _) zero]
  constructor
  · intro heq
    rw [heq]
  · intro hbytes
    obtain ⟨hx, hz, -⟩ := toBytes_inj hbytes
    have htype : (zero.fromBytes (DBKey.mk x z type).toBytes).type = type := by
      rw [fromBytes_toBytes]
      exact and_narrow h0 h
    rw [DBKey.mk.injEq]
    exact ⟨hx, hz, htype⟩

/-- The key of a chunk with small coordinates. -/
theorem keyRoundTrip_small : (zero.fromBytes (DBKey.mk 100 (-128) 49).toBytes).equals ⟨100, -128, 49⟩ = true ∧
    (zero.fromBytes [100, 0, 0, 0, 128, 255, 255, 255, 49]).toBytes =
      [100, 0, 0, 0, 128, 255, 255, 255, 49] := by
  obtain ⟨hkey, hbytes⟩ := keyRoundTrip_iff 100 (-128) 49 [100, 0, 0, 0, 128, 255, 255, 255, 49]
  exact ⟨(hkey (by decide) (by decide)).mpr (show SignFilled _ _ _ _ ∧ SignFilled _ _ _ _ by decide),
    (hbytes rfl).mpr (show SignFilled _ _ _ _ ∧ SignFilled _ _ _ _ by decide)⟩

/-- The byte `0x80` of `x = 128` is decoded as `-128`. -/
theorem not_keyRoundTrip_128 : (zero.fromBytes (DBKey.mk 128 0 48).toBytes).equals ⟨128, 0, 48⟩ = false ∧
    (zero.fromBytes [128, 0, 0, 0, 0, 0, 0, 0, 48]).toBytes ≠ [128, 0, 0, 0, 0, 0, 0, 0, 48] := by
  decide

end DBKey

/-! ## Chunk records -/

/-- A LevelDB database: `compare` on byte strings is LevelDB's bytewise comparator. -/
abbrev DB := Std.ExtTreeMap (List UInt8) (List UInt8)

/-- A LevelDB write batch. -/
abbrev WriteBatch := List (Store.BatchOp (List UInt8) (List UInt8))

/-- The key of the chunk record at `(x, z)`. -/
def chunkKey (x z : Int32) : List UInt8 := (DBKey.mk x z DBKey.CHUNK).toBytes

/-- `LevelDBConverter.getChunkData`. -/
def getChunkData (db : DB) (x z : Int32) : Option (List UInt8) := db[chunkKey x z]?

/-- `LevelDBConverter.writeChunkData`. -/
def writeChunkData (db : DB) (x z : Int32) (data : List UInt8) : DB := db.insert (chunkKey x z) data

theorem chunkKey_inj {x z x' z' : Int32} : chunkKey x z = chunkKey x' z' ↔ x = x' ∧ z = z' :=
  DBKey.toBytes_inj_of_type

theorem getChunkData_writeChunkData (db : DB) (x z x' z' : Int32) (data : List UInt8) :
    getChunkData (writeChunkData db x z data) x' z' =
      if x = x' ∧ z = z' then some data else getChunkData db x' z' := by
  unfold getChunkData writeChunkData
  rw [Store.getElem?_insert]
  simp only [chunkKey_inj]

end WorldToPE
