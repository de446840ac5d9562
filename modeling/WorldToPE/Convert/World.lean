import WorldToPE.Convert.Region
import WorldToPE.Geo.BlockMap

/-!
# WorldToPE.Convert.World — a converted region reads as the desktop region

The converter and the editor agree on what a world is: a manager opened on the database after the
conversion of a region returns, at every block of a chunk of that region, what the desktop chunk says
about that block, and everywhere else what it returned before.

* `desktopType`, `desktopData`: what a desktop chunk says about a block, in the layout of its sections.
* `record_reference`: the cells of a reference record.
* `converted_reads`: the two readers on a database that holds the record of the chunk.
-/

namespace WorldToPE

open Java Run Nibble Chunk

namespace Converter

/-! ## What a desktop chunk says about a block -/

/-- The place of a block in the arrays of its section. -/
def blockPos (x y z : Int32) : Int32 := (((y &&& 15) <<< 8) ||| ((z &&& 15) <<< 4)) ||| (x &&& 15)

/-- The section that covers height `y`. -/
def sectionFor (d : ChunkData) (y : Int32) : Option SectionData :=
  d.sections.find? fun sec => widen sec.y = y >>> 4

/-- The four bits at place `pos` of a nibble array. -/
def nibble (data : List UInt8) (pos : Int32) : Except Exn Int32 := do
  let b ← lget data (pos >>> 1)
  return if pos &&& 1 = 0 then widen b &&& 15 else (widen b >>> 4) &&& 15

/-- The pocket type of the block at `(x, y, z)`. -/
def desktopType (blockTranslate : Vector UInt8 256) (d : ChunkData) (x y z : Int32) :
    Except Exn Int32 :=
  match sectionFor d y with
  | none => return 0
  | some sec => do
    let block ← lget sec.layers.blocks (blockPos x y z)
    let type ← aget blockTranslate (widen block &&& 255)
    return widen type &&& 255

/-- The data of the block at `(x, y, z)`. -/
def desktopData (d : ChunkData) (x y z : Int32) : Except Exn Int32 :=
  match sectionFor d y with
  | none => return 0
  | some sec => nibble sec.layers.data (blockPos x y z)

/-- No two sections cover the same height. -/
def ChunkData.Separate (d : ChunkData) : Prop := (d.sections.map (·.y)).Nodup

/-! ## The two layouts -/

open ChunkManager in
theorem and_15_eq_ofNat (x : Int32) : x &&& 15 = Int32.ofNat (x.toInt % 16).toNat := by
  apply Int32.toInt_inj.mp
  rw [toInt_and_15, Int32.toInt_ofNat_of_lt (by omega)]
  omega

open ChunkManager in
/-- The offset of a block in its chunk, from natural numbers. -/
theorem cellOf_eq {y : Int32} (hy : inHeight y) (x z : Int32) :
    cellOf x y z = (x.toInt % 16).toNat * 2048 + (z.toInt % 16).toNat * 128 + y.toInt.toNat := by
  have hy0 := hy.1
  rw [cellOf, cellIdx, toInt_and_15, toInt_and_15]
  omega

theorem sectionPos_offset {x z y : ℕ} (hz : z < 16) (hy : y < 128) :
    sectionPos (x * 2048 + z * 128 + y) = y % 16 * 256 + z * 16 + x := by
  have hlow : (x * 2048 + z * 128 + y) % 16 = y % 16 := by omega
  have hmid : (x * 2048 + z * 128 + y) / 128 = x * 16 + z := by omega
  have hhigh : (x * 2048 + z * 128 + y) / 2048 = x := by omega
  unfold sectionPos
  rw [hlow, hmid, hhigh]
  omega

open ChunkManager in
theorem sectionPos_cellOf {y : Int32} (hy : inHeight y) (x z : Int32) :
    (blockPos x y z).toInt = sectionPos (cellOf x y z) := by
  have hpos : (blockPos x y z).toInt =
      ((y.toInt % 16).toNat * 256 + (z.toInt % 16).toNat * 16 + (x.toInt % 16).toNat : ℕ) := by
    unfold blockPos
    rw [and_15_eq_ofNat x, and_15_eq_ofNat y, and_15_eq_ofNat z]
    exact toInt_layerPos (by omega) (by omega) (by omega)
  have hy0 := hy.1
  have hy1 := hy.2
  have hmod : (y.toInt % 16).toNat = y.toInt.toNat % 16 := by omega
  rw [hpos, cellOf_eq hy, sectionPos_offset (by omega) (by omega), hmod]

open ChunkManager in
theorem sectionOf_cellOf {y : Int32} (hy : inHeight y) (x z : Int32) :
    (y >>> 4).toInt = sectionOf (cellOf x y z) := by
  have hy0 := hy.1
  have hy1 := hy.2
  rw [toInt_shiftRight_4, cellOf_eq hy]
  unfold sectionOf
  omega

theorem sectionPos_lt (i : ℕ) (hi : i < 32768) : sectionPos i < 4096 := by
  unfold sectionPos
  omega

/-- Where at most one element is selected, searching from either end finds the same. -/
theorem find?_reverse_eq {α : Type} {l : List α} {p q : α → Bool} (hpq : ∀ a ∈ l, p a = q a)
    (huniq : ∀ a ∈ l, ∀ b ∈ l, q a = true → q b = true → a = b) :
    l.reverse.find? p = l.find? q := by
  cases hq : l.find? q with
  | none =>
    rw [List.find?_eq_none] at hq ⊢
    intro a ha
    rw [List.mem_reverse] at ha
    rw [hpq a ha]
    exact hq a ha
  | some b =>
    have hb := List.mem_of_find?_eq_some hq
    have hqb := List.find?_some hq
    cases hp : l.reverse.find? p with
    | none =>
      rw [List.find?_eq_none] at hp
      refine absurd ?_ (hp b (List.mem_reverse.mpr hb))
      rw [hpq b hb]
      exact hqb
    | some a =>
      have ha := List.mem_reverse.mp (List.mem_of_find?_eq_some hp)
      have hpa := List.find?_some hp
      rw [hpq a ha] at hpa
      rw [huniq a ha b hb hpa hqb]

open ChunkManager in
theorem sectionAt_eq_sectionFor {d : ChunkData} (hwf : d.WellFormed) (hsep : d.Separate)
    {y : Int32} (hy : inHeight y) (x z : Int32) :
    sectionAt d.sections (sectionOf (cellOf x y z)) = sectionFor d y := by
  have hiff : ∀ sec ∈ d.sections,
      (sec.y.toNat = sectionOf (cellOf x y z) ↔ widen sec.y = y >>> 4) := by
    intro sec hsec
    have h0 := (hwf sec hsec).y
    have hlt := sec.y.toNat_lt
    rw [← Int32.toInt_inj, sectionOf_cellOf hy x z]
    rw [toInt_widen] at h0 ⊢
    split at h0 <;> split <;> omega
  refine find?_reverse_eq (fun sec hsec => ?_) fun a ha b hb hqa hqb => ?_
  · rw [decide_eq_decide]
    exact hiff sec hsec
  · rw [decide_eq_true_eq] at hqa hqb
    have hab : a.y = b.y := by
      apply UInt8.toNat_inj.mp
      rw [(hiff a ha).mpr hqa, (hiff b hb).mpr hqb]
    exact List.inj_on_of_nodup_map hsep ha hb hab

/-! ## The reference record -/

section Reference

variable (blockTranslate : Vector UInt8 256) (sections : List SectionData)

theorem referenceCell_fits (i : ℕ) : (referenceCell blockTranslate sections i).Fits := by
  unfold referenceCell
  split
  · exact Layers.cell_fits _ _ _
  · exact ⟨rfl, rfl, rfl⟩

/-- **The cells of a reference record.** -/
theorem record_reference {i : ℕ} (hi : i < 32768) :
    recordType (referenceRecord blockTranslate sections) i =
        (referenceCell blockTranslate sections i).type ∧
      recordData (referenceRecord blockTranslate sections) i =
        (referenceCell blockTranslate sections i).data := by
  constructor
  · unfold recordType referenceRecord
    rw [List.getD_eq_getElem?_getD, List.getElem?_append_left (by
      rw [List.length_map, List.length_range]; exact hi), List.getElem?_map, List.getElem?_range hi]
    rfl
  · have h2 : i / 2 < 16384 := by omega
    unfold recordData referenceRecord packed
    rw [List.getD_eq_getElem?_getD, List.getElem?_append_right (by
      rw [List.length_map, List.length_range]; omega), List.length_map, List.length_range,
      Nat.add_sub_cancel_left, List.getElem?_append_left (by
      rw [List.length_map, List.length_range]; exact h2), List.getElem?_map, List.getElem?_range h2]
    show half (pack _ _) i = _
    rw [half_pack (referenceCell_fits _ _ _).1 (referenceCell_fits _ _ _).1]
    by_cases hodd : i % 2 = 1
    · rw [if_pos hodd, show 2 * (i / 2) + 1 = i by omega]
    · rw [if_neg hodd, show 2 * (i / 2) = i by omega]

end Reference

/-- The reference cell of a block, in the terms of its desktop chunk. -/
theorem desktop_reference (blockTranslate : Vector UInt8 256) {d : ChunkData} (hwf : d.WellFormed)
    (hsep : d.Separate) {y : Int32} (hy : ChunkManager.inHeight y) (x z : Int32) :
    desktopType blockTranslate d x y z = .ok (unsigned
        (referenceCell blockTranslate d.sections (ChunkManager.cellOf x y z)).type) ∧
      desktopData d x y z = .ok
        (referenceCell blockTranslate d.sections (ChunkManager.cellOf x y z)).data := by
  have hat := sectionAt_eq_sectionFor hwf hsep hy x z
  have hpos := sectionPos_cellOf hy x z
  have hlt := sectionPos_lt _ (ChunkManager.cellOf_lt hy x z)
  unfold desktopType desktopData referenceCell
  rw [hat]
  cases hs : sectionFor d y with
  | none => exact ⟨rfl, rfl⟩
  | some sec =>
    have hsized := (hwf sec (List.mem_of_find?_eq_some hs)).layers
    generalize sectionPos (ChunkManager.cellOf x y z) = p at hpos hlt
    constructor
    · have hb : p < sec.layers.blocks.length := by
        rw [hsized.blocks]
        exact hlt
      show (lget sec.layers.blocks (blockPos x y z) >>= _ : Except Exn Int32) = _
      rw [lget_of_toInt hpos hb]
      show (aget blockTranslate _ >>= _ : Except Exn Int32) = _
      rw [translate]
      show Except.ok _ = Except.ok _
      rw [← unsigned_narrow, narrow_widen]
      simp [Layers.cell, hb]
    · exact lget_half hpos (by rw [hsized.data]; omega)

end Converter

/-! ## Reading a database -/

namespace ChunkManager

open Converter

/-- **A chunk whose reference record is in the database** reads as the desktop chunk. -/
theorem converted_reads (blockTranslate : Vector UInt8 256) {db : DB} {d : ChunkData}
    (hwf : d.WellFormed) (hsep : d.Separate) {x y z : Int32} (hy : inHeight y)
    (hdb : getChunkData db (x >>> 4) (z >>> 4) = some (referenceRecord blockTranslate d.sections)) :
    result (getBlockTypeId x y z) (opened db) = desktopType blockTranslate d x y z ∧
      result (getBlockData x y z) (opened db) = desktopData d x y z := by
  have hlen : minRecord ≤ (referenceRecord blockTranslate d.sections).length := by
    rw [length_referenceRecord]
    unfold minRecord
    omega
  obtain ⟨c, hc, -, -, -, ht, hd⟩ := loadFromByteArray_spec (new (x >>> 4) (z >>> 4)) hlen
  have hread : readChunk db ⟨x >>> 4, z >>> 4⟩ = .ok c := by
    unfold readChunk
    rw [hdb]
    exact hc
  obtain ⟨hT, hD⟩ := record_reference blockTranslate d.sections (cellOf_lt hy x z)
  obtain ⟨hT', hD'⟩ := desktop_reference blockTranslate hwf hsep hy x z
  have hr := inRange_of_inHeight hy x z
  have hguard : ¬ (y ≥ 128 ∨ y < 0) := by
    rw [ge_height_iff, not_not]
    exact hy
  unfold getBlockTypeId getBlockData
  rw [if_neg hguard, if_neg hguard, result_opened, result_opened, hread, hT', hD']
  constructor
  · show c.getBlockTypeId (x &&& 15) y (z &&& 15) = _
    rw [getBlockTypeId_spec c hr, ← hT, ← ht _ (cellOf_lt hy x z)]
    rfl
  · show c.getBlockData (x &&& 15) y (z &&& 15) = _
    rw [getBlockData_spec c hr, ← hD, ← hd _ (cellOf_lt hy x z)]
    rfl

/-- The readers of a fresh manager depend on the record of the chunk only. -/
theorem reads_congr {db db' : DB} {x z : Int32}
    (h : getChunkData db' (x >>> 4) (z >>> 4) = getChunkData db (x >>> 4) (z >>> 4)) (y : Int32) :
    result (getBlockTypeId x y z) (opened db') = result (getBlockTypeId x y z) (opened db) ∧
      result (getBlockData x y z) (opened db') = result (getBlockData x y z) (opened db) := by
  have hread : readChunk db' ⟨x >>> 4, z >>> 4⟩ = readChunk db ⟨x >>> 4, z >>> 4⟩ := by
    unfold readChunk
    rw [h]
  unfold getBlockTypeId getBlockData
  split
  · exact ⟨rfl, rfl⟩
  · simp only [result_opened, hread, and_self]

end ChunkManager

/-! ## A region -/

namespace ConvertState

open Converter ChunkManager

section Region

variable (gzipHeader : List UInt8 → Bool) (readRoot : ChunkStream → Except Exn Tag)
  (region : DesktopRegionFile)

/-- The chunk `d` is in some slot of the region. -/
def InRegion (d : ChunkData) : Prop :=
  ∃ x < 32, ∃ z < 32, chunkIn gzipHeader readRoot region x z = some d

/-- A region as the desktop game writes it. -/
structure RegionOk : Prop where
  slots : SlotsOk gzipHeader readRoot region
  sections : ∀ d, InRegion gzipHeader readRoot region d → d.Separate
  positions : ∀ x < 32, ∀ z < 32, ∀ x' < 32, ∀ z' < 32, ∀ d d',
    chunkIn gzipHeader readRoot region x z = some d →
    chunkIn gzipHeader readRoot region x' z' = some d' →
    d.xPos = d'.xPos → d.zPos = d'.zPos → x = x' ∧ z = z'

theorem mem_regionRecords {blockTranslate : Vector UInt8 256} {p : List UInt8 × List UInt8} :
    p ∈ regionRecords gzipHeader readRoot region blockTranslate 32 ↔
      ∃ d, InRegion gzipHeader readRoot region d ∧ recordOf blockTranslate d = p := by
  unfold regionRecords rowRecords InRegion
  simp only [List.mem_flatMap, List.mem_range, List.mem_map, Option.mem_toList]
  constructor
  · rintro ⟨x, hx, z, hz, d, hd, rfl⟩
    exact ⟨d, ⟨x, hx, z, hz, hd⟩, rfl⟩
  · rintro ⟨d, ⟨x, hx, z, hz, hd⟩, rfl⟩
    exact ⟨x, hx, z, hz, d, hd, rfl⟩

variable {gzipHeader readRoot region} (hok : RegionOk gzipHeader readRoot region)
include hok

theorem InRegion.wellFormed {d : ChunkData} (hd : InRegion gzipHeader readRoot region d) :
    d.WellFormed := by
  obtain ⟨x, hx, z, hz, hd⟩ := hd
  obtain ⟨o, ho, hwf⟩ := hok.slots x hx z hz
  unfold chunkIn at hd
  rw [ho] at hd
  exact hwf d hd

/-- A chunk of the region is determined by its coordinates. -/
theorem InRegion.unique {d d' : ChunkData} (hd : InRegion gzipHeader readRoot region d)
    (hd' : InRegion gzipHeader readRoot region d') (hx : d.xPos = d'.xPos) (hz : d.zPos = d'.zPos) :
    d = d' := by
  obtain ⟨x, hxl, z, hzl, hc⟩ := hd
  obtain ⟨x', hxl', z', hzl', hc'⟩ := hd'
  obtain ⟨rfl, rfl⟩ := hok.positions x hxl z hzl x' hxl' z' hzl' d d' hc hc' hx hz
  exact Option.some.inj (hc.symm.trans hc')

/-- The record of a chunk of the region, after the batches of the region. -/
theorem getChunkData_converted (blockTranslate : Vector UInt8 256) (db : DB) {d : ChunkData}
    (hd : InRegion gzipHeader readRoot region d) :
    getChunkData (Store.applyBatch db
      (puts (regionRecords gzipHeader readRoot region blockTranslate 32))) d.xPos d.zPos =
        some (referenceRecord blockTranslate d.sections) := by
  refine Store.getElem?_puts_of_mem (fun p hp hk => ?_) ?_
  · obtain ⟨d', hd', rfl⟩ := (mem_regionRecords gzipHeader readRoot region).mp hp
    obtain ⟨hx, hz⟩ := chunkKey_inj.mp hk
    rw [InRegion.unique hok hd' hd hx hz]
    rfl
  · exact List.mem_map.mpr ⟨_, (mem_regionRecords gzipHeader readRoot region).mpr ⟨d, hd, rfl⟩, rfl⟩

omit hok in
/-- Every other record is kept. -/
theorem getChunkData_unconverted (blockTranslate : Vector UInt8 256) (db : DB) {x z : Int32}
    (h : ∀ d, InRegion gzipHeader readRoot region d → ¬ (d.xPos = x ∧ d.zPos = z)) :
    getChunkData (Store.applyBatch db
      (puts (regionRecords gzipHeader readRoot region blockTranslate 32))) x z =
        getChunkData db x z := by
  refine Store.getElem?_puts_of_not_mem fun hk => ?_
  obtain ⟨p, hp, hk⟩ := List.mem_map.mp hk
  obtain ⟨d, hd, rfl⟩ := (mem_regionRecords gzipHeader readRoot region).mp hp
  exact h d hd (chunkKey_inj.mp hk)

end Region

/-- **Conversion preserves the world**: the conversion of a region completes, whatever was converted
before, and a manager opened on the database afterwards reads every block of a chunk of the region as
the desktop chunk has it and every other block as before. -/
theorem convertRegion_preserves_world (blockTranslate : Vector UInt8 256)
    (gzipHeader : List UInt8 → Bool) (readRoot : ChunkStream → Except Exn Tag) (name : String)
    (content : List UInt8) (centerX centerZ : JFloat) (region : DesktopRegionFile)
    (hopen : DesktopRegionFile.construct (DesktopRegionFile.fresh content) = .ok () region)
    (hok : RegionOk gzipHeader readRoot region) (history : List (Limits × List Tag))
    (batch : WriteBatch) (region₀ : DesktopRegionFile) (db : DB) :
    ∃ s', convertRegion blockTranslate gzipHeader readRoot name content centerX centerZ false
        ⟨{ run (fun p => convertChunk blockTranslate p.1 p.2) initial history with batch := batch },
          region₀, db⟩ = .ok () s' ∧
      ∀ x y z : Int32,
        (∀ d, InRegion gzipHeader readRoot region d → keyOf x z = ⟨d.xPos, d.zPos⟩ → inHeight y →
          ∃ type data, desktopType blockTranslate d x y z = .ok type ∧
            desktopData d x y z = .ok data ∧
            result (getBlockTypeId x y z) (opened s'.db) = .ok type ∧
            result (getBlockData x y z) (opened s'.db) = .ok data) ∧
        ((∀ d, InRegion gzipHeader readRoot region d → keyOf x z ≠ ⟨d.xPos, d.zPos⟩) →
          result (getBlockTypeId x y z) (opened s'.db) = result (getBlockTypeId x y z) (opened db) ∧
          result (getBlockData x y z) (opened s'.db) = result (getBlockData x y z) (opened db)) := by
  have hreached : Reached blockTranslate { run (fun p : Limits × List Tag =>
      convertChunk blockTranslate p.1 p.2) initial history with batch := batch } :=
    ⟨history, batch, rfl⟩
  obtain ⟨s', hs', hdb⟩ := convertRegion_spec blockTranslate name centerX centerZ
    hopen hok.slots (s := ⟨_, region₀, db⟩) hreached.dirtyOk
  refine ⟨s', hs', fun x y z => ⟨fun d hd hk hy => ?_, fun h => ?_⟩⟩
  · obtain ⟨hx, hz⟩ := Key.mk.inj hk
    have hwf := InRegion.wellFormed hok hd
    have hsep := hok.sections d hd
    have hrec := getChunkData_converted hok blockTranslate db hd
    rw [← hdb, ← hx, ← hz] at hrec
    obtain ⟨hT, hD⟩ := desktop_reference blockTranslate hwf hsep hy x z
    obtain ⟨hT', hD'⟩ := converted_reads blockTranslate hwf hsep hy hrec
    exact ⟨_, _, hT, hD, hT'.trans hT, hD'.trans hD⟩
  · refine reads_congr ?_ y
    rw [hdb]
    refine getChunkData_unconverted blockTranslate db fun d hd hxz => h d hd ?_
    rw [hxz.1, hxz.2]
    rfl

theorem cell_uniform (blockTranslate : Vector UInt8 256) (block : UInt8) {p : ℕ} (hp : p < 4096) :
    ((uniform block).cell blockTranslate p).type = byteAt blockTranslate block.toNat ∧
      ((uniform block).cell blockTranslate p).data = 0 := by
  have h2 : p / 2 < 2048 := by omega
  unfold Layers.cell uniform
  dsimp only
  constructor
  · rw [List.getD_eq_getElem?_getD, List.getElem?_replicate, if_pos hp]
    rfl
  · rw [List.getD_eq_getElem?_getD, List.getElem?_replicate, if_pos h2]
    exact half_zero p

/-- The root tag of a chunk at `(-32, 32)` with one section of stone. -/
def stoneRoot : Tag := .compound "" [.compound "Level" (oneSection (-32) 32 (uniform 1))]

/-- The NBT encoding of `stoneRoot`, deflated. -/
def stoneData : List UInt8 :=
  [120, 218, 237, 217, 177, 13, 194, 48, 16, 133, 225, 103, 8, 216, 184, 98, 4, 102, 65, 148,
   41, 144, 82, 81, 70, 145, 5, 81, 34, 92, 196, 138, 128, 105, 217, 196, 88, 20, 12, 65, 254,
   175, 122, 119, 186, 1, 158, 116, 94, 242, 218, 212, 97, 14, 227, 90, 213, 227, 28, 167, 156,
   243, 187, 196, 87, 137, 146, 14, 59, 185, 38, 116, 169, 143, 247, 201, 151, 217, 24, 153,
   203, 202, 106, 123, 28, 99, 55, 148, 139, 125, 89, 1, 0, 0, 0, 0, 128, 127, 103, 85, 157,
   218, 212, 74, 78, 0, 0, 96, 121, 172, 252, 247, 47, 80, 247, 215, 91, 162, 16, 0, 0, 176,
   212, 66, 224, 154, 225, 249, 171, 3, 25, 0, 0, 44, 78, 105, 4, 31, 97, 147, 32, 246]

/-- What inflating and decoding gives for the one stream of the file. -/
def readStone (stream : ChunkStream) : Except Exn Tag :=
  if stream = ⟨false, stoneData⟩ then .ok stoneRoot else .error .io

theorem chunkIn_stone : ∃ region,
    DesktopRegionFile.construct (DesktopRegionFile.fresh (DesktopRegionFile.singleSlot stoneData)) =
      .ok () region ∧
    ∀ x < 32, ∀ z < 32, slotChunk (fun _ => false) readStone region x z =
      .ok (if x = 0 ∧ z = 0 then some ⟨-32, 32, [⟨2, uniform 1⟩]⟩ else none) := by
  obtain ⟨region, hopen, hslots⟩ := DesktopRegionFile.slotStream_singleSlot (fun _ => false)
    (show stoneData.length ≤ 4091 by decide +kernel)
  refine ⟨region, hopen, fun x hx z hz => ?_⟩
  have hs := hslots x hx z hz
  refine bind_eq_ok.mpr ⟨_, hs, ?_⟩
  by_cases h0 : x = 0 ∧ z = 0
  · rw [if_pos h0, if_pos h0]
    refine bind_eq_ok.mpr ⟨stoneRoot, if_pos rfl, ?_⟩
    refine bind_eq_ok.mpr ⟨oneSection (-32) 32 (uniform 1), rfl, ?_⟩
    exact bind_eq_ok.mpr ⟨_, chunkData_oneSection _ _ _, rfl⟩
  · rw [if_neg h0, if_neg h0]
    rfl

/-- A region file with one chunk of stone, converted into an empty database. -/
theorem convertRegion_preserves_stone : ∃ region s',
    DesktopRegionFile.construct (DesktopRegionFile.fresh (DesktopRegionFile.singleSlot stoneData)) =
      .ok () region ∧
    RegionOk (fun _ => false) readStone region ∧
    convertRegion (Vector.ofFn fun i => UInt8.ofNat i) (fun _ => false) readStone "r.-1.1.mca"
      (DesktopRegionFile.singleSlot stoneData) (JFloat.ofBits 0) (JFloat.ofBits 0) false
      ⟨{ run (fun p : Limits × List Tag =>
          convertChunk (Vector.ofFn fun i => UInt8.ofNat i) p.1 p.2) initial [] with batch := [] },
        region, ∅⟩ = .ok () s' ∧
    result (getBlockTypeId (-512) 35 515) (opened s'.db) = .ok 1 ∧
    result (getBlockData (-512) 35 515) (opened s'.db) = .ok 0 := by
  obtain ⟨region, hopen, hslots⟩ := chunkIn_stone
  have hin : ∀ x < 32, ∀ z < 32, chunkIn (fun _ => false) readStone region x z =
      if x = 0 ∧ z = 0 then some ⟨-32, 32, [⟨2, uniform 1⟩]⟩ else none := by
    intro x hx z hz
    unfold chunkIn
    rw [hslots x hx z hz]
  have hstone : ∀ x < 32, ∀ z < 32, ∀ d, chunkIn (fun _ => false) readStone region x z = some d →
      (x = 0 ∧ z = 0) ∧ d = ⟨-32, 32, [⟨2, uniform 1⟩]⟩ := by
    intro x hx z hz d hd
    rw [hin x hx z hz] at hd
    split at hd
    · rename_i h0
      exact ⟨h0, (Option.some.inj hd).symm⟩
    · cases hd
  have hok : RegionOk (fun _ => false) readStone region := by
    refine ⟨fun x hx z hz => ⟨_, hslots x hx z hz, fun d hd => ?_⟩, ?_, ?_⟩
    · rw [← hin x hx z hz] at hd
      rw [(hstone x hx z hz d hd).2]
      exact wellFormed_uniform _ _ 1
    · rintro d ⟨x, hx, z, hz, hd⟩
      rw [(hstone x hx z hz d hd).2]
      exact List.nodup_singleton _
    · intro x hx z hz x' hx' z' hz' d d' hd hd' _ _
      have h := (hstone x hx z hz d hd).1
      have h' := (hstone x' hx' z' hz' d' hd').1
      exact ⟨h.1.trans h'.1.symm, h.2.trans h'.2.symm⟩
  obtain ⟨s', hs', hreads⟩ := convertRegion_preserves_world (Vector.ofFn fun i => UInt8.ofNat i)
    (fun _ => false) readStone "r.-1.1.mca" (DesktopRegionFile.singleSlot stoneData) (JFloat.ofBits 0)
    (JFloat.ofBits 0) region hopen hok [] [] region ∅
  obtain ⟨type, data, hT, hD, hT', hD'⟩ := (hreads (-512) 35 515).1 ⟨-32, 32, [⟨2, uniform 1⟩]⟩
    ⟨0, by norm_num, 0, by norm_num, hin 0 (by norm_num) 0 (by norm_num)⟩ (by decide) (by decide)
  have hR := desktop_reference (Vector.ofFn fun i => UInt8.ofNat i) (wellFormed_uniform (-32) 32 1)
    (List.nodup_singleton _) (show inHeight 35 by decide) (-512) 515
  have hcell : referenceCell (Vector.ofFn fun i => UInt8.ofNat i) [⟨2, uniform 1⟩]
      (cellOf (-512) 35 515) = (uniform 1).cell (Vector.ofFn fun i => UInt8.ofNat i) 816 := rfl
  have hc := cell_uniform (Vector.ofFn fun i => UInt8.ofNat i) 1 (show 816 < 4096 by norm_num)
  refine ⟨region, s', hopen, hok, hs', ?_, ?_⟩
  · rw [hT', ← hT, hR.1, hcell, hc.1, byteAt_eq_getElem _ (show (1 : UInt8).toNat < 256 by decide),
      Vector.getElem_ofFn]
    rfl
  · rw [hD', ← hD, hR.2, hcell, hc.2]

end ConvertState

end WorldToPE
