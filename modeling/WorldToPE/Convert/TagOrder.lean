import WorldToPE.Convert.Undecodable
import WorldToPE.Lib.Named

/-!
# WorldToPE.Convert.TagOrder — the order of the tags of a chunk

The children of a compound have no order that means anything.  `convertChunk` reads the children of the
`Level` compound and of the sections by name, through `toMap`; `convertRegion` takes the first child of
the root for `Level`.

* `chunkData_permuted`: what is read by name does not depend on the order.
* `sameRecord_iff`: a chunk with its tags in another order is converted to the same record exactly when
  `Level` comes first in both orders.
-/

namespace WorldToPE

open Java Run Named

/-! ## Access by name -/

namespace Converter

/-- The names of the children of a compound are unique. -/
def UniqueNames (tags : List Tag) : Prop := (tags.map Tag.name).Nodup

/-- A section with its children in another order. -/
def SectionPermuted (t t' : Tag) : Prop :=
  ∃ n us us', t = .compound n us ∧ t' = .compound n us' ∧ us.Perm us'

/-- A child of `Level`: of the list of sections, each section may have its children in another order. -/
def LevelChild (t t' : Tag) : Prop := t' = t ∨ ∃ type ss ss',
  t = .list "Sections" type ss ∧ t' = .list "Sections" type ss' ∧ List.Forall₂ SectionPermuted ss ss'

theorem LevelChild.name {t t' : Tag} (h : LevelChild t t') : t'.name = t.name := by
  obtain rfl | ⟨type, ss, ss', rfl, rfl, -⟩ := h
  · rfl
  · rfl

theorem toMap_perm {tags tags' : List Tag} (hn : UniqueNames tags) (h : tags.Perm tags') (n : String) :
    Tag.toMap tags' n = Tag.toMap tags n := by
  have hsame : Permuted Eq tags tags' := ⟨tags, List.forall₂_same.mpr fun _ _ => rfl, h⟩
  have hrel : Option.Rel Eq (Tag.toMap tags n) (Tag.toMap tags' n) :=
    hsame.find?_rel (fun a b hab => congrArg Tag.name hab.symm) hn n
  generalize Tag.toMap tags n = o at hrel
  generalize Tag.toMap tags' n = o' at hrel
  cases hrel with
  | none => rfl
  | some h => rw [h]

theorem sectionData_permuted {t t' : Tag} (h : SectionPermuted t t')
    (hn : ∀ n us, t = .compound n us → UniqueNames us) : sectionData t' = sectionData t := by
  obtain ⟨n, us, us', rfl, rfl, hp⟩ := h
  have hmap : ∀ n, Tag.toMap us' n = Tag.toMap us n := toMap_perm (hn n us rfl) hp
  simp only [sectionData, Tag.asCompound, bind, Except.bind, hmap]

theorem sections_permuted {ss ss' : List Tag} (h : List.Forall₂ SectionPermuted ss ss')
    (hn : ∀ n us, .compound n us ∈ ss → UniqueNames us) :
    ss'.mapM sectionData = ss.mapM sectionData := by
  induction h with
  | nil => rfl
  | cons hd _ ih =>
    rw [List.mapM_cons, List.mapM_cons, ih fun n us hu => hn n us (List.mem_cons_of_mem _ hu),
      sectionData_permuted hd fun n us hu => hn n us (hu ▸ List.mem_cons_self)]

theorem asInt_rel {o o' : Option Tag} (h : Option.Rel LevelChild o o') :
    Tag.asInt o' = Tag.asInt o := by
  cases h with
  | none => rfl
  | some h =>
    obtain rfl | ⟨type, ss, ss', rfl, rfl, -⟩ := h
    · rfl
    · rfl

/-- **What is read of a chunk** does not depend on the order of the children of `Level` and of the
sections. -/
theorem chunkData_permuted {ts ts' : List Tag} (h : Permuted LevelChild ts ts') (hn : UniqueNames ts)
    (hns : ∀ type ss, .list "Sections" type ss ∈ ts → ∀ n us, .compound n us ∈ ss → UniqueNames us) :
    chunkData ts' = chunkData ts := by
  have hrel : ∀ n, Option.Rel LevelChild (Tag.toMap ts n) (Tag.toMap ts' n) :=
    h.find?_rel (fun _ _ hab => hab.name) hn
  unfold chunkData
  rw [asInt_rel (hrel "xPos"), asInt_rel (hrel "zPos")]
  have hsec := hrel "Sections"
  generalize htag : Tag.toMap ts "Sections" = o at hsec
  generalize Tag.toMap ts' "Sections" = o' at hsec
  cases hsec with
  | none => rfl
  | some hsec =>
    obtain rfl | ⟨type, ss, ss', rfl, rfl, hss⟩ := hsec
    · rfl
    · have hmem := ((find?_eq_some_iff hn).mp htag).1
      have hmap := sections_permuted hss (hns type ss hmem)
      simp only [Tag.asList, bind, Except.bind, hmap]

/-- A conversion that returned has read `xPos`. -/
theorem convertChunk_xPos {blockTranslate : Vector UInt8 256} {limits : Limits} {tags : List Tag}
    {c c' : Converter} (h : convertChunk blockTranslate limits tags c = .ok () c') :
    ∃ x, Tag.asInt (Tag.toMap tags "xPos") = .ok x := by
  obtain ⟨x, _, hx, -⟩ := Run.bind_eq_ok.mp h
  cases hint : Tag.asInt (Tag.toMap tags "xPos") with
  | ok y => exact ⟨y, rfl⟩
  | error e =>
    rw [hint] at hx
    cases hx

end Converter

/-! ## The first child of the root -/

namespace ConvertState

open Converter

/-- A child of the root: `Level` may have its children in another order. -/
def RootChild (t t' : Tag) : Prop := t' = t ∨ ∃ ts ts',
  t = .compound "Level" ts ∧ t' = .compound "Level" ts' ∧ Permuted LevelChild ts ts'

theorem RootChild.name {t t' : Tag} (h : RootChild t t') : t'.name = t.name := by
  obtain rfl | ⟨ts, ts', rfl, rfl, -⟩ := h
  · rfl
  · rfl

/-- The children `cs` of a root hold the chunk `d`, in `Level` and nowhere else. -/
structure HoldsChunk (cs ts : List Tag) (d : ChunkData) : Prop where
  unique : UniqueNames cs
  level : .compound "Level" ts ∈ cs
  chunk : chunkData ts = .ok d
  only : ∀ n us, .compound n us ∈ cs → n ≠ "Level" → ∀ x, Tag.asInt (Tag.toMap us "xPos") ≠ .ok x

/-- The root of a well-formed chunk with unique names in each compound. -/
structure ChunkRoot (cs ts : List Tag) (d : ChunkData) : Prop extends HoldsChunk cs ts d where
  wellFormed : d.WellFormed
  uniqueLevel : UniqueNames ts
  uniqueSections : ∀ type ss, .list "Sections" type ss ∈ ts →
    ∀ n us, .compound n us ∈ ss → UniqueNames us

/-- In another order, the root holds the same chunk. -/
theorem ChunkRoot.permuted {cs cs' ts : List Tag} {d : ChunkData} (h : ChunkRoot cs ts d)
    (hp : Permuted RootChild cs cs') : ∃ ts', HoldsChunk cs' ts' d := by
  have hunique : UniqueNames cs' := hp.nodup (fun _ _ hab => hab.name) h.unique
  have honly : ∀ n us, .compound n us ∈ cs' → n ≠ "Level" →
      ∀ x, Tag.asInt (Tag.toMap us "xPos") ≠ .ok x := by
    intro n us hmem hne
    obtain ⟨t, ht, hchild⟩ := hp.exists_left hmem
    obtain rfl | ⟨_, _, _, heq, -⟩ := hchild
    · exact h.only n us ht hne
    · exact absurd (Tag.compound.inj heq).1 hne
  obtain ⟨u, hu, hchild⟩ := hp.exists_right h.level
  obtain rfl | ⟨_, ts', heq, rfl, hlevel⟩ := hchild
  · exact ⟨ts, hunique, hu, h.chunk, honly⟩
  · obtain ⟨-, rfl⟩ := Tag.compound.inj heq
    refine ⟨ts', hunique, hu, ?_, honly⟩
    rw [chunkData_permuted hlevel h.uniqueLevel h.uniqueSections]
    exact h.chunk

/-- `Level` is the first child. -/
def LevelFirst (cs : List Tag) : Prop := cs.head?.map Tag.name = some "Level"

instance (cs : List Tag) : Decidable (LevelFirst cs) := inferInstanceAs (Decidable (_ = _))

theorem HoldsChunk.levelOf_eq {cs ts : List Tag} {d : ChunkData} (h : HoldsChunk cs ts d)
    (hfirst : LevelFirst cs) (n : String) : levelOf (.compound n cs) = .ok ts := by
  cases cs with
  | nil => cases hfirst
  | cons t cs =>
    have hname : t.name = "Level" := Option.some.inj hfirst
    have ht : t = .compound "Level" ts :=
      List.inj_on_of_nodup_map h.unique List.mem_cons_self h.level hname
    rw [ht]
    rfl

/-- Where the conversion got as far as `xPos`, `Level` was the first child. -/
theorem HoldsChunk.levelFirst {cs ts level : List Tag} {d : ChunkData} (h : HoldsChunk cs ts d)
    {n : String} (hlevel : levelOf (.compound n cs) = .ok level) {x : Int32}
    (hx : Tag.asInt (Tag.toMap level "xPos") = .ok x) : LevelFirst cs := by
  cases cs with
  | nil => cases hlevel
  | cons t cs =>
    cases t with
    | compound m us =>
      obtain rfl : us = level := Except.ok.inj hlevel
      by_contra hne
      refine h.only m us List.mem_cons_self (fun hm => hne ?_) x hx
      rw [hm]
      rfl
    | _ => cases hlevel

/-! ## Two regions -/

section Regions

variable (blockTranslate : Vector UInt8 256) (gzipHeader : List UInt8 → Bool)
  (readRoot : ChunkStream → Except Exn Tag)

/-- Slot `(x, z)` of the region holds the root tag. -/
def Holds (region : DesktopRegionFile) (x z : ℕ) (root : Tag) : Prop :=
  ∃ stream, DesktopRegionFile.slotStream gzipHeader region x z = .ok (some stream) ∧
    readRoot stream = .ok root

/-- In every slot but `(x, z)` the two regions hold the same well-formed chunk, or none. -/
def SameElsewhere (region region' : DesktopRegionFile) (x z : ℕ) : Prop :=
  ∀ x' < 32, ∀ z' < 32, ¬ (x' = x ∧ z' = z) →
    ∃ o, slotChunk gzipHeader readRoot region x' z' = .ok o ∧
      slotChunk gzipHeader readRoot region' x' z' = .ok o ∧ ∀ d, o = some d → d.WellFormed

/-- The key and record of a chunk, unless it is rejected by the limits. -/
def windowRecord (limits : Limits) (d : ChunkData) : List (List UInt8 × List UInt8) :=
  if limits.admits d.xPos d.zPos then [recordOf blockTranslate d] else []

/-- **The two regions are converted alike**: both conversions complete and put the same keys and
records in the database, the ones of `d` among them. -/
def SameRecord (content content' : List UInt8) (d : ChunkData) : Prop :=
  ∀ name centerX centerZ limit, Reaches name centerX centerZ limit →
    ∀ s : ConvertState, Reached blockTranslate s.converter → ∃ kvs t t',
      convertRegion blockTranslate gzipHeader readRoot name content centerX centerZ limit s = .ok () t ∧
      convertRegion blockTranslate gzipHeader readRoot name content' centerX centerZ limit s = .ok () t' ∧
      t.db = Store.applyBatch s.db (puts kvs) ∧ t'.db = Store.applyBatch s.db (puts kvs) ∧
      windowRecord blockTranslate (windowOf centerX centerZ limit) d <:+: kvs

variable {gzipHeader readRoot}

theorem slotChunk_of_levelFirst {region : DesktopRegionFile} {x z : ℕ} {n : String} {cs ts : List Tag}
    {d : ChunkData} (h : HoldsChunk cs ts d) (hfirst : LevelFirst cs)
    (hslot : Holds gzipHeader readRoot region x z (.compound n cs)) :
    slotChunk gzipHeader readRoot region x z = .ok (some d) := by
  obtain ⟨stream, hstream, hroot⟩ := hslot
  refine bind_eq_ok.mpr ⟨some stream, hstream, bind_eq_ok.mpr ⟨_, hroot, ?_⟩⟩
  exact bind_eq_ok.mpr ⟨ts, h.levelOf_eq hfirst n, bind_eq_ok.mpr ⟨d, h.chunk, rfl⟩⟩

theorem levelFirst_of_converted {content : List UInt8} {region : DesktopRegionFile}
    (hopen : DesktopRegionFile.construct (DesktopRegionFile.fresh content) = .ok () region) {x z : ℕ}
    (hx : x < 32) (hz : z < 32) {n : String} {cs ts : List Tag} {d : ChunkData} (h : HoldsChunk cs ts d)
    (hslot : Holds gzipHeader readRoot region x z (.compound n cs)) {name : String}
    {centerX centerZ : JFloat} {limit : Bool} (hreach : Reaches name centerX centerZ limit)
    {s t : ConvertState} (ht : convertRegion blockTranslate gzipHeader readRoot name content centerX
      centerZ limit s = .ok () t) : LevelFirst cs := by
  obtain ⟨stream, hstream, hroot⟩ := hslot
  obtain ⟨o, ho, hconv⟩ := convertRegion_inv blockTranslate hreach hopen ht hx hz
  rw [hstream] at ho
  obtain ⟨root, level, c, c', hroot', hlevel, hc⟩ := hconv stream (Except.ok.inj ho).symm
  obtain rfl := Except.ok.inj (hroot.symm.trans hroot')
  obtain ⟨xPos, hxPos⟩ := convertChunk_xPos hc
  exact h.levelFirst hlevel hxPos

theorem levelFirst_of_sameRecord {content content' : List UInt8} {region region' : DesktopRegionFile}
    (hopen : DesktopRegionFile.construct (DesktopRegionFile.fresh content) = .ok () region)
    (hopen' : DesktopRegionFile.construct (DesktopRegionFile.fresh content') = .ok () region')
    {x z : ℕ} (hx : x < 32) (hz : z < 32) {n : String} {cs cs' ts ts' : List Tag} {d : ChunkData}
    (hroot : HoldsChunk cs ts d) (hroot' : HoldsChunk cs' ts' d)
    (hslot : Holds gzipHeader readRoot region x z (.compound n cs))
    (hslot' : Holds gzipHeader readRoot region' x z (.compound n cs'))
    (h : SameRecord blockTranslate gzipHeader readRoot content content' d) :
    LevelFirst cs ∧ LevelFirst cs' := by
  have hreach := reaches_unlimited "" (JFloat.ofBits 0) (JFloat.ofBits 0)
  obtain ⟨kvs, t, t', ht, ht', -⟩ := h _ _ _ _ hreach ⟨initial, region, ∅⟩
    (reached_initial blockTranslate)
  exact ⟨levelFirst_of_converted blockTranslate hopen hx hz hroot hslot hreach ht,
    levelFirst_of_converted blockTranslate hopen' hx hz hroot' hslot' hreach ht'⟩

/-- The record of a chunk of the region is among the records of the region. -/
theorem windowRecord_infix {region : DesktopRegionFile} (limits : Limits) {x z : ℕ} (hx : x < 32)
    (hz : z < 32) {d : ChunkData} (h : slotChunk gzipHeader readRoot region x z = .ok (some d)) :
    windowRecord blockTranslate limits d <:+:
      regionRecordsIn gzipHeader readRoot region blockTranslate limits 32 := by
  have hslot : slotRecords gzipHeader readRoot region blockTranslate limits x z =
      windowRecord blockTranslate limits d := by
    unfold slotRecords chunkIn windowRecord
    rw [h]
    by_cases hl : limits.admits d.xPos d.zPos <;> simp [Option.filter_some, hl]
  have hrow : slotRecords gzipHeader readRoot region blockTranslate limits x z <:+:
      rowRecordsIn gzipHeader readRoot region blockTranslate limits x 32 :=
    List.infix_of_mem_flatten (List.mem_map_of_mem (List.mem_range.mpr hz))
  rw [← hslot]
  exact hrow.trans (List.infix_of_mem_flatten (List.mem_map_of_mem (List.mem_range.mpr hx)))

/-- **When the order of the tags does not matter**: a chunk whose tags come in another order is
converted to the same record exactly when `Level` is the first child of the root in both orders. -/
theorem sameRecord_iff {content content' : List UInt8} {region region' : DesktopRegionFile}
    (hopen : DesktopRegionFile.construct (DesktopRegionFile.fresh content) = .ok () region)
    (hopen' : DesktopRegionFile.construct (DesktopRegionFile.fresh content') = .ok () region')
    {x z : ℕ} (hx : x < 32) (hz : z < 32) {n : String} {cs cs' ts : List Tag} {d : ChunkData}
    (hroot : ChunkRoot cs ts d) (hp : Permuted RootChild cs cs')
    (hslot : Holds gzipHeader readRoot region x z (.compound n cs))
    (hslot' : Holds gzipHeader readRoot region' x z (.compound n cs'))
    (helse : SameElsewhere gzipHeader readRoot region region' x z) :
    SameRecord blockTranslate gzipHeader readRoot content content' d ↔
      LevelFirst cs ∧ LevelFirst cs' := by
  obtain ⟨ts', hroot'⟩ := hroot.permuted hp
  constructor
  · exact levelFirst_of_sameRecord blockTranslate hopen hopen' hx hz hroot.toHoldsChunk hroot' hslot
      hslot'
  · rintro ⟨hfirst, hfirst'⟩ name centerX centerZ limit hreach s hs
    have hchunk := slotChunk_of_levelFirst hroot.toHoldsChunk hfirst hslot
    have hchunk' := slotChunk_of_levelFirst hroot' hfirst' hslot'
    -- slot by slot the two regions hold the same well-formed chunks
    have hsame : ∀ a < 32, ∀ b < 32, ∃ o, slotChunk gzipHeader readRoot region a b = .ok o ∧
        slotChunk gzipHeader readRoot region' a b = .ok o ∧ ∀ d, o = some d → d.WellFormed := by
      intro a ha b hb
      by_cases hab : a = x ∧ b = z
      · obtain ⟨rfl, rfl⟩ := hab
        refine ⟨some d, hchunk, hchunk', fun e he => ?_⟩
        obtain rfl := Option.some.inj he
        exact hroot.wellFormed
      · exact helse a ha b hb hab
    have hok : SlotsOk gzipHeader readRoot region := by
      intro a ha b hb
      obtain ⟨o, ho, -, hwf⟩ := hsame a ha b hb
      exact ⟨o, ho, hwf⟩
    have hok' : SlotsOk gzipHeader readRoot region' := by
      intro a ha b hb
      obtain ⟨o, -, ho, hwf⟩ := hsame a ha b hb
      exact ⟨o, ho, hwf⟩
    obtain ⟨t, ht, hdb⟩ := convertRegion_window blockTranslate hreach hopen hok hs.dirtyOk
    obtain ⟨t', ht', hdb'⟩ := convertRegion_window blockTranslate hreach hopen' hok' hs.dirtyOk
    refine ⟨_, t, t', ht, ht', hdb, ?_, windowRecord_infix blockTranslate _ hx hz hchunk⟩
    rw [hdb', regionRecordsIn_congr blockTranslate]
    intro a ha b hb
    obtain ⟨o, ho, ho', -⟩ := hsame a ha b hb
    rw [ho, ho']

end Regions

/-! ## A chunk with a version tag -/

/-- The children of a root: the chunk of stone and the version of the game. -/
def versioned : List Tag :=
  [.compound "Level" (oneSection (-32) 32 (uniform 1)), .int "DataVersion" 1343]

/-- The same with the children of `Level` reversed. -/
def levelReversed : List Tag :=
  [.compound "Level" (oneSection (-32) 32 (uniform 1)).reverse, .int "DataVersion" 1343]

/-- The NBT encoding of a root with the children `versioned`, deflated. -/
def versionedData : List UInt8 :=
  [120, 218, 237, 217, 65, 10, 130, 80, 20, 133, 225, 99, 106, 218, 107, 210, 18, 218, 73, 16, 13,
   29, 4, 66, 208, 80, 228, 81, 162, 248, 64, 37, 170, 213, 182, 147, 215, 171, 65, 139, 200, 255,
   27, 157, 123, 185, 11, 56, 112, 141, 100, 148, 22, 246, 102, 187, 88, 201, 253, 232, 70, 239,
   253, 43, 196, 103, 136, 146, 182, 43, 229, 165, 173, 167, 198, 245, 163, 9, 115, 20, 41, 58,
   47, 50, 45, 247, 157, 171, 219, 112, 177, 9, 43, 0, 0, 0, 0, 0, 240, 239, 50, 37, 135, 106,
   170, 164, 92, 0, 0, 96, 126, 50, 153, 239, 95, 160, 104, 46, 215, 137, 66, 0, 0, 192, 92, 11,
   65, 94, 182, 143, 95, 29, 240, 0, 0, 96, 118, 164, 88, 235, 207, 179, 224, 100, 135, 177, 113,
   189, 148, 238, 244, 6, 227, 117, 37, 168]

/-- The NBT encoding of a root with the children `levelReversed`, deflated. -/
def levelReversedData : List UInt8 :=
  [120, 218, 237, 217, 65, 10, 130, 64, 0, 133, 225, 103, 105, 99, 211, 166, 35, 116, 147, 32, 90,
   186, 8, 132, 160, 165, 200, 80, 162, 56, 224, 72, 84, 167, 237, 38, 53, 181, 232, 16, 249, 127,
   171, 199, 59, 193, 131, 103, 37, 171, 172, 112, 87, 215, 45, 149, 151, 174, 30, 27, 223, 7, 43,
   41, 73, 148, 156, 102, 70, 139, 93, 231, 235, 54, 72, 235, 88, 1, 0, 0, 0, 0, 128, 127, 103,
   148, 238, 171, 177, 146, 114, 1, 0, 128, 233, 49, 178, 223, 95, 160, 104, 206, 151, 145, 65, 0,
   0, 192, 84, 7, 65, 94, 182, 247, 223, 28, 120, 1, 0, 128, 201, 209, 92, 233, 227, 224, 67, 92,
   6, 155, 24, 111, 49, 198, 246, 25, 235, 213, 231, 66, 56, 186, 33, 52, 190, 151, 178, 173, 222,
   70, 215, 37, 168]

/-- The NBT encoding of a root with the children `versioned.reverse`, deflated. -/
def versionFirstData : List UInt8 :=
  [120, 218, 237, 217, 65, 10, 130, 80, 16, 198, 241, 207, 212, 180, 215, 166, 35, 116, 147, 32,
   90, 186, 8, 132, 160, 165, 200, 163, 68, 73, 72, 137, 234, 180, 221, 228, 53, 181, 232, 16,
   249, 255, 173, 102, 134, 57, 192, 199, 140, 147, 98, 45, 119, 213, 88, 29, 252, 117, 104, 250,
   139, 148, 110, 156, 210, 194, 223, 124, 23, 43, 185, 239, 251, 33, 132, 240, 178, 242, 105,
   165, 164, 245, 66, 121, 233, 235, 209, 118, 7, 103, 125, 20, 41, 58, 206, 50, 205, 183, 93, 95,
   183, 182, 177, 178, 17, 0, 0, 0, 0, 0, 248, 119, 153, 146, 207, 69, 65, 202, 5, 0, 0, 166, 39,
   147, 251, 254, 5, 138, 230, 116, 30, 9, 4, 0, 0, 76, 53, 16, 228, 101, 251, 248, 197, 129, 0,
   0, 0, 38, 199, 18, 193, 27, 109, 189, 37, 168]

/-- What inflating and decoding gives for these streams. -/
def readVersioned (stream : ChunkStream) : Except Exn Tag :=
  if stream = ⟨false, versionedData⟩ then .ok (.compound "" versioned)
  else if stream = ⟨false, levelReversedData⟩ then .ok (.compound "" levelReversed)
  else if stream = ⟨false, versionFirstData⟩ then .ok (.compound "" versioned.reverse)
  else .error .io

theorem chunkRoot_versioned :
    ChunkRoot versioned (oneSection (-32) 32 (uniform 1)) ⟨-32, 32, [⟨2, uniform 1⟩]⟩ where
  unique := by simp [UniqueNames, versioned, Tag.name]
  level := List.mem_cons_self
  chunk := chunkData_oneSection _ _ _
  only := by
    intro n us hmem hne
    simp only [versioned, List.mem_cons, Tag.compound.injEq, reduceCtorEq, List.not_mem_nil, or_false]
      at hmem
    exact absurd hmem.1 hne
  wellFormed := wellFormed_uniform _ _ 1
  uniqueLevel := by simp [UniqueNames, oneSection, Tag.name]
  uniqueSections := by
    intro type ss hmem n us hu
    simp only [oneSection, List.mem_cons, reduceCtorEq, Tag.list.injEq, List.not_mem_nil, or_false,
      false_or, true_and] at hmem
    rw [hmem.2, List.mem_singleton] at hu
    rw [(Tag.compound.inj hu).2]
    simp [UniqueNames, Tag.name]

/-- Two region files, the one with `versioned`, the other with some other root, in the first slot. -/
theorem regions_versioned {data : List UInt8} {cs : List Tag} (hlen : data.length ≤ 4091)
    (hread : readVersioned ⟨false, data⟩ = .ok (.compound "" cs)) : ∃ region region',
    DesktopRegionFile.construct (DesktopRegionFile.fresh
      (DesktopRegionFile.singleSlot versionedData)) = .ok () region ∧
    DesktopRegionFile.construct (DesktopRegionFile.fresh
      (DesktopRegionFile.singleSlot data)) = .ok () region' ∧
    Holds (fun _ => false) readVersioned region 0 0 (.compound "" versioned) ∧
    Holds (fun _ => false) readVersioned region' 0 0 (.compound "" cs) ∧
    SameElsewhere (fun _ => false) readVersioned region region' 0 0 := by
  obtain ⟨region, hopen, hslots⟩ := DesktopRegionFile.slotStream_singleSlot (fun _ => false)
    (show versionedData.length ≤ 4091 by decide +kernel)
  obtain ⟨region', hopen', hslots'⟩ := DesktopRegionFile.slotStream_singleSlot (fun _ => false) hlen
  refine ⟨region, region', hopen, hopen', ⟨_, hslots 0 (by norm_num) 0 (by norm_num), if_pos rfl⟩,
    ⟨_, hslots' 0 (by norm_num) 0 (by norm_num), hread⟩, fun x hx z hz hxz => ⟨none, ?_, ?_, ?_⟩⟩
  · refine bind_eq_ok.mpr ⟨none, ?_, rfl⟩
    rw [hslots x hx z hz, if_neg hxz]
  · refine bind_eq_ok.mpr ⟨none, ?_, rfl⟩
    rw [hslots' x hx z hz, if_neg hxz]
  · intro d hd
    cases hd

/-- The children of `Level` reversed: the same record. -/
theorem sameRecord_levelReversed : ∃ region region',
    DesktopRegionFile.construct (DesktopRegionFile.fresh
      (DesktopRegionFile.singleSlot versionedData)) = .ok () region ∧
    DesktopRegionFile.construct (DesktopRegionFile.fresh
      (DesktopRegionFile.singleSlot levelReversedData)) = .ok () region' ∧
    Holds (fun _ => false) readVersioned region 0 0 (.compound "" versioned) ∧
    Holds (fun _ => false) readVersioned region' 0 0 (.compound "" levelReversed) ∧
    SameRecord (Vector.ofFn fun i => UInt8.ofNat i) (fun _ => false) readVersioned
      (DesktopRegionFile.singleSlot versionedData) (DesktopRegionFile.singleSlot levelReversedData)
      ⟨-32, 32, [⟨2, uniform 1⟩]⟩ := by
  have hp : Permuted RootChild versioned levelReversed := by
    have hlevel : Permuted LevelChild (oneSection (-32) 32 (uniform 1))
        (oneSection (-32) 32 (uniform 1)).reverse :=
      ⟨_, List.forall₂_same.mpr fun _ _ => .inl rfl, (List.reverse_perm _).symm⟩
    exact ⟨levelReversed, .cons (.inr ⟨_, _, rfl, rfl, hlevel⟩) (.cons (.inl rfl) .nil), .refl _⟩
  have hread : readVersioned ⟨false, levelReversedData⟩ = .ok (.compound "" levelReversed) := by
    unfold readVersioned
    rw [if_neg (by decide +kernel), if_pos rfl]
  obtain ⟨region, region', hopen, hopen', hslot, hslot', helse⟩ := regions_versioned
    (show levelReversedData.length ≤ 4091 by decide +kernel) hread
  exact ⟨region, region', hopen, hopen', hslot, hslot', (sameRecord_iff _ hopen hopen' (by norm_num)
    (by norm_num) chunkRoot_versioned hp hslot hslot' helse).mpr ⟨by decide, by decide⟩⟩

/-- The version before `Level`: the first child is not a compound. -/
theorem not_sameRecord_versionFirst : ∃ region region',
    DesktopRegionFile.construct (DesktopRegionFile.fresh
      (DesktopRegionFile.singleSlot versionedData)) = .ok () region ∧
    DesktopRegionFile.construct (DesktopRegionFile.fresh
      (DesktopRegionFile.singleSlot versionFirstData)) = .ok () region' ∧
    ChunkRoot versioned (oneSection (-32) 32 (uniform 1)) ⟨-32, 32, [⟨2, uniform 1⟩]⟩ ∧
    Permuted RootChild versioned versioned.reverse ∧
    Holds (fun _ => false) readVersioned region 0 0 (.compound "" versioned) ∧
    Holds (fun _ => false) readVersioned region' 0 0 (.compound "" versioned.reverse) ∧
    SameElsewhere (fun _ => false) readVersioned region region' 0 0 ∧
    ¬ SameRecord (Vector.ofFn fun i => UInt8.ofNat i) (fun _ => false) readVersioned
      (DesktopRegionFile.singleSlot versionedData) (DesktopRegionFile.singleSlot versionFirstData)
      ⟨-32, 32, [⟨2, uniform 1⟩]⟩ := by
  have hp : Permuted RootChild versioned versioned.reverse :=
    ⟨versioned, List.forall₂_same.mpr fun _ _ => .inl rfl, (List.reverse_perm _).symm⟩
  have hread : readVersioned ⟨false, versionFirstData⟩ = .ok (.compound "" versioned.reverse) := by
    unfold readVersioned
    rw [if_neg (by decide +kernel), if_neg (by decide +kernel), if_pos rfl]
  obtain ⟨region, region', hopen, hopen', hslot, hslot', helse⟩ := regions_versioned
    (show versionFirstData.length ≤ 4091 by decide +kernel) hread
  obtain ⟨ts', hroot'⟩ := chunkRoot_versioned.permuted hp
  refine ⟨region, region', hopen, hopen', chunkRoot_versioned, hp, hslot, hslot', helse, fun h => ?_⟩
  have hfirst := (levelFirst_of_sameRecord _ hopen hopen' (by norm_num) (by norm_num)
    chunkRoot_versioned.toHoldsChunk hroot' hslot hslot' h).2
  exact absurd hfirst (by decide)

end ConvertState

end WorldToPE
