import WorldToPE.Convert.ChunkRecord

/-!
# WorldToPE.Convert.SectionIndex — sections with any index

The index of a section is a signed byte.  `convertChunk` tests only that it is less than 8, and the
setters it calls do not test their coordinates.  A section with an index from 8 on is left out, one from
0 to 7 writes its own sixteen layers, and a negative one runs off the array with its first cell.

* `convertSection_below`: a section with a negative index throws before it has written anything.
* `confined_convertSection`: no section writes outside its own layers.
* `convertChunk_sections`: which chunks are converted without an exception.
-/

namespace WorldToPE.Converter

open Java Run Nibble Chunk

/-- The index of a section, as `convertChunk` reads it. -/
def SectionData.index (sec : SectionData) : ℤ := (widen sec.y).toInt

/-- The action changes no cell outside the layers `16 Y` to `16 Y + 15`, however it ends. -/
def Confined (Y : ℤ) (m : M Unit) : Prop :=
  ∀ s : Converter, ∀ i < 32768, ((i % 128 : ℕ) : ℤ) ∉ Set.Ico (16 * Y) (16 * Y + 16) →
    cellAt (after m s).peChunk i = cellAt s.peChunk i

section Index

variable (blockTranslate : Vector UInt8 256)

/-- The first cell of a section with a negative index lies before the array. -/
theorem setBlockTypeIdNoDirty_below (c : Chunk) {sectionY : Int32} (h0 : sectionY.toInt < 0)
    (h1 : -128 ≤ sectionY.toInt) (type : Int32) :
    c.setBlockTypeIdNoDirty 0 ((sectionY <<< 4) + 0) 0 type = .error .arrayIndexOutOfBounds := by
  have hzero : (0 : Int32).toInt = 0 := rfl
  have hshift : (sectionY <<< 4).toInt = sectionY.toInt * 2 ^ 4 :=
    toInt_shiftLeft 4 (by norm_num) (by omega) (by omega)
  have hyy : ((sectionY <<< 4) + 0).toInt = sectionY.toInt * 16 := by
    rw [toInt_add_of_fits] <;> rw [hshift, hzero] <;> omega
  have hoffset : (getOffset 0 ((sectionY <<< 4) + 0) 0).toInt = sectionY.toInt * 16 := by
    rw [toInt_getOffset (by decide) (by omega) (by decide), hyy, hzero]
    ring
  unfold setBlockTypeIdNoDirty aset
  rw [dif_neg (by rw [hoffset]; omega)]
  rfl

theorem convertCell_below {sectionY : Int32} (h0 : sectionY.toInt < 0) (h1 : -128 ≤ sectionY.toInt)
    {l : Layers} (hl : l.Sized) (s : Converter) :
    convertCell blockTranslate sectionY l 0 0 0 s = .error .arrayIndexOutOfBounds s := by
  have hpos : ((((0 : Int32) <<< (4 : Int32)) ||| (0 : Int32)) ||| ((0 : Int32) <<< (8 : Int32))).toInt =
      (0 : ℕ) := by decide
  have hlen : 0 < l.blocks.length := by
    rw [hl.blocks]
    norm_num
  obtain ⟨b, hb⟩ : ∃ b, lget l.blocks ((((0 : Int32) <<< (4 : Int32)) ||| (0 : Int32)) |||
      ((0 : Int32) <<< (8 : Int32))) = .ok b := ⟨_, lget_of_toInt hpos hlen⟩
  unfold convertCell
  rw [bind_of_ok (lift_ok hb s), bind_of_ok (lift_ok (translate blockTranslate b) s),
    bind_of_error (onChunk_error (setBlockTypeIdNoDirty_below _ h0 h1 _))]

/-- **A section with a negative index** throws with its first cell. -/
theorem convertSection_below {t : Tag} {sec : SectionData} (ht : sectionData t = .ok sec)
    (hl : sec.layers.Sized) (hneg : sec.index < 0) (s : Converter) :
    convertSection blockTranslate t s = .error .arrayIndexOutOfBounds s := by
  have h1 : -128 ≤ (widen sec.y).toInt := by
    have := sec.y.toNat_lt
    rw [toInt_widen]
    split <;> omega
  have hlt : widen sec.y < 8 := by
    rw [Int32.lt_iff_toInt_lt]
    show sec.index < 8
    omega
  rw [convertSection_eq blockTranslate ht, if_pos hlt]
  -- the first round of each of the three loops
  refine forUpTo_first_error (forUpTo_first_error (forUpTo_first_error ?_ ?_) ?_) ?_
  · exact convertCell_below blockTranslate hneg h1 hl s
  all_goals norm_num

theorem index_eq {sec : SectionData} (h : 0 ≤ sec.index) : sec.index = sec.y.toNat := by
  unfold SectionData.index at h ⊢
  have := sec.y.toNat_lt
  rw [toInt_widen] at h ⊢
  split at h <;> split <;> omega

/-- **No section** writes outside its own layers. -/
theorem confined_convertSection {t : Tag} {sec : SectionData} (ht : sectionData t = .ok sec)
    (hl : sec.layers.Sized) : Confined sec.index (convertSection blockTranslate t) := by
  intro s i hi hout
  by_cases h0 : 0 ≤ sec.index
  · obtain ⟨s', hs', c, rfl, hw⟩ := convertSection_spec blockTranslate ht ⟨h0, hl⟩ s
    rw [after_of_ok hs']
    refine hw.off i hi fun hin => hout ?_
    rw [index_eq h0, Set.mem_Ico]
    unfold sectionOf at hin
    omega
  · rw [after_of_error (convertSection_below blockTranslate ht hl (by omega) s)]

/-- **Run lemma** over the sections: they are all converted if no index is negative. -/
theorem convertSections_ok_iff {ts : List Tag} {ds : List SectionData}
    (hds : ts.mapM sectionData = .ok ds) (hsized : ∀ sec ∈ ds, sec.layers.Sized) (s : Converter) :
    (∃ s', convertSections blockTranslate ts s = .ok () s') ↔ ∀ sec ∈ ds, 0 ≤ sec.index := by
  induction ts generalizing ds s with
  | nil =>
    obtain rfl : [] = ds := Except.ok.inj hds
    exact ⟨fun _ => List.forall_mem_nil _, fun _ => ⟨s, rfl⟩⟩
  | cons t ts ih =>
    rw [List.mapM_cons] at hds
    obtain ⟨sec, hsec, hds⟩ := bind_eq_ok.mp hds
    obtain ⟨ds', hds', h⟩ := bind_eq_ok.mp hds
    obtain rfl : sec :: ds' = ds := Except.ok.inj h
    rw [List.forall_mem_cons] at hsized ⊢
    rw [convertSections]
    by_cases h0 : 0 ≤ sec.index
    · obtain ⟨s1, hs1, -⟩ := convertSection_spec blockTranslate hsec ⟨h0, hsized.1⟩ s
      rw [bind_of_ok hs1, ih hds' hsized.2 s1]
      exact ⟨fun h => ⟨h0, h⟩, fun h => h.2⟩
    · rw [bind_of_error (convertSection_below blockTranslate hsec hsized.1 (by omega) s)]
      constructor
      · rintro ⟨s', h⟩
        cases h
      · intro h
        exact absurd h.1 h0

theorem convertChunk_ok_iff {limits : Limits} {tags : List Tag} {d : ChunkData}
    (hd : chunkData tags = .ok d) (hsized : ∀ sec ∈ d.sections, sec.layers.Sized) (s : Converter) :
    (∃ s', convertChunk blockTranslate limits tags s = .ok () s') ↔
      (limits.admits d.xPos d.zPos → ∀ sec ∈ d.sections, 0 ≤ sec.index) := by
  obtain ⟨hx, hz, ts, hts, hds⟩ := chunkData_ok hd
  by_cases hl : limits.admits d.xPos d.zPos
  · have hsecs := convertSections_ok_iff blockTranslate hds hsized
      { s with peChunk := zeroChunk s.peChunk }
    unfold convertChunk
    rw [bind_of_ok (lift_ok hx _), bind_of_ok (lift_ok hz _), if_pos hl,
      bind_of_ok (modify_apply _ _), bind_of_ok (lift_ok hts _), imp_iff_right hl, ← hsecs]
    constructor
    · rintro ⟨s', h⟩
      obtain ⟨u, t, ht, -⟩ := bind_eq_ok.mp h
      exact ⟨t, ht⟩
    · rintro ⟨t, ht⟩
      rw [bind_of_ok ht]
      exact ⟨_, rfl⟩
  · rw [convertChunk_rejected blockTranslate hx hz hl s]
    exact ⟨fun _ h => absurd h hl, fun _ => ⟨s, rfl⟩⟩

end Index

/-- **Sections with any index**: the chunk is converted without an exception, and each section leaves
everything outside its own layers alone, if and only if the chunk is outside the window or none of its
sections has a negative index. -/
theorem convertChunk_sections (blockTranslate : Vector UInt8 256) (limits : Limits) (tags : List Tag)
    (d : ChunkData) (hd : chunkData tags = .ok d) (hsized : ∀ sec ∈ d.sections, sec.layers.Sized)
    (s : Converter) :
    ((∃ s', convertChunk blockTranslate limits tags s = .ok () s') ∧
      ∀ t sec, sectionData t = .ok sec → sec ∈ d.sections →
        Confined sec.index (convertSection blockTranslate t)) ↔
      (limits.admits d.xPos d.zPos → ∀ sec ∈ d.sections, 0 ≤ sec.index) := by
  rw [convertChunk_ok_iff blockTranslate hd hsized s]
  constructor
  · rintro ⟨h, -⟩
    exact h
  · intro h
    exact ⟨h, fun t sec ht hsec => confined_convertSection blockTranslate ht (hsized sec hsec)⟩

/-- A section of stone is converted. -/
theorem convertChunk_sections_stone :
    ∃ s', convertChunk (Vector.replicate 256 1) ⟨0, 0, -1⟩ (oneSection (-3) 7 (uniform 1)) initial =
      .ok () s' := by
  refine ((convertChunk_sections (Vector.replicate 256 1) ⟨0, 0, -1⟩ (oneSection (-3) 7 (uniform 1))
    ⟨-3, 7, [⟨2, uniform 1⟩]⟩ (chunkData_oneSection _ _ _) ?_ initial).mpr ?_).1
  · intro sec hsec
    rw [List.mem_singleton.mp hsec]
    exact uniform_sized 1
  · intro _ sec hsec
    rw [List.mem_singleton.mp hsec]
    decide

/-- A chunk with one section just below the world. -/
def sectionBelow : List Tag :=
  [.int "xPos" 0, .int "zPos" 0, .list "Sections" .compound [.compound "" [.byte "Y" 255,
    .byteArray "Blocks" (uniform 1).blocks, .byteArray "Data" (uniform 1).data,
    .byteArray "BlockLight" (uniform 1).blockLight, .byteArray "SkyLight" (uniform 1).skyLight]]]

/-- A well-sized section with index `-1` makes the conversion of its chunk throw. -/
theorem not_convertChunk_sectionBelow :
    chunkData sectionBelow = .ok ⟨0, 0, [⟨255, uniform 1⟩]⟩ ∧ (uniform 1).Sized ∧
      ¬∃ s', convertChunk (Vector.replicate 256 1) ⟨0, 0, -1⟩ sectionBelow initial = .ok () s' := by
  have hd : chunkData sectionBelow = .ok ⟨0, 0, [⟨255, uniform 1⟩]⟩ := by
    simp [chunkData, sectionBelow, Tag.toMap, Tag.name, Tag.asInt, Tag.asList]
    rfl
  refine ⟨hd, uniform_sized 1, ?_⟩
  rw [convertChunk_ok_iff _ hd (List.forall_mem_singleton.mpr (uniform_sized 1))]
  intro h
  have hneg : ¬0 ≤ SectionData.index ⟨255, uniform 1⟩ := by decide
  exact hneg (h (by decide) _ List.mem_cons_self)

end WorldToPE.Converter
