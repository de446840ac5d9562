import WorldToPE.Convert.Section

/-!
# WorldToPE.Convert.ChunkRecord — the record of a converted chunk depends on that chunk only

`referenceRecord` computes the record of a chunk from its sections alone, byte by byte, without the
static chunk of the converter.  The static chunk is reset only in part between two chunks; what makes
that harmless is `DirtyOk`, an invariant of every call, also of those that throw.

* `keeps_convertChunk`: every call keeps `DirtyOk`.
* `convertChunk_spec`: in every state with `DirtyOk` a well-formed chunk is put in the batch as its
  reference record.
-/

namespace WorldToPE.Converter

open Java Run Nibble Chunk

/-! ## The parts of a chunk compound that are read -/

/-- A section: its index and its arrays. -/
structure SectionData where
  y : UInt8
  layers : Layers
deriving DecidableEq, Repr

/-- The section a tag describes, if all its tags are there and of the right class. -/
def sectionData (sectionTag : Tag) : Except Exn SectionData := do
  let tags ← Tag.asCompound (some sectionTag)
  let y ← Tag.asByte (Tag.toMap tags "Y")
  let blocks ← Tag.asByteArray (Tag.toMap tags "Blocks")
  let data ← Tag.asByteArray (Tag.toMap tags "Data")
  let blockLight ← Tag.asByteArray (Tag.toMap tags "BlockLight")
  let skyLight ← Tag.asByteArray (Tag.toMap tags "SkyLight")
  return ⟨y, blocks, data, blockLight, skyLight⟩

/-- A section with a non-negative index and arrays of the right sizes. -/
structure SectionData.WellFormed (d : SectionData) : Prop where
  y : 0 ≤ (widen d.y).toInt
  layers : d.layers.Sized

/-- A chunk: its coordinates and sections. -/
structure ChunkData where
  xPos : Int32
  zPos : Int32
  sections : List SectionData
deriving DecidableEq, Repr

/-- The chunk the children of a `Level` compound describe. -/
def chunkData (tags : List Tag) : Except Exn ChunkData := do
  let xPos ← Tag.asInt (Tag.toMap tags "xPos")
  let zPos ← Tag.asInt (Tag.toMap tags "zPos")
  let sections ← Tag.asList (Tag.toMap tags "Sections")
  return ⟨xPos, zPos, ← sections.mapM sectionData⟩

def ChunkData.WellFormed (d : ChunkData) : Prop := ∀ sec ∈ d.sections, sec.WellFormed

/-! ## The reference record -/

/-- The section with index `Y`; of several, the last one. -/
def sectionAt (sections : List SectionData) (Y : ℕ) : Option SectionData :=
  sections.reverse.find? fun d => d.y.toNat = Y

section Reference

variable (blockTranslate : Vector UInt8 256) (sections : List SectionData)

/-- The cell at offset `i` of the converted chunk. -/
def referenceCell (i : ℕ) : Cell :=
  match sectionAt sections (sectionOf i) with
  | some d => d.layers.cell blockTranslate (sectionPos i)
  | none => Cell.zero

/-- A layer of half bytes. -/
def packed (f : Cell → Int32) : List UInt8 :=
  (List.range 16384).map fun j => pack (f (referenceCell blockTranslate sections (2 * j)))
    (f (referenceCell blockTranslate sections (2 * j + 1)))

/-- **The reference encoding** of a chunk with the given sections. -/
def referenceRecord : List UInt8 :=
  (List.range 32768).map (fun i => (referenceCell blockTranslate sections i).type) ++
    (packed blockTranslate sections Cell.data ++ (packed blockTranslate sections Cell.skyLight ++
      (packed blockTranslate sections Cell.blockLight ++
        (List.replicate 256 255 ++ (List.replicate 768 0 ++ [0, 0, 0])))))

theorem length_referenceRecord : (referenceRecord blockTranslate sections).length = 82947 := by
  simp only [referenceRecord, packed, List.length_append, List.length_map, List.length_range,
    List.length_replicate, List.length_cons, List.length_nil]

/-- A chunk whose cells are the reference cells is saved as the reference record. -/
theorem saveToByteArray_eq {c : Chunk}
    (hc : ∀ i < 32768, cellAt c i = referenceCell blockTranslate sections i)
    (hd : c.dirtyTable = Vector.replicate 256 255) (hg : c.grassColor = Vector.replicate 768 0) :
    c.saveToByteArray = referenceRecord blockTranslate sections := by
  have h1 := toList_eq_map_range (v := c.blocks) fun i hi => congrArg Cell.type (hc i hi)
  have h2 := toList_eq_map_pack (v := c.metaData) fun i hi => congrArg Cell.data (hc i hi)
  have h3 := toList_eq_map_pack (v := c.skyLight) fun i hi => congrArg Cell.skyLight (hc i hi)
  have h4 := toList_eq_map_pack (v := c.blockLight) fun i hi => congrArg Cell.blockLight (hc i hi)
  rw [saveToByteArray, h1, h2, h3, h4, hd, hg, Vector.toList_replicate, Vector.toList_replicate]
  rfl

end Reference

/-! ## Sections -/

section Sections

variable (blockTranslate : Vector UInt8 256)

/-- What `convertSection` does with the section of a tag. -/
theorem convertSection_eq {t : Tag} {d : SectionData} (ht : sectionData t = .ok d) (s : Converter) :
    convertSection blockTranslate t s =
      if widen d.y < 8 then
        forUpTo 16 (fun x => forUpTo 16 fun z => forUpTo 16 fun y =>
          convertCell blockTranslate (widen d.y) d.layers (Int32.ofNat x) (Int32.ofNat z)
            (Int32.ofNat y)) s
      else .ok () s := by
  obtain ⟨tags, et, ht⟩ := bind_eq_ok.mp ht
  obtain ⟨y, ey, ht⟩ := bind_eq_ok.mp ht
  obtain ⟨blocks, eb, ht⟩ := bind_eq_ok.mp ht
  obtain ⟨data, ed, ht⟩ := bind_eq_ok.mp ht
  obtain ⟨blockLight, el, ht⟩ := bind_eq_ok.mp ht
  obtain ⟨skyLight, es, ht⟩ := bind_eq_ok.mp ht
  obtain rfl := Except.ok.inj ht
  unfold convertSection
  rw [bind_of_ok (lift_ok et _), bind_of_ok (lift_ok ey _)]
  by_cases h8 : widen y < 8
  · rw [if_pos h8, if_pos h8, bind_of_ok (lift_ok eb _), bind_of_ok (lift_ok ed _),
      bind_of_ok (lift_ok el _), bind_of_ok (lift_ok es _)]
  · rw [if_neg h8, if_neg h8]
    rfl

theorem convertSection_spec {t : Tag} {d : SectionData} (ht : sectionData t = .ok d)
    (hd : d.WellFormed) (s : Converter) : ∃ s', convertSection blockTranslate t s = .ok () s' ∧
      Rounds blockTranslate d.layers s (fun i => sectionOf i = d.y.toNat) s' := by
  have hY : (widen d.y).toInt = d.y.toNat := by
    have h0 := hd.y
    have := d.y.toNat_lt
    rw [toInt_widen] at h0 ⊢
    split at h0 <;> split <;> omega
  have hlt : widen d.y < 8 ↔ d.y.toNat < 8 := by
    rw [Int32.lt_iff_toInt_lt, hY]
    show (d.y.toNat : Int) < 8 ↔ _
    omega
  rw [convertSection_eq blockTranslate ht]
  by_cases hY8 : d.y.toNat < 8
  · rw [if_pos (hlt.mpr hY8)]
    exact rounds_run blockTranslate hY hY8 hd.layers s
  · -- a section above the world writes no cell
    rw [if_neg (fun h => hY8 (hlt.mp h))]
    refine ⟨s, rfl, s.peChunk, rfl, Written.refl fun i hi => ?_⟩
    unfold sectionOf
    omega

/-- Everything but the four layers is kept. -/
def SameRest (c c' : Chunk) : Prop :=
  c' = { c with blocks := c'.blocks, metaData := c'.metaData, blockLight := c'.blockLight,
                skyLight := c'.skyLight }

theorem SameRest.trans {c c' c'' : Chunk} (h : SameRest c c') (h' : SameRest c' c'') :
    SameRest c c'' := by
  unfold SameRest at h h' ⊢
  rw [h', h]

/-- **Run lemma** over the sections: the last section of an index decides. -/
theorem convertSections_spec : ∀ (ts : List Tag) (ds : List SectionData) (s : Converter),
    ts.mapM sectionData = .ok ds → (∀ d ∈ ds, d.WellFormed) →
    ∃ c, convertSections blockTranslate ts s = .ok () { s with peChunk := c } ∧
      SameRest s.peChunk c ∧ ∀ i < 32768, cellAt c i = match sectionAt ds (sectionOf i) with
        | some d => d.layers.cell blockTranslate (sectionPos i)
        | none => cellAt s.peChunk i
  | [], ds, s, h, _ => by
    obtain rfl : [] = ds := Except.ok.inj h
    exact ⟨s.peChunk, rfl, rfl, fun i _ => rfl⟩
  | t :: ts, ds, s, h, hwf => by
    rw [List.mapM_cons] at h
    obtain ⟨d, hd, h⟩ := bind_eq_ok.mp h
    obtain ⟨ds', hds, h⟩ := bind_eq_ok.mp h
    obtain rfl : d :: ds' = ds := Except.ok.inj h
    obtain ⟨s1, hs1, c1, rfl, hw⟩ := convertSection_spec blockTranslate hd (hwf d List.mem_cons_self) s
    obtain ⟨c, hc, hrest, hcells⟩ := convertSections_spec ts ds' { s with peChunk := c1 } hds
      fun e he => hwf e (List.mem_cons_of_mem _ he)
    refine ⟨c, ?_, SameRest.trans hw.rest hrest, fun i hi => ?_⟩
    · rw [convertSections, bind_of_ok hs1, hc]
    · rw [hcells i hi]
      unfold sectionAt
      rw [List.reverse_cons, List.find?_append]
      cases hf : ds'.reverse.find? fun d => decide (d.y.toNat = sectionOf i) with
      | some e => rfl
      | none =>
        by_cases hy : d.y.toNat = sectionOf i
        · rw [Option.none_or, List.find?_singleton, if_pos (by simpa using hy)]
          exact hw.on i hi hy.symm
        · rw [Option.none_or, List.find?_singleton, if_neg (by simpa using hy)]
          exact hw.off i hi fun h => hy h.symm

end Sections

/-! ## The invariant of the static chunk -/

/-- A dirty table that is marked as filled is filled. -/
def DirtyOk (s : Converter) : Prop :=
  s.peChunk.hasFilledDirtyTable = true → s.peChunk.dirtyTable = Vector.replicate 256 255

theorem dirtyOk_initial : DirtyOk initial := by
  intro h
  cases h

/-- A method that keeps the dirty table of the chunk. -/
def KeepsDirty (f : Chunk → Except Exn Chunk) : Prop :=
  ∀ c c', f c = .ok c' →
    c'.dirtyTable = c.dirtyTable ∧ c'.hasFilledDirtyTable = c.hasFilledDirtyTable

theorem keeps_lift {α : Type} (e : Except Exn α) : Keeps DirtyOk (lift e) := by
  cases e with
  | error e => exact Keeps.throw e
  | ok a => exact Keeps.pure a

theorem keeps_onChunk {f : Chunk → Except Exn Chunk} (hf : KeepsDirty f) :
    Keeps DirtyOk (onChunk f) := by
  intro s hs
  cases h : f s.peChunk with
  | error e =>
    rw [after_of_error (onChunk_error h)]
    exact hs
  | ok c =>
    obtain ⟨h1, h2⟩ := hf _ _ h
    rw [after_of_ok (onChunk_ok h)]
    intro ht
    exact h1.trans (hs (h2.symm.trans ht))

theorem keepsDirty_type (x y z type : Int32) :
    KeepsDirty fun c => c.setBlockTypeIdNoDirty x y z type := by
  intro c c' h
  obtain ⟨blocks, -, h⟩ := bind_eq_ok.mp h
  obtain rfl := Except.ok.inj h
  exact ⟨rfl, rfl⟩

theorem keepsDirty_data (x y z data : Int32) :
    KeepsDirty fun c => c.setBlockDataNoDirty x y z data := by
  intro c c' h
  obtain ⟨metaData, -, h⟩ := bind_eq_ok.mp h
  obtain rfl := Except.ok.inj h
  exact ⟨rfl, rfl⟩

theorem keepsDirty_blockLight (x y z v : Int32) :
    KeepsDirty fun c => return { c with blockLight := ← chunkSetHalf c.blockLight x y z v } := by
  intro c c' h
  obtain ⟨blockLight, -, h⟩ := bind_eq_ok.mp h
  obtain rfl := Except.ok.inj h
  exact ⟨rfl, rfl⟩

theorem keepsDirty_skyLight (x y z v : Int32) :
    KeepsDirty fun c => return { c with skyLight := ← chunkSetHalf c.skyLight x y z v } := by
  intro c c' h
  obtain ⟨skyLight, -, h⟩ := bind_eq_ok.mp h
  obtain rfl := Except.ok.inj h
  exact ⟨rfl, rfl⟩

section History

variable (blockTranslate : Vector UInt8 256)

theorem keeps_convertCell (sectionY : Int32) (l : Layers) (x z y : Int32) :
    Keeps DirtyOk (convertCell blockTranslate sectionY l x z y) := by
  unfold convertCell
  refine (keeps_lift _).bind fun _ => (keeps_lift _).bind fun _ => ?_
  refine (keeps_onChunk (keepsDirty_type _ _ _ _)).bind fun _ => (keeps_lift _).bind fun _ => ?_
  refine (keeps_onChunk (keepsDirty_data _ _ _ _)).bind fun _ => (keeps_lift _).bind fun _ => ?_
  refine (keeps_onChunk (keepsDirty_blockLight _ _ _ _)).bind fun _ => (keeps_lift _).bind fun _ => ?_
  exact keeps_onChunk (keepsDirty_skyLight _ _ _ _)

theorem keeps_convertSection (t : Tag) : Keeps DirtyOk (convertSection blockTranslate t) := by
  refine (keeps_lift _).bind fun _ => (keeps_lift _).bind fun y => ?_
  dsimp only
  split
  · refine (keeps_lift _).bind fun _ => (keeps_lift _).bind fun _ => (keeps_lift _).bind fun _ =>
      (keeps_lift _).bind fun _ => ?_
    exact Keeps.forUpTo (fun _ => Keeps.forUpTo (fun _ => Keeps.forUpTo (fun _ =>
      keeps_convertCell blockTranslate _ _ _ _ _) _) _) _
  · exact Keeps.pure _

theorem keeps_convertSections : ∀ ts, Keeps DirtyOk (convertSections blockTranslate ts)
  | [] => Keeps.pure _
  | t :: ts => (keeps_convertSection blockTranslate t).bind fun _ => keeps_convertSections ts

theorem dirtyTable_filled {c : Chunk}
    (h : c.hasFilledDirtyTable = true → c.dirtyTable = Vector.replicate 256 255) :
    c.setDirtyTable.dirtyTable = Vector.replicate 256 255 := by
  unfold setDirtyTable
  split
  · rename_i hf
    exact h hf
  · rfl

/-- **Every call keeps the invariant**, also one that throws half way. -/
theorem keeps_convertChunk (limits : Limits) (tags : List Tag) :
    Keeps DirtyOk (convertChunk blockTranslate limits tags) := by
  refine (keeps_lift _).bind fun x => (keeps_lift _).bind fun z => ?_
  split
  · refine Keeps.bind (Keeps.update fun s hs => hs) fun _ => (keeps_lift _).bind fun _ =>
      (keeps_convertSections blockTranslate _).bind fun _ => Keeps.bind (Keeps.update ?_) fun _ =>
        Keeps.update fun s hs => hs
    intro s hs _
    exact dirtyTable_filled hs
  · exact Keeps.pure _

/-- **Run lemma**: the invariant holds after any sequence of calls. -/
theorem dirtyOk_run (history : List (Limits × List Tag)) :
    DirtyOk (run (fun p => convertChunk blockTranslate p.1 p.2) initial history) :=
  run_induction_of (P := fun _ _ => True) (I := fun _ s => DirtyOk s) dirtyOk_initial
    (fun _ p s hs _ => keeps_convertChunk blockTranslate p.1 p.2 s hs) history
    (steps_of_forall fun _ _ => trivial)

/-- The statics of `Converter` after some calls of `convertChunk`, with any batch. -/
def Reached (c : Converter) : Prop := ∃ history batch,
  c = { run (fun p : Limits × List Tag => convertChunk blockTranslate p.1 p.2) initial history with
    batch := batch }

theorem reached_initial : Reached blockTranslate initial := ⟨[], [], rfl⟩

theorem Reached.dirtyOk {c : Converter} (h : Reached blockTranslate c) : DirtyOk c := by
  obtain ⟨history, batch, rfl⟩ := h
  exact dirtyOk_run blockTranslate history

/-! ## One chunk -/

theorem cellAt_zeroChunk (c : Chunk) {i : ℕ} (hi : i < 32768) : cellAt (zeroChunk c) i = Cell.zero := by
  simp only [cellAt, zeroChunk, typeCell, dataCell, byteAt_replicate 0 hi,
    halfAt_replicate_zero (show i / 2 < 16384 by omega)]
  rfl

theorem chunkData_ok {tags : List Tag} {d : ChunkData} (h : chunkData tags = .ok d) :
    Tag.asInt (Tag.toMap tags "xPos") = .ok d.xPos ∧ Tag.asInt (Tag.toMap tags "zPos") = .ok d.zPos ∧
      ∃ ts, Tag.asList (Tag.toMap tags "Sections") = .ok ts ∧ ts.mapM sectionData = .ok d.sections := by
  obtain ⟨x, hx, h⟩ := bind_eq_ok.mp h
  obtain ⟨z, hz, h⟩ := bind_eq_ok.mp h
  obtain ⟨ts, hts, h⟩ := bind_eq_ok.mp h
  obtain ⟨ds, hds, h⟩ := bind_eq_ok.mp h
  obtain rfl := Except.ok.inj h
  exact ⟨hx, hz, ts, hts, hds⟩

/-- **A well-formed chunk** is put in the batch under its key as its reference record, whatever the
static chunk and key were before. -/
theorem convertChunk_spec {s : Converter} (hs : DirtyOk s) {limits : Limits} {tags : List Tag}
    {d : ChunkData} (hd : chunkData tags = .ok d) (hwf : d.WellFormed)
    (hl : limits.admits d.xPos d.zPos) :
    ∃ c k, convertChunk blockTranslate limits tags s = .ok () ⟨c, k, s.batch ++
      [.put (DBKey.mk d.xPos d.zPos 48).toBytes (referenceRecord blockTranslate d.sections)]⟩ := by
  obtain ⟨hx, hz, ts, hts, hds⟩ := chunkData_ok hd
  obtain ⟨c, hc, hrest, hcells⟩ := convertSections_spec blockTranslate ts d.sections
    { s with peChunk := zeroChunk s.peChunk } hds hwf
  have hr : c = _ := hrest
  have hrec : c.setDirtyTable.saveToByteArray = referenceRecord blockTranslate d.sections := by
    obtain ⟨dt, f, hdt⟩ := setDirtyTable_eq c
    refine saveToByteArray_eq blockTranslate d.sections (fun i hi => ?_) (dirtyTable_filled ?_) ?_
    · rw [hdt]
      refine (hcells i hi).trans ?_
      unfold referenceCell
      cases sectionAt d.sections (sectionOf i) with
      | none => exact cellAt_zeroChunk _ hi
      | some e => rfl
    · rw [hr]
      exact hs
    · rw [hdt, hr]
      rfl
  refine ⟨c.setDirtyTable, ⟨d.xPos, d.zPos, 48⟩, ?_⟩
  unfold convertChunk
  rw [bind_of_ok (lift_ok hx _), bind_of_ok (lift_ok hz _), if_pos hl, bind_of_ok (modify_apply _ _),
    bind_of_ok (lift_ok hts _), bind_of_ok hc, bind_of_ok (modify_apply _ _), putChunk, modify_apply,
    ← hrec]
  rfl

/-- A chunk outside the window is not converted. -/
theorem convertChunk_rejected {limits : Limits} {tags : List Tag} {xPos zPos : Int32}
    (hx : Tag.asInt (Tag.toMap tags "xPos") = .ok xPos)
    (hz : Tag.asInt (Tag.toMap tags "zPos") = .ok zPos) (hl : ¬limits.admits xPos zPos)
    (s : Converter) : convertChunk blockTranslate limits tags s = .ok () s := by
  unfold convertChunk
  rw [bind_of_ok (lift_ok hx _), bind_of_ok (lift_ok hz _), if_neg hl]
  rfl

/-- **The record of a chunk depends on that chunk only**: after any sequence of earlier calls, with
any contents and any outcome, the record put in the batch is the reference encoding of the chunk,
under the key of the chunk. -/
theorem convertChunk_record (history : List (Limits × List Tag)) (limits : Limits)
    (tags : List Tag) (d : ChunkData) (hd : chunkData tags = .ok d) (hwf : d.WellFormed)
    (hl : limits.admits d.xPos d.zPos) :
    ∃ s', convertChunk blockTranslate limits tags
        (run (fun p => convertChunk blockTranslate p.1 p.2) initial history) = .ok () s' ∧
      s'.batch = (run (fun p => convertChunk blockTranslate p.1 p.2) initial history).batch ++
        [.put (DBKey.mk d.xPos d.zPos 48).toBytes (referenceRecord blockTranslate d.sections)] ∧
      (referenceRecord blockTranslate d.sections).length = 82947 := by
  obtain ⟨c, k, h⟩ := convertChunk_spec blockTranslate (dirtyOk_run blockTranslate history) hd hwf hl
  exact ⟨_, h, rfl, length_referenceRecord blockTranslate d.sections⟩

end History

/-- The children of a `Level` compound with one section, at height `32`. -/
def oneSection (xPos zPos : Int32) (l : Layers) : List Tag :=
  [.int "xPos" xPos, .int "zPos" zPos, .list "Sections" .compound [.compound "" [.byte "Y" 2,
    .byteArray "Blocks" l.blocks, .byteArray "Data" l.data, .byteArray "BlockLight" l.blockLight,
    .byteArray "SkyLight" l.skyLight]]]

theorem chunkData_oneSection (xPos zPos : Int32) (l : Layers) :
    chunkData (oneSection xPos zPos l) = .ok ⟨xPos, zPos, [⟨2, l⟩]⟩ := by
  simp [chunkData, oneSection, Tag.toMap, Tag.name, Tag.asInt, Tag.asList]
  rfl

/-- The layers of a section filled with one block. -/
def uniform (block : UInt8) : Layers :=
  ⟨List.replicate 4096 block, List.replicate 2048 0, List.replicate 2048 0, List.replicate 2048 255⟩

theorem uniform_sized (block : UInt8) : (uniform block).Sized :=
  ⟨List.length_replicate, List.length_replicate, List.length_replicate, List.length_replicate⟩

theorem wellFormed_uniform (xPos zPos : Int32) (block : UInt8) :
    ChunkData.WellFormed ⟨xPos, zPos, [⟨2, uniform block⟩]⟩ := by
  intro d hd
  obtain rfl := List.mem_singleton.mp hd
  exact ⟨show 0 ≤ (widen 2).toInt by decide, uniform_sized block⟩

/-- A section of stone, converted after a call that threw on an empty compound. -/
theorem convertChunk_record_after_failure :
    ∃ s', convertChunk (Vector.replicate 256 1) ⟨0, 0, -1⟩ (oneSection (-3) 7 (uniform 1))
        (run (fun p => convertChunk (Vector.replicate 256 1) p.1 p.2) initial
          [(⟨0, 0, -1⟩, [])]) = .ok () s' ∧
      s'.batch = (run (fun p => convertChunk (Vector.replicate 256 1) p.1 p.2) initial
          [(⟨0, 0, -1⟩, [])]).batch ++
        [.put (DBKey.mk (-3) 7 48).toBytes
          (referenceRecord (Vector.replicate 256 1) [⟨2, uniform 1⟩])] ∧
      (referenceRecord (Vector.replicate 256 1) [⟨2, uniform 1⟩]).length = 82947 := by
  exact convertChunk_record (Vector.replicate 256 1) [(⟨0, 0, -1⟩, [])] ⟨0, 0, -1⟩
    (oneSection (-3) 7 (uniform 1)) ⟨-3, 7, [⟨2, uniform 1⟩]⟩ (chunkData_oneSection _ _ _)
    (wellFormed_uniform _ _ 1) (by decide)

end WorldToPE.Converter
