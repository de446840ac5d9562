import WorldToPE.Convert.World

/-!
# WorldToPE.Convert.Undecodable — chunks that cannot be decoded

A payload can fail at two moments.  An unknown version or a bad gzip header is noticed when the stream
is opened; `getChunkDataInputStream` returns `null` and the slot is passed over.  Bad deflate data, a bad
gzip body and bytes that are not NBT are noticed when the tag is read; that exception is not caught, and
it ends the conversion of the region with the batch of the row unwritten.

* `convertRegion_inv`: what a conversion that returned has read.
* `survives_iff`: the regions in which an undecodable chunk costs only itself.
-/

namespace WorldToPE.ConvertState

open Java Run Converter

/-! ## What a conversion that returned has read -/

section Inversion

variable {region : DesktopRegionFile} (blockTranslate : Vector UInt8 256)
  {gzipHeader : List UInt8 → Bool} {readRoot : ChunkStream → Except Exn Tag} {limits : Limits}

/-- The region file of the object is `region`, with the pointer anywhere. -/
def Reading (region : DesktopRegionFile) (s : ConvertState) : Prop :=
  DesktopRegionFile.SamePos region s.region

theorem keeps_onRegion {α : Type} {m : DesktopRegionFile.M α}
    (hm : Keeps (DesktopRegionFile.SamePos region) m) : Keeps (Reading region) (onRegion m) := by
  intro s hs
  have h := hm s.region hs
  unfold after at h ⊢
  unfold onRegion
  cases hms : m s.region with
  | ok a r =>
    rw [hms] at h
    exact h
  | error e r =>
    rw [hms] at h
    exact h

theorem keeps_onConverter {α : Type} (m : Converter.M α) : Keeps (Reading region) (onConverter m) := by
  intro s hs
  unfold after onConverter
  cases m s.converter <;> exact hs

theorem keeps_lift {α : Type} (e : Except Exn α) : Keeps (Reading region) (ConvertState.lift e) := by
  cases e with
  | ok a => exact Keeps.pure a
  | error e => exact Keeps.throw e

theorem keeps_convertSlot (x z : ℕ) :
    Keeps (Reading region) (convertSlot blockTranslate gzipHeader readRoot limits x z) := by
  unfold convertSlot
  refine (keeps_onRegion ((DesktopRegionFile.keeps_getOffset region _ _).bind
    fun _ => Keeps.pure _)).bind fun used => ?_
  cases used with
  | false => exact Keeps.pure _
  | true =>
    refine (keeps_onRegion
      (DesktopRegionFile.keeps_getChunkDataInputStream gzipHeader region _ _)).bind fun is => ?_
    cases is with
    | none => exact Keeps.pure _
    | some stream =>
      refine (keeps_lift _).bind fun root => (keeps_lift _).bind fun level => ?_
      exact (keeps_onConverter _).bind fun _ => Keeps.pure _

theorem keeps_convertSlots (x : ℕ) : ∀ n,
    Keeps (Reading region) (convertSlots blockTranslate gzipHeader readRoot limits x n)
  | 0 => Keeps.pure _
  | n + 1 => (keeps_convertSlots x n).bind fun _ =>
      (keeps_convertSlot blockTranslate x n).bind fun _ => Keeps.pure _

theorem keeps_convertRow (x : ℕ) :
    Keeps (Reading region) (convertRow blockTranslate gzipHeader readRoot limits x) := by
  refine (keeps_convertSlots blockTranslate x 32).bind fun b => ?_
  cases b with
  | false => exact Keeps.pure _
  | true => exact Keeps.update fun s hs => hs

theorem lift_inv {α : Type} {e : Except Exn α} {s t : ConvertState} {a : α}
    (h : ConvertState.lift e s = .ok a t) : e = .ok a := by
  cases e with
  | ok b =>
    cases h
    rfl
  | error e => cases h

theorem onConverter_inv {α : Type} {m : Converter.M α} {s t : ConvertState} {a : α}
    (h : onConverter m s = .ok a t) : ∃ c, m s.converter = .ok a c := by
  unfold onConverter at h
  cases hm : m s.converter with
  | ok b c =>
    rw [hm] at h
    cases h
    exact ⟨c, rfl⟩
  | error e c =>
    rw [hm] at h
    cases h

theorem onRegion_inv {α : Type} {m : DesktopRegionFile.M α} {s t : ConvertState} {a : α}
    (h : onRegion m s = .ok a t) : result m s.region = .ok a := by
  unfold onRegion at h
  cases hm : m s.region with
  | ok b r =>
    rw [hm] at h
    cases h
    exact result_of_ok hm
  | error e r =>
    rw [hm] at h
    cases h

/-- The stream decodes, and its chunk has been converted. -/
def Converted (blockTranslate : Vector UInt8 256) (readRoot : ChunkStream → Except Exn Tag)
    (limits : Limits) (stream : ChunkStream) : Prop :=
  ∃ root level c c', readRoot stream = .ok root ∧ levelOf root = .ok level ∧
    convertChunk blockTranslate limits level c = .ok () c'

/-- Slot `(x, z)` has been read, and what it holds converted. -/
def Done (gzipHeader : List UInt8 → Bool) (readRoot : ChunkStream → Except Exn Tag) (limits : Limits)
    (region : DesktopRegionFile) (x z : ℕ) : Prop :=
  ∃ o, DesktopRegionFile.slotStream gzipHeader region x z = .ok o ∧
    ∀ stream, o = some stream → Converted blockTranslate readRoot limits stream

theorem convertSlot_inv {x z : ℕ} (hx : x < 32) (hz : z < 32) {s t : ConvertState} {b : Bool}
    (hs : Reading region s)
    (h : convertSlot blockTranslate gzipHeader readRoot limits x z s = .ok b t) :
    Done blockTranslate gzipHeader readRoot limits region x z := by
  obtain ⟨used, hhas, hslot⟩ := DesktopRegionFile.slotStream_samePos gzipHeader region hx hz hs
  unfold Done
  rw [hslot]
  unfold convertSlot at h
  rw [bind_of_ok (onRegion_ok hhas)] at h
  cases used with
  | false => exact ⟨none, rfl, fun _ h => by cases h⟩
  | true =>
    obtain ⟨o, _, ho, h⟩ := Run.bind_eq_ok.mp h
    refine ⟨o, onRegion_inv ho, fun stream hstream => ?_⟩
    subst hstream
    obtain ⟨root, _, hroot, h⟩ := Run.bind_eq_ok.mp h
    obtain ⟨level, _, hlevel, h⟩ := Run.bind_eq_ok.mp h
    obtain ⟨_, _, hconv, -⟩ := Run.bind_eq_ok.mp h
    obtain ⟨c', hc⟩ := onConverter_inv hconv
    exact ⟨root, level, _, c', lift_inv hroot, lift_inv hlevel, hc⟩

theorem convertSlots_inv {x : ℕ} {s : ConvertState} (hs : Reading region s) : ∀ n {b : Bool}
    {t : ConvertState}, convertSlots blockTranslate gzipHeader readRoot limits x n s = .ok b t →
    ∀ z < n, ∃ s' b' t', Reading region s' ∧
      convertSlot blockTranslate gzipHeader readRoot limits x z s' = .ok b' t'
  | 0, _, _, _ => by omega
  | n + 1, b, t, h => by
    obtain ⟨b1, u, hu, h⟩ := Run.bind_eq_ok.mp h
    obtain ⟨b2, v, hv, -⟩ := Run.bind_eq_ok.mp h
    have hkeep : Reading region (after (convertSlots blockTranslate gzipHeader readRoot limits x n) s) :=
      keeps_convertSlots blockTranslate x n s hs
    rw [after_of_ok hu] at hkeep
    intro z hz
    rcases Nat.lt_succ_iff_lt_or_eq.mp hz with hlt | rfl
    · exact convertSlots_inv hs n hu z hlt
    · exact ⟨u, b2, v, hkeep, hv⟩

/-- **A conversion that returned** has read every slot of the region and converted what it holds. -/
theorem convertRegion_inv {name : String} {content : List UInt8} {centerX centerZ : JFloat}
    {limit : Bool} (hreach : Reaches name centerX centerZ limit)
    (hopen : DesktopRegionFile.construct (DesktopRegionFile.fresh content) = .ok () region)
    {s t : ConvertState}
    (h : convertRegion blockTranslate gzipHeader readRoot name content centerX centerZ limit s = .ok () t)
    {x z : ℕ} (hx : x < 32) (hz : z < 32) :
    Done blockTranslate gzipHeader readRoot (windowOf centerX centerZ limit) region x z := by
  rw [convertRegion_eq blockTranslate gzipHeader readRoot hreach hopen s] at h
  have hstart : Reading region ⟨{ s.converter with batch := [] }, region, s.db⟩ :=
    DesktopRegionFile.SamePos.refl region
  obtain ⟨-, hrows⟩ := forUpTo_eq_ok (fun x => keeps_convertRow blockTranslate x) hstart 32 h
  obtain ⟨s1, t1, hs1, hrow⟩ := hrows x hx
  obtain ⟨b, u, hslots, -⟩ := Run.bind_eq_ok.mp hrow
  obtain ⟨s2, b2, t2, hs2, hslot⟩ := convertSlots_inv blockTranslate hs1 32 hslots z hz
  exact convertSlot_inv blockTranslate hx hz hs2 hslot

end Inversion

/-! ## Undecodable chunks -/

section Undecodable

variable (blockTranslate : Vector UInt8 256) (gzipHeader : List UInt8 → Bool)
  (readRoot : ChunkStream → Except Exn Tag)

/-- What can be decoded in the region is a well-formed chunk. -/
def ChunksOk (region : DesktopRegionFile) : Prop := ∀ x < 32, ∀ z < 32, ∀ stream root,
  DesktopRegionFile.slotStream gzipHeader region x z = .ok (some stream) →
  readRoot stream = .ok root →
  ∃ level d, levelOf root = .ok level ∧ chunkData level = .ok d ∧ d.WellFormed

/-- `region'` is `region` with the slots that hold no decodable chunk empty. -/
def Emptied (region region' : DesktopRegionFile) : Prop := ∀ x < 32, ∀ z < 32,
  if chunkIn gzipHeader readRoot region x z = none then
    result (DesktopRegionFile.hasChunk (Int32.ofNat x) (Int32.ofNat z)) region' = .ok false
  else DesktopRegionFile.slotStream gzipHeader region' x z =
    DesktopRegionFile.slotStream gzipHeader region x z

/-- **An undecodable chunk costs only itself**: the conversion completes, the database gets the records
of the decodable chunks, and it is the same as if the other slots had been empty. -/
def Survives (content : List UInt8) (region : DesktopRegionFile) : Prop :=
  ∀ name centerX centerZ limit, Reaches name centerX centerZ limit →
    ∀ s : ConvertState, Reached blockTranslate s.converter →
    ∃ t, convertRegion blockTranslate gzipHeader readRoot name content centerX centerZ limit s = .ok () t ∧
      t.db = Store.applyBatch s.db (puts (regionRecordsIn gzipHeader readRoot region blockTranslate
        (windowOf centerX centerZ limit) 32)) ∧
      ∀ content' region',
        DesktopRegionFile.construct (DesktopRegionFile.fresh content') = .ok () region' →
        Emptied gzipHeader readRoot region region' →
        ∃ t', convertRegion blockTranslate gzipHeader readRoot name content' centerX centerZ limit s =
          .ok () t' ∧ t'.db = t.db

/-- No slot throws when its stream is opened, and every stream that is opened decodes: what cannot be
decoded has been noticed on opening. -/
def NoticedOnOpening (region : DesktopRegionFile) : Prop := ∀ x < 32, ∀ z < 32,
  ∃ o, DesktopRegionFile.slotStream gzipHeader region x z = .ok o ∧
    ∀ stream, o = some stream → ∃ root, readRoot stream = .ok root

variable {gzipHeader readRoot}

theorem slotsOk_of_noticed {region : DesktopRegionFile} (hok : ChunksOk gzipHeader readRoot region)
    (h : NoticedOnOpening gzipHeader readRoot region) : SlotsOk gzipHeader readRoot region := by
  intro x hx z hz
  obtain ⟨o, ho, hdec⟩ := h x hx z hz
  unfold slotChunk
  cases o with
  | none => exact ⟨none, bind_eq_ok.mpr ⟨none, ho, rfl⟩, fun d hd => by cases hd⟩
  | some stream =>
    obtain ⟨root, hroot⟩ := hdec stream rfl
    obtain ⟨level, d, hlevel, hd, hwf⟩ := hok x hx z hz stream root ho hroot
    refine ⟨some d, bind_eq_ok.mpr ⟨some stream, ho, ?_⟩, fun e he => ?_⟩
    · exact bind_eq_ok.mpr ⟨root, hroot, bind_eq_ok.mpr ⟨level, hlevel, bind_eq_ok.mpr ⟨d, hd, rfl⟩⟩⟩
    · obtain rfl := Option.some.inj he
      exact hwf

/-- The slots of the emptied region hold the same chunks. -/
theorem slotChunk_emptied {region region' : DesktopRegionFile} (hok : SlotsOk gzipHeader readRoot region)
    (h : Emptied gzipHeader readRoot region region') {x z : ℕ} (hx : x < 32) (hz : z < 32) :
    slotChunk gzipHeader readRoot region' x z = slotChunk gzipHeader readRoot region x z := by
  have hslot := h x hx z hz
  split at hslot
  · rename_i hnone
    obtain ⟨o, ho, -⟩ := hok x hx z hz
    unfold chunkIn at hnone
    rw [ho] at hnone
    rw [ho]
    unfold slotChunk DesktopRegionFile.slotStream
    rw [hslot]
    show Except.ok none = Except.ok o
    rw [← hnone]
  · unfold slotChunk
    rw [hslot]

/-- The records of a region depend on the chunks in its slots. -/
theorem regionRecordsIn_congr (limits : Limits) {region region' : DesktopRegionFile}
    (h : ∀ x < 32, ∀ z < 32,
      slotChunk gzipHeader readRoot region' x z = slotChunk gzipHeader readRoot region x z) :
    regionRecordsIn gzipHeader readRoot region' blockTranslate limits 32 =
      regionRecordsIn gzipHeader readRoot region blockTranslate limits 32 := by
  refine List.flatMap_congr fun x hx => List.flatMap_congr fun z hz => ?_
  unfold slotRecords chunkIn
  rw [h x (List.mem_range.mp hx) z (List.mem_range.mp hz)]

/-- A region that survives has been read to its end. -/
theorem noticed_of_survives {content : List UInt8} {region : DesktopRegionFile}
    (hopen : DesktopRegionFile.construct (DesktopRegionFile.fresh content) = .ok () region)
    (h : Survives blockTranslate gzipHeader readRoot content region) :
    NoticedOnOpening gzipHeader readRoot region := by
  intro x hx z hz
  have hreach := reaches_unlimited "" (JFloat.ofBits 0) (JFloat.ofBits 0)
  obtain ⟨t, ht, -⟩ := h _ _ _ _ hreach ⟨initial, region, ∅⟩ (reached_initial blockTranslate)
  obtain ⟨o, ho, hconv⟩ := convertRegion_inv blockTranslate hreach hopen ht hx hz
  refine ⟨o, ho, fun stream hstream => ?_⟩
  obtain ⟨root, _, _, _, hroot, -⟩ := hconv stream hstream
  exact ⟨root, hroot⟩

/-- **When an undecodable chunk costs only itself**: exactly when every payload that cannot be decoded
is noticed while its stream is opened. -/
theorem survives_iff {content : List UInt8} {region : DesktopRegionFile}
    (hopen : DesktopRegionFile.construct (DesktopRegionFile.fresh content) = .ok () region)
    (hok : ChunksOk gzipHeader readRoot region) :
    Survives blockTranslate gzipHeader readRoot content region ↔
      NoticedOnOpening gzipHeader readRoot region := by
  constructor
  · exact noticed_of_survives blockTranslate hopen
  · intro h name centerX centerZ limit hreach s hs
    have hslots := slotsOk_of_noticed hok h
    obtain ⟨t, ht, hdb⟩ := convertRegion_window blockTranslate hreach hopen hslots hs.dirtyOk
    refine ⟨t, ht, hdb, fun content' region' hopen' hempty => ?_⟩
    have hsame : ∀ x < 32, ∀ z < 32,
        slotChunk gzipHeader readRoot region' x z = slotChunk gzipHeader readRoot region x z :=
      fun x hx z hz => slotChunk_emptied hslots hempty hx hz
    have hslots' : SlotsOk gzipHeader readRoot region' := by
      intro x hx z hz
      rw [hsame x hx z hz]
      exact hslots x hx z hz
    obtain ⟨t', ht', hdb'⟩ := convertRegion_window blockTranslate hreach hopen' hslots' hs.dirtyOk
    refine ⟨t', ht', ?_⟩
    rw [hdb', hdb, regionRecordsIn_congr blockTranslate _ hsame]

end Undecodable

/-- A region with one chunk of stone, and beside it a slot whose payload has an unknown version. -/
theorem survives_stone : ∃ region,
    DesktopRegionFile.construct (DesktopRegionFile.fresh (DesktopRegionFile.besideUnknown stoneData)) =
      .ok () region ∧
    result (DesktopRegionFile.hasChunk 1 0) region = .ok true ∧
    chunkIn (fun _ => false) readStone region 1 0 = none ∧
    Survives (Vector.ofFn fun i => UInt8.ofNat i) (fun _ => false) readStone
      (DesktopRegionFile.besideUnknown stoneData) region := by
  obtain ⟨region, hopen, hbeside, hslots⟩ := DesktopRegionFile.slotStream_besideUnknown (fun _ => false)
    (show stoneData.length ≤ 4091 by decide +kernel)
  have hnone : chunkIn (fun _ => false) readStone region 1 0 = none := by
    unfold chunkIn slotChunk
    rw [hslots 1 (by norm_num) 0 (by norm_num)]
    rfl
  refine ⟨region, hopen, hbeside, hnone, (survives_iff _ hopen fun x hx z hz stream root hs hr => ?_).mpr
    fun x hx z hz => ⟨_, hslots x hx z hz, fun stream hs => ?_⟩⟩
  · rw [hslots x hx z hz] at hs
    split at hs
    · cases hs
      obtain rfl : stoneRoot = root := Except.ok.inj hr
      exact ⟨_, _, rfl, chunkData_oneSection _ _ _, wellFormed_uniform _ _ 1⟩
    · cases hs
  · split at hs
    · cases hs
      exact ⟨stoneRoot, if_pos rfl⟩
    · cases hs

/-- A slot with an empty deflated payload: the inflater meets the end of its input when the tag is
read. -/
theorem not_survives_truncated : ∃ region,
    DesktopRegionFile.construct (DesktopRegionFile.fresh (DesktopRegionFile.singleSlot [])) =
      .ok () region ∧
    ChunksOk (fun _ => false) (fun _ => .error .eof) region ∧
    ¬ Survives (Vector.ofFn fun i => UInt8.ofNat i) (fun _ => false) (fun _ => .error .eof)
      (DesktopRegionFile.singleSlot []) region := by
  obtain ⟨region, hopen, hslots⟩ := DesktopRegionFile.slotStream_singleSlot (fun _ => false)
    (show ([] : List UInt8).length ≤ 4091 by decide)
  have hok : ChunksOk (fun _ => false) (fun _ => .error .eof) region := by
    intro x hx z hz stream root _ hr
    cases hr
  refine ⟨region, hopen, hok, fun h => ?_⟩
  obtain ⟨o, ho, hdec⟩ := noticed_of_survives _ hopen h 0 (by norm_num) 0 (by norm_num)
  rw [hslots 0 (by norm_num) 0 (by norm_num)] at ho
  obtain ⟨root, hroot⟩ := hdec _ (Except.ok.inj ho).symm
  cases hroot

end WorldToPE.ConvertState
