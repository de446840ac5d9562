import WorldToPE.Convert.ChunkRecord
import WorldToPE.Lib.JavaString
import WorldToPE.Region.Slots

/-!
# WorldToPE.Convert.Region — converting a region file

`Converter.convertRegion`: open the region file, walk its 32 × 32 slots row by row, convert every slot
that can be read and write one batch to the database for each row.  What is between the bytes of a
slot and its root tag (decompression and NBT decoding) is a parameter, `readRoot`.

* `convertRegion_spec`: the database after the conversion of a region whose readable slots all
  hold well-formed chunks.
-/

namespace WorldToPE

open Java Run

/-- The state of a conversion: the statics and batch, the open region file and the database. -/
structure ConvertState where
  converter : Converter
  region : DesktopRegionFile
  db : DB

namespace ConvertState

abbrev M := EStateM Exn ConvertState

def onConverter {α : Type} (m : Converter.M α) : M α := fun s =>
  match m s.converter with
  | .ok a c => .ok a { s with converter := c }
  | .error e c => .error e { s with converter := c }

def onRegion {α : Type} (m : DesktopRegionFile.M α) : M α := fun s =>
  match m s.region with
  | .ok a r => .ok a { s with region := r }
  | .error e r => .error e { s with region := r }

def lift {α : Type} : Except Exn α → M α
  | .ok a => pure a
  | .error e => throw e

/-- `list.get(0)`. -/
def first (tags : List Tag) : Except Exn Tag :=
  match tags with
  | [] => .error .indexOutOfBounds
  | t :: _ => .ok t

/-- The children of the `Level` compound of a root tag: the first child of the root. -/
def levelOf (root : Tag) : Except Exn (List Tag) := do
  let children ← Tag.asCompound (some root)
  let level ← first children
  Tag.asCompound (some level)

section Convert

variable (blockTranslate : Vector UInt8 256) (gzipHeader : List UInt8 → Bool)
  (readRoot : ChunkStream → Except Exn Tag) (limits : Converter.Limits)

/-- One slot; the result says whether the batch needs to be written. -/
def convertSlot (x z : ℕ) : M Bool := do
  if ← onRegion (DesktopRegionFile.hasChunk (Int32.ofNat x) (Int32.ofNat z)) then
    let is ← onRegion
      (DesktopRegionFile.getChunkDataInputStream gzipHeader (Int32.ofNat x) (Int32.ofNat z))
    match is with
    | none => return true
    | some stream =>
      let root ← lift (readRoot stream)
      let level ← lift (levelOf root)
      onConverter (Converter.convertChunk blockTranslate limits level)
      return true
  else return false

/-- The first `n` slots of row `x`. -/
def convertSlots (x : ℕ) : ℕ → M Bool
  | 0 => return false
  | n + 1 => do
    let needsWrite ← convertSlots x n
    let more ← convertSlot blockTranslate gzipHeader readRoot limits x n
    return needsWrite || more

def convertRow (x : ℕ) : M Unit := do
  let batchNeedsWrite ← convertSlots blockTranslate gzipHeader readRoot limits x 32
  if batchNeedsWrite then
    modify fun s => { s with
      db := Store.applyBatch s.db s.converter.batch
      converter := { s.converter with batch := [] } }

end Convert

/-- `parts[i]` of the file name, as a number. -/
def namePart (name : String) (i : ℕ) : Except Exn Int32 :=
  match (splitDots name)[i]? with
  | none => .error .arrayIndexOutOfBounds
  | some part => parseInt part

/-- Whether the window of a limited conversion misses the region of that name. -/
def outsideWindow (name : String) (l : Converter.Limits) : Except Exn Bool := do
  let regionMinX := (← namePart name 1) <<< 5
  let regionMinZ := (← namePart name 2) <<< 5
  return l.limitX ≥ regionMinX + 32 || l.limitX + l.limitCount ≤ regionMinX ||
    l.limitZ ≥ regionMinZ + 32 || l.limitZ + l.limitCount ≤ regionMinZ

/-- The window of a conversion around a player at `(centerX, centerZ)`. -/
def windowOf (centerX centerZ : JFloat) (limit : Bool) : Converter.Limits :=
  ⟨centerX.toInt32 >>> 4, centerZ.toInt32 >>> 4, if limit then 2 else -1⟩

/-- `convertRegion`, on a region file of the given name and content. -/
def convertRegion (blockTranslate : Vector UInt8 256) (gzipHeader : List UInt8 → Bool)
    (readRoot : ChunkStream → Except Exn Tag) (name : String) (content : List UInt8)
    (centerX centerZ : JFloat) (limit : Bool) : M Unit := do
  let limits := windowOf centerX centerZ limit
  let skip ← if limit then lift (outsideWindow name limits) else pure false
  if skip then return ()
  else do
    modify fun s => { s with region := DesktopRegionFile.fresh content }
    onRegion DesktopRegionFile.construct
    modify fun s => { s with converter := { s.converter with batch := [] } }
    forUpTo 32 (convertRow blockTranslate gzipHeader readRoot limits)

/-! ## The chunks of a region -/

section Chunks

variable (gzipHeader : List UInt8 → Bool) (readRoot : ChunkStream → Except Exn Tag)
  (region : DesktopRegionFile)

/-- The chunk in slot `(x, z)`: none, or what its root tag describes. -/
def slotChunk (x z : ℕ) : Except Exn (Option Converter.ChunkData) := do
  match ← DesktopRegionFile.slotStream gzipHeader region x z with
  | none => return none
  | some stream =>
    let root ← readRoot stream
    let level ← levelOf root
    return some (← Converter.chunkData level)

/-- Every readable slot decodes to a well-formed chunk. -/
def SlotsOk : Prop := ∀ x < 32, ∀ z < 32, ∃ o, slotChunk gzipHeader readRoot region x z = .ok o ∧
  ∀ d, o = some d → d.WellFormed

/-- Slot `(x, z)` can be read as far as a conversion within the window reads it: a chunk outside the
window needs a position only. -/
def SlotOkIn (limits : Converter.Limits) (x z : ℕ) : Prop :=
  ∃ o, DesktopRegionFile.slotStream gzipHeader region x z = .ok o ∧ ∀ stream, o = some stream →
    ∃ root level xPos zPos, readRoot stream = .ok root ∧ levelOf root = .ok level ∧
      Tag.asInt (Tag.toMap level "xPos") = .ok xPos ∧ Tag.asInt (Tag.toMap level "zPos") = .ok zPos ∧
      (limits.admits xPos zPos → ∃ d, Converter.chunkData level = .ok d ∧ d.WellFormed)

def SlotsOkIn (limits : Converter.Limits) : Prop :=
  ∀ x < 32, ∀ z < 32, SlotOkIn gzipHeader readRoot region limits x z

/-- The chunk in slot `(x, z)`, `none` also when it cannot be decoded. -/
def chunkIn (x z : ℕ) : Option Converter.ChunkData :=
  match slotChunk gzipHeader readRoot region x z with
  | .ok o => o
  | .error _ => none

variable (blockTranslate : Vector UInt8 256)

/-- The record of a chunk, with its key. -/
def recordOf (d : Converter.ChunkData) : List UInt8 × List UInt8 :=
  (chunkKey d.xPos d.zPos, Converter.referenceRecord blockTranslate d.sections)

/-- The records of the first `n` slots of row `x`. -/
def rowRecords (x n : ℕ) : List (List UInt8 × List UInt8) :=
  (List.range n).flatMap fun z =>
    (chunkIn gzipHeader readRoot region x z).toList.map (recordOf blockTranslate)

/-- The records of the first `n` rows. -/
def regionRecords (n : ℕ) : List (List UInt8 × List UInt8) :=
  (List.range n).flatMap fun x => rowRecords gzipHeader readRoot region blockTranslate x 32

variable (limits : Converter.Limits)

/-- The record of slot `(x, z)`, if it holds a chunk inside the window. -/
def slotRecords (x z : ℕ) : List (List UInt8 × List UInt8) :=
  ((chunkIn gzipHeader readRoot region x z).filter fun d => limits.admits d.xPos d.zPos).toList.map
    (recordOf blockTranslate)

/-- The records inside the window of the first `n` slots of row `x`. -/
def rowRecordsIn (x n : ℕ) : List (List UInt8 × List UInt8) :=
  (List.range n).flatMap (slotRecords gzipHeader readRoot region blockTranslate limits x)

/-- The records inside the window of the first `n` rows. -/
def regionRecordsIn (n : ℕ) : List (List UInt8 × List UInt8) :=
  (List.range n).flatMap fun x => rowRecordsIn gzipHeader readRoot region blockTranslate limits x 32

/-- Without a window these are all records. -/
theorem regionRecordsIn_of_unlimited (hl : limits.limitCount ≤ 0) (n : ℕ) :
    regionRecordsIn gzipHeader readRoot region blockTranslate limits n =
      regionRecords gzipHeader readRoot region blockTranslate n := by
  have hall : (fun d : Converter.ChunkData => decide (limits.admits d.xPos d.zPos)) = fun _ => true := by
    funext d
    exact decide_eq_true (.inl hl)
  have hfilter : ∀ o : Option Converter.ChunkData, o.filter (fun _ => true) = o := by
    intro o
    cases o <;> rfl
  unfold regionRecordsIn rowRecordsIn slotRecords regionRecords rowRecords
  simp only [hall, hfilter]

/-- The batch that puts the given records. -/
def puts (kvs : List (List UInt8 × List UInt8)) : WriteBatch := kvs.map fun p => .put p.1 p.2

end Chunks

/-! ## Slots, rows and the region -/

theorem onRegion_ok {α : Type} {m : DesktopRegionFile.M α} {s : ConvertState} {a : α}
    {r : DesktopRegionFile} (h : m s.region = .ok a r) :
    onRegion m s = .ok a { s with region := r } := by
  unfold onRegion
  rw [h]

theorem onConverter_ok {α : Type} {m : Converter.M α} {s : ConvertState} {a : α} {c : Converter}
    (h : m s.converter = .ok a c) : onConverter m s = .ok a { s with converter := c } := by
  unfold onConverter
  rw [h]

theorem lift_ok {α : Type} {e : Except Exn α} {a : α} (h : e = .ok a) (s : ConvertState) :
    lift e s = .ok a s := by
  rw [h]
  rfl

section Region

variable {gzipHeader : List UInt8 → Bool} {readRoot : ChunkStream → Except Exn Tag}
  {region : DesktopRegionFile} (blockTranslate : Vector UInt8 256) (limits : Converter.Limits)

theorem SlotsOk.inWindow (hok : SlotsOk gzipHeader readRoot region) :
    SlotsOkIn gzipHeader readRoot region limits := by
  intro x hx z hz
  obtain ⟨o, ho, hwf⟩ := hok x hx z hz
  obtain ⟨stream, hstream, ho⟩ := bind_eq_ok.mp ho
  refine ⟨stream, hstream, ?_⟩
  rintro stream rfl
  obtain ⟨root, hroot, ho⟩ := bind_eq_ok.mp ho
  obtain ⟨level, hlevel, ho⟩ := bind_eq_ok.mp ho
  obtain ⟨d, hd, ho⟩ := bind_eq_ok.mp ho
  obtain ⟨hxPos, hzPos, -⟩ := Converter.chunkData_ok hd
  exact ⟨root, level, _, _, hroot, hlevel, hxPos, hzPos, fun _ => ⟨d, hd, hwf d (Except.ok.inj ho).symm⟩⟩

/-- The chunk of a slot that holds a stream. -/
theorem chunkIn_of_level {x z : ℕ} {stream : ChunkStream} {root : Tag} {level : List Tag}
    (hstream : DesktopRegionFile.slotStream gzipHeader region x z = .ok (some stream))
    (hroot : readRoot stream = .ok root) (hlevel : levelOf root = .ok level) :
    chunkIn gzipHeader readRoot region x z = (Converter.chunkData level).toOption := by
  unfold chunkIn slotChunk
  rw [hstream]
  show (match (readRoot stream >>= fun root => levelOf root >>= fun level =>
    Converter.chunkData level >>= fun d => Except.ok (some d)) with
    | .ok o => o
    | .error _ => none) = _
  rw [hroot]
  show (match (levelOf root >>= fun level =>
    Converter.chunkData level >>= fun d => Except.ok (some d)) with
    | .ok o => o
    | .error _ => none) = _
  rw [hlevel]
  show (match (Converter.chunkData level >>= fun d => Except.ok (some d)) with
    | .ok o => o
    | .error _ => none) = _
  cases Converter.chunkData level <;> rfl

/-- A state in the middle of the conversion: the batch holds the given records. -/
structure Midway (region : DesktopRegionFile) (s : ConvertState)
    (kvs : List (List UInt8 × List UInt8)) (t : ConvertState) : Prop where
  region : DesktopRegionFile.SamePos region t.region
  dirty : Converter.DirtyOk t.converter
  batch : t.converter.batch = s.converter.batch ++ puts kvs
  db : t.db = s.db

/-- A chunk adds its record to the batch, if it is inside the window. -/
theorem convertChunk_midway {s t : ConvertState} {kvs : List (List UInt8 × List UInt8)}
    (ht : Midway region s kvs t) {level : List Tag} {xPos zPos : Int32}
    (hx : Tag.asInt (Tag.toMap level "xPos") = .ok xPos)
    (hz : Tag.asInt (Tag.toMap level "zPos") = .ok zPos)
    (hin : limits.admits xPos zPos → ∃ d, Converter.chunkData level = .ok d ∧ d.WellFormed) :
    ∃ c, Converter.convertChunk blockTranslate limits level t.converter = .ok () c ∧
      Converter.DirtyOk c ∧ c.batch = s.converter.batch ++ puts (kvs ++
        ((Converter.chunkData level).toOption.filter fun d => limits.admits d.xPos d.zPos).toList.map
          (recordOf blockTranslate)) := by
  by_cases hl : limits.admits xPos zPos
  · obtain ⟨d, hd, hwf⟩ := hin hl
    obtain ⟨hx', hz', -⟩ := Converter.chunkData_ok hd
    obtain rfl := Except.ok.inj (hx.symm.trans hx')
    obtain rfl := Except.ok.inj (hz.symm.trans hz')
    obtain ⟨c, k, hc⟩ := Converter.convertChunk_spec blockTranslate ht.dirty hd hwf hl
    have hk := Converter.keeps_convertChunk blockTranslate limits level _ ht.dirty
    rw [after_of_ok hc] at hk
    refine ⟨_, hc, hk, ?_⟩
    show t.converter.batch ++ _ = _
    rw [ht.batch, List.append_assoc, hd]
    simp [puts, recordOf, chunkKey, DBKey.CHUNK, Except.toOption, Option.filter_some, hl]
  · refine ⟨_, Converter.convertChunk_rejected blockTranslate hx hz hl _, ht.dirty, ?_⟩
    have hnone : (Converter.chunkData level).toOption.filter
        (fun d => limits.admits d.xPos d.zPos) = none := by
      cases hd : Converter.chunkData level with
      | error e => rfl
      | ok d =>
        obtain ⟨hx', hz', -⟩ := Converter.chunkData_ok hd
        obtain rfl := Except.ok.inj (hx.symm.trans hx')
        obtain rfl := Except.ok.inj (hz.symm.trans hz')
        simp [Except.toOption, Option.filter_some, hl]
    rw [ht.batch, hnone]
    simp

variable (hok : SlotsOkIn gzipHeader readRoot region limits)
include hok

/-- **One slot** adds the record of its chunk to the batch. -/
theorem convertSlot_spec {x z : ℕ} (hx : x < 32) (hz : z < 32) {s t : ConvertState}
    {kvs : List (List UInt8 × List UInt8)} (ht : Midway region s kvs t) :
    ∃ b t', convertSlot blockTranslate gzipHeader readRoot limits x z t = .ok b t' ∧
      Midway region s (kvs ++ slotRecords gzipHeader readRoot region blockTranslate limits x z) t' ∧
      (b = false → slotRecords gzipHeader readRoot region blockTranslate limits x z = []) := by
  obtain ⟨stream, hstream, hlevels⟩ := hok x hx z hz
  have hnone : stream = none → slotRecords gzipHeader readRoot region blockTranslate limits x z = [] := by
    rintro rfl
    unfold slotRecords chunkIn slotChunk
    rw [hstream]
    rfl
  unfold convertSlot
  rcases DesktopRegionFile.readSlot gzipHeader region hx hz ht.region hstream with
    ⟨hhas, rfl⟩ | ⟨hhas, r', hread, hr'⟩
  · -- an unused slot
    refine ⟨false, t, ?_, by simpa [hnone rfl] using ht, fun _ => hnone rfl⟩
    rw [bind_of_ok (onRegion_ok hhas)]
    rfl
  · rw [bind_of_ok (onRegion_ok hhas)]
    show ∃ b t', (Bind.bind (onRegion _) _ : M Bool) _ = .ok b t' ∧ _
    rw [bind_of_ok (onRegion_ok hread)]
    cases stream with
    | none =>
      refine ⟨true, _, rfl, ?_, fun h => by cases h⟩
      exact ⟨hr', ht.dirty, by simpa [hnone rfl] using ht.batch, ht.db⟩
    | some stream =>
      obtain ⟨root, level, xPos, zPos, hroot, hlevel, hxPos, hzPos, hin⟩ := hlevels stream rfl
      obtain ⟨c, hc, hdirty, hbatch⟩ := convertChunk_midway blockTranslate limits ht hxPos hzPos hin
      rw [← chunkIn_of_level hstream hroot hlevel] at hbatch
      refine ⟨true, ⟨c, r', t.db⟩, ?_, ⟨hr', hdirty, hbatch, ht.db⟩, fun h => by cases h⟩
      dsimp only
      rw [bind_of_ok (lift_ok hroot _), bind_of_ok (lift_ok hlevel _),
        bind_of_ok (onConverter_ok (s := ⟨t.converter, r', t.db⟩) hc)]
      rfl

/-- **Run lemma** over the slots of a row. -/
theorem convertSlots_spec {x : ℕ} (hx : x < 32) {s : ConvertState} (hs : Midway region s [] s) : ∀ n,
    n ≤ 32 → ∃ b t, convertSlots blockTranslate gzipHeader readRoot limits x n s = .ok b t ∧
      Midway region s (rowRecordsIn gzipHeader readRoot region blockTranslate limits x n) t ∧
      (b = false → rowRecordsIn gzipHeader readRoot region blockTranslate limits x n = [])
  | 0, _ => ⟨false, s, rfl, hs, fun _ => rfl⟩
  | n + 1, hn => by
    obtain ⟨b, t, ht, hm, hb⟩ := convertSlots_spec hx hs n (by omega)
    obtain ⟨b', t', ht', hm', hb'⟩ := convertSlot_spec blockTranslate limits hok hx
      (show n < 32 by omega) hm
    have hrow : rowRecordsIn gzipHeader readRoot region blockTranslate limits x (n + 1) =
        rowRecordsIn gzipHeader readRoot region blockTranslate limits x n ++
          slotRecords gzipHeader readRoot region blockTranslate limits x n := by
      simp [rowRecordsIn, List.range_succ]
    refine ⟨b || b', t', ?_, by rw [hrow]; exact hm', fun h => ?_⟩
    · rw [convertSlots, bind_of_ok ht, bind_of_ok ht']
      rfl
    · rw [Bool.or_eq_false_iff] at h
      rw [hrow, hb h.1, hb' h.2]
      rfl

/-- **One row** writes its records to the database. -/
theorem convertRow_spec {x : ℕ} (hx : x < 32) {s : ConvertState}
    (hr : DesktopRegionFile.SamePos region s.region) (hd : Converter.DirtyOk s.converter)
    (hb : s.converter.batch = []) :
    ∃ t, convertRow blockTranslate gzipHeader readRoot limits x s = .ok () t ∧
      DesktopRegionFile.SamePos region t.region ∧ Converter.DirtyOk t.converter ∧
      t.converter.batch = [] ∧ t.db = Store.applyBatch s.db
        (puts (rowRecordsIn gzipHeader readRoot region blockTranslate limits x 32)) := by
  obtain ⟨b, t, ht, hm, hnone⟩ := convertSlots_spec blockTranslate limits hok hx
    ⟨hr, hd, by simp [puts], rfl⟩ 32 le_rfl
  have hbatch := hm.batch
  rw [hb, List.nil_append] at hbatch
  unfold convertRow
  rw [bind_of_ok ht]
  cases b with
  | true =>
    refine ⟨_, rfl, hm.region, hm.dirty, rfl, ?_⟩
    show Store.applyBatch t.db t.converter.batch = _
    rw [hbatch, hm.db]
  | false =>
    refine ⟨t, rfl, hm.region, hm.dirty, ?_, ?_⟩
    · rw [hbatch, hnone rfl]
      rfl
    · rw [hnone rfl, hm.db]
      rfl

/-- **Run lemma** over the first `n` rows. -/
theorem convertRows_spec {s : ConvertState} (hr : DesktopRegionFile.SamePos region s.region)
    (hd : Converter.DirtyOk s.converter) (hb : s.converter.batch = []) {n : ℕ} (hn : n ≤ 32) :
    ∃ t, forUpTo n (convertRow blockTranslate gzipHeader readRoot limits) s = .ok () t ∧
      DesktopRegionFile.SamePos region t.region ∧ Converter.DirtyOk t.converter ∧
      t.converter.batch = [] ∧ t.db = Store.applyBatch s.db
        (puts (regionRecordsIn gzipHeader readRoot region blockTranslate limits n)) :=
  forUpTo_ok (I := fun n (t : ConvertState) =>
    DesktopRegionFile.SamePos region t.region ∧ Converter.DirtyOk t.converter ∧
      t.converter.batch = [] ∧ t.db = Store.applyBatch s.db
        (puts (regionRecordsIn gzipHeader readRoot region blockTranslate limits n)))
    ⟨hr, hd, hb, rfl⟩ n fun k hk t ⟨hr, hd, hb, hdb⟩ => by
      obtain ⟨t', ht', hr', hd', hb', hdb'⟩ :=
        convertRow_spec blockTranslate limits hok (show k < 32 by omega) hr hd hb
      refine ⟨t', ht', hr', hd', hb', ?_⟩
      rw [hdb', hdb, ← Store.applyBatch_append]
      simp [regionRecordsIn, puts, List.range_succ]

end Region

/-- The window of the call does not miss the region. -/
def Reaches (name : String) (centerX centerZ : JFloat) (limit : Bool) : Prop :=
  limit = true → outsideWindow name (windowOf centerX centerZ limit) = .ok false

theorem reaches_unlimited (name : String) (centerX centerZ : JFloat) :
    Reaches name centerX centerZ false := by
  intro h
  cases h

/-- What `convertRegion` does once the window is known. -/
theorem convertRegion_eq (blockTranslate : Vector UInt8 256) (gzipHeader : List UInt8 → Bool)
    (readRoot : ChunkStream → Except Exn Tag) {name : String} {content : List UInt8}
    {centerX centerZ : JFloat} {limit : Bool} {region : DesktopRegionFile}
    (hreach : Reaches name centerX centerZ limit)
    (hopen : DesktopRegionFile.construct (DesktopRegionFile.fresh content) = .ok () region)
    (s : ConvertState) :
    convertRegion blockTranslate gzipHeader readRoot name content centerX centerZ limit s =
      forUpTo 32 (convertRow blockTranslate gzipHeader readRoot (windowOf centerX centerZ limit))
        ⟨{ s.converter with batch := [] }, region, s.db⟩ := by
  have hrows : (do
      modify fun s => { s with region := DesktopRegionFile.fresh content }
      onRegion DesktopRegionFile.construct
      modify fun s => { s with converter := { s.converter with batch := [] } }
      forUpTo 32 (convertRow blockTranslate gzipHeader readRoot (windowOf centerX centerZ limit)) :
        M Unit) s =
      forUpTo 32 (convertRow blockTranslate gzipHeader readRoot (windowOf centerX centerZ limit))
        ⟨{ s.converter with batch := [] }, region, s.db⟩ := by
    rw [bind_of_ok (modify_apply _ _), bind_of_ok (onRegion_ok hopen), bind_of_ok (modify_apply _ _)]
  rw [← hrows]
  unfold convertRegion
  cases limit with
  | false => rfl
  | true =>
    simp only [if_true]
    rw [bind_of_ok (lift_ok (hreach rfl) s)]
    rfl

/-- **The conversion of a region** within a window puts the records of the chunks inside the window in
the database. -/
theorem convertRegion_inWindow (blockTranslate : Vector UInt8 256) {gzipHeader : List UInt8 → Bool}
    {readRoot : ChunkStream → Except Exn Tag} {name : String} {content : List UInt8}
    {centerX centerZ : JFloat} {limit : Bool} {region : DesktopRegionFile}
    (hreach : Reaches name centerX centerZ limit)
    (hopen : DesktopRegionFile.construct (DesktopRegionFile.fresh content) = .ok () region)
    (hok : SlotsOkIn gzipHeader readRoot region (windowOf centerX centerZ limit)) {s : ConvertState}
    (hs : Converter.DirtyOk s.converter) :
    ∃ s', convertRegion blockTranslate gzipHeader readRoot name content centerX centerZ limit s =
        .ok () s' ∧ Converter.DirtyOk s'.converter ∧
        s'.db = Store.applyBatch s.db (puts (regionRecordsIn gzipHeader readRoot region
          blockTranslate (windowOf centerX centerZ limit) 32)) := by
  obtain ⟨t, ht, -, hd, -, hdb⟩ := convertRows_spec blockTranslate (windowOf centerX centerZ limit) hok
    (s := ⟨{ s.converter with batch := [] }, region, s.db⟩) (DesktopRegionFile.SamePos.refl region)
    hs rfl le_rfl
  exact ⟨t, (convertRegion_eq blockTranslate gzipHeader readRoot hreach hopen s).trans ht, hd, hdb⟩

/-- The same for a region whose readable slots hold well-formed chunks. -/
theorem convertRegion_window (blockTranslate : Vector UInt8 256) {gzipHeader : List UInt8 → Bool}
    {readRoot : ChunkStream → Except Exn Tag} {name : String} {content : List UInt8}
    {centerX centerZ : JFloat} {limit : Bool} {region : DesktopRegionFile}
    (hreach : Reaches name centerX centerZ limit)
    (hopen : DesktopRegionFile.construct (DesktopRegionFile.fresh content) = .ok () region)
    (hok : SlotsOk gzipHeader readRoot region) {s : ConvertState}
    (hs : Converter.DirtyOk s.converter) :
    ∃ s', convertRegion blockTranslate gzipHeader readRoot name content centerX centerZ limit s =
        .ok () s' ∧ s'.db = Store.applyBatch s.db (puts (regionRecordsIn gzipHeader readRoot region
          blockTranslate (windowOf centerX centerZ limit) 32)) := by
  obtain ⟨t, ht, -, hdb⟩ := convertRegion_inWindow blockTranslate hreach hopen (hok.inWindow _) hs
  exact ⟨t, ht, hdb⟩

/-- Without a limit every chunk of the region gets its record. -/
theorem convertRegion_spec (blockTranslate : Vector UInt8 256) {gzipHeader : List UInt8 → Bool}
    {readRoot : ChunkStream → Except Exn Tag} (name : String) {content : List UInt8}
    (centerX centerZ : JFloat) {region : DesktopRegionFile}
    (hopen : DesktopRegionFile.construct (DesktopRegionFile.fresh content) = .ok () region)
    (hok : SlotsOk gzipHeader readRoot region) {s : ConvertState}
    (hs : Converter.DirtyOk s.converter) :
    ∃ s', convertRegion blockTranslate gzipHeader readRoot name content centerX centerZ false s =
        .ok () s' ∧ s'.db = Store.applyBatch s.db
          (puts (regionRecords gzipHeader readRoot region blockTranslate 32)) := by
  have hl : (windowOf centerX centerZ false).limitCount ≤ 0 := by
    show (-1 : Int32) ≤ 0
    decide
  obtain ⟨t, ht, hdb⟩ := convertRegion_window blockTranslate (reaches_unlimited name centerX centerZ)
    hopen hok hs
  rw [regionRecordsIn_of_unlimited _ _ _ _ _ hl] at hdb
  exact ⟨t, ht, hdb⟩

end ConvertState

end WorldToPE
