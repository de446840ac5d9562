import WorldToPE.Convert.World

/-!
# WorldToPE.Convert.Limited — a conversion limited to the surroundings of the player

A limited conversion tests its window twice: a region file that the window misses is not opened, and of
the chunks of the other files only those inside the window are converted.  The tests are written
independently, one in the coordinates of the regions, the other in those of the chunks.

* `outsideWindow_regionName`: the test of a region file.
* `admits_iff`: the test of a chunk.
* `convertRegion_limited`: the records that are written for one region file.
* `convertRegions_limited`: the same for all region files of a world, each chunk in the window once.
-/

namespace WorldToPE.ConvertState

open Java Run

/-! ## Ranges of chunk coordinates -/

/-- The name of a region file. -/
def regionName (X Z : ℤ) : String := "r." ++ toString X ++ "." ++ toString Z ++ ".mca"

/-- The coordinates of two chunks from `p` on. -/
def windowRange (p : Int32) : Set ℤ := Set.Ico p.toInt (p.toInt + 2)

/-- The coordinates of the chunks of a region. -/
def regionRange (X : ℤ) : Set ℤ := Set.Ico (32 * X) (32 * X + 32)

/-- The window and the region have a chunk in common. -/
def Meets (l : Converter.Limits) (X Z : ℤ) : Prop :=
  (windowRange l.limitX ∩ regionRange X).Nonempty ∧ (windowRange l.limitZ ∩ regionRange Z).Nonempty

/-- The chunk lies in the window. -/
def InWindow (l : Converter.Limits) (d : Converter.ChunkData) : Prop :=
  (l.limitX.toInt ≤ d.xPos.toInt ∧ d.xPos.toInt < l.limitX.toInt + 2) ∧
    l.limitZ.toInt ≤ d.zPos.toInt ∧ d.zPos.toInt < l.limitZ.toInt + 2

instance (l : Converter.Limits) (d : Converter.ChunkData) : Decidable (InWindow l d) :=
  inferInstanceAs (Decidable (_ ∧ _))

/-- A coordinate of a chunk or of a region that the tests can calculate with. -/
def Near (n : ℤ) : Prop := |n| ≤ 2 ^ 25

instance (n : ℤ) : Decidable (Near n) := inferInstanceAs (Decidable (_ ≤ _))

theorem Near.bounds {n : ℤ} (h : Near n) : -2 ^ 25 ≤ n ∧ n ≤ 2 ^ 25 := abs_le.mp h

theorem nonempty_ico_inter {a b c d : ℤ} (hab : a < b) (hcd : c < d) :
    (Set.Ico a b ∩ Set.Ico c d).Nonempty ↔ a < d ∧ c < b := by
  rw [Set.Ico_inter_Ico, Set.nonempty_Ico, max_lt_iff, lt_min_iff, lt_min_iff]
  omega

/-! ## The test of a region file -/

section Test

variable {X Z : ℤ}

theorem namePart_regionName (hX : Near X) (hZ : Near Z) :
    namePart (regionName X Z) 1 = .ok (Int32.ofInt X) ∧
      namePart (regionName X Z) 2 = .ok (Int32.ofInt Z) := by
  obtain ⟨hX1, hX2⟩ := hX.bounds
  obtain ⟨hZ1, hZ2⟩ := hZ.bounds
  unfold namePart regionName
  rw [splitDots_numbers]
  exact ⟨parseInt_toString (by omega) (by omega), parseInt_toString (by omega) (by omega)⟩

/-- The first coordinate of a region, as the test calculates it. -/
def regionMin (X : ℤ) : Int32 := Int32.ofInt X <<< 5

theorem toInt_regionMin (hX : Near X) : (regionMin X).toInt = 32 * X := by
  obtain ⟨h1, h2⟩ := hX.bounds
  have hX' : (Int32.ofInt X).toInt = X := Int32.toInt_ofInt_of_le (by omega) (by omega)
  have hshift : (Int32.ofInt X <<< Int32.ofNat 5).toInt = (Int32.ofInt X).toInt * 2 ^ 5 :=
    toInt_shiftLeft 5 (by norm_num) (by omega) (by omega)
  calc (regionMin X).toInt = (Int32.ofInt X).toInt * 2 ^ 5 := hshift
    _ = 32 * X := by rw [hX']; ring

/-- One coordinate of the test. -/
theorem misses_iff (hX : Near X) {p : Int32} (hp : Near p.toInt) :
    (p ≥ regionMin X + 32 ∨ p + 2 ≤ regionMin X) ↔
      ¬(windowRange p ∩ regionRange X).Nonempty := by
  obtain ⟨h1, h2⟩ := hX.bounds
  obtain ⟨h3, h4⟩ := hp.bounds
  have hmin := toInt_regionMin hX
  have h32 : (32 : Int32).toInt = 32 := rfl
  have hcount : (2 : Int32).toInt = 2 := rfl
  have hsum : (regionMin X + 32).toInt = 32 * X + 32 := by
    rw [toInt_add_of_fits] <;> rw [hmin, h32] <;> omega
  have hend : (p + 2).toInt = p.toInt + 2 := by
    rw [toInt_add_of_fits] <;> rw [hcount] <;> omega
  unfold windowRange regionRange
  rw [nonempty_ico_inter (by omega) (by omega), ge_iff_le, Int32.le_iff_toInt_le,
    Int32.le_iff_toInt_le, hsum, hend, hmin]
  omega

/-- **The test of a region file** finds out whether the window and the region have chunks in common. -/
theorem outsideWindow_regionName (hX : Near X) (hZ : Near Z) {l : Converter.Limits}
    (hx : Near l.limitX.toInt) (hz : Near l.limitZ.toInt) (hl : l.limitCount = 2) :
    (outsideWindow (regionName X Z) l = .ok true ↔ ¬Meets l X Z) ∧
      (outsideWindow (regionName X Z) l = .ok false ↔ Meets l X Z) := by
  obtain ⟨hpX, hpZ⟩ := namePart_regionName hX hZ
  have hmX := misses_iff hX hx
  have hmZ := misses_iff hZ hz
  have hval : outsideWindow (regionName X Z) l = .ok
      (decide (l.limitX ≥ regionMin X + 32) || decide (l.limitX + 2 ≤ regionMin X) ||
        decide (l.limitZ ≥ regionMin Z + 32) || decide (l.limitZ + 2 ≤ regionMin Z)) := by
    unfold outsideWindow
    rw [hpX, hpZ, hl]
    rfl
  have htrue : outsideWindow (regionName X Z) l = .ok true ↔ ¬Meets l X Z := by
    rw [hval, Except.ok.injEq]
    simp only [Bool.or_eq_true, decide_eq_true_eq]
    rw [or_assoc, hmX, hmZ, Meets, not_and_or]
  refine ⟨htrue, ?_⟩
  have hnot := not_congr htrue
  rw [not_not] at hnot
  rw [← hnot, hval, Except.ok.injEq, Except.ok.injEq, Bool.not_eq_true]

end Test

/-! ## The test of a chunk -/

/-- **The test of a chunk** is whether it lies in the window. -/
theorem admits_iff {l : Converter.Limits} (hx : Near l.limitX.toInt) (hz : Near l.limitZ.toInt)
    (hl : l.limitCount = 2) (d : Converter.ChunkData) : l.admits d.xPos d.zPos ↔ InWindow l d := by
  have h2 : (2 : Int32).toInt = 2 := rfl
  have hend {p : Int32} (hp : Near p.toInt) : (p + 2).toInt = p.toInt + 2 := by
    obtain ⟨h3, h4⟩ := hp.bounds
    rw [toInt_add_of_fits] <;> rw [h2] <;> omega
  have hcount : ¬(2 : Int32) ≤ 0 := by decide
  unfold Converter.Limits.admits InWindow
  rw [hl, or_iff_right hcount]
  simp only [ge_iff_le, Int32.le_iff_toInt_le, Int32.lt_iff_toInt_lt, hend hx, hend hz, and_assoc]

/-- A chunk of a region that the window misses does not lie in the window. -/
theorem not_inWindow_of_misses {l : Converter.Limits} {X Z : ℤ} (h : ¬Meets l X Z)
    {d : Converter.ChunkData} (hx : d.xPos.toInt ∈ regionRange X) (hz : d.zPos.toInt ∈ regionRange Z) :
    ¬InWindow l d := by
  rintro ⟨hx', hz'⟩
  exact h ⟨⟨_, hx', hx⟩, ⟨_, hz', hz⟩⟩

/-! ## What is written -/

/-- A region file: the numbers in its name, and its content. -/
structure RegionInput where
  X : ℤ
  Z : ℤ
  content : List UInt8

def RegionInput.name (f : RegionInput) : String := regionName f.X f.Z

section Writes

variable (blockTranslate : Vector UInt8 256) (gzipHeader : List UInt8 → Bool)
  (readRoot : ChunkStream → Except Exn Tag) (limits : Converter.Limits)

/-- What row `x` hands to `db.write`. -/
def rowWrites (x : ℕ) (s : ConvertState) : WriteBatch :=
  match convertSlots blockTranslate gzipHeader readRoot limits x 32 s with
  | .ok true t => t.converter.batch
  | _ => []

/-- What the first `n` rows hand to `db.write`, one batch after the other. -/
def rowsWrites : ℕ → ConvertState → WriteBatch
  | 0, _ => []
  | n + 1, s => rowsWrites n s ++ rowWrites blockTranslate gzipHeader readRoot limits n
      (after (forUpTo n (convertRow blockTranslate gzipHeader readRoot limits)) s)

variable (centerX centerZ : JFloat) (limit : Bool)

/-- What `convertRegion` hands to `db.write`. -/
def regionWrites (f : RegionInput) (s : ConvertState) : WriteBatch :=
  match if limit then outsideWindow f.name (windowOf centerX centerZ limit) else .ok false with
  | .ok false =>
    match DesktopRegionFile.construct (DesktopRegionFile.fresh f.content) with
    | .ok () region => rowsWrites blockTranslate gzipHeader readRoot (windowOf centerX centerZ limit) 32
        ⟨{ s.converter with batch := [] }, region, s.db⟩
    | .error _ _ => []
  | _ => []

/-- The loop of `convert` over the region files. -/
def convertRegions : List RegionInput → M Unit
  | [] => pure ()
  | f :: files => do
    convertRegion blockTranslate gzipHeader readRoot f.name f.content centerX centerZ limit
    convertRegions files

def regionsWrites : List RegionInput → ConvertState → WriteBatch
  | [], _ => []
  | f :: files, s => regionWrites blockTranslate gzipHeader readRoot centerX centerZ limit f s ++
      regionsWrites files (after (convertRegion blockTranslate gzipHeader readRoot f.name f.content
        centerX centerZ limit) s)

/-! ## The chunks of the files -/

/-- The chunks of a region, row by row. -/
def chunksIn (region : DesktopRegionFile) : List Converter.ChunkData :=
  (List.range 32).flatMap fun x => (List.range 32).flatMap fun z =>
    (chunkIn gzipHeader readRoot region x z).toList

/-- The chunks of a region file, none if it cannot be opened. -/
def chunksOf (f : RegionInput) : List Converter.ChunkData :=
  match DesktopRegionFile.construct (DesktopRegionFile.fresh f.content) with
  | .ok () region => chunksIn gzipHeader readRoot region
  | .error _ _ => []

/-- A region file whose chunks lie in the region of its name.  If the window meets the region, the file
can be read as far as the conversion reads it. -/
structure RegionInput.Ok (f : RegionInput) : Prop where
  nearX : Near f.X
  nearZ : Near f.Z
  located : ∀ d ∈ chunksOf gzipHeader readRoot f,
    d.xPos.toInt ∈ regionRange f.X ∧ d.zPos.toInt ∈ regionRange f.Z
  readable : Meets limits f.X f.Z → ∃ region,
    DesktopRegionFile.construct (DesktopRegionFile.fresh f.content) = .ok () region ∧
      SlotsOkIn gzipHeader readRoot region limits

/-- The chunks of the file that lie in the window. -/
def chunksInWindow (f : RegionInput) : List Converter.ChunkData :=
  (chunksOf gzipHeader readRoot f).filter fun d => InWindow limits d

end Writes

section Run

variable (blockTranslate : Vector UInt8 256) {gzipHeader : List UInt8 → Bool}
  {readRoot : ChunkStream → Except Exn Tag} {limits : Converter.Limits} {region : DesktopRegionFile}

theorem chunksOf_opened {f : RegionInput}
    (hopen : DesktopRegionFile.construct (DesktopRegionFile.fresh f.content) = .ok () region) :
    chunksOf gzipHeader readRoot f = chunksIn gzipHeader readRoot region := by
  unfold chunksOf
  rw [hopen]

theorem regionRecordsIn_eq : regionRecordsIn gzipHeader readRoot region blockTranslate limits 32 =
    ((chunksIn gzipHeader readRoot region).filter fun d => limits.admits d.xPos d.zPos).map
      (recordOf blockTranslate) := by
  unfold regionRecordsIn rowRecordsIn slotRecords chunksIn
  simp only [List.filter_flatMap, List.map_flatMap]
  refine List.flatMap_congr fun x _ => List.flatMap_congr fun z _ => ?_
  cases chunkIn gzipHeader readRoot region x z with
  | none => rfl
  | some d => by_cases h : limits.admits d.xPos d.zPos <;> simp [Option.filter_some, h]

section Rows

variable (hok : SlotsOkIn gzipHeader readRoot region limits)
include hok

/-- **One row** hands the records of its chunks in the window to `db.write`. -/
theorem rowWrites_eq {x : ℕ} (hx : x < 32) {s : ConvertState}
    (hr : DesktopRegionFile.SamePos region s.region) (hd : Converter.DirtyOk s.converter)
    (hb : s.converter.batch = []) :
    rowWrites blockTranslate gzipHeader readRoot limits x s =
      puts (rowRecordsIn gzipHeader readRoot region blockTranslate limits x 32) := by
  obtain ⟨b, t, ht, hm, hnone⟩ := convertSlots_spec blockTranslate limits hok hx
    ⟨hr, hd, by simp [puts], rfl⟩ 32 le_rfl
  unfold rowWrites
  rw [ht]
  cases b with
  | true =>
    show t.converter.batch = _
    rw [hm.batch, hb, List.nil_append]
  | false =>
    rw [hnone rfl]
    rfl

/-- **Run lemma** over the first `n` rows. -/
theorem rowsWrites_eq {s : ConvertState} (hr : DesktopRegionFile.SamePos region s.region)
    (hd : Converter.DirtyOk s.converter) (hb : s.converter.batch = []) : ∀ {n : ℕ}, n ≤ 32 →
    rowsWrites blockTranslate gzipHeader readRoot limits n s =
      puts (regionRecordsIn gzipHeader readRoot region blockTranslate limits n)
  | 0, _ => rfl
  | n + 1, hn => by
    obtain ⟨t, ht, hr', hd', hb', -⟩ :=
      convertRows_spec blockTranslate limits hok hr hd hb (show n ≤ 32 by omega)
    rw [rowsWrites, rowsWrites_eq hr hd hb (show n ≤ 32 by omega), after_of_ok ht,
      rowWrites_eq blockTranslate hok (by omega) hr' hd' hb']
    simp [regionRecordsIn, puts, List.range_succ]

end Rows

/-! ## One region file -/

section Files

variable {centerX centerZ : JFloat} (hx : Near (centerX.toInt32 >>> 4).toInt)
  (hz : Near (centerZ.toInt32 >>> 4).toInt)
include hx hz

theorem windowOf_admits_iff (d : Converter.ChunkData) :
    (windowOf centerX centerZ true).admits d.xPos d.zPos ↔ InWindow (windowOf centerX centerZ true) d :=
  @admits_iff (windowOf centerX centerZ true) hx hz rfl d

theorem filter_admits_eq (ds : List Converter.ChunkData) :
    (ds.filter fun d => (windowOf centerX centerZ true).admits d.xPos d.zPos) =
      ds.filter fun d => InWindow (windowOf centerX centerZ true) d :=
  List.filter_congr fun d _ => decide_eq_decide.mpr (windowOf_admits_iff hx hz d)

/-- The test of a region file in a run of the converter. -/
theorem windowOf_outside {f : RegionInput} (hX : Near f.X) (hZ : Near f.Z) :
    (outsideWindow f.name (windowOf centerX centerZ true) = .ok true ↔
        ¬Meets (windowOf centerX centerZ true) f.X f.Z) ∧
      (outsideWindow f.name (windowOf centerX centerZ true) = .ok false ↔
        Meets (windowOf centerX centerZ true) f.X f.Z) :=
  @outsideWindow_regionName f.X f.Z hX hZ (windowOf centerX centerZ true) hx hz rfl

omit hx hz in
/-- A file that is opened: its rows are converted from the state after the opening. -/
theorem regionWrites_opened {f : RegionInput} {region : DesktopRegionFile}
    (hreach : outsideWindow f.name (windowOf centerX centerZ true) = .ok false)
    (hopen : DesktopRegionFile.construct (DesktopRegionFile.fresh f.content) = .ok () region)
    (s : ConvertState) : regionWrites blockTranslate gzipHeader readRoot centerX centerZ true f s =
      rowsWrites blockTranslate gzipHeader readRoot (windowOf centerX centerZ true) 32
        ⟨{ s.converter with batch := [] }, region, s.db⟩ := by
  unfold regionWrites
  rw [if_pos rfl, hreach, hopen]

omit hx hz in
/-- A file that is not opened. -/
theorem convertRegion_skipped {f : RegionInput}
    (hskip : outsideWindow f.name (windowOf centerX centerZ true) = .ok true) (s : ConvertState) :
    convertRegion blockTranslate gzipHeader readRoot f.name f.content centerX centerZ true s = .ok () s ∧
      regionWrites blockTranslate gzipHeader readRoot centerX centerZ true f s = [] := by
  constructor
  · unfold convertRegion
    simp only [if_true]
    rw [bind_of_ok (lift_ok hskip s)]
    rfl
  · unfold regionWrites
    rw [if_pos rfl, hskip]

/-- **One region file**: the records of its chunks in the window are written, once each and in order. -/
theorem convertRegion_limited {f : RegionInput}
    (hf : f.Ok gzipHeader readRoot (windowOf centerX centerZ true)) {s : ConvertState}
    (hs : Converter.DirtyOk s.converter) :
    ∃ s', convertRegion blockTranslate gzipHeader readRoot f.name f.content centerX centerZ true s =
        .ok () s' ∧ Converter.DirtyOk s'.converter ∧
      regionWrites blockTranslate gzipHeader readRoot centerX centerZ true f s =
        puts ((chunksInWindow gzipHeader readRoot (windowOf centerX centerZ true) f).map
          (recordOf blockTranslate)) ∧
      s'.db = Store.applyBatch s.db
        (regionWrites blockTranslate gzipHeader readRoot centerX centerZ true f s) := by
  obtain ⟨hskip, hgo⟩ := windowOf_outside hx hz hf.nearX hf.nearZ
  by_cases hmeets : Meets (windowOf centerX centerZ true) f.X f.Z
  · obtain ⟨region, hopen, hok⟩ := hf.readable hmeets
    obtain ⟨s', hs', hd', hdb⟩ :=
      convertRegion_inWindow blockTranslate (fun _ => hgo.mpr hmeets) hopen hok hs
    have hrows := @rowsWrites_eq blockTranslate gzipHeader readRoot _ region hok
      ⟨{ s.converter with batch := [] }, region, s.db⟩ (DesktopRegionFile.SamePos.refl region) hs rfl
      32 le_rfl
    have hwrites := (@regionWrites_opened blockTranslate gzipHeader readRoot centerX centerZ f region
      (hgo.mpr hmeets) hopen s).trans hrows
    refine ⟨s', hs', hd', ?_, ?_⟩
    · rw [hwrites, regionRecordsIn_eq, filter_admits_eq hx hz, chunksInWindow, chunksOf_opened hopen]
    · rw [hdb, hwrites]
  · obtain ⟨hrun, hwrites⟩ := @convertRegion_skipped blockTranslate gzipHeader readRoot centerX
      centerZ f (hskip.mpr hmeets) s
    have hnone : chunksInWindow gzipHeader readRoot (windowOf centerX centerZ true) f = [] := by
      apply List.filter_eq_nil_iff.mpr
      intro d hd
      obtain ⟨hxd, hzd⟩ := hf.located d hd
      simpa using not_inWindow_of_misses hmeets hxd hzd
    refine ⟨s, hrun, hs, ?_, ?_⟩
    · rw [hwrites, hnone]
      rfl
    · rw [hwrites]
      rfl

/-! ## All region files -/

/-- **Run lemma** over the region files. -/
theorem convertRegions_spec : ∀ {files : List RegionInput},
    (∀ f ∈ files, f.Ok gzipHeader readRoot (windowOf centerX centerZ true)) → ∀ {s : ConvertState},
    Converter.DirtyOk s.converter →
    ∃ s', convertRegions blockTranslate gzipHeader readRoot centerX centerZ true files s = .ok () s' ∧
      regionsWrites blockTranslate gzipHeader readRoot centerX centerZ true files s =
        puts ((files.flatMap (chunksInWindow gzipHeader readRoot (windowOf centerX centerZ true))).map
          (recordOf blockTranslate)) ∧
      s'.db = Store.applyBatch s.db
        (regionsWrites blockTranslate gzipHeader readRoot centerX centerZ true files s)
  | [], _, s, _ => ⟨s, rfl, rfl, rfl⟩
  | f :: files, hok, s, hs => by
    obtain ⟨t, ht, hd, hw, hdb⟩ := convertRegion_limited blockTranslate hx hz (hok f List.mem_cons_self) hs
    obtain ⟨t', ht', hw', hdb'⟩ :=
      convertRegions_spec (fun g hg => hok g (List.mem_cons_of_mem _ hg)) hd
    refine ⟨t', ?_, ?_, ?_⟩
    · rw [convertRegions, bind_of_ok ht]
      exact ht'
    · rw [regionsWrites, after_of_ok ht, hw, hw', List.flatMap_cons]
      simp [puts]
    · rw [regionsWrites, after_of_ok ht, Store.applyBatch_append, hdb', hdb]

omit hx hz in
/-- Chunks of different regions have different keys. -/
theorem key_ne_of_regions {f g : RegionInput} (hne : (f.X, f.Z) ≠ (g.X, g.Z))
    (hf : f.Ok gzipHeader readRoot limits) (hg : g.Ok gzipHeader readRoot limits)
    {d e : Converter.ChunkData} (hd : d ∈ chunksOf gzipHeader readRoot f)
    (he : e ∈ chunksOf gzipHeader readRoot g) : (d.xPos, d.zPos) ≠ (e.xPos, e.zPos) := by
  intro h
  obtain ⟨h1, h2⟩ := Prod.mk.inj h
  obtain ⟨hdx, hdz⟩ := hf.located d hd
  obtain ⟨hex, hez⟩ := hg.located e he
  rw [h1] at hdx
  rw [h2] at hdz
  unfold regionRange at hdx hdz hex hez
  rw [Set.mem_Ico] at hdx hdz hex hez
  exact hne (Prod.ext (by dsimp only; omega) (by dsimp only; omega))

omit hx hz in
/-- If no file has two chunks of one position, no position comes twice in all files. -/
theorem nodup_positions {files : List RegionInput} (hnd : (files.map fun f => (f.X, f.Z)).Nodup)
    (hok : ∀ f ∈ files, f.Ok gzipHeader readRoot limits)
    (huniq : ∀ f ∈ files, ((chunksOf gzipHeader readRoot f).map fun d => (d.xPos, d.zPos)).Nodup) :
    ((files.flatMap (chunksInWindow gzipHeader readRoot limits)).map fun d =>
      (d.xPos, d.zPos)).Nodup := by
  rw [List.map_flatMap, List.nodup_flatMap]
  refine ⟨fun f hf => (huniq f hf).sublist (List.filter_sublist.map _), ?_⟩
  refine (List.pairwise_map.mp hnd).imp_of_mem fun {f g} hf hg hne => ?_
  rintro k hk hk'
  obtain ⟨d, hd, rfl⟩ := List.mem_map.mp hk
  obtain ⟨e, he, hkey⟩ := List.mem_map.mp hk'
  exact key_ne_of_regions hne (hok f hf) (hok g hg) (List.mem_of_mem_filter hd)
    (List.mem_of_mem_filter he) hkey.symm

/-- A file that is passed over has no chunk in the window, wherever its chunks lie in the region. -/
theorem not_admits_of_outside {f : RegionInput} (hX : Near f.X) (hZ : Near f.Z)
    (h : outsideWindow f.name (windowOf centerX centerZ true) = .ok true) {xPos zPos : Int32}
    (hx' : xPos.toInt ∈ regionRange f.X) (hz' : zPos.toInt ∈ regionRange f.Z) :
    ¬(windowOf centerX centerZ true).admits xPos zPos := by
  intro hadmits
  have hmiss := (windowOf_outside hx hz hX hZ).1.mp h
  have hin := (windowOf_admits_iff hx hz ⟨xPos, zPos, []⟩).mp hadmits
  exact @not_inWindow_of_misses _ f.X f.Z hmiss ⟨xPos, zPos, []⟩ hx' hz' hin

end Files

end Run

/-! ## A limited conversion -/

/-- **A limited conversion** writes the chunks in the window around the player.  A region file is passed
over exactly if the window misses its region, and then no chunk that lies in the region would be
converted; what is written for all files are the records of their chunks in the window, file by file;
and chunks of different files have different positions, so that no position is written twice if no
file holds it twice. -/
theorem convertRegions_limited (blockTranslate : Vector UInt8 256) (gzipHeader : List UInt8 → Bool)
    (readRoot : ChunkStream → Except Exn Tag) (centerX centerZ : JFloat)
    (hx : Near (centerX.toInt32 >>> 4).toInt) (hz : Near (centerZ.toInt32 >>> 4).toInt)
    (files : List RegionInput) (hdistinct : (files.map fun f => (f.X, f.Z)).Nodup)
    (hok : ∀ f ∈ files, f.Ok gzipHeader readRoot (windowOf centerX centerZ true)) (s : ConvertState)
    (hs : Converter.DirtyOk s.converter) :
    (∀ f ∈ files,
      (outsideWindow f.name (windowOf centerX centerZ true) = .ok true ↔
        ¬Meets (windowOf centerX centerZ true) f.X f.Z) ∧
      (outsideWindow f.name (windowOf centerX centerZ true) = .ok true →
        ∀ xPos zPos : Int32, xPos.toInt ∈ regionRange f.X → zPos.toInt ∈ regionRange f.Z →
          ¬(windowOf centerX centerZ true).admits xPos zPos)) ∧
    (∃ s', convertRegions blockTranslate gzipHeader readRoot centerX centerZ true files s = .ok () s' ∧
      regionsWrites blockTranslate gzipHeader readRoot centerX centerZ true files s =
        puts ((files.flatMap (chunksInWindow gzipHeader readRoot (windowOf centerX centerZ true))).map
          (recordOf blockTranslate)) ∧
      s'.db = Store.applyBatch s.db
        (regionsWrites blockTranslate gzipHeader readRoot centerX centerZ true files s)) ∧
    (files.Pairwise fun f g => ∀ d ∈ chunksOf gzipHeader readRoot f,
      ∀ e ∈ chunksOf gzipHeader readRoot g, (d.xPos, d.zPos) ≠ (e.xPos, e.zPos)) ∧
    ((∀ f ∈ files, ((chunksOf gzipHeader readRoot f).map fun d => (d.xPos, d.zPos)).Nodup) →
      ((files.flatMap (chunksInWindow gzipHeader readRoot (windowOf centerX centerZ true))).map fun d =>
        (d.xPos, d.zPos)).Nodup) := by
  refine ⟨fun f hf => ⟨(windowOf_outside hx hz (hok f hf).nearX (hok f hf).nearZ).1, ?_⟩, ?_, ?_, ?_⟩
  · intro hout xPos zPos hx' hz'
    exact not_admits_of_outside hx hz (hok f hf).nearX (hok f hf).nearZ hout hx' hz'
  · exact convertRegions_spec blockTranslate hx hz hok hs
  · refine (List.pairwise_map.mp hdistinct).imp_of_mem fun {f g} hf hg hne d hd e he => ?_
    exact key_ne_of_regions hne (hok f hf) (hok g hg) hd he
  · exact nodup_positions hdistinct hok

/-- Of a range of lists only the first has elements. -/
theorem flatMap_range_first {α : Type} {n : ℕ} {l : ℕ → List α} (h : ∀ i < n, l (i + 1) = []) :
    (List.range (n + 1)).flatMap l = l 0 := by
  have hrest : (List.range n).flatMap (fun i => l (i + 1)) = [] :=
    List.flatMap_eq_nil_iff.mpr fun i hi => h i (List.mem_range.mp hi)
  rw [List.range_succ_eq_map, List.flatMap_cons, List.flatMap_map, hrest, List.append_nil]

/-- The chunks of a region with a chunk in its first slot only. -/
theorem chunksIn_first {gzipHeader : List UInt8 → Bool} {readRoot : ChunkStream → Except Exn Tag}
    {region : DesktopRegionFile} {o : Option Converter.ChunkData}
    (h : ∀ x < 32, ∀ z < 32, chunkIn gzipHeader readRoot region x z =
      if x = 0 ∧ z = 0 then o else none) : chunksIn gzipHeader readRoot region = o.toList := by
  unfold chunksIn
  rw [flatMap_range_first fun x hx => ?_]
  · rw [flatMap_range_first fun z hz => ?_]
    · rw [h 0 (by norm_num) 0 (by norm_num), if_pos ⟨rfl, rfl⟩]
    · rw [h 0 (by norm_num) _ (by omega), if_neg (by omega)]
      rfl
  · apply List.flatMap_eq_nil_iff.mpr
    intro z hz
    rw [h _ (by omega) z (List.mem_range.mp hz), if_neg (by omega)]
    rfl

/-- The window around a player in the corner of four regions. -/
theorem windowOf_corner :
    windowOf (JFloat.ofBits 0xC4040000) (JFloat.ofBits 0x43F80000) true = ⟨-33, 31, 2⟩ := by
  decide

/-- A region file with the chunk of stone. -/
def stoneFile : RegionInput := ⟨-1, 1, DesktopRegionFile.singleSlot stoneData⟩

/-- A region file far from the player, with a chunk that cannot be decoded. -/
def farFile : RegionInput := ⟨5, 5, DesktopRegionFile.singleSlot []⟩

theorem chunksOf_stoneFile : chunksOf (fun _ => false) readStone stoneFile =
    [⟨-32, 32, [⟨2, Converter.uniform 1⟩]⟩] := by
  obtain ⟨region, hopen, hslots⟩ := chunkIn_stone
  rw [@chunksOf_opened _ _ _ stoneFile hopen]
  refine @chunksIn_first _ _ region (some _) fun x hx z hz => ?_
  unfold chunkIn
  rw [hslots x hx z hz]

theorem chunksOf_farFile : chunksOf (fun _ => false) readStone farFile = [] := by
  obtain ⟨region, hopen, hslots⟩ := DesktopRegionFile.slotStream_singleSlot (fun _ => false)
    (show ([] : List UInt8).length ≤ 4091 by decide)
  rw [@chunksOf_opened _ _ _ farFile hopen]
  refine @chunksIn_first _ _ region none fun x hx z hz => ?_
  unfold chunkIn slotChunk
  rw [hslots x hx z hz]
  by_cases h0 : x = 0 ∧ z = 0
  · rw [if_pos h0, if_pos h0]
    rfl
  · rw [if_neg h0, if_neg h0]
    rfl

theorem stoneFile_ok : stoneFile.Ok (fun _ => false) readStone ⟨-33, 31, 2⟩ where
  nearX := by decide
  nearZ := by decide
  located d hd := by
    rw [chunksOf_stoneFile, List.mem_singleton] at hd
    rw [hd]
    exact ⟨⟨by decide, by decide⟩, by decide, by decide⟩
  readable _ := by
    obtain ⟨region, hopen, hslots⟩ := chunkIn_stone
    refine ⟨region, hopen, SlotsOk.inWindow _ fun x hx z hz => ⟨_, hslots x hx z hz, fun d hd => ?_⟩⟩
    split at hd
    · rw [← Option.some.inj hd]
      exact Converter.wellFormed_uniform _ _ 1
    · cases hd

theorem farFile_ok : farFile.Ok (fun _ => false) readStone ⟨-33, 31, 2⟩ where
  nearX := by decide
  nearZ := by decide
  located d hd := by
    rw [chunksOf_farFile] at hd
    cases hd
  readable h := by
    obtain ⟨⟨n, ⟨-, hn⟩, hn', -⟩, -⟩ := h
    have hX : farFile.X = 5 := rfl
    have hlim : (-33 : Int32).toInt = -33 := rfl
    rw [hX] at hn'
    dsimp only at hn
    rw [hlim] at hn
    omega

/-- The chunk of stone beside the corner of four regions is converted, the region far away is passed
over. -/
theorem convertRegions_limited_corner :
    ∃ s', convertRegions (Vector.ofFn fun i => UInt8.ofNat i) (fun _ => false) readStone
        (JFloat.ofBits 0xC4040000) (JFloat.ofBits 0x43F80000) true [stoneFile, farFile]
        ⟨Converter.initial, DesktopRegionFile.fresh [], ∅⟩ = .ok () s' ∧
      s'.db = Store.applyBatch ∅ (puts [recordOf (Vector.ofFn fun i => UInt8.ofNat i)
        ⟨-32, 32, [⟨2, Converter.uniform 1⟩]⟩]) := by
  obtain ⟨-, ⟨s', hs', hw, hdb⟩, -, -⟩ := convertRegions_limited (Vector.ofFn fun i => UInt8.ofNat i)
    (fun _ => false) readStone (JFloat.ofBits 0xC4040000) (JFloat.ofBits 0x43F80000) (by decide)
    (by decide) [stoneFile, farFile] (by decide) (by
      rw [windowOf_corner]
      simp only [List.forall_mem_cons]
      exact ⟨stoneFile_ok, farFile_ok, List.forall_mem_nil _⟩)
    ⟨Converter.initial, DesktopRegionFile.fresh [], ∅⟩ Converter.dirtyOk_initial
  refine ⟨s', hs', ?_⟩
  rw [hdb, hw, windowOf_corner]
  simp only [List.flatMap_cons, List.flatMap_nil, chunksInWindow, chunksOf_stoneFile, chunksOf_farFile]
  rw [List.filter_cons_of_pos (by decide)]
  rfl

end WorldToPE.ConvertState
