import WorldToPE.Region.Write

/-!
# WorldToPE.Region.DesktopWrite — the sector map of a desktop region file

`DesktopRegionFile.write`: the write of `Region.Write` with big-endian `int`s, the version of deflated
data and a time stamp.  From an empty file on, the map of free sectors, the offsets, the header on
disk and the length of the file agree after every sequence of writes, and the constructor recovers the
map and the offsets from the file.

* `setTimestamp_stored`: a time stamp goes to the second sector of the header.
* `exec_stored`: a write keeps the representation of a store.
* `Stored.reopen`: the constructor on a file that represents a store.
* `exactMap_run`: the map is exact after every sequence of writes.
* `inLimits_run`: the file stays so short that no `int` overflows; `not_inLimits_leak`: unless lengths are larger
  than the data.
-/

namespace WorldToPE

open Java Run Sectors

namespace DesktopRegionFile

def setTimestamp (x z value : Int32) : M Unit := do
  let s ← get
  match aset s.chunkTimestamps (z * 32 + x) value with
  | .error e => throw e
  | .ok chunkTimestamps => set { s with chunkTimestamps }
  io (SeekFile.seek ((z * 32 + x) * 4 + 4096).toInt)
  io (SeekFile.writeInt value)

/-- `write(x, z, data, length)` at the time `now`, in seconds. -/
def write (x z : Int32) (data : List UInt8) (length now : Int32) : M Unit :=
  catchIO (store Layout.desktop (setTimestamp x z now) x z data length) (return ())

/-! ## The statement -/

/-- A call of `write`, and the time at which it is made. -/
structure TimedCall extends WriteCall where
  now : Int32

def exec (w : TimedCall) : M Unit := write w.x w.z w.data w.length w.now

/-! ## Time stamps -/

section Desktop

variable {c : Fin 1024 → Option (List UInt8)} {s : DesktopRegionFile}

/-- A change of the second sector of the file. -/
theorem Stored.setSector (h : Stored Layout.desktop c s) {t : DesktopRegionFile} {p : ℕ}
    {bs : List UInt8} (hlo : 4096 ≤ p) (hhi : p + bs.length ≤ 8192)
    (hbytes : t.file.bytes = overwrite s.file.bytes p bs) (hoff : t.offsets = s.offsets)
    (hfree : t.sectorFree = s.sectorFree) : Stored Layout.desktop c t := by
  have hlen := h.length
  have hheader : 2 ≤ s.sectorFree.length := h.exact.header_le
  have hext : extents t = extents s := by
    funext k
    rw [extents, extents, hoff]
  refine ⟨?_, ?_, ?_, fun k => ?_, fun k hk => ?_, fun k data hd => ?_⟩
  · rw [hext, hfree]
    exact h.exact
  · rw [hfree]
    exact h.small
  · rw [hbytes, hfree, length_overwrite (by omega)]
    omega
  · have hk := k.isLt
    rw [hbytes, hoff, drop_take_overwrite (by omega) (.inl (by omega))]
    exact h.table k
  · rw [hoff]
    exact h.empty k hk
  · have hold := h.chunk k data hd
    have hin := h.exact.inside k (by
      have : (extents s k).count = _ := hold.count
      omega)
    have hstart : 2 ≤ (extent s.offsets[k]).start := hin.1
    rw [hoff]
    refine ⟨hold.count, ?_⟩
    rw [hbytes, drop_take_overwrite (by omega) (.inr (by omega))]
    exact hold.record

theorem setTimestamp_stored {x z : Int32} {k : Fin 1024} (hk : (z * 32 + x).toInt = k)
    (value : Int32) (h : Stored Layout.desktop c s) :
    ∃ t, setTimestamp x z value s = .ok () t ∧ Stored Layout.desktop c t ∧ Grown s t 0 := by
  have hlt := k.isLt
  have hlen := h.length
  have hheader : 2 ≤ s.sectorFree.length := h.exact.header_le
  have hp : ((z * 32 + x) * 4 + 4096).toInt = (4 * k + 4096 : ℕ) := by
    have h4 : ((z * 32 + x) * 4).toInt = k * 4 := by
      rw [toInt_mul_of_fits] <;> rw [hk, show (4 : Int32).toInt = 4 from rfl] <;> omega
    rw [toInt_add_of_fits] <;> rw [h4, show (4096 : Int32).toInt = 4096 from rfl] <;> push_cast <;> omega
  have hw := io_writeAt (s := { s with chunkTimestamps := s.chunkTimestamps.set k value }) hp
    (by dsimp only; omega) (intBytes value)
  have hset : setTimestamp x z value s = .ok ()
      { s with chunkTimestamps := s.chunkTimestamps.set k value,
               file := ⟨overwrite s.file.bytes (4 * k + 4096) (intBytes value),
                 4 * k + 4096 + (intBytes value).length⟩ } := by
    unfold setTimestamp
    rw [bind_of_ok (get_apply s), aset_of_toInt value hk hlt]
    dsimp only
    rw [bind_of_ok (set_apply _ s)]
    exact hw
  have hhi : 4 * k + 4096 + (intBytes value).length ≤ 8192 := by
    rw [length_intBytes]
    omega
  exact ⟨_, hset, h.setSector (by omega) hhi rfl rfl rfl, grown_zero rfl rfl⟩

/-! ## A write -/

/-- **One write** keeps the representation of a store. -/
theorem exec_stored {w : TimedCall} (hw : w.Valid) (h : Stored Layout.desktop c s) :
    ∃ t, exec w s = .ok () t ∧ Stored Layout.desktop (w.applyTo c) t ∧ ∃ g, Grown s t g := by
  obtain ⟨k, hk, -⟩ := hw.index
  exact h.write hw fun c t ht => setTimestamp_stored hk w.now ht

/-! ## Opening the file again -/

/-- The constructor recovers the offsets and the table. -/
theorem Stored.reopen (h : Stored Layout.desktop c s) :
    ∃ t, construct (fresh s.file.bytes) = .ok () t ∧ t.offsets = s.offsets ∧
      t.sectorFree = s.sectorFree := by
  have hlen := h.length
  have hsmall := h.small
  have hheader : 2 ≤ s.sectorFree.length := h.exact.header_le
  have hpad : padded s.file.bytes = s.file.bytes := padded_of_aligned (by omega)
  have hn : (nSectors s.file.bytes.length).toNat = s.sectorFree.length := by
    rw [nSectors_of_lt (by omega)]
    omega
  have hint : ∀ k : Fin 1024, SeekFile.intAt s.file.bytes (4 * k) = s.offsets[k] :=
    h.decode ofIntBytes_intBytes
  have hm : ∀ i < 1024, Markable (nSectors s.file.bytes.length).toNat
      (SeekFile.intAt (padded s.file.bytes) (4 * i)) := by
    intro i hi _
    rw [hpad, hint ⟨i, hi⟩]
    exact .inl (h.offset_nonneg ⟨i, hi⟩)
  obtain ⟨t, ht, hH⟩ := construct_headerRead (by omega) (by rw [nSectors_of_lt (by omega)]; omega) hm
  rw [hpad, hn] at hH
  exact ⟨t, ht, h.of_offsetsRead hint (by norm_num) hH⟩

/-! ## The map -/

theorem Stored.exactMap (h : Stored Layout.desktop c s) : ExactMap s where
  disjoint j k hne _ _ n hn := by
    rw [inRun_iff h, inRun_iff h] at hn
    exact h.exact.disjoint j k hne n hn.1 hn.2
  inside k hk := by
    have hcount := (h.eq_zero_or k).resolve_left hk
    have hin := h.exact.inside k hcount
    have hheader : Layout.desktop.header = 2 := rfl
    have hstart := (h.extents_start k).1
    have hlen := h.length
    have hnum := toInt_numSectors s.offsets[k]
    have hc : (extents s k).count = (s.offsets[k] &&& 255).toInt.toNat := rfl
    omega
  used n := by
    rw [h.exact.used n]
    refine or_congr Iff.rfl ⟨?_, ?_⟩
    · rintro ⟨k, hk⟩
      refine ⟨k, fun h0 => ?_, (inRun_iff h k n).mpr hk⟩
      rw [extents, h0] at hk
      exact absurd hk (not_mem_of_count rfl n)
    · rintro ⟨k, -, hk⟩
      exact ⟨k, (inRun_iff h k n).mp hk⟩
  length := h.length
  header := h.decode ofIntBytes_intBytes
  reopened := h.reopen

end Desktop

/-- A new file represents the empty store. -/
theorem construct_empty : ∃ s, construct (fresh []) = .ok () s ∧
    Stored Layout.desktop (fun _ => none) s ∧ s.sectorFree.length = 2 ∧ s.sizeDelta = 8192 := by
  obtain ⟨s, hs, hH, hdelta⟩ := construct_short (show ([] : List UInt8).length < 4096 by simp)
  exact ⟨s, hs, hH.stored_empty (by norm_num) (fun j hj => intAt_zeros (by omega)) (by decide),
    hH.sectors, hdelta⟩

/-- What every sequence of writes into a new file leaves: a store, and the size delta is the size. -/
structure Written (s : DesktopRegionFile) : Prop where
  stored : ∃ c, Stored Layout.desktop c s
  bound : s.sectorFree.length ≤ maxSectors
  sizeDelta : s.sizeDelta = Int32.ofNat (4096 * s.sectorFree.length)

theorem written_construct : ∃ s, construct (fresh []) = .ok () s ∧ Written s := by
  obtain ⟨s, hs, h0, hlen, hdelta⟩ := construct_empty
  refine ⟨s, hs, ⟨_, h0⟩, ?_, ?_⟩
  · rw [hlen]
    norm_num [maxSectors]
  · rw [hlen, hdelta]
    rfl

/-- **Step lemma.** -/
theorem Written.step {s : DesktopRegionFile} (h : Written s) {w : TimedCall} (hw : w.Valid) :
    Written (after (exec w) s) := by
  obtain ⟨c, hc⟩ := h.stored
  obtain ⟨t, ht, hs, g, hg⟩ := exec_stored hw hc
  have hsectors := hg.sectors
  rw [after_of_ok ht]
  refine ⟨⟨_, hs⟩, ?_, ?_⟩
  · rcases Nat.eq_zero_or_pos g with rfl | hpos
    · exact hsectors ▸ h.bound
    · exact hg.bound hpos.ne'
  · rw [hg.sizeDelta, h.sizeDelta, hsectors, Nat.mul_add, ← Int32.ofNat_add]

theorem written_run {s : DesktopRegionFile} (h : Written s) (calls : List TimedCall)
    (hcalls : ∀ w ∈ calls, w.Valid) : Written (run exec s calls) :=
  run_induction_of (P := fun _ w => w.Valid) (I := fun _ t => Written t) h
    (fun _ _ _ ht hw => ht.step hw) calls (steps_of_forall hcalls)

/-- **After every sequence of writes** into a new file the map is exact. -/
theorem exactMap_run (calls : List TimedCall) (hcalls : ∀ w ∈ calls, w.Valid) :
    ∃ s, construct (fresh []) = .ok () s ∧ ExactMap (run exec s calls) := by
  obtain ⟨s, hs, h0⟩ := written_construct
  obtain ⟨c, hc⟩ := (written_run h0 calls hcalls).stored
  exact ⟨s, hs, hc.exactMap⟩

/-- Two chunks, one of them written twice. -/
theorem exactMap_threeWrites :
    (∀ w ∈ [(⟨⟨0, 0, [1, 2, 3], 3⟩, 7⟩ : TimedCall), ⟨⟨31, 31, [4], 1⟩, 8⟩, ⟨⟨0, 0, [5, 6], 1⟩, 9⟩],
      w.Valid) ∧
      ∃ s, construct (fresh []) = .ok () s ∧ ExactMap (run exec s
        [⟨⟨0, 0, [1, 2, 3], 3⟩, 7⟩, ⟨⟨31, 31, [4], 1⟩, 8⟩, ⟨⟨0, 0, [5, 6], 1⟩, 9⟩]) :=
  ⟨by decide, exactMap_run _ (by decide)⟩

/-! ## The size of the file -/

/-- The file is short enough for the arithmetic on `int`s: the position of a sector, the length that
the constructor casts, the size delta, and the offset of a chunk, which is taken apart again. -/
structure InLimits (s : DesktopRegionFile) : Prop where
  sectors : s.sectorFree.length ≤ 521218
  position : ∀ n ≤ s.sectorFree.length, (Int32.ofNat n).toInt = n ∧ (Int32.ofNat n * 4096).toInt = 4096 * n
  fileLength : (Int32.ofNat s.file.bytes.length).toInt = s.file.bytes.length ∧
    nSectors s.file.bytes.length = s.sectorFree.length
  sizeDelta : s.sizeDelta.toInt = 4096 * s.sectorFree.length
  offset : ∀ n ≤ s.sectorFree.length, ∀ needed : Int32, 0 ≤ needed.toInt → needed.toInt < 256 →
    ((Int32.ofNat n <<< 8) ||| needed).toInt = n * 256 + needed.toInt ∧
      ((Int32.ofNat n <<< 8) ||| needed) >>> 8 = Int32.ofNat n ∧
      ((Int32.ofNat n <<< 8) ||| needed) &&& 255 = needed

theorem Written.inLimits {s : DesktopRegionFile} (h : Written s) : InLimits s := by
  obtain ⟨c, hc⟩ := h.stored
  have hbound : s.sectorFree.length ≤ 521218 := h.bound
  have hlen := hc.length
  refine ⟨hbound, fun n hn => ?_, ?_, ?_, fun n hn needed h0 hlt => ?_⟩
  · have h4 : (4096 : Int32).toInt = 4096 := rfl
    have hn' : (Int32.ofNat n).toInt = n := Int32.toInt_ofNat_of_lt (by omega)
    refine ⟨hn', ?_⟩
    rw [toInt_mul_of_fits] <;> rw [hn', h4] <;> omega
  · refine ⟨Int32.toInt_ofNat_of_lt (by omega), ?_⟩
    rw [nSectors_of_lt (by omega)]
    omega
  · rw [h.sizeDelta, Int32.toInt_ofNat_of_lt (by omega)]
    push_cast
    rfl
  · have hn' : (Int32.ofNat n).toInt = n := Int32.toInt_ofNat_of_lt (by omega)
    have hpack := toInt_pack hn' (by omega) (Int.toNat_of_nonneg h0).symm (by omega)
    rw [Int.toNat_of_nonneg h0] at hpack
    refine ⟨hpack, ?_, ?_⟩
    · rw [← Int32.toInt_inj, toInt_sectorNumber, hpack, hn']
      omega
    · rw [← Int32.toInt_inj, toInt_numSectors, hpack]
      omega

/-- **The arithmetic of a region file stays in 32 bits**, after every sequence of writes into a new
file. -/
theorem inLimits_run (calls : List TimedCall) (hcalls : ∀ w ∈ calls, w.Valid) :
    ∃ s, construct (fresh []) = .ok () s ∧ InLimits (run exec s calls) := by
  obtain ⟨s, hs, h0⟩ := written_construct
  exact ⟨s, hs, (written_run h0 calls hcalls).inLimits⟩

/-- A chunk that grows and moves. -/
theorem inLimits_twoWrites :
    (∀ w ∈ [(⟨⟨31, 0, [7], 1⟩, 0⟩ : TimedCall), ⟨⟨31, 0, List.replicate 5000 7, 5000⟩, 1⟩], w.Valid) ∧
      ∃ s, construct (fresh []) = .ok () s ∧ InLimits (run exec s
        [⟨⟨31, 0, [7], 1⟩, 0⟩, ⟨⟨31, 0, List.replicate 5000 7, 5000⟩, 1⟩]) :=
  ⟨by decide +kernel, inLimits_run _ (by decide +kernel)⟩

/-! ### A length that the data do not have -/

/-- The data are empty and the length asks for 255 sectors: the file grows by them, and then the write of the
data throws. -/
def leaking : TimedCall := ⟨⟨0, 0, [], 1044474⟩, 0⟩

/-- A file with `n` sectors, none of them free, and no chunk in the first slot. -/
structure Leaked (n : ℕ) (s : DesktopRegionFile) : Prop where
  offset : s.offsets[(0 : Fin 1024)] = 0
  sectors : s.sectorFree = List.replicate n false
  length : s.file.bytes.length = 4096 * n

/-- The record of the call: the write of its data throws. -/
theorem writeSectors_leaking {s : DesktopRegionFile} {sectorNumber : Int32} {p : ℕ}
    (hs : sectorNumber.toInt = p) (hp : p < 2 ^ 19) (hlen : 4096 * (p + 1) ≤ s.file.bytes.length) :
    ∃ f, writeSectors Layout.desktop sectorNumber leaking.data leaking.length s =
      .error .indexOutOfBounds { s with file := f } ∧ f.bytes.length = s.file.bytes.length := by
  have h4 : (4096 : Int32).toInt = 4096 := rfl
  have hpos : (sectorNumber * 4096).toInt = (4096 * p : ℕ) := by
    rw [toInt_mul_of_fits] <;> rw [hs, h4] <;> push_cast <;> omega
  have hhead := io_writeAt (s := s) hpos (by omega) (intBytes (leaking.length + 1) ++ [2])
  rw [SeekFile.writeBytes_append, io_bind] at hhead
  have hsplit : writeSectors Layout.desktop sectorNumber leaking.data leaking.length = (do
      (do io (SeekFile.seek (sectorNumber * 4096).toInt)
          io (SeekFile.writeBytes (intBytes (leaking.length + 1)))
          io (SeekFile.writeBytes [2]))
      io (SeekFile.writeRange leaking.data leaking.length)) := by
    simp only [writeSectors, Layout.desktop, bind_assoc]
  have hthrow : ∀ f, SeekFile.writeRange leaking.data leaking.length f = .error .indexOutOfBounds f :=
    fun _ => rfl
  have hbytes : (overwrite s.file.bytes (4096 * p) (intBytes (leaking.length + 1) ++ [2])).length =
      s.file.bytes.length := by
    rw [length_overwrite (by omega), List.length_append, length_intBytes, List.length_singleton]
    omega
  refine ⟨⟨_, 4096 * p + 5⟩, ?_, hbytes⟩
  rw [hsplit, bind_of_ok hhead, io_of_error (hthrow _)]
  rfl

/-- The branch `grow` throws when the new sectors are there, and before the chunk has them. -/
theorem Leaked.grow_eq {n : ℕ} {s : DesktopRegionFile} (h : Leaked n s) (hn : n < 2 ^ 19) :
    ∃ f, grow Layout.desktop 0 0 leaking.data leaking.length 255 s = .error .indexOutOfBounds
      { longer s 255 with sizeDelta := s.sizeDelta + 255 * 4096, file := f } ∧
        f.bytes.length = 4096 * (n + 255) := by
  have hp : (Int32.ofNat s.sectorFree.length).toInt = n := by
    rw [h.sectors, List.length_replicate, Int32.toInt_ofNat_of_lt (by omega)]
  have hextend : extend 255 s = .ok () { longer s 255 with sizeDelta := s.sizeDelta + 255 * 4096 } :=
    extend_ok (n := 255) rfl
  have hlen : (longer s 255).file.bytes.length = 4096 * (n + 255) := by
    rw [longer, List.length_append, List.length_replicate, h.length]
    omega
  obtain ⟨f, hthrow, hf⟩ := writeSectors_leaking
    (s := { longer s 255 with sizeDelta := s.sizeDelta + 255 * 4096 }) hp hn (by
      show 4096 * (n + 1) ≤ (longer s 255).file.bytes.length
      omega)
  refine ⟨f, ?_, hf.trans hlen⟩
  unfold grow
  rw [bind_of_ok (get_apply s), bind_of_ok hextend]
  exact bind_of_error hthrow

/-- **Step lemma.** The call leaves 255 sectors that no chunk has. -/
theorem Leaked.step {n : ℕ} {s : DesktopRegionFile} (h : Leaked n s) (hn : n < 2 ^ 19) :
    Leaked (n + 255) (after (exec leaking) s) := by
  obtain ⟨f, hgrow, hf⟩ := h.grow_eq hn
  have hoffset : getOffset 0 0 s = .ok 0 s := by
    rw [getOffset_ok (k := 0) rfl, h.offset]
  have hrelease : forUpTo ((0 : Int32) &&& 255).toInt.toNat
      (fun i => setFree (((0 : Int32) >>> 8) + Int32.ofNat i) true) s = .ok () s := rfl
  have hfirst : firstFit 255 s.sectorFree = none := by
    have hnone : (List.replicate n false).findIdx? id = none :=
      List.findIdx?_eq_none_iff.mpr fun b hb => List.eq_of_mem_replicate hb
    rw [firstFit, h.sectors, hnone, Option.map_none]
  have hrelocate : relocate Layout.desktop 0 0 leaking.data leaking.length 255 0 s = .error .indexOutOfBounds
      { longer s 255 with sizeDelta := s.sizeDelta + 255 * 4096, file := f } := by
    unfold relocate
    rw [bind_of_ok hrelease, bind_of_ok (get_apply s)]
    show (if (255 : Int) ≤ (firstFit 255 s.sectorFree).elim 0 Extent.count then _ else _ : M Unit) s = _
    rw [hfirst, if_neg (by decide), hgrow]
  have hstore : store Layout.desktop (setTimestamp 0 0 0) 0 0 leaking.data leaking.length s =
      .error .indexOutOfBounds { longer s 255 with sizeDelta := s.sizeDelta + 255 * 4096, file := f } := by
    have hneeded : sectorsNeeded leaking.length = 255 := by decide
    unfold store
    rw [bind_of_ok hoffset, hneeded]
    exact bind_of_error hrelocate
  have hexec : exec leaking s = .error .indexOutOfBounds
      { longer s 255 with sizeDelta := s.sizeDelta + 255 * 4096, file := f } := by
    show catchIO (store Layout.desktop (setTimestamp 0 0 0) 0 0 leaking.data leaking.length) _ s = _
    unfold catchIO
    rw [hstore]
    rfl
  rw [after_of_error hexec]
  refine ⟨h.offset, ?_, hf⟩
  show s.sectorFree ++ List.replicate 255 false = _
  rw [h.sectors, List.replicate_append_replicate]

theorem Leaked.run {m n : ℕ} {s : DesktopRegionFile} (h : Leaked n s) (hn : n + 255 * m < 2 ^ 19) :
    Leaked (n + 255 * m) (Run.run exec s (List.replicate m leaking)) := by
  induction m generalizing n s with
  | zero => exact h
  | succ m ih =>
    rw [List.replicate_succ, run_cons]
    have hstep := ih (h.step (by omega)) (by omega)
    rwa [show n + 255 + 255 * m = n + 255 * (m + 1) by omega] at hstep

theorem leaked_construct : ∃ s, construct (fresh []) = .ok () s ∧ Leaked 2 s := by
  obtain ⟨s, hs, h, hlen, -⟩ := construct_empty
  have hoffset := h.empty 0 rfl
  refine ⟨s, hs, hoffset, List.ext_getElem? fun i => ?_, ?_⟩
  · rw [List.getElem?_replicate]
    by_cases hi : i < 2
    · rw [if_pos hi]
      exact (h.exact.used i).mpr (.inl hi)
    · rw [if_neg hi, List.getElem?_eq_none (by omega)]
  · rw [h.length, hlen]

/-- **Sectors leak** when the length is not one of the data: after 2044 such calls the file has more sectors
than the bound. -/
theorem not_inLimits_leak :
    (∀ w ∈ List.replicate 2044 leaking, (0 ≤ w.x ∧ w.x < 32 ∧ 0 ≤ w.z ∧ w.z < 32) ∧
      0 ≤ w.length ∧ w.length.toInt < 2 ^ 31 - 5) ∧
    ∃ s, construct (fresh []) = .ok () s ∧
      (run exec s (List.replicate 2044 leaking)).sectorFree.length = 521222 ∧
      ¬ InLimits (run exec s (List.replicate 2044 leaking)) := by
  obtain ⟨s, hs, h⟩ := leaked_construct
  have hrun := h.run (m := 2044) (by norm_num)
  have hlen : (run exec s (List.replicate 2044 leaking)).sectorFree.length = 521222 := by
    rw [hrun.sectors, List.length_replicate]
  refine ⟨fun w hw => ?_, s, hs, hlen, fun hlim => ?_⟩
  · rw [List.eq_of_mem_replicate hw]
    decide
  · have hle := hlim.sectors
    omega

end DesktopRegionFile

end WorldToPE
