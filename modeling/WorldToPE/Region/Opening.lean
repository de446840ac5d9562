import WorldToPE.Region.DesktopRegionFile

/-!
# WorldToPE.Region.Opening — what opening a region file does to it

The constructor means to pad a file to whole sectors, but its padding loop runs with the file pointer
at the beginning of the file: a file that is not a whole number of sectors keeps its length and gets
its header overwritten with zeros.

* `preserves_iff`: opening keeps a file and reads its header exactly when there is nothing to pad
  and the sector count, taken from the low 32 bits of the length, covers the header.
-/

namespace WorldToPE.DesktopRegionFile

open Java Run
open SeekFile (intAt)

/-- The entry of the header that belongs to chunk `(x, z)`. -/
def slot (x z : Int32) : ℕ := (z.toInt * 32 + x.toInt).toNat

/-- Opening a file with this content succeeds, only appends zeros up to a whole sector, and finds the
header that was stored in it. -/
def Preserves (content : List UInt8) : Prop :=
  ∃ s, construct (fresh content) = .ok () s ∧
    s.file.bytes = content ++ List.replicate ((4096 - content.length % 4096) % 4096) 0 ∧
    (∀ i < 1024, s.offsets[i]? = some (intAt content (4 * i))) ∧
    ∀ x z, outOfBounds x z = false →
      result (hasChunk x z) s = .ok (decide (intAt content (4 * slot x z) ≠ 0))

/-! ## Slots -/

theorem outOfBounds_iff {x z : Int32} : outOfBounds x z = false ↔
    (0 ≤ x.toInt ∧ x.toInt < 32) ∧ 0 ≤ z.toInt ∧ z.toInt < 32 := by
  have h0 : (0 : Int32).toInt = 0 := rfl
  have h32 : (32 : Int32).toInt = 32 := rfl
  simp only [outOfBounds, Bool.or_eq_false_iff, decide_eq_false_iff_not, ge_iff_le,
    Int32.lt_iff_toInt_lt, Int32.le_iff_toInt_le, h0, h32]
  omega

theorem toInt_slot {x z : Int32} (h : outOfBounds x z = false) :
    (z * 32 + x).toInt = slot x z ∧ slot x z < 1024 := by
  have hb := outOfBounds_iff.mp h
  have h32 : (32 : Int32).toInt = 32 := rfl
  have hm : (z * 32).toInt = z.toInt * 32 := by
    rw [toInt_mul_of_fits] <;> rw [h32] <;> omega
  unfold slot
  rw [toInt_add_of_fits] <;> rw [hm] <;> omega

theorem getOffset_eq {s : DesktopRegionFile} {x z offset : Int32} (hb : outOfBounds x z = false)
    (h : s.offsets[slot x z]? = some offset) : getOffset x z s = .ok offset s := by
  obtain ⟨hi, hlt⟩ := toInt_slot hb
  have ho : s.offsets[slot x z] = offset := by
    rw [Vector.getElem?_eq_getElem hlt] at h
    exact Option.some.inj h
  unfold getOffset
  rw [bind_of_ok (get_apply s), aget_eq hi hlt, ho]
  rfl

theorem hasChunk_eq {s : DesktopRegionFile} {x z offset : Int32} (hb : outOfBounds x z = false)
    (h : s.offsets[slot x z]? = some offset) : hasChunk x z s = .ok (decide (offset ≠ 0)) s := by
  unfold hasChunk
  rw [bind_of_ok (getOffset_eq hb h)]
  rfl

/-! ## Signs survive the padding -/

theorem getD_padded (content : List UInt8) (p : ℕ) :
    (padded content).getD p 0 = if p < content.length % 4096 then 0 else content.getD p 0 := by
  unfold padded
  rw [List.getD_eq_getElem?_getD, List.getD_eq_getElem?_getD, List.getElem?_append,
    List.length_replicate]
  by_cases h : p < content.length % 4096
  · rw [if_pos h, if_pos h]
    simp [h]
  · rw [if_neg h, if_neg h, List.getElem?_drop]
    congr 2
    omega

/-- Zeroing the beginning of a non-negative `int` leaves it non-negative. -/
theorem padded_nonneg {content : List UInt8} (hlen : 8192 ≤ content.length)
    (hoff : ∀ i < 1024, 0 ≤ (intAt content (4 * i)).toInt) :
    ∀ i < 1024, 0 ≤ (intAt (padded content) (4 * i)).toInt := by
  intro i hi
  have h := hoff i hi
  rw [SeekFile.intAt_nonneg_iff (by omega)] at h
  rw [SeekFile.intAt_nonneg_iff (by rw [length_padded]; omega), getD_padded]
  split
  · decide
  · exact h

/-! ## When opening preserves a file -/

section Preserves

variable {content : List UInt8} (hlen : 8192 ≤ content.length)
  (hoff : ∀ i < 1024, 0 ≤ (intAt content (4 * i)).toInt)
include hlen

theorem not_preserves_of_few_sectors (hn : nSectors content.length < 2) : ¬ Preserves content := by
  rintro ⟨s, hs, -⟩
  obtain ⟨e, s', he⟩ := construct_throws (by omega) hn
  rw [he] at hs
  cases hs

include hoff

/-- An incomplete last sector is never completed: the file keeps its length. -/
theorem not_preserves_of_unaligned (hr : content.length % 4096 ≠ 0) : ¬ Preserves content := by
  intro hp
  rcases lt_or_ge (nSectors content.length) 2 with hn | hn
  · exact not_preserves_of_few_sectors hlen hn hp
  · obtain ⟨s, hs, hbytes, -⟩ := hp
    obtain ⟨s', hs', hb', -⟩ := construct_spec hlen hn (padded_nonneg hlen hoff)
    obtain ⟨-, rfl⟩ := EStateM.Result.ok.inj (hs.symm.trans hs')
    have hl := congrArg List.length (hb'.symm.trans hbytes)
    rw [length_padded, List.length_append, List.length_replicate] at hl
    have := Nat.mod_lt content.length (show 4096 > 0 by norm_num)
    omega

theorem preserves_of_aligned (hr : content.length % 4096 = 0) (hn : 2 ≤ nSectors content.length) :
    Preserves content := by
  obtain ⟨s, hs, hb, ho, -⟩ := construct_spec hlen hn (padded_nonneg hlen hoff)
  rw [padded_of_aligned hr] at hb ho
  refine ⟨s, hs, ?_, ho, fun x z hxz => ?_⟩
  · rw [hb, hr]
    simp
  · exact result_of_ok (hasChunk_eq hxz (ho _ (toInt_slot hxz).2))

end Preserves

/-- **Opening preserves a region file exactly when** its length is a whole number of sectors and its
low 32 bits, as an `int`, are at least two sectors. -/
theorem preserves_iff (content : List UInt8) (hlen : 8192 ≤ content.length)
    (hoff : ∀ i < 1024, 0 ≤ (intAt content (4 * i)).toInt) :
    Preserves content ↔
      content.length % 4096 = 0 ∧ 8192 ≤ (Int32.ofNat content.length).toInt := by
  rw [← two_le_nSectors_iff]
  constructor
  · intro hp
    constructor
    · by_contra hr
      exact not_preserves_of_unaligned hlen hoff hr hp
    · by_contra hn
      exact not_preserves_of_few_sectors hlen (by omega) hp
  · rintro ⟨hr, hn⟩
    exact preserves_of_aligned hlen hoff hr hn

theorem intAt_nonneg_of_small {content : List UInt8} (hlen : 8192 ≤ content.length)
    (hs : ∀ b ∈ content, b.toNat < 128) : ∀ i < 1024, 0 ≤ (intAt content (4 * i)).toInt := by
  intro i hi
  have hi' : 4 * i < content.length := by omega
  rw [SeekFile.intAt_nonneg_iff (by omega), List.getD_eq_getElem?_getD,
    List.getElem?_eq_getElem hi']
  exact hs _ (List.getElem_mem hi')

/-- A header that lists one chunk, in the third sector, and `n` zero bytes behind it. -/
def oneChunk (n : ℕ) : List UInt8 := [0, 0, 2, 1] ++ List.replicate n 0

theorem length_oneChunk (n : ℕ) : (oneChunk n).length = n + 4 := by
  simp [oneChunk]

theorem oneChunk_nonneg {n : ℕ} (h : 8188 ≤ n) :
    ∀ i < 1024, 0 ≤ (intAt (oneChunk n) (4 * i)).toInt := by
  refine intAt_nonneg_of_small (by rw [length_oneChunk]; omega) fun b hb => ?_
  rcases List.mem_append.mp hb with hb | hb
  · fin_cases hb <;> decide
  · rw [List.eq_of_mem_replicate hb]
    decide

/-- A file of three whole sectors with one chunk survives. -/
theorem preserves_three_sectors : Preserves (oneChunk 12284) :=
  (preserves_iff _ (by rw [length_oneChunk]; norm_num) (oneChunk_nonneg (by norm_num))).mpr
    (by rw [length_oneChunk]; decide)

/-- A file with one chunk and an incomplete third sector: the entry of the chunk is lost. -/
theorem not_preserves_incomplete_sector : 8192 ≤ (oneChunk 8292).length ∧
    (∀ i < 1024, 0 ≤ (intAt (oneChunk 8292) (4 * i)).toInt) ∧ ¬ Preserves (oneChunk 8292) := by
  have hlen : 8192 ≤ (oneChunk 8292).length := by
    rw [length_oneChunk]
    norm_num
  have hoff : ∀ i < 1024, 0 ≤ (intAt (oneChunk 8292) (4 * i)).toInt :=
    oneChunk_nonneg (by norm_num)
  exact ⟨hlen, hoff, not_preserves_of_unaligned hlen hoff (by rw [length_oneChunk]; norm_num)⟩

end WorldToPE.DesktopRegionFile
