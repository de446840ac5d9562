import WorldToPE.Nbt.Stream

/-!
# WorldToPE.Nbt.Progress — reading a tag makes progress

No reader gives input back, also when it fails, and reading a tag takes at least the byte of its type.
A loop that reads tags until the input is used up therefore ends.

* `keeps_tree`: the readers keep the bound `Within n` on what is left.
* `after_readTag_lt`: after `readTag` there is less input, whatever the outcome.
-/

namespace WorldToPE

open Java Run DataStream

/-- At most `n` bytes are left. -/
def Within (n : ℕ) (input : List UInt8) : Prop := input.length ≤ n

section Readers

variable (littleEndian : Bool) {n : ℕ}

theorem keeps_readFully (k : ℕ) : Keeps (Within n) (readFully k) := by
  intro s hs
  unfold Within at hs ⊢
  unfold after readFully
  split
  · rename_i h
    split at h
    · obtain ⟨-, rfl⟩ := EStateM.Result.ok.inj h
      rw [List.length_drop]
      omega
    · cases h
  · rename_i h
    split at h
    · cases h
    · obtain ⟨-, rfl⟩ := EStateM.Result.error.inj h
      simp

theorem keeps_readByte : Keeps (Within n) readByte := by
  intro s hs
  unfold Within at hs ⊢
  rcases s with _ | ⟨b, s⟩
  · exact hs
  · show s.length ≤ n
    rw [List.length_cons] at hs
    omega

theorem keeps_arraySize (k : Int) : Keeps (Within n) (arraySize k) := by
  unfold arraySize
  split
  · exact Keeps.throw _
  · exact Keeps.pure _

theorem keeps_readNumber (k : ℕ) : Keeps (Within n) (readNumber littleEndian k) :=
  (keeps_readFully k).bind fun _ => Keeps.pure _

theorem keeps_readShort : Keeps (Within n) (readShort littleEndian) :=
  (keeps_readNumber littleEndian 2).bind fun _ => Keeps.pure _

theorem keeps_readInt : Keeps (Within n) (readInt littleEndian) :=
  (keeps_readNumber littleEndian 4).bind fun _ => Keeps.pure _

theorem keeps_readLength : Keeps (Within n) (readLength littleEndian) :=
  (keeps_readInt littleEndian).bind fun _ => keeps_arraySize _

theorem keeps_readString : Keeps (Within n) (readString littleEndian) :=
  (keeps_readShort littleEndian).bind fun _ => (keeps_arraySize _).bind fun _ =>
    (keeps_readFully _).bind fun _ => Keeps.pure _

theorem keeps_readName : Keeps (Within n) (readName littleEndian) := by
  refine Keeps.bind ?_ fun _ => (keeps_arraySize _).bind fun _ =>
    (keeps_readFully _).bind fun _ => Keeps.pure _
  unfold readNameLength
  split
  · exact (keeps_readShort true).bind fun _ => Keeps.pure _
  · exact (keeps_readNumber false 2).bind fun _ => Keeps.pure _

theorem keeps_readMany {α : Type} {read : In α} (h : Keeps (Within n) read) :
    ∀ k, Keeps (Within n) (readMany read k)
  | 0 => Keeps.pure _
  | k + 1 => h.bind fun _ => (keeps_readMany h k).bind fun _ => Keeps.pure _

/-! ## Trees -/

/-- The four readers, by induction on the bound of the nested calls. -/
theorem keeps_tree : ∀ fuel,
    (∀ depth, Keeps (Within n) (readTagAt littleEndian fuel depth)) ∧
    (∀ type name depth, Keeps (Within n) (readTagPayload littleEndian fuel type name depth)) ∧
    (∀ clazz depth k, Keeps (Within n) (readElements littleEndian fuel clazz depth k)) ∧
    ∀ depth, Keeps (Within n) (readChildren littleEndian fuel depth)
  | 0 => ⟨fun _ => Keeps.throw _, fun _ _ _ => Keeps.throw _, fun _ _ _ => Keeps.throw _,
      fun _ => Keeps.throw _⟩
  | fuel + 1 => by
    obtain ⟨hT, hP, hE, hC⟩ := keeps_tree fuel
    refine ⟨fun depth => ?_, fun type name depth => ?_, fun clazz depth k => ?_, fun depth => ?_⟩
    · refine keeps_readByte.bind fun type => ?_
      split
      · exact hP _ _ _
      · exact (keeps_readName littleEndian).bind fun _ => hP _ _ _
    · rw [readTagPayload]
      split
      · exact Keeps.throw _
      · split
        · exact Keeps.throw _
        · exact Keeps.pure _
      · exact keeps_readByte.bind fun _ => Keeps.pure _
      · exact (keeps_readShort littleEndian).bind fun _ => Keeps.pure _
      · exact (keeps_readInt littleEndian).bind fun _ => Keeps.pure _
      · exact ((keeps_readNumber littleEndian 8).bind fun _ => Keeps.pure _).bind fun _ => Keeps.pure _
      · exact ((keeps_readNumber littleEndian 4).bind fun _ => Keeps.pure _).bind fun _ => Keeps.pure _
      · exact ((keeps_readNumber littleEndian 8).bind fun _ => Keeps.pure _).bind fun _ => Keeps.pure _
      · exact (keeps_readLength littleEndian).bind fun _ => (keeps_readFully _).bind fun _ => Keeps.pure _
      · exact (keeps_readString littleEndian).bind fun _ => Keeps.pure _
      · refine keeps_readByte.bind fun _ => (keeps_readInt littleEndian).bind fun _ => ?_
        split
        · exact Keeps.throw _
        · exact (hE _ _ _).bind fun _ => Keeps.pure _
      · exact (hC _).bind fun _ => Keeps.pure _
      · exact (keeps_readLength littleEndian).bind fun _ =>
          (keeps_readMany (keeps_readInt littleEndian) _).bind fun _ => Keeps.pure _
      · exact (keeps_readLength littleEndian).bind fun _ =>
          (keeps_readMany (keeps_readShort littleEndian) _).bind fun _ => Keeps.pure _
    · cases k with
      | zero => exact Keeps.pure _
      | succ k =>
        rw [readElements]
        refine (hP _ _ _).bind fun tag => ?_
        split
        · exact Keeps.throw _
        · split
          · exact Keeps.throw _
          · exact (hE _ _ _).bind fun _ => Keeps.pure _
    · rw [readChildren]
      refine (hT _).bind fun tag => ?_
      split
      · exact Keeps.pure _
      · exact (hC _).bind fun _ => Keeps.pure _

/-- **Progress**: there is less input after `readTag`, whatever the outcome. -/
theorem after_readTag_lt {input : List UInt8} (h : input ≠ []) :
    (after (readTag littleEndian) input).length < input.length := by
  obtain ⟨b, rest, rfl⟩ := List.exists_cons_of_ne_nil h
  have hkeep : Within rest.length
      (after (readTagAt littleEndian (2 * (b :: rest).length + 2 + 1) 0) (b :: rest)) := by
    obtain ⟨-, hP, -⟩ := keeps_tree littleEndian (n := rest.length) (2 * (b :: rest).length + 2)
    rw [readTagAt, after_bind, readByte_cons]
    dsimp only
    split
    · exact hP _ _ _ rest le_rfl
    · exact (keeps_readName littleEndian).bind (fun _ => hP _ _ _) rest le_rfl
  have hlt : (after (readTag littleEndian) (b :: rest)).length ≤ rest.length := hkeep
  rw [List.length_cons]
  omega

end Readers

end WorldToPE
