import WorldToPE.Nbt.Stream

/-!
# WorldToPE.Nbt.RoundTrip — the stream codec decodes what it encodes

* `Encodable`: the tags that have a faithful binary form.  Lengths are stored in 15 bits for strings
  and 31 bits for arrays, and the elements of a list have no names of their own.
* `readTag_append`: what was written for an encodable tag is read back, and the input behind it is
  left alone.
-/

namespace WorldToPE

open Java Run DataStream

/-! ## Encodable tags -/

/-- A string whose length in UTF-8 fits in a non-negative `short`. -/
def ShortString (s : String) : Prop := (getBytes s).length < 2 ^ 15

instance (s : String) : Decidable (ShortString s) := inferInstanceAs (Decidable (_ < _))

mutual

/-- The value of the tag has a faithful binary form. -/
def EncodableValue : Tag → Prop
  | .endTag => False
  | .byteArray _ v => v.length < 2 ^ 31
  | .string _ v => ShortString v
  | .list _ type tags => tags.length < 2 ^ 31 ∧ EncodableElements type tags
  | .compound _ tags => EncodableChildren tags
  | .intArray _ v => v.length < 2 ^ 31
  | .shortArray _ v => v.length < 2 ^ 31
  | _ => True

def EncodableElements (type : TagType) : List Tag → Prop
  | [] => True
  | t :: ts => (t.name = "" ∧ t.type = type ∧ EncodableValue t) ∧ EncodableElements type ts

def EncodableChildren : List Tag → Prop
  | [] => True
  | t :: ts => (ShortString t.name ∧ EncodableValue t) ∧ EncodableChildren ts

end

/-- The tag has a faithful binary form. -/
def Encodable (t : Tag) : Prop := ShortString t.name ∧ EncodableValue t

theorem encodableElements_iff {type : TagType} {ts : List Tag} : EncodableElements type ts ↔
    ∀ t ∈ ts, t.name = "" ∧ t.type = type ∧ EncodableValue t := by
  induction ts with
  | nil => simp [EncodableElements]
  | cons t ts ih => simp [EncodableElements, ih]

theorem encodableChildren_iff {ts : List Tag} :
    EncodableChildren ts ↔ ∀ t ∈ ts, ShortString t.name ∧ EncodableValue t := by
  induction ts with
  | nil => simp [EncodableChildren]
  | cons t ts ih => simp [EncodableChildren, ih]

theorem encodableChildren_append {ts us : List Tag} :
    EncodableChildren (ts ++ us) ↔ EncodableChildren ts ∧ EncodableChildren us := by
  simp only [encodableChildren_iff, List.forall_mem_append]

theorem EncodableValue.type_ne {t : Tag} (h : EncodableValue t) : t.type ≠ .endTag := by
  intro he
  cases t <;> cases he
  exact h

section RoundTrip

variable (littleEndian : Bool)

/-! ## Strings and lengths -/

theorem toInt_ofNat16_short {n : ℕ} (h : n < 2 ^ 15) : (Int16.ofNat n).toInt = n :=
  Int16.toInt_ofNat_of_lt h

theorem length_stringBytes (s : String) :
    (stringBytes littleEndian s).length = (getBytes s).length + 2 := by
  unfold stringBytes shortBytes
  rw [List.length_append, length_number]
  omega

theorem readString_append {s : String} (h : ShortString s) (rest : List UInt8) :
    readString littleEndian (stringBytes littleEndian s ++ rest) = .ok s rest := by
  unfold readString stringBytes
  rw [List.append_assoc, bind_of_ok (readShort_append littleEndian _ _), toInt_ofNat16_short h,
    bind_of_ok (arraySize_natCast _ _), bind_of_ok (readFully_append _ _), ofBytes_getBytes]
  rfl

theorem readNameLength_append {n : ℕ} (h : n < 2 ^ 15) (rest : List UInt8) :
    readNameLength littleEndian (shortBytes littleEndian (Int16.ofNat n) ++ rest) = .ok n rest := by
  unfold readNameLength
  cases littleEndian with
  | true =>
    rw [if_pos rfl, bind_of_ok (readShort_append true _ _), toInt_ofNat16_short h]
    rfl
  | false =>
    have hn : (Int16.ofNat n).toBitVec.toNat = n := by
      show (BitVec.ofNat 16 n).toNat = n
      rw [BitVec.toNat_ofNat]
      omega
    unfold shortBytes
    rw [if_neg (by decide), hn, bind_of_ok (readNumber_append false (by omega) _)]
    rfl

theorem readName_append {s : String} (h : ShortString s) (rest : List UInt8) :
    readName littleEndian (stringBytes littleEndian s ++ rest) = .ok s rest := by
  unfold readName stringBytes
  rw [List.append_assoc, bind_of_ok (readNameLength_append littleEndian h _),
    bind_of_ok (arraySize_natCast _ _), bind_of_ok (readFully_append _ _), ofBytes_getBytes]
  rfl

theorem readLength_append {n : ℕ} (h : n < 2 ^ 31) (rest : List UInt8) :
    readLength littleEndian (lengthBytes littleEndian n ++ rest) = .ok n rest := by
  unfold readLength lengthBytes
  rw [bind_of_ok (readInt_append littleEndian _ _), Int32.toInt_ofNat_of_lt h]
  exact arraySize_natCast _ _

/-! ## Trees -/

/-- What the induction shows for the payload `bs` of `t`; the bound is on the nested calls. -/
def PayloadOk (t : Tag) (bs : List UInt8) : Prop :=
  writeTagPayload littleEndian t = .ok bs ∧ 0 < bs.length ∧
    ∀ fuel depth rest, 2 * bs.length + 2 ≤ fuel →
      readTagPayload littleEndian fuel t.type.code t.name depth (bs ++ rest) = .ok t rest

/-- A leaf of the tree: the reader of its type reads it back. -/
theorem payloadOk_leaf {t : Tag} {bs : List UInt8} (hw : writeTagPayload littleEndian t = .ok bs)
    (hpos : 0 < bs.length)
    (hr : ∀ fuel depth rest,
      readTagPayload littleEndian (fuel + 1) t.type.code t.name depth (bs ++ rest) = .ok t rest) :
    PayloadOk littleEndian t bs := by
  refine ⟨hw, hpos, fun fuel depth rest hf => ?_⟩
  obtain ⟨fuel, rfl⟩ : ∃ n, fuel = n + 1 := ⟨fuel - 1, by omega⟩
  exact hr fuel depth rest

/-- A tag that starts with its header. -/
theorem readTagAt_append {t : Tag} {bs : List UInt8} (hn : ShortString t.name)
    (ht : t.type ≠ .endTag) (hp : PayloadOk littleEndian t bs) {fuel : ℕ}
    (hf : 2 * bs.length + 3 ≤ fuel) (depth : ℕ) (rest : List UInt8) :
    readTagAt littleEndian fuel depth (headerBytes littleEndian t ++ (bs ++ rest)) = .ok t rest := by
  obtain ⟨fuel, rfl⟩ : ∃ n, fuel = n + 1 := ⟨fuel - 1, by omega⟩
  have hcode : ¬ t.type.code = 0 := mt TagType.code_eq_zero.mp ht
  unfold headerBytes
  rw [readTagAt, List.cons_append, bind_of_ok (readByte_cons _ _), if_neg hcode,
    bind_of_ok (readName_append littleEndian hn _)]
  exact hp.2.2 fuel depth rest (by omega)

mutual

/-- **Payloads**, by induction on the tree. -/
theorem payload_ok : ∀ t, EncodableValue t → ∃ bs, PayloadOk littleEndian t bs
  | .endTag, h => h.elim
  | .byte n v, _ => by
    refine ⟨[v], payloadOk_leaf littleEndian rfl (by simp) fun fuel depth rest => ?_⟩
    rw [readTagPayload]
    exact bind_of_ok (readByte_cons v rest)
  | .short n v, _ => by
    refine ⟨_, payloadOk_leaf littleEndian rfl (by simp [shortBytes]) fun fuel depth rest => ?_⟩
    rw [readTagPayload]
    exact bind_of_ok (readShort_append littleEndian v rest)
  | .int n v, _ => by
    refine ⟨_, payloadOk_leaf littleEndian rfl (by simp [int32Bytes]) fun fuel depth rest => ?_⟩
    rw [readTagPayload]
    exact bind_of_ok (readInt_append littleEndian v rest)
  | .long n v, _ => by
    refine ⟨_, payloadOk_leaf littleEndian rfl (by simp [longBytes]) fun fuel depth rest => ?_⟩
    rw [readTagPayload]
    exact bind_of_ok (readLong_append littleEndian v rest)
  | .float n v, _ => by
    refine ⟨_, payloadOk_leaf littleEndian rfl (by simp [floatBytes]) fun fuel depth rest => ?_⟩
    rw [readTagPayload]
    exact bind_of_ok (readFloat_append littleEndian v rest)
  | .double n v, _ => by
    refine ⟨_, payloadOk_leaf littleEndian rfl (by simp [doubleBytes]) fun fuel depth rest => ?_⟩
    rw [readTagPayload]
    exact bind_of_ok (readDouble_append littleEndian v rest)
  | .byteArray n v, h => by
    refine ⟨_, payloadOk_leaf littleEndian rfl (by simp [lengthBytes, int32Bytes])
      fun fuel depth rest => ?_⟩
    rw [readTagPayload, List.append_assoc]
    show (readLength littleEndian >>= _ : In Tag) _ = _
    rw [bind_of_ok (readLength_append littleEndian h _)]
    exact bind_of_ok (readFully_append v rest)
  | .string n v, h => by
    refine ⟨_, payloadOk_leaf littleEndian rfl (by rw [length_stringBytes]; omega)
      fun fuel depth rest => ?_⟩
    rw [readTagPayload]
    exact bind_of_ok (readString_append littleEndian h rest)
  | .list n type tags, h => by
    obtain ⟨hlen, helems⟩ := h
    obtain ⟨bs, hw, hr⟩ := elements_ok type tags helems
    refine ⟨type.code :: (lengthBytes littleEndian tags.length ++ bs), ?_, by simp, ?_⟩
    · rw [writeTagPayload, hw]
      rfl
    · intro fuel depth rest hf
      obtain ⟨fuel, rfl⟩ : ∃ n, fuel = n + 1 := ⟨fuel - 1, by omega⟩
      have hl : (type.code :: (lengthBytes littleEndian tags.length ++ bs)).length = bs.length + 5 := by
        simp [lengthBytes, int32Bytes]
        omega
      rw [readTagPayload]
      show (readByte >>= _ : In Tag) _ = _
      rw [List.cons_append, bind_of_ok (readByte_cons _ _), List.append_assoc]
      unfold lengthBytes
      rw [bind_of_ok (readInt_append littleEndian _ _), TagType.ofCode_code,
        Int32.toInt_ofNat_of_lt hlen, Int.toNat_natCast]
      exact bind_of_ok (hr fuel depth rest (by omega))
  | .compound n tags, h => by
    obtain ⟨bs, hw, hr⟩ := children_ok tags h
    refine ⟨bs ++ [0], ?_, by simp, ?_⟩
    · rw [writeTagPayload, hw]
      rfl
    · intro fuel depth rest hf
      obtain ⟨fuel, rfl⟩ : ∃ n, fuel = n + 1 := ⟨fuel - 1, by omega⟩
      rw [List.length_append, List.length_singleton] at hf
      rw [readTagPayload, List.append_assoc]
      exact bind_of_ok (hr fuel depth rest (by omega))
  | .intArray n v, h => by
    refine ⟨_, payloadOk_leaf littleEndian rfl (by simp [lengthBytes, int32Bytes])
      fun fuel depth rest => ?_⟩
    rw [readTagPayload, List.append_assoc]
    show (readLength littleEndian >>= _ : In Tag) _ = _
    rw [bind_of_ok (readLength_append littleEndian h _)]
    exact bind_of_ok (readMany_append (readInt_append littleEndian) v rest)
  | .shortArray n v, h => by
    refine ⟨_, payloadOk_leaf littleEndian rfl (by simp [lengthBytes, int32Bytes])
      fun fuel depth rest => ?_⟩
    rw [readTagPayload, List.append_assoc]
    show (readLength littleEndian >>= _ : In Tag) _ = _
    rw [bind_of_ok (readLength_append littleEndian h _)]
    exact bind_of_ok (readMany_append (readShort_append littleEndian) v rest)

theorem elements_ok (type : TagType) : ∀ ts, EncodableElements type ts →
    ∃ bs, writePayloads littleEndian ts = .ok bs ∧ ∀ fuel depth rest, 2 * bs.length + 3 ≤ fuel →
      readElements littleEndian fuel type depth ts.length (bs ++ rest) = .ok ts rest
  | [], _ => by
    refine ⟨[], rfl, fun fuel depth rest hf => ?_⟩
    obtain ⟨fuel, rfl⟩ : ∃ n, fuel = n + 1 := ⟨fuel - 1, by omega⟩
    rfl
  | t :: ts, h => by
    obtain ⟨⟨hname, htype, hval⟩, hts⟩ := h
    obtain ⟨b, hb, hpos, hread⟩ := payload_ok t hval
    obtain ⟨bs, hw, hr⟩ := elements_ok type ts hts
    refine ⟨b ++ bs, ?_, ?_⟩
    · rw [writePayloads, hb, hw]
      rfl
    · intro fuel depth rest hf
      obtain ⟨fuel, rfl⟩ : ∃ n, fuel = n + 1 := ⟨fuel - 1, by omega⟩
      rw [List.length_append] at hf
      have hread := hread fuel (depth + 1) (bs ++ rest) (by omega)
      rw [hname, htype] at hread
      rw [List.length_cons, readElements, List.append_assoc, bind_of_ok hread,
        if_neg hval.type_ne, if_neg (not_not.mpr htype), bind_of_ok (hr fuel depth rest (by omega))]
      rfl

theorem children_ok : ∀ ts, EncodableChildren ts →
    ∃ bs, writeTags littleEndian ts = .ok bs ∧ ∀ fuel depth rest, 2 * bs.length + 3 ≤ fuel →
      readChildren littleEndian fuel depth (bs ++ ([0] ++ rest)) = .ok ts rest
  | [], _ => by
    refine ⟨[], rfl, fun fuel depth rest hf => ?_⟩
    obtain ⟨fuel, rfl⟩ : ∃ n, fuel = n + 3 := ⟨fuel - 3, by simp at hf; omega⟩
    rfl
  | t :: ts, h => by
    obtain ⟨⟨hname, hval⟩, hts⟩ := h
    obtain ⟨b, hp⟩ := payload_ok t hval
    obtain ⟨bs, hw, hr⟩ := children_ok ts hts
    refine ⟨headerBytes littleEndian t ++ (b ++ bs), ?_, ?_⟩
    · rw [writeTags, if_neg hval.type_ne, hp.1, hw]
      rfl
    · intro fuel depth rest hf
      obtain ⟨fuel, rfl⟩ : ∃ n, fuel = n + 1 := ⟨fuel - 1, by omega⟩
      have hl : (headerBytes littleEndian t).length = (getBytes t.name).length + 3 := by
        unfold headerBytes
        rw [List.length_cons, length_stringBytes]
      rw [List.length_append, List.length_append, hl] at hf
      have hread := readTagAt_append littleEndian hname hval.type_ne hp (show _ ≤ fuel by omega)
        (depth + 1) (bs ++ ([0] ++ rest))
      rw [readChildren, List.append_assoc, List.append_assoc, bind_of_ok hread, if_neg hval.type_ne,
        bind_of_ok (hr fuel depth rest (by omega))]
      rfl

end

/-- **The codec round-trips** on encodable tags. -/
theorem readTag_append {t : Tag} (h : Encodable t) :
    ∃ bs, writeTag littleEndian t = .ok bs ∧ 0 < bs.length ∧
      ∀ rest, readTag littleEndian (bs ++ rest) = .ok t rest := by
  obtain ⟨hname, hval⟩ := h
  obtain ⟨b, hp⟩ := payload_ok littleEndian t hval
  refine ⟨headerBytes littleEndian t ++ b, ?_, by simp [headerBytes], fun rest => ?_⟩
  · unfold writeTag
    rw [if_neg hval.type_ne, hp.1]
    rfl
  · unfold readTag
    rw [List.append_assoc]
    refine readTagAt_append littleEndian hname hval.type_ne hp ?_ 0 rest
    simp only [List.length_append]
    omega

end RoundTrip

end WorldToPE
