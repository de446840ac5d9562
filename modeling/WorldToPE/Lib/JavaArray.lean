import WorldToPE.Lib.JavaInt

/-!
# WorldToPE.Lib.JavaArray — exceptions and checked array access

A `byte[]` of known length is a `Vector UInt8 n`, one of any length a `List UInt8`; an access outside
the bounds throws, as in Java.  `aget` / `aset` are the element read and write, `arraycopyFrom` is
`System.arraycopy` into a whole array.
-/

namespace Java

/-- The exceptions the model can raise. -/
inductive Exn
  | arrayIndexOutOfBounds
  | indexOutOfBounds
  | negativeArraySize
  | nullPointer
  | classCast
  | illegalArgument
  | numberFormat
  | assertion
  | stackOverflow
  | eof
  | io
deriving DecidableEq, Repr

/-- `IOException` and its subclass `EOFException`, the checked exceptions. -/
def Exn.isIO : Exn → Bool
  | .eof => true
  | .io => true
  | _ => false

/-- What it takes for a sequence of fallible steps to succeed. -/
theorem bind_eq_ok {ε α β : Type} {x : Except ε α} {f : α → Except ε β} {b : β} :
    (x >>= f) = .ok b ↔ ∃ a, x = .ok a ∧ f a = .ok b := by
  constructor
  · intro h
    cases x with
    | error e => cases h
    | ok a => exact ⟨a, rfl, h⟩
  · rintro ⟨a, rfl, h⟩
    exact h

/-- A loop does not get past a round that always fails. -/
theorem foldlM_of_error {ε σ α : Type} {f : σ → α → Except ε σ} {a : α}
    (ha : ∀ s, ∃ e, f s a = .error e) {as : List α} (h : a ∈ as) (s : σ) :
    ∃ e, as.foldlM f s = .error e := by
  induction as generalizing s with
  | nil => cases h
  | cons b as ih =>
    rw [List.foldlM_cons]
    cases hb : f s b with
    | error e => exact ⟨e, rfl⟩
    | ok s' =>
      rcases List.mem_cons.mp h with rfl | h
      · obtain ⟨e, he⟩ := ha s
        rw [he] at hb
        cases hb
      · exact ih h s'

variable {α : Type} {n : ℕ}

/-! ## Writing over a part of a list -/

/-- The list with `bs` written over it from index `p` on. -/
def overwrite (l : List α) (p : ℕ) (bs : List α) : List α := l.take p ++ bs ++ l.drop (p + bs.length)

theorem length_overwrite {l bs : List α} {p : ℕ} (h : p ≤ l.length) :
    (overwrite l p bs).length = max l.length (p + bs.length) := by
  simp only [overwrite, List.length_append, List.length_take, List.length_drop]
  omega

theorem getElem?_overwrite {l bs : List α} {p : ℕ} (h : p ≤ l.length) (i : ℕ) :
    (overwrite l p bs)[i]? = if p ≤ i ∧ i < p + bs.length then bs[i - p]? else l[i]? := by
  have hlen : (l.take p).length = p := by
    rw [List.length_take]
    omega
  unfold overwrite
  rw [List.append_assoc, List.getElem?_append, hlen]
  by_cases h1 : i < p
  · rw [if_pos h1, if_neg (by omega), List.getElem?_take_of_lt h1]
  rw [if_neg h1, List.getElem?_append]
  by_cases h2 : i - p < bs.length
  · rw [if_pos h2, if_pos (by omega)]
  · rw [if_neg h2, if_neg (by omega), List.getElem?_drop]
    congr 1
    omega

/-- Writing one element and the rest behind it. -/
theorem overwrite_cons {l bs : List α} {p : ℕ} (h : p ≤ l.length) (b : α) :
    overwrite (overwrite l p [b]) (p + 1) bs = overwrite l p (b :: bs) := by
  have hp : p + 1 ≤ (overwrite l p [b]).length := by
    rw [length_overwrite h, List.length_singleton]
    omega
  apply List.ext_getElem?
  intro i
  rw [getElem?_overwrite hp, getElem?_overwrite h, getElem?_overwrite h]
  by_cases h1 : i = p
  · subst h1
    simp
  by_cases h2 : p + 1 ≤ i ∧ i < p + 1 + bs.length
  · rw [if_pos h2, if_pos (by simp; omega), show i - p = (i - (p + 1)) + 1 by omega,
      List.getElem?_cons_succ]
  · rw [if_neg h2, if_neg (by simp; omega), if_neg (by simp; omega)]

/-- Writing at the end appends. -/
theorem overwrite_length (l bs : List α) : overwrite l l.length bs = l ++ bs := by
  simp [overwrite]

/-- Writing one more copy of an element behind the others. -/
theorem overwrite_replicate_succ {l : List α} {p k : ℕ} (h : p + k < l.length) (b : α) :
    (overwrite l p (List.replicate k b)).set (p + k) b = overwrite l p (List.replicate (k + 1) b) := by
  apply List.ext_getElem?
  intro i
  rw [List.getElem?_set, getElem?_overwrite (by omega), getElem?_overwrite (by omega),
    length_overwrite (by omega)]
  simp only [List.length_replicate, List.getElem?_replicate]
  by_cases h1 : p + k = i
  · rw [if_pos h1, if_pos (by omega), if_pos (by omega), if_pos (by omega)]
  rw [if_neg h1]
  by_cases h2 : p ≤ i ∧ i < p + k
  · rw [if_pos h2, if_pos (by omega), if_pos (by omega), if_pos (by omega)]
  · rw [if_neg h2, if_neg (by omega)]

/-- What lies beside the part written over. -/
theorem drop_take_overwrite {l bs : List α} {p q k : ℕ} (h : p ≤ l.length)
    (hd : q + k ≤ p ∨ p + bs.length ≤ q) :
    ((overwrite l p bs).drop q).take k = (l.drop q).take k := by
  apply List.ext_getElem?
  intro i
  rw [List.getElem?_take, List.getElem?_take, List.getElem?_drop, List.getElem?_drop,
    getElem?_overwrite h]
  by_cases hi : i < k
  · rw [if_pos hi, if_pos hi, if_neg (by omega)]
  · rw [if_neg hi, if_neg hi]

/-- The part written over. -/
theorem drop_take_overwrite_self (l bs : List α) {p : ℕ} (h : p ≤ l.length) :
    ((overwrite l p bs).drop p).take bs.length = bs := by
  have hlen : (l.take p).length = p := by
    rw [List.length_take]
    omega
  unfold overwrite
  rw [List.append_assoc, List.drop_left' hlen, List.take_left]

/-- Writing what is there already. -/
theorem overwrite_of_drop_take {l bs : List α} {p : ℕ} (h : (l.drop p).take bs.length = bs) :
    overwrite l p bs = l := by
  have hsplit : bs ++ (l.drop p).drop bs.length = l.drop p := by
    conv_rhs => rw [← List.take_append_drop bs.length (l.drop p), h]
  unfold overwrite
  rw [List.append_assoc, ← List.drop_drop, hsplit, List.take_append_drop]

/-- Writing over two parts that lie apart. -/
theorem overwrite_comm (l as bs : List α) {p q : ℕ} (hp : p + as.length ≤ l.length)
    (hq : q ≤ l.length) (hd : p + as.length ≤ q) :
    overwrite (overwrite l p as) q bs = overwrite (overwrite l q bs) p as := by
  apply List.ext_getElem?
  intro i
  rw [getElem?_overwrite (by rw [length_overwrite (by omega)]; omega), getElem?_overwrite (by omega),
    getElem?_overwrite (by rw [length_overwrite (by omega)]; omega), getElem?_overwrite (by omega)]
  by_cases h1 : q ≤ i ∧ i < q + bs.length
  · rw [if_pos h1, if_pos h1, if_neg (by omega)]
  · rw [if_neg h1, if_neg h1]

/-! ## Element access -/

/-- `arr[i]` on an array of known length. -/
def aget (arr : Vector α n) (i : Int32) : Except Exn α :=
  if h : 0 ≤ i.toInt ∧ i.toInt < n then .ok (arr.get ⟨i.toInt.toNat, by omega⟩)
  else .error .arrayIndexOutOfBounds

/-- `arr[i] = a` on an array of known length. -/
def aset (arr : Vector α n) (i : Int32) (a : α) : Except Exn (Vector α n) :=
  if h : 0 ≤ i.toInt ∧ i.toInt < n then .ok (arr.set i.toInt.toNat a (by omega))
  else .error .arrayIndexOutOfBounds

/-- `arr[i]` on an array of any length. -/
def lget (arr : List α) (i : Int32) : Except Exn α :=
  if i.toInt < 0 then .error .arrayIndexOutOfBounds
  else match arr[i.toInt.toNat]? with
    | some a => .ok a
    | none => .error .arrayIndexOutOfBounds

/-- `arr[i] = a` on an array of any length. -/
def lput (arr : List α) (i : Int32) (a : α) : Except Exn (List α) :=
  if 0 ≤ i.toInt ∧ i.toInt < arr.length then .ok (arr.set i.toInt.toNat a)
  else .error .arrayIndexOutOfBounds

/-- `list.set(i, a)` on an `ArrayList`. -/
def lset (list : List α) (i : Int32) (a : α) : Except Exn (List α) :=
  if 0 ≤ i.toInt ∧ i.toInt < list.length then .ok (list.set i.toInt.toNat a)
  else .error .indexOutOfBounds

/-- `System.arraycopy(src, srcPos, dst, 0, dst.length)` for a `dst` of length `n`. -/
def arraycopyFrom (src : List α) (srcPos n : ℕ) : Except Exn (Vector α n) :=
  if h : srcPos + n ≤ src.length then
    .ok ⟨((src.drop srcPos).take n).toArray, by simp; omega⟩
  else .error .arrayIndexOutOfBounds

/-- The byte at index `i`, as a total function (`0` outside the bounds). -/
def byteAt (v : Vector UInt8 n) (i : ℕ) : UInt8 := v[i]?.getD 0

@[simp] theorem byteAt_replicate (b : UInt8) {i : ℕ} (hi : i < n) :
    byteAt (Vector.replicate n b) i = b := by
  simp [byteAt, hi]

theorem byteAt_eq_getElem (v : Vector UInt8 n) {i : ℕ} (hi : i < n) : byteAt v i = v[i] := by
  simp [byteAt, hi]

theorem byteAt_set (v : Vector UInt8 n) {i : ℕ} (hi : i < n) (b : UInt8) (j : ℕ) :
    byteAt (v.set i b hi) j = if i = j then b else byteAt v j := by
  unfold byteAt
  rw [Vector.getElem?_set]
  split <;> rfl

/-- The bytes of an array, listed. -/
theorem toList_eq_map_range {v : Vector UInt8 n} {f : ℕ → UInt8} (h : ∀ i < n, byteAt v i = f i) :
    v.toList = (List.range n).map f := by
  apply List.ext_getElem
  · simp
  · intro i h1 h2
    have hi : i < n := by simpa using h1
    rw [List.getElem_map, List.getElem_range, ← h i hi, byteAt_eq_getElem v hi]
    simp

theorem aget_eq {arr : Vector α n} {i : Int32} {k : ℕ} (hi : i.toInt = k) (hk : k < n) :
    aget arr i = .ok arr[k] := by
  have hb : 0 ≤ i.toInt ∧ i.toInt < n := by omega
  have hn : i.toInt.toNat = k := by omega
  unfold aget
  rw [dif_pos hb]
  simp only [hn]
  rfl

theorem aget_of_toInt {arr : Vector UInt8 n} {i : Int32} {k : ℕ} (hi : i.toInt = k) (hk : k < n) :
    aget arr i = .ok (byteAt arr k) := by
  rw [aget_eq hi hk, byteAt_eq_getElem arr hk]

theorem aset_of_toInt {arr : Vector α n} {i : Int32} {k : ℕ} (a : α) (hi : i.toInt = k)
    (hk : k < n) : aset arr i a = .ok (arr.set k a) := by
  have hb : 0 ≤ i.toInt ∧ i.toInt < n := by omega
  have hn : i.toInt.toNat = k := by omega
  unfold aset
  rw [dif_pos hb]
  simp only [hn]

theorem lset_of_toInt {list : List α} {i : Int32} {k : ℕ} (a : α) (hi : i.toInt = k)
    (hk : k < list.length) : lset list i a = .ok (list.set k a) := by
  have hn : i.toInt.toNat = k := by omega
  unfold lset
  rw [if_pos (by omega), hn]

theorem lput_of_toInt {arr : List α} {i : Int32} {k : ℕ} (a : α) (hi : i.toInt = k)
    (hk : k < arr.length) : lput arr i a = .ok (arr.set k a) := by
  have hn : i.toInt.toNat = k := by omega
  unfold lput
  rw [if_pos (by omega), hn]

theorem lget_of_toInt {arr : List α} {i : Int32} {k : ℕ} (hi : i.toInt = k)
    (hk : k < arr.length) : lget arr i = .ok arr[k] := by
  have hn : i.toInt.toNat = k := by omega
  unfold lget
  rw [if_neg (by omega), hn, List.getElem?_eq_getElem hk]

theorem arraycopyFrom_ok (src : List α) (srcPos : ℕ) (h : srcPos + n ≤ src.length) :
    ∃ v : Vector α n, arraycopyFrom src srcPos n = .ok v ∧
      v.toList = (src.drop srcPos).take n := by
  refine ⟨_, dif_pos h, ?_⟩
  simp [Vector.toList]

theorem arraycopyFrom_error {src : List α} {srcPos : ℕ} (h : ¬ srcPos + n ≤ src.length) :
    arraycopyFrom src srcPos n = .error .arrayIndexOutOfBounds := dif_neg h

/-- Copying a segment back out of a concatenation. -/
theorem arraycopyFrom_append (a c : List α) (v : Vector α n) :
    arraycopyFrom (a ++ (v.toList ++ c)) a.length n = .ok v := by
  obtain ⟨w, hw, hl⟩ := arraycopyFrom_ok (n := n) (a ++ (v.toList ++ c)) a.length (by simp)
  rw [hw]
  congr 1
  apply Vector.toList_inj.mp
  rw [hl, List.drop_left, List.take_left' (by simp)]

/-- The bytes of a copied segment. -/
theorem byteAt_arraycopyFrom {src : List UInt8} {srcPos : ℕ} {v : Vector UInt8 n}
    (h : arraycopyFrom src srcPos n = .ok v) {i : ℕ} (hi : i < n) :
    byteAt v i = src.getD (srcPos + i) 0 := by
  by_cases hb : srcPos + n ≤ src.length
  · obtain ⟨w, hw, hl⟩ := arraycopyFrom_ok _ _ hb
    rw [hw] at h
    obtain rfl := Except.ok.inj h
    have e : w.toList[i]? = w[i]? := by simp
    rw [byteAt, ← e, hl, List.getElem?_take_of_lt hi, List.getElem?_drop, List.getD_eq_getElem?_getD]
  · rw [arraycopyFrom_error hb] at h
    cases h

end Java
