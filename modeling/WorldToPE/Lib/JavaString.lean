import WorldToPE.Lib.JavaArray
import Mathlib.Data.String.Basic

/-!
# WorldToPE.Lib.JavaString — the string operations of the Java library that the program uses

Strings are sequences of Unicode characters.  `getBytes` / `ofBytes` are the conversions to and from
UTF-8; malformed input decodes to replacement characters, one for each maximal part of a character
that is cut off.  `splitDots` is `split("\\.")` and `parseInt` is `Integer.parseInt` for ASCII digits.

* `parseInt_toString`: a number is read back from its decimal notation.
* `splitDots_numbers`: the parts of a file name with two numbers between its dots.
-/

namespace Java

/-! ## UTF-8 -/

/-- `s.getBytes("UTF-8")`. -/
def getBytes (s : String) : List UInt8 := s.toByteArray.data.toList

/-- How many continuation bytes a leading byte asks for, and the range of the first of them. -/
def utf8Lead (b : UInt8) : Option (ℕ × UInt8 × UInt8) :=
  if b < 0x80 then some (0, 0, 0)
  else if b < 0xC2 then none
  else if b < 0xE0 then some (1, 0x80, 0xBF)
  else if b = 0xE0 then some (2, 0xA0, 0xBF)
  else if b = 0xED then some (2, 0x80, 0x9F)
  else if b < 0xF0 then some (2, 0x80, 0xBF)
  else if b = 0xF0 then some (3, 0x90, 0xBF)
  else if b < 0xF4 then some (3, 0x80, 0xBF)
  else if b = 0xF4 then some (3, 0x80, 0x8F)
  else none

/-- The continuation bytes at the front of the input: at most `n`, the first one in `[low, high]`. -/
def continuations (n : ℕ) (low high : UInt8) : List UInt8 → List UInt8
  | [] => []
  | b :: bs =>
    match n with
    | 0 => []
    | n + 1 => if low ≤ b ∧ b ≤ high then b :: continuations n 0x80 0xBF bs else []

/-- Decoding with replacement, at most `fuel` characters. -/
def decodeReplacing : ℕ → List UInt8 → List Char
  | 0, _ => []
  | _, [] => []
  | fuel + 1, b :: bs =>
    match utf8Lead b with
    | none => Char.ofNat 0xFFFD :: decodeReplacing fuel bs
    | some (n, low, high) =>
      let cs := continuations n low high bs
      let c := if cs.length = n then
          cs.foldl (fun acc c => acc * 64 + c.toNat % 64) (b.toNat % 2 ^ (if n = 0 then 7 else 6 - n))
        else 0xFFFD
      Char.ofNat c :: decodeReplacing fuel (bs.drop cs.length)

/-- `new String(bytes, "UTF-8")`. -/
def ofBytes (bytes : List UInt8) : String :=
  match String.fromUTF8? ⟨bytes.toArray⟩ with
  | some s => s
  | none => String.ofList (decodeReplacing bytes.length bytes)

@[simp] theorem ofBytes_getBytes (s : String) : ofBytes (getBytes s) = s := by
  have h : (⟨(getBytes s).toArray⟩ : ByteArray) = s.toByteArray := by
    simp [getBytes]
  unfold ofBytes
  rw [h, String.fromUTF8?, dif_pos s.isValidUTF8]
  rfl

/-! ## Splitting and parsing -/

/-- `name.split("\\.")`: trailing empty parts are dropped, unless there is no dot at all. -/
def splitDots (name : String) : List String :=
  let parts := name.splitOn "."
  if parts.length = 1 then parts else (parts.reverse.dropWhile (· = "")).reverse

/-- The number that a non-empty string of digits denotes. -/
def digits (cs : List Char) : Option ℕ :=
  if cs ≠ [] ∧ cs.all Char.isDigit then
    some (cs.foldl (fun acc c => acc * 10 + (c.toNat - 48)) 0)
  else none

/-- `Integer.parseInt(s)`. -/
def parseInt (s : String) : Except Exn Int32 :=
  let value : Option Int := match s.toList with
    | '-' :: cs => (digits cs).map fun n => -(n : Int)
    | '+' :: cs => (digits cs).map fun n => (n : Int)
    | cs => (digits cs).map fun n => (n : Int)
  match value with
  | some n => if -2 ^ 31 ≤ n ∧ n < 2 ^ 31 then .ok (Int32.ofInt n) else .error .numberFormat
  | none => .error .numberFormat

/-! ### Names with dots -/

section Splitting

open String

/-- The loop of `splitOn`, at the end of the part `m`, behind the characters `l`. -/
theorem splitOnAux_dot : ∀ (r l m : List Char) (acc : List String),
    splitOnAux (ofList (l ++ m ++ r)) "." ⟨utf8Len l⟩ ⟨utf8Len l + utf8Len m⟩ 0 acc =
      acc.reverse ++ (List.splitOnPPrepend (· == '.') r m.reverse).map ofList
  | [], l, m, acc => by
    have hend : Pos.Raw.atEnd (ofList (l ++ m ++ [])) ⟨utf8Len l + utf8Len m⟩ = true := by
      simp [atEnd_iff, -ofList_append]
    rw [splitOnAux, if_pos hend, extract_of_valid l m []]
    simp [List.splitOnPPrepend]
  | c :: r, l, m, acc => by
    have hend : ¬Pos.Raw.atEnd (ofList (l ++ m ++ c :: r)) ⟨utf8Len l + utf8Len m⟩ = true := by
      have := c.utf8Size_pos
      simp [atEnd_iff, Pos.Raw.le_iff, -ofList_append]
      omega
    have hget : Pos.Raw.get (ofList (l ++ m ++ c :: r)) ⟨utf8Len l + utf8Len m⟩ = c := by
      simpa [-ofList_append] using get_of_valid (l ++ m) (c :: r)
    have hnext : Pos.Raw.next (ofList (l ++ m ++ c :: r)) ⟨utf8Len l + utf8Len m⟩ =
        ⟨utf8Len l + utf8Len m + c.utf8Size⟩ := by
      simpa [-ofList_append] using next_of_valid (l ++ m) c r
    have hsep : Pos.Raw.get "." 0 = '.' := by decide
    rw [splitOnAux, if_neg hend, hget, hsep]
    by_cases hc : c = '.'
    · subst hc
      have hsepEnd : Pos.Raw.atEnd "." (Pos.Raw.next "." 0) = true := by decide
      have hback : Pos.Raw.unoffsetBy ⟨utf8Len l + utf8Len m + '.'.utf8Size⟩ (Pos.Raw.next "." 0) =
          ⟨utf8Len l + utf8Len m⟩ := rfl
      rw [if_pos (beq_self_eq_true _), hnext, if_pos hsepEnd, hback, extract_of_valid l m ('.' :: r)]
      simpa [List.splitOnPPrepend, Nat.add_assoc] using
        splitOnAux_dot r (l ++ m ++ ['.']) [] (ofList m :: acc)
    · have hback : Pos.Raw.unoffsetBy ⟨utf8Len l + utf8Len m⟩ 0 = ⟨utf8Len l + utf8Len m⟩ := rfl
      rw [if_neg (by simpa using hc), hback, hnext]
      simpa [List.splitOnPPrepend_cons_eq_if, hc, Nat.add_assoc] using
        splitOnAux_dot r l (m ++ [c]) acc

/-- Splitting a string splits the list of its characters. -/
theorem splitOn_dot (s : String) : s.splitOn "." = (s.toList.splitOnP (· == '.')).map ofList := by
  have hne : ("." == "") = false := by decide
  have h := splitOnAux_dot s.toList [] [] []
  rw [List.nil_append, List.nil_append, ofList_toList] at h
  rw [splitOn, hne]
  exact h

end Splitting

/-! ### Decimal notation -/

theorem digits_toDigits (n : ℕ) : digits (Nat.toDigits 10 n) = some n := by
  have hall : (Nat.toDigits 10 n).all Char.isDigit = true :=
    List.all_eq_true.mpr fun c hc => Nat.isDigit_of_mem_toDigits (by norm_num) le_rfl hc
  have hfold : (Nat.toDigits 10 n).foldl (fun acc c => acc * 10 + (c.toNat - 48)) 0 = n := by
    conv_rhs => rw [← Nat.ofDigitChars_ten_toDigits (n := n)]
    rw [Nat.ofDigitChars_eq_foldl]
    congr 1
    funext acc c
    rw [Nat.mul_comm]
    rfl
  unfold digits
  rw [if_pos ⟨Nat.toDigits_ne_nil, hall⟩, hfold]

/-- The decimal notation of a number. -/
theorem toList_toString (n : Int) : (toString n).toList =
    if 0 ≤ n then Nat.toDigits 10 n.toNat else '-' :: Nat.toDigits 10 (-n).toNat := by
  rw [Int.toString_eq_repr, Int.repr_eq_if]
  split
  · exact Nat.toList_repr
  · rw [String.toList_append, Nat.toList_repr]
    rfl

/-- **A number is read back from its notation.** -/
theorem parseInt_toString {n : Int} (hlo : -2 ^ 31 ≤ n) (hhi : n < 2 ^ 31) :
    parseInt (toString n) = .ok (Int32.ofInt n) := by
  unfold parseInt
  rw [toList_toString]
  by_cases h0 : 0 ≤ n
  · rw [if_pos h0]
    have hn : (n.toNat : Int) = n := Int.toNat_of_nonneg h0
    have hsign : ∀ c cs, Nat.toDigits 10 n.toNat = c :: cs → c.isDigit = true := by
      intro c cs h
      exact Nat.isDigit_of_mem_toDigits (by norm_num) le_rfl (h ▸ List.mem_cons_self)
    split
    · rename_i cs h
      exact absurd (hsign _ _ h) (by decide)
    · rename_i cs h
      exact absurd (hsign _ _ h) (by decide)
    · rw [digits_toDigits]
      show (if -2 ^ 31 ≤ (n.toNat : Int) ∧ (n.toNat : Int) < 2 ^ 31 then _ else _) = _
      rw [hn, if_pos ⟨hlo, hhi⟩]
  · rw [if_neg h0]
    have hn : -((-n).toNat : Int) = n := by omega
    show (match (digits (Nat.toDigits 10 (-n).toNat)).map fun k => -(k : Int) with
      | some n => _
      | none => _) = _
    rw [digits_toDigits]
    show (if -2 ^ 31 ≤ -((-n).toNat : Int) ∧ -((-n).toNat : Int) < 2 ^ 31 then _ else _) = _
    rw [hn, if_pos ⟨hlo, hhi⟩]
    show Except.ok (Int32.ofInt (-((-n).toNat : Int))) = _
    rw [hn]

/-- The notation of a number has no dot. -/
theorem dot_not_mem_toString (n : Int) : ∀ c ∈ (toString n).toList, (c == '.') = false := by
  intro c hc
  rw [toList_toString] at hc
  have hdigit : ∀ k : ℕ, ∀ c ∈ Nat.toDigits 10 k, (c == '.') = false := by
    intro k c hc
    have h := Nat.isDigit_of_mem_toDigits (by norm_num) le_rfl hc
    by_contra hcon
    obtain rfl : c = '.' := by simpa using hcon
    exact absurd h (by decide)
  split at hc
  · exact hdigit _ c hc
  · rcases List.mem_cons.mp hc with rfl | hc
    · decide
    · exact hdigit _ c hc

/-- The parts of a file name with numbers between its dots. -/
theorem splitDots_numbers (a b : Int) : splitDots ("r." ++ toString a ++ "." ++ toString b ++ ".mca") =
    ["r", toString a, toString b, "mca"] := by
  have hsplit : ("r." ++ toString a ++ "." ++ toString b ++ ".mca").splitOn "." =
      ["r", toString a, toString b, "mca"] := by
    rw [splitOn_dot]
    have hchars : ("r." ++ toString a ++ "." ++ toString b ++ ".mca").toList =
        ['r'] ++ '.' :: ((toString a).toList ++ '.' :: ((toString b).toList ++ '.' :: ['m', 'c', 'a'])) := by
      simp
    rw [hchars, List.splitOnP_append_cons_of_forall_mem (by simp) '.' rfl,
      List.splitOnP_append_cons_of_forall_mem (dot_not_mem_toString a) '.' rfl,
      List.splitOnP_append_cons_of_forall_mem (dot_not_mem_toString b) '.' rfl,
      List.splitOnP_eq_singleton (by simp)]
    simp
  unfold splitDots
  rw [hsplit]
  rfl

end Java
