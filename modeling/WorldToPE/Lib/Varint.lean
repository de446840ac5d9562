import Mathlib.Tactic

/-!
# WorldToPE.Lib.Varint — numbers in groups of seven bits

`encode k n` writes `n` in groups of seven bits, the lowest first, at most `k` of them; every byte
but the last has its high bit set.  `decode k` reads such a number back and refuses one that has not
ended after `k` bytes.

* `decode_encode_append`: the decoder reads back what the encoder wrote and leaves the rest.
* `decode_of_cut`: a number that is cut off is refused.
* `decode_append`, `decode_split`: what follows the number plays no part.
-/

namespace Varint

def encode : ℕ → ℕ → List UInt8
  | 0, _ => []
  | k + 1, n =>
    if n < 128 then [UInt8.ofNat n] else UInt8.ofNat (n % 128 + 128) :: encode k (n / 128)

def decode : ℕ → List UInt8 → Option (ℕ × List UInt8)
  | 0, _ => none
  | _ + 1, [] => none
  | k + 1, b :: input =>
    if b.toNat < 128 then some (b.toNat, input)
    else (decode k input).map fun r => (b.toNat % 128 + 128 * r.1, r.2)

theorem toNat_ofNat_of_lt {n : ℕ} (h : n < 256) : (UInt8.ofNat n).toNat = n := by
  rw [UInt8.toNat_ofNat']
  exact Nat.mod_eq_of_lt h

/-! ## The bits of a group -/

/-- A byte with its high bit set. -/
theorem or_128_mod (n : ℕ) : (n ||| 128) % 256 = n % 128 + 128 := by
  have h : ∀ m < 256, m ||| 128 = m % 128 + 128 := by decide +kernel
  rw [show (256 : ℕ) = 2 ^ 8 from rfl, Nat.or_mod_two_pow, show 128 % 2 ^ 8 = 128 from rfl,
    h _ (Nat.mod_lt _ (by omega))]
  omega

theorem and_127 (n : ℕ) : n &&& 127 = n % 128 := Nat.and_two_pow_sub_one_eq_mod n 7

theorem and_128_eq_zero_iff {n : ℕ} (h : n < 256) : n &&& 128 = 0 ↔ n < 128 := by
  have h' : ∀ m < 256, m &&& 128 = 0 ↔ m < 128 := by decide +kernel
  exact h' n h

/-- A group that is or-ed in above the bits that are there, in a word of `w` bits. -/
theorem or_shift {r s w : ℕ} (hr : r < 2 ^ s) (hs : s ≤ w) (x : ℕ) :
    r ||| (x * 2 ^ s % 2 ^ w) = (r + 2 ^ s * x) % 2 ^ w := by
  obtain ⟨t, rfl⟩ := Nat.exists_eq_add_of_le hs
  have hx : x * 2 ^ s % 2 ^ (s + t) = 2 ^ s * (x % 2 ^ t) := by
    rw [pow_add, mul_comm x, Nat.mul_mod_mul_left]
  have hlt : r + 2 ^ s * (x % 2 ^ t) < 2 ^ (s + t) := by
    have h1 : x % 2 ^ t + 1 ≤ 2 ^ t := Nat.mod_lt _ (by positivity)
    have h2 : 2 ^ s * (x % 2 ^ t + 1) ≤ 2 ^ s * 2 ^ t := Nat.mul_le_mul_left _ h1
    rw [mul_add, mul_one] at h2
    rw [pow_add]
    omega
  have hsplit : r + 2 ^ s * x = r + 2 ^ s * (x % 2 ^ t) + 2 ^ (s + t) * (x / 2 ^ t) := by
    have h := Nat.mod_add_div x (2 ^ t)
    calc r + 2 ^ s * x = r + 2 ^ s * (x % 2 ^ t + 2 ^ t * (x / 2 ^ t)) := by rw [h]
      _ = r + 2 ^ s * (x % 2 ^ t) + 2 ^ (s + t) * (x / 2 ^ t) := by rw [pow_add]; ring
  rw [hx, hsplit, Nat.add_mul_mod_self_left, Nat.mod_eq_of_lt hlt, Nat.or_comm,
    ← Nat.two_pow_add_eq_or_of_lt hr]
  omega

/-! ## Encoding -/

theorem length_encode_le : ∀ k n : ℕ, (encode k n).length ≤ k
  | 0, _ => le_rfl
  | k + 1, n => by
    unfold encode
    split_ifs with h
    · simp
    · have := length_encode_le k (n / 128)
      simp only [List.length_cons]
      omega

theorem encode_ne_nil (k n : ℕ) : encode (k + 1) n ≠ [] := by
  unfold encode
  split_ifs <;> simp

/-! ## Decoding what was encoded -/

theorem decode_encode_append : ∀ {k n : ℕ}, 0 < k → n < 128 ^ k → ∀ rest : List UInt8,
    decode k (encode k n ++ rest) = some (n, rest)
  | k + 1, n, _, h, rest => by
    unfold encode
    split_ifs with hn
    · have hb : (UInt8.ofNat n).toNat = n := toNat_ofNat_of_lt (by omega)
      simp only [List.singleton_append, decode, hb, hn, if_true]
    · have hb : (UInt8.ofNat (n % 128 + 128)).toNat = n % 128 + 128 := toNat_ofNat_of_lt (by omega)
      have hlt : n / 128 < 128 ^ k := by
        rw [Nat.div_lt_iff_lt_mul (by omega), ← pow_succ]
        exact h
      have hk : 0 < k := by
        rcases Nat.eq_zero_or_pos k with rfl | hk
        · rw [pow_zero] at hlt
          omega
        · exact hk
      simp only [List.cons_append, decode, hb, decode_encode_append hk hlt rest, Option.map_some]
      rw [if_neg (by omega)]
      congr 2
      omega

/-- What is cut off before its last byte is refused, whatever the number. -/
theorem decode_of_cut : ∀ {k n : ℕ} {p q : List UInt8}, encode k n = p ++ q → q ≠ [] →
    decode k p = none
  | 0, _, _, _, _, _ => rfl
  | _ + 1, _, [], _, _, _ => rfl
  | k + 1, n, b :: p, q, h, hq => by
    unfold encode at h
    split_ifs at h with hn
    · have : q = [] := by
        have := congrArg List.length h
        simp only [List.length_cons, List.length_nil, List.cons_append, List.length_append] at this
        exact List.length_eq_zero_iff.mp (by omega)
      exact absurd this hq
    · rw [List.cons_append, List.cons.injEq] at h
      obtain ⟨rfl, h⟩ := h
      have hb : (UInt8.ofNat (n % 128 + 128)).toNat = n % 128 + 128 := toNat_ofNat_of_lt (by omega)
      simp only [decode, hb, decode_of_cut h hq, Option.map_none]
      rw [if_neg (by omega)]

/-! ## Decoding in general -/

section Decode

variable {k n : ℕ} {input rest : List UInt8}

/-- The decoder takes at least one and at most `k` bytes from the front. -/
theorem decode_split : ∀ {k n : ℕ} {input rest : List UInt8}, decode k input = some (n, rest) →
    ∃ p, input = p ++ rest ∧ 0 < p.length ∧ p.length ≤ k
  | 0, _, _, _, h => by simp [decode] at h
  | _ + 1, _, [], _, h => by simp [decode] at h
  | k + 1, n, b :: input, rest, h => by
    unfold decode at h
    split_ifs at h with hb
    · obtain ⟨-, rfl⟩ := Prod.mk.inj (Option.some.inj h)
      exact ⟨[b], rfl, by simp, by simp⟩
    · obtain ⟨⟨m, r⟩, hm, he⟩ := Option.map_eq_some_iff.mp h
      obtain ⟨-, rfl⟩ := Prod.mk.inj he
      obtain ⟨p, rfl, h1, h2⟩ := decode_split hm
      refine ⟨b :: p, rfl, by simp, ?_⟩
      simp only [List.length_cons]
      omega

theorem length_of_decode (h : decode k input = some (n, rest)) : rest.length < input.length := by
  obtain ⟨p, rfl, hp, -⟩ := decode_split h
  simp only [List.length_append]
  omega

/-- What follows a number plays no part in reading it. -/
theorem decode_append : ∀ {k n : ℕ} {input rest : List UInt8}, decode k input = some (n, rest) →
    ∀ t : List UInt8, decode k (input ++ t) = some (n, rest ++ t)
  | 0, _, _, _, h, _ => by simp [decode] at h
  | _ + 1, _, [], _, h, _ => by simp [decode] at h
  | k + 1, n, b :: input, rest, h, t => by
    unfold decode at h
    rw [List.cons_append]
    unfold decode
    split_ifs at h ⊢ with hb
    · obtain ⟨rfl, rfl⟩ := Prod.mk.inj (Option.some.inj h)
      rfl
    · obtain ⟨⟨m, r⟩, hm, he⟩ := Option.map_eq_some_iff.mp h
      obtain ⟨rfl, rfl⟩ := Prod.mk.inj he
      rw [decode_append hm t]
      rfl

end Decode

/-! ## Decoding with shifts

The usual loop or-s each group into a word of `w` bits, at a shift that grows by seven.
-/

/-- At most `k` more groups, the first at shift `s`, or-ed into `r`. -/
def decodeOr (w : ℕ) : ℕ → ℕ → ℕ → List UInt8 → Option (ℕ × List UInt8)
  | 0, _, _, _ => none
  | _ + 1, _, _, [] => none
  | k + 1, s, r, b :: input =>
    if b.toNat < 128 then some (r ||| (b.toNat * 2 ^ s % 2 ^ w), input)
    else decodeOr w k (s + 7) (r ||| (b.toNat % 128 * 2 ^ s % 2 ^ w)) input

/-- The loop reads the same number, cut to the word. -/
theorem decodeOr_eq {w : ℕ} : ∀ {k s r : ℕ} (input : List UInt8), s + 7 * k ≤ w + 7 → r < 2 ^ s →
    decodeOr w k s r input = (decode k input).map fun m => ((r + 2 ^ s * m.1) % 2 ^ w, m.2)
  | 0, _, _, _, _, _ => rfl
  | _ + 1, _, _, [], _, _ => rfl
  | k + 1, s, r, b :: input, hs, hr => by
    unfold decodeOr decode
    split_ifs with hb
    · rw [or_shift hr (by omega)]
      rfl
    · have hsum : r + 2 ^ s * (b.toNat % 128) < 2 ^ (s + 7) := by
        have h1 : b.toNat % 128 + 1 ≤ 2 ^ 7 := Nat.mod_lt _ (by omega)
        have h2 : 2 ^ s * (b.toNat % 128 + 1) ≤ 2 ^ s * 2 ^ 7 := Nat.mul_le_mul_left _ h1
        rw [mul_add, mul_one] at h2
        rw [pow_add]
        omega
      rw [or_shift hr (by omega), decodeOr_eq input (by omega) (lt_of_le_of_lt (Nat.mod_le _ _) hsum),
        Option.map_map]
      -- the group that was added counts in the number that is read
      congr 1
      funext m
      show ((_ % 2 ^ w + _) % 2 ^ w, m.2) = ((r + 2 ^ s * (b.toNat % 128 + 128 * m.1)) % 2 ^ w, m.2)
      rw [Nat.mod_add_mod]
      congr 2
      rw [pow_add]
      ring

end Varint
