import Llama.Peg.Unicode
import Mathlib.Algebra.Order.Ring.Int

/-!
# Code points and UTF-8

The decoder and the encoder of `unicode.cpp`. The decoder looks at lead and continuation bits
only; the encoder looks at the range of the code point only. `none` is a thrown
`std::invalid_argument`.
-/

namespace Llama.Vocab

open Peg List

/-- `unicode_len_utf8`: the length a lead byte announces, by its upper four bits. -/
def lenUtf8 (b : UInt8) : Nat :=
  if b.toNat / 16 < 12 then 1
  else if b.toNat / 16 < 14 then 2
  else if b.toNat / 16 < 15 then 3
  else 4

/-- `unicode_cpt_from_utf8` on the bytes from the offset on: the code point and the number of
bytes it takes. -/
def cptFromUtf8 : List UInt8 → Option (Nat × Nat)
  | [] => none
  | b0 :: rest =>
    if b0 &&& 0x80 = 0 then some (b0.toNat, 1)
    else if b0 &&& 0x40 = 0 then none
    else if b0 &&& 0x20 = 0 then
      match rest with
      | b1 :: _ =>
        if continues b1 then some ((b0.toNat &&& 0x1f) <<< 6 ||| payload b1, 2) else none
      | _ => none
    else if b0 &&& 0x10 = 0 then
      match rest with
      | b1 :: b2 :: _ =>
        if continues b1 && continues b2 then
          some ((b0.toNat &&& 0x0f) <<< 12 ||| payload b1 <<< 6 ||| payload b2, 3)
        else none
      | _ => none
    else if b0 &&& 0x08 = 0 then
      match rest with
      | b1 :: b2 :: b3 :: _ =>
        if continues b1 && continues b2 && continues b3 then
          some ((b0.toNat &&& 0x07) <<< 18 ||| payload b1 <<< 12 ||| payload b2 <<< 6 |||
            payload b3, 4)
        else none
      | _ => none
    else none

/-- The replacement character, U+FFFD. -/
def replacement : Nat := 0xFFFD

/-- `unicode_cpts_from_utf8`: a byte that cannot be decoded becomes the replacement
character. -/
def cptsFromUtf8 : List UInt8 → List Nat
  | [] => []
  | b :: rest =>
    match cptFromUtf8 (b :: rest) with
    | some (cpt, n) => cpt :: cptsFromUtf8 (rest.drop (n - 1))
    | none => replacement :: cptsFromUtf8 rest
termination_by bytes => bytes.length
decreasing_by all_goals simp only [length_cons, length_drop]; omega

/-- The greatest code point. -/
def maxCpt : Nat := 0x10FFFF

/-- A continuation byte with the six bits of `n`. -/
def tailOf (n : Nat) : UInt8 := UInt8.ofNat (0x80 ||| (n &&& 0x3f))

/-- `unicode_cpt_to_utf8`. -/
def cptToUtf8 (cpt : Nat) : Option (List UInt8) :=
  if cpt ≤ 0x7f then some [UInt8.ofNat cpt]
  else if cpt ≤ 0x7ff then
    some [UInt8.ofNat (0xc0 ||| ((cpt >>> 6) &&& 0x1f)), tailOf cpt]
  else if cpt ≤ 0xffff then
    some [UInt8.ofNat (0xe0 ||| ((cpt >>> 12) &&& 0x0f)), tailOf (cpt >>> 6), tailOf cpt]
  else if cpt ≤ maxCpt then
    some [UInt8.ofNat (0xf0 ||| ((cpt >>> 18) &&& 0x07)), tailOf (cpt >>> 12),
      tailOf (cpt >>> 6), tailOf cpt]
  else none

/-- The encodings of a list of code points, appended one by one. -/
def encodeCpts : List Nat → Option (List UInt8)
  | [] => some []
  | c :: cs => do
    let b ← cptToUtf8 c
    let bs ← encodeCpts cs
    pure (b ++ bs)

variable {cpt n : Nat} {cs : List Nat} {bytes b : List UInt8}

theorem cptToUtf8_isSome : (cptToUtf8 cpt).isSome ↔ cpt ≤ maxCpt := by
  unfold cptToUtf8 maxCpt
  split_ifs <;> simp <;> omega

theorem encodeCpts_isSome : (encodeCpts cs).isSome ↔ ∀ c ∈ cs, c ≤ maxCpt := by
  induction cs with
  | nil => simp [encodeCpts]
  | cons c cs ih =>
    rw [forall_mem_cons, ← ih, ← @cptToUtf8_isSome c]
    simp only [encodeCpts]
    cases cptToUtf8 c with
    | none => simp
    | some b => cases encodeCpts cs <;> simp

theorem encodeCpts_cons {c : Nat} (h : encodeCpts (c :: cs) = some bytes) :
    ∃ b bs, cptToUtf8 c = some b ∧ encodeCpts cs = some bs ∧ bytes = b ++ bs := by
  simp only [encodeCpts] at h
  cases hc : cptToUtf8 c with
  | none => simp [hc] at h
  | some b =>
    cases hcs : encodeCpts cs with
    | none => simp [hc, hcs] at h
    | some bs =>
      simp only [hc, hcs] at h
      exact ⟨b, bs, rfl, rfl, by simpa using h.symm⟩

theorem cptFromUtf8_pos (h : cptFromUtf8 bytes = some (cpt, n)) : 1 ≤ n ∧ n ≤ bytes.length := by
  revert h
  fun_cases cptFromUtf8 bytes <;> intro h <;> simp_all <;> omega

/-- Both decoders of UTF-8 in the code base read the same characters. -/
theorem cptFromUtf8_eq_some :
    cptFromUtf8 bytes = some (cpt, n) ↔ decodeCodepoint bytes = .success cpt n := by
  fun_cases cptFromUtf8 bytes <;> simp_all [decodeCodepoint]
  all_goals grind

/-- The bytes of a decoded character after the first one are continuation bytes. -/
theorem cptFromUtf8_tail {i : Nat} {b : UInt8} (h : cptFromUtf8 bytes = some (cpt, n)) (h0 : 0 < i)
    (hi : i < n) (hb : bytes[i]? = some b) : continues b = true := by
  revert h
  fun_cases cptFromUtf8 bytes with
  | case4 b0 _ _ _ b1 =>
    simp only [Option.some.injEq, Prod.mk.injEq]
    rintro ⟨-, rfl⟩
    obtain rfl : i = 1 := by omega
    simp_all
  | case7 b0 _ _ _ _ b1 b2 t hc =>
    simp only [Option.some.injEq, Prod.mk.injEq]
    rintro ⟨-, rfl⟩
    obtain rfl | rfl : i = 1 ∨ i = 2 := by omega
    all_goals simp_all
  | case10 b0 _ _ _ _ _ b1 b2 b3 t hc =>
    simp only [Option.some.injEq, Prod.mk.injEq]
    rintro ⟨-, rfl⟩
    obtain rfl | rfl | rfl : i = 1 ∨ i = 2 ∨ i = 3 := by omega
    all_goals simp_all
  | case2 =>
    simp only [Option.some.injEq, Prod.mk.injEq]
    rintro ⟨-, rfl⟩
    omega
  | _ => simp

theorem tailOf_eq (n : Nat) : tailOf n = UInt8.ofNat (n % 64 + 0x80) := by
  have hmod : n &&& 0x3f = n % 64 := Nat.and_two_pow_sub_one_eq_mod n 6
  have hor : ∀ m < 64, 0x80 ||| m = m + 0x80 := by decide
  rw [tailOf, hmod, hor _ (Nat.mod_lt _ (by decide))]

theorem continues_tailOf (n : Nat) : continues (tailOf n) = true := by
  rw [tailOf_eq]
  exact (tail_byte _ (Nat.mod_lt _ (by decide))).1

theorem payload_tailOf (n : Nat) : payload (tailOf n) = n % 64 := by
  rw [tailOf_eq]
  exact (tail_byte _ (Nat.mod_lt _ (by decide))).2.1

/-- The decoder reads back every encoded code point. -/
theorem cptFromUtf8_cptToUtf8 (h : cptToUtf8 cpt = some b) (t : List UInt8) :
    cptFromUtf8 (b ++ t) = some (cpt, b.length) := by
  have hlt : ∀ n : Nat, n % 64 < 64 := fun n => Nat.mod_lt _ (by decide)
  rw [cptFromUtf8_eq_some]
  unfold cptToUtf8 at h
  split_ifs at h with c1 c2 c3 c4
  · cases h
    obtain ⟨h0, hv⟩ := ascii_byte cpt (by omega)
    rw [cons_append, decode_one h0, hv]
    rfl
  · cases h
    have hlead : 0xc0 ||| ((cpt >>> 6) &&& 0x1f) = cpt / 64 % 32 + 0xc0 := by
      rw [Nat.and_two_pow_sub_one_eq_mod _ 5, Nat.shiftRight_eq_div_pow]
      exact (by decide : ∀ m < 32, 0xc0 ||| m = m + 0xc0) _ (Nat.mod_lt _ (by decide))
    obtain ⟨h0, h1, h2, hv⟩ := lead_two (cpt / 64 % 32) (Nat.mod_lt _ (by decide))
    rw [hlead, cons_append, cons_append, decode_two h0 h1 h2 (continues_tailOf _), hv,
      payload_tailOf, shift_or (hlt _)]
    congr 1
    omega
  · cases h
    have hlead : 0xe0 ||| ((cpt >>> 12) &&& 0x0f) = cpt / 4096 % 16 + 0xe0 := by
      rw [Nat.and_two_pow_sub_one_eq_mod _ 4, Nat.shiftRight_eq_div_pow]
      exact (by decide : ∀ m < 16, 0xe0 ||| m = m + 0xe0) _ (Nat.mod_lt _ (by decide))
    obtain ⟨h0, h1, h2, h3, hv⟩ := lead_three (cpt / 4096 % 16) (Nat.mod_lt _ (by decide))
    rw [hlead, cons_append, cons_append, cons_append,
      decode_three h0 h1 h2 h3 (continues_tailOf _) (continues_tailOf _), hv, payload_tailOf,
      payload_tailOf, Nat.shiftRight_eq_div_pow, shift_or_three (hlt _) (hlt _)]
    congr 1
    omega
  · cases h
    have hlead : 0xf0 ||| ((cpt >>> 18) &&& 0x07) = cpt / 262144 % 8 + 0xf0 := by
      rw [Nat.and_two_pow_sub_one_eq_mod _ 3, Nat.shiftRight_eq_div_pow]
      exact (by decide : ∀ m < 8, 0xf0 ||| m = m + 0xf0) _ (Nat.mod_lt _ (by decide))
    obtain ⟨h0, h1, h2, h3, h4, hv⟩ := lead_four (cpt / 262144 % 8) (Nat.mod_lt _ (by decide))
    rw [hlead, cons_append, cons_append, cons_append, cons_append,
      decode_four h0 h1 h2 h3 h4 (continues_tailOf _) (continues_tailOf _) (continues_tailOf _),
      hv, payload_tailOf, payload_tailOf, payload_tailOf, Nat.shiftRight_eq_div_pow,
      Nat.shiftRight_eq_div_pow, shift_or_four (hlt _) (hlt _) (hlt _)]
    unfold maxCpt at c4
    congr 1
    omega

/-- Decoding encoded code points gives them back. -/
theorem cptsFromUtf8_encodeCpts (h : encodeCpts cs = some bytes) (t : List UInt8) :
    cptsFromUtf8 (bytes ++ t) = cs ++ cptsFromUtf8 t := by
  induction cs generalizing bytes with
  | nil =>
    cases h
    rfl
  | cons c cs ih =>
    obtain ⟨b, bs, hc, hcs, rfl⟩ := encodeCpts_cons h
    have hd := cptFromUtf8_cptToUtf8 hc (bs ++ t)
    cases b with
    | nil => exact absurd (cptFromUtf8_pos hd).1 (by simp)
    | cons x xs =>
      rw [append_assoc, cons_append, cptsFromUtf8]
      rw [cons_append] at hd
      rw [hd]
      simp [ih hcs]

/-- The first byte of a character announces its length. -/
theorem lenUtf8_encodeChar (c : Char) :
    ∃ b t, String.utf8EncodeChar c = b :: t ∧ lenUtf8 b = (String.utf8EncodeChar c).length := by
  have hnat : ∀ n < 256, (UInt8.ofNat n).toNat = n := fun n h => by
    rw [UInt8.toNat_ofNat', Nat.mod_eq_of_lt (by omega)]
  fun_cases String.utf8EncodeChar c with
  | case1 v h =>
    refine ⟨_, _, rfl, ?_⟩
    rw [lenUtf8, hnat v (by omega), if_pos (by omega)]
    rfl
  | case2 v h h' =>
    refine ⟨_, _, rfl, ?_⟩
    rw [lenUtf8, hnat _ (by omega), if_neg (by omega), if_pos (by omega)]
    rfl
  | case3 v h h' h'' =>
    refine ⟨_, _, rfl, ?_⟩
    rw [lenUtf8, hnat _ (by omega), if_neg (by omega), if_neg (by omega), if_pos (by omega)]
    rfl
  | case4 v h h' h'' =>
    refine ⟨_, _, rfl, ?_⟩
    rw [lenUtf8, hnat _ (by omega), if_neg (by omega), if_neg (by omega), if_neg (by omega)]
    rfl

theorem encodeChar_pos (c : Char) : 0 < (String.utf8EncodeChar c).length := by
  obtain ⟨b, t, h, -⟩ := lenUtf8_encodeChar c
  simp [h]

/-- Two texts that start with the same bytes start with the same character. -/
theorem encodeChar_unique {c d : Char} {s t : List UInt8}
    (h : String.utf8EncodeChar c ++ s = String.utf8EncodeChar d ++ t) : c = d := by
  have hc := decode_encodeChar c s
  rw [h, decode_encodeChar] at hc
  injection hc with hcp
  exact (Char.toNat_inj.mp hcp).symm

/-- Where the bytes of a text are a prefix, its characters are. -/
theorem prefix_of_encode_prefix {cs ds : List Char} (h : encode cs <+: encode ds) : cs <+: ds := by
  induction cs generalizing ds with
  | nil => exact nil_prefix
  | cons c cs ih =>
    obtain ⟨t, ht⟩ := h
    cases ds with
    | nil =>
      have := congrArg List.length ht
      have hpos := encodeChar_pos c
      simp only [encode_cons, encode_nil, length_append, length_nil] at this
      omega
    | cons d ds =>
      rw [encode_cons, encode_cons, append_assoc] at ht
      obtain rfl := encodeChar_unique ht
      rw [append_cancel_left_eq] at ht
      exact cons_prefix_cons.mpr ⟨rfl, ih ⟨t, ht⟩⟩

end Llama.Vocab
