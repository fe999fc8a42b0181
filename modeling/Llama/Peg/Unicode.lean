import Mathlib.Data.List.Infix

/-!
# Reading one code point

`common_parse_utf8_codepoint` looks at the bytes of the input from an offset on. It has
three answers: a code point with the number of its bytes, an input that ends too early,
and bytes that no code point starts with. The first and the third never change when more
bytes arrive, and on text that ends between two characters the second comes at the end
only.
-/

namespace Llama.Peg

open List

/-- The answer of the decoder (`utf8_parse_result`). -/
inductive Utf8Result where
  | success (codepoint bytesConsumed : Nat)
  | incomplete
  | invalid
  deriving DecidableEq, Repr

/-- The byte is a continuation byte. -/
def continues (b : UInt8) : Bool := b &&& 0xc0 == 0x80

/-- The six payload bits of a continuation byte. -/
def payload (b : UInt8) : Nat := b.toNat &&& 0x3f

/-- `common_parse_utf8_codepoint` on the bytes from the offset on. -/
def decodeCodepoint : List UInt8 → Utf8Result
  | [] => .incomplete
  | b0 :: rest =>
    if b0 &&& 0x80 = 0 then .success b0.toNat 1
    -- a continuation byte cannot come first
    else if b0 &&& 0x40 = 0 then .invalid
    else if b0 &&& 0x20 = 0 then
      match rest with
      | b1 :: _ =>
        if continues b1 then .success ((b0.toNat &&& 0x1f) <<< 6 ||| payload b1) 2
        else .invalid
      | _ => .incomplete
    else if b0 &&& 0x10 = 0 then
      match rest with
      | b1 :: b2 :: _ =>
        if continues b1 && continues b2 then
          .success ((b0.toNat &&& 0x0f) <<< 12 ||| payload b1 <<< 6 ||| payload b2) 3
        else .invalid
      | _ => .incomplete
    else if b0 &&& 0x08 = 0 then
      match rest with
      | b1 :: b2 :: b3 :: _ =>
        if continues b1 && continues b2 && continues b3 then
          .success ((b0.toNat &&& 0x07) <<< 18 ||| payload b1 <<< 12 ||| payload b2 <<< 6 |||
            payload b3) 4
        else .invalid
      | _ => .incomplete
    else .invalid

/-- `common_parse_utf8_codepoint(input, offset)`. -/
def parseUtf8Codepoint (input : List UInt8) (offset : Nat) : Utf8Result :=
  decodeCodepoint (input.drop offset)

variable {r : List UInt8} {a b c : Nat} {b0 b1 b2 : UInt8}

theorem decode_success {cp n : Nat} (h : decodeCodepoint r = .success cp n) :
    1 ≤ n ∧ n ≤ r.length := by
  revert h
  fun_cases decodeCodepoint r <;> intro h <;> simp_all <;> omega

/-- An answer other than "incomplete" does not depend on what follows. -/
theorem decode_append (h : decodeCodepoint r ≠ .incomplete) (t : List UInt8) :
    decodeCodepoint (r ++ t) = decodeCodepoint r := by
  revert h
  fun_cases decodeCodepoint r <;> intro h <;> simp_all [decodeCodepoint]

/-- The UTF-8 bytes of a text. -/
def encode (cs : List Char) : List UInt8 := cs.flatMap String.utf8EncodeChar

@[simp] theorem encode_nil : encode [] = [] := rfl

@[simp] theorem encode_cons (c : Char) (cs : List Char) :
    encode (c :: cs) = String.utf8EncodeChar c ++ encode cs := rfl

@[simp] theorem encode_append (cs ds : List Char) : encode (cs ++ ds) = encode cs ++ encode ds :=
  flatMap_append

theorem ascii_byte : ∀ n < 0x80, UInt8.ofNat n &&& 0x80 = 0 ∧ (UInt8.ofNat n).toNat = n := by
  decide

theorem lead_two : ∀ n < 0x20, UInt8.ofNat (n + 0xc0) &&& 0x80 ≠ 0 ∧
    UInt8.ofNat (n + 0xc0) &&& 0x40 ≠ 0 ∧ UInt8.ofNat (n + 0xc0) &&& 0x20 = 0 ∧
    (UInt8.ofNat (n + 0xc0)).toNat &&& 0x1f = n := by
  decide

theorem lead_three : ∀ n < 0x10, UInt8.ofNat (n + 0xe0) &&& 0x80 ≠ 0 ∧
    UInt8.ofNat (n + 0xe0) &&& 0x40 ≠ 0 ∧ UInt8.ofNat (n + 0xe0) &&& 0x20 ≠ 0 ∧
    UInt8.ofNat (n + 0xe0) &&& 0x10 = 0 ∧ (UInt8.ofNat (n + 0xe0)).toNat &&& 0x0f = n := by
  decide

theorem lead_four : ∀ n < 0x08, UInt8.ofNat (n + 0xf0) &&& 0x80 ≠ 0 ∧
    UInt8.ofNat (n + 0xf0) &&& 0x40 ≠ 0 ∧ UInt8.ofNat (n + 0xf0) &&& 0x20 ≠ 0 ∧
    UInt8.ofNat (n + 0xf0) &&& 0x10 ≠ 0 ∧ UInt8.ofNat (n + 0xf0) &&& 0x08 = 0 ∧
    (UInt8.ofNat (n + 0xf0)).toNat &&& 0x07 = n := by
  decide

theorem tail_byte : ∀ n < 0x40, continues (UInt8.ofNat (n + 0x80)) = true ∧
    payload (UInt8.ofNat (n + 0x80)) = n ∧ UInt8.ofNat (n + 0x80) &&& 0x80 ≠ 0 ∧
    UInt8.ofNat (n + 0x80) &&& 0x40 = 0 := by
  decide

theorem shift_or (h : b < 64) : a <<< 6 ||| b = a * 64 + b := by
  rw [← Nat.shiftLeft_add_eq_or_of_lt (by simpa using h), Nat.shiftLeft_eq]

theorem shift_or_three (hb : b < 64) (hc : c < 64) :
    a <<< 12 ||| b <<< 6 ||| c = (a * 64 + b) * 64 + c := by
  rw [show a <<< 12 = (a <<< 6) <<< 6 from (Nat.shiftLeft_add a 6 6), ← Nat.shiftLeft_or_distrib,
    shift_or hb, shift_or hc]

theorem shift_or_four {d : Nat} (hb : b < 64) (hc : c < 64) (hd : d < 64) :
    a <<< 18 ||| b <<< 12 ||| c <<< 6 ||| d = ((a * 64 + b) * 64 + c) * 64 + d := by
  rw [show a <<< 18 = (a <<< 12) <<< 6 from (Nat.shiftLeft_add a 12 6),
    show b <<< 12 = (b <<< 6) <<< 6 from (Nat.shiftLeft_add b 6 6), ← Nat.shiftLeft_or_distrib,
    ← Nat.shiftLeft_or_distrib, shift_or_three hb hc, shift_or hd]

theorem decode_one (h0 : b0 &&& 0x80 = 0) (t : List UInt8) :
    decodeCodepoint (b0 :: t) = .success b0.toNat 1 :=
  if_pos h0

section

variable (h0 : b0 &&& 0x80 ≠ 0)
include h0

theorem decode_tail (h1 : b0 &&& 0x40 = 0) (t : List UInt8) :
    decodeCodepoint (b0 :: t) = .invalid :=
  (if_neg h0).trans (if_pos h1)

theorem decode_two (h1 : b0 &&& 0x40 ≠ 0) (h2 : b0 &&& 0x20 = 0) (hb : continues b1 = true)
    (t : List UInt8) :
    decodeCodepoint (b0 :: b1 :: t) = .success ((b0.toNat &&& 0x1f) <<< 6 ||| payload b1) 2 := by
  simp only [decodeCodepoint, if_neg h0, if_neg h1, if_pos h2, if_pos hb]

theorem decode_three (h1 : b0 &&& 0x40 ≠ 0) (h2 : b0 &&& 0x20 ≠ 0) (h3 : b0 &&& 0x10 = 0)
    (hb : continues b1 = true) (hc : continues b2 = true) (t : List UInt8) :
    decodeCodepoint (b0 :: b1 :: b2 :: t) =
      .success ((b0.toNat &&& 0x0f) <<< 12 ||| payload b1 <<< 6 ||| payload b2) 3 := by
  simp only [decodeCodepoint, if_neg h0, if_neg h1, if_neg h2, if_pos h3, hb, hc,
    Bool.and_self, if_true]

theorem decode_four {b3 : UInt8} (h1 : b0 &&& 0x40 ≠ 0) (h2 : b0 &&& 0x20 ≠ 0)
    (h3 : b0 &&& 0x10 ≠ 0) (h4 : b0 &&& 0x08 = 0) (hb : continues b1 = true)
    (hc : continues b2 = true) (hd : continues b3 = true) (t : List UInt8) :
    decodeCodepoint (b0 :: b1 :: b2 :: b3 :: t) =
      .success ((b0.toNat &&& 0x07) <<< 18 ||| payload b1 <<< 12 ||| payload b2 <<< 6 |||
        payload b3) 4 := by
  simp only [decodeCodepoint, if_neg h0, if_neg h1, if_neg h2, if_neg h3, if_pos h4, hb, hc, hd,
    Bool.and_self, if_true]

end

/-- The decoder reads back the character that the text starts with. -/
theorem decode_encodeChar (c : Char) (t : List UInt8) :
    decodeCodepoint (String.utf8EncodeChar c ++ t) =
      .success c.toNat (String.utf8EncodeChar c).length := by
  have hc : c.toNat < 0x110000 := by
    rcases c.valid with h | h <;> simp only [Char.toNat, UInt32.toNat] at * <;> omega
  have hlt : ∀ n : Nat, n % 64 < 64 := fun n => Nat.mod_lt _ (by decide)
  have tail := fun n => tail_byte (n % 64) (hlt n)
  fun_cases String.utf8EncodeChar c with
  | case1 v h =>
    obtain ⟨h0, hv⟩ := ascii_byte v (by omega)
    rw [cons_append, decode_one h0, hv]
    rfl
  | case2 v h h' =>
    obtain ⟨h0, h1, h2, hv⟩ := lead_two (v / 64 % 0x20) (Nat.mod_lt _ (by decide))
    rw [cons_append, cons_append, decode_two h0 h1 h2 (tail v).1, hv, (tail v).2.1,
      shift_or (hlt v)]
    have hcp : v / 64 % 0x20 * 64 + v % 64 = c.toNat := by change _ = v; omega
    rw [hcp]
    rfl
  | case3 v h h' h'' =>
    obtain ⟨h0, h1, h2, h3, hv⟩ := lead_three (v / 4096 % 0x10) (Nat.mod_lt _ (by decide))
    rw [cons_append, cons_append, cons_append,
      decode_three h0 h1 h2 h3 (tail (v / 64)).1 (tail v).1, hv, (tail v).2.1, (tail (v / 64)).2.1,
      shift_or_three (hlt (v / 64)) (hlt v)]
    have hcp : (v / 4096 % 0x10 * 64 + v / 64 % 64) * 64 + v % 64 = c.toNat := by
      change _ = v; omega
    rw [hcp]
    rfl
  | case4 v h h' h'' =>
    have hv0 : v < 0x110000 := hc
    obtain ⟨h0, h1, h2, h3, h4, hv⟩ := lead_four (v / 262144 % 0x08) (Nat.mod_lt _ (by decide))
    rw [cons_append, cons_append, cons_append, cons_append,
      decode_four h0 h1 h2 h3 h4 (tail (v / 4096)).1 (tail (v / 64)).1 (tail v).1, hv,
      (tail v).2.1, (tail (v / 64)).2.1, (tail (v / 4096)).2.1,
      shift_or_four (hlt (v / 4096)) (hlt (v / 64)) (hlt v)]
    have hcp : ((v / 262144 % 0x08 * 64 + v / 4096 % 64) * 64 + v / 64 % 64) * 64 + v % 64 =
        c.toNat := by
      change _ = v; omega
    rw [hcp]
    rfl

/-- Every byte of a character after its first one is a continuation byte. -/
theorem decode_encodeChar_drop {c : Char} {k : Nat} (h0 : 0 < k)
    (hk : k < (String.utf8EncodeChar c).length) (t : List UInt8) :
    decodeCodepoint ((String.utf8EncodeChar c).drop k ++ t) = .invalid := by
  have tail := fun n => tail_byte (n % 64) (Nat.mod_lt _ (by decide))
  have inv : ∀ n r, decodeCodepoint (UInt8.ofNat (n % 64 + 0x80) :: r) = .invalid := by
    intro n r
    exact decode_tail (tail n).2.2.1 (tail n).2.2.2 r
  revert hk
  fun_cases String.utf8EncodeChar c with
  | case1 v h =>
    intro hk
    simp at hk
    omega
  | case2 v h h' =>
    intro hk
    obtain rfl : k = 1 := by simp at hk; omega
    exact inv _ _
  | case3 v h h' h'' =>
    intro hk
    obtain rfl | rfl : k = 1 ∨ k = 2 := by simp at hk; omega
    · exact inv _ _
    · exact inv _ _
  | case4 v h h' h'' =>
    intro hk
    obtain rfl | rfl | rfl : k = 1 ∨ k = 2 ∨ k = 3 := by simp at hk; omega
    · exact inv _ _
    · exact inv _ _
    · exact inv _ _

/-- Inside a text that ends between two characters the decoder never runs out of bytes. -/
theorem decode_encode_drop (cs : List Char) {i : Nat} (h : i < (encode cs).length) :
    decodeCodepoint ((encode cs).drop i) ≠ .incomplete := by
  induction cs generalizing i with
  | nil => simp at h
  | cons c cs ih =>
    rw [encode_cons] at h ⊢
    rw [length_append] at h
    by_cases hi : i < (String.utf8EncodeChar c).length
    · rw [drop_append_of_le_length (by omega)]
      cases i with
      | zero =>
        rw [drop_zero, decode_encodeChar]
        simp
      | succ k =>
        rw [decode_encodeChar_drop (Nat.succ_pos k) hi]
        simp
    · rw [drop_append, drop_eq_nil_of_le (by omega), nil_append]
      exact ih (by omega)

end Llama.Peg
