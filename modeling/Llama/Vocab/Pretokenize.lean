import Llama.Vocab.Unicode

/-!
# Pre-tokenization

`unicode_regex_split` decodes the text, divides the code points into words, encodes every
word again, and hands the words to `unicode_byte_encoding_process`, which decodes and encodes
them once more. The division is the business of the regular expressions: here it is any list
of lengths that adds up.
-/

namespace Llama.Vocab

open Peg List Option

/-- The words of `unicode_regex_split`: `offsets` are the lengths of the words in code points. -/
def splitWords : List Nat → List Nat → Option (List (List UInt8))
  | _, [] => some []
  | cpts, offset :: offsets => do
    let word ← encodeCpts (cpts.take offset)
    let words ← splitWords (cpts.drop offset) offsets
    pure (word :: words)

/-- The bytes that `unicode_byte_to_utf8_map` maps to the code point of their value. -/
def printable (b : Nat) : Bool :=
  (0x21 ≤ b && b ≤ 0x7E) || (0xA1 ≤ b && b ≤ 0xAC) || (0xAE ≤ b && b ≤ 0xFF)

/-- The code point of a byte in `unicode_byte_to_utf8_map`: the other bytes are numbered from
256 on. -/
def byteCpt (b : Nat) : Nat :=
  if printable b then b else 256 + (range b).countP (fun c => !printable c)

/-- `unicode_byte_to_utf8`. -/
def byteToUtf8 (b : UInt8) : Option (List UInt8) := cptToUtf8 (byteCpt b.toNat)

/-- `unicode_byte_encoding_process` on one word. -/
def byteEncodeWord (word : List UInt8) : Option (List UInt8) := do
  let text ← encodeCpts (cptsFromUtf8 word)
  let encoded ← text.mapM byteToUtf8
  pure encoded.flatten

/-- `unicode_byte_encoding_process`. -/
def byteEncodingProcess (words : List (List UInt8)) : Option (List (List UInt8)) :=
  words.mapM byteEncodeWord

/-- `unicode_regex_split`, given the lengths that the regular expressions divide the text
into. -/
def regexSplit (text : List UInt8) (offsets : List Nat) : Option (List (List UInt8)) := do
  let words ← splitWords (cptsFromUtf8 text) offsets
  byteEncodingProcess words

/-- The bytes start with a four-byte form whose value is above `0x10FFFF`. -/
def Beyond (bytes : List UInt8) : Prop :=
  ∃ b0 b1 b2 b3 t, bytes = b0 :: b1 :: b2 :: b3 :: t ∧ continues b1 ∧ continues b2 ∧
    continues b3 ∧ (b0.toNat = 0xF4 ∧ 0x90 ≤ b1.toNat ∨ 0xF5 ≤ b0.toNat ∧ b0.toNat ≤ 0xF7)

/-- There is such a form somewhere in the text. -/
def HasBeyond (text : List UInt8) : Prop := ∃ p, Beyond (text.drop p)

set_option maxRecDepth 10000 in
theorem lead_bits : ∀ n < 256, (UInt8.ofNat n &&& 0x80 ≠ 0 ∧ UInt8.ofNat n &&& 0x40 ≠ 0 ∧
    UInt8.ofNat n &&& 0x20 ≠ 0 ∧ UInt8.ofNat n &&& 0x10 ≠ 0 ∧ UInt8.ofNat n &&& 0x08 = 0) ↔
    (0xF0 ≤ n ∧ n ≤ 0xF7) := by
  decide

set_option maxRecDepth 10000 in
theorem low_bits : ∀ n < 256, 0xF0 ≤ n → n ≤ 0xF7 → n &&& 0x07 = n - 0xF0 := by
  decide

set_option maxRecDepth 10000 in
theorem tail_bits : ∀ n < 256, continues (UInt8.ofNat n) = true →
    0x80 ≤ n ∧ n &&& 0x3f = n - 0x80 ∧ n &&& 0x3f < 64 := by
  decide

theorem lead_four_iff (b : UInt8) : (b &&& 0x80 ≠ 0 ∧ b &&& 0x40 ≠ 0 ∧ b &&& 0x20 ≠ 0 ∧
    b &&& 0x10 ≠ 0 ∧ b &&& 0x08 = 0) ↔ (0xF0 ≤ b.toNat ∧ b.toNat ≤ 0xF7) := by
  have h := lead_bits b.toNat b.toNat_lt
  rwa [UInt8.ofNat_toNat] at h

variable {b : UInt8} {bytes : List UInt8} {n : Nat} {cpts offsets : List Nat}

theorem payload_eq (h : continues b = true) :
    0x80 ≤ b.toNat ∧ payload b = b.toNat - 0x80 ∧ payload b < 64 := by
  have ht := tail_bits b.toNat b.toNat_lt
  rw [UInt8.ofNat_toNat] at ht
  exact ht h

/-- A form beyond the last code point is decoded like any other. -/
theorem Beyond.decodes (h : Beyond bytes) :
    ∃ cpt, cptFromUtf8 bytes = some (cpt, 4) ∧ maxCpt < cpt := by
  obtain ⟨b0, b1, b2, b3, t, rfl, h1, h2, h3, hv⟩ := h
  have hr : 0xF0 ≤ b0.toNat ∧ b0.toNat ≤ 0xF7 := by omega
  obtain ⟨k0, k1, k2, k3, k4⟩ := (lead_four_iff b0).mpr hr
  refine ⟨_, cptFromUtf8_eq_some.mpr (decode_four k0 k1 k2 k3 k4 h1 h2 h3 t), ?_⟩
  obtain ⟨-, hp1, hl1⟩ := payload_eq h1
  rw [shift_or_four hl1 (payload_eq h2).2.2 (payload_eq h3).2.2,
    low_bits _ b0.toNat_lt hr.1 hr.2, maxCpt]
  omega

/-- A decoded value above the last code point comes from such a form. -/
theorem beyond_of_decoded {cpt : Nat} (h : cptFromUtf8 bytes = some (cpt, n))
    (hcpt : maxCpt < cpt) : Beyond bytes := by
  revert h
  fun_cases cptFromUtf8 bytes with
  | case2 b0 =>
    simp only [some.injEq, Prod.mk.injEq]
    rintro ⟨rfl, -⟩
    have := b0.toNat_lt
    unfold maxCpt at hcpt
    omega
  | case4 b0 _ _ _ b1 _ hc =>
    simp only [some.injEq, Prod.mk.injEq]
    rintro ⟨rfl, -⟩
    have hle : b0.toNat &&& 0x1f ≤ 0x1f := Nat.and_le_right
    rw [shift_or (payload_eq hc).2.2, maxCpt] at hcpt
    have := (payload_eq hc).2.2
    omega
  | case7 b0 _ _ _ _ b1 b2 _ hc =>
    simp only [some.injEq, Prod.mk.injEq]
    rintro ⟨rfl, -⟩
    rw [Bool.and_eq_true] at hc
    have hle : b0.toNat &&& 0x0f ≤ 0x0f := Nat.and_le_right
    have h1 := (payload_eq hc.1).2.2
    have h2 := (payload_eq hc.2).2.2
    rw [shift_or_three h1 h2, maxCpt] at hcpt
    omega
  | case10 b0 k0 k1 k2 k3 k4 b1 b2 b3 t hc =>
    simp only [some.injEq, Prod.mk.injEq]
    rintro ⟨rfl, -⟩
    rw [Bool.and_eq_true, Bool.and_eq_true] at hc
    obtain ⟨hm1, hp1, h1⟩ := payload_eq hc.1.1
    have h2 := (payload_eq hc.1.2).2.2
    have h3 := (payload_eq hc.2).2.2
    have hr := (lead_four_iff b0).mp ⟨k0, k1, k2, k3, k4⟩
    rw [shift_or_four h1 h2 h3, low_bits _ b0.toNat_lt hr.1 hr.2, maxCpt] at hcpt
    exact ⟨b0, b1, b2, b3, t, rfl, hc.1.1, hc.1.2, hc.2, by omega⟩
  | _ => simp

set_option maxRecDepth 10000 in
/-- A continuation byte starts no such form. -/
theorem Beyond.head {t : List UInt8} (h : Beyond (b :: t)) : continues b = false := by
  obtain ⟨b0, b1, b2, b3, t, he, -, -, -, hv⟩ := h
  cases he
  have hb : ∀ n < 256, 0xF4 ≤ n → continues (UInt8.ofNat n) = false := by
    decide
  have := hb b.toNat b.toNat_lt (by omega)
  rwa [UInt8.ofNat_toNat] at this

theorem hasBeyond_nil : ¬ HasBeyond [] := by
  rintro ⟨p, b0, b1, b2, b3, t, h, -⟩
  simp at h

/-- What the decoder steps over hides no such form. -/
theorem hasBeyond_step {rest : List UInt8}
    (hn : ∀ i x, i < n → rest[i]? = some x → continues x = true) :
    HasBeyond (b :: rest) ↔ Beyond (b :: rest) ∨ HasBeyond (rest.drop n) := by
  constructor
  · rintro ⟨p, hp⟩
    rcases p with _ | p
    · exact .inl hp
    · refine .inr ⟨p - n, ?_⟩
      rw [drop_succ_cons] at hp
      rw [drop_drop]
      rcases Nat.lt_or_ge p n with hlt | hge
      · obtain ⟨x, xs, hx⟩ : ∃ x xs, rest.drop p = x :: xs := by
          obtain ⟨b0, b1, b2, b3, t, h, -⟩ := hp
          exact ⟨_, _, h⟩
        have hget : rest[p]? = some x := by
          have := congrArg List.head? hx
          rwa [head?_drop] at this
        have hhead := (hx ▸ hp).head
        rw [hn p x hlt hget] at hhead
        cases hhead
      · rwa [Nat.add_sub_cancel' hge]
  · rintro (h | ⟨p, hp⟩)
    · exact ⟨0, h⟩
    · rw [drop_drop] at hp
      exact ⟨n + p + 1, hp⟩

/-- Every decoded code point can be encoded exactly when no form of the text is beyond the last
one. -/
theorem cptsFromUtf8_le_iff (text : List UInt8) :
    (∀ c ∈ cptsFromUtf8 text, c ≤ maxCpt) ↔ ¬ HasBeyond text := by
  fun_induction cptsFromUtf8 text with
  | case1 => simp [hasBeyond_nil]
  | case2 b rest cpt n h ih =>
    have htail : ∀ i x, i < n - 1 → rest[i]? = some x → continues x = true :=
      fun i x hi hx => cptFromUtf8_tail (i := i + 1) h (by omega) (by omega) hx
    rw [forall_mem_cons, ih, hasBeyond_step htail, not_or]
    have hiff : cpt ≤ maxCpt ↔ ¬ Beyond (b :: rest) := by
      rw [← not_lt, not_iff_not]
      refine ⟨beyond_of_decoded h, fun hb => ?_⟩
      obtain ⟨c, hc, hgt⟩ := hb.decodes
      rw [h] at hc
      cases hc
      exact hgt
    rw [hiff]
  | case3 b rest h ih =>
    rw [forall_mem_cons, ih, hasBeyond_step (n := 0) (by omega), not_or, drop_zero]
    have hno : ¬ Beyond (b :: rest) := by
      intro hb
      obtain ⟨c, hc, -⟩ := hb.decodes
      rw [h] at hc
      cases hc
    simp [hno, replacement, maxCpt]

/-- The words exist when every code point can be encoded, and only then. -/
theorem splitWords_isSome (h : offsets.sum = cpts.length) :
    (splitWords cpts offsets).isSome ↔ ∀ c ∈ cpts, c ≤ maxCpt := by
  induction offsets generalizing cpts with
  | nil =>
    have : cpts = [] := length_eq_zero_iff.mp (by simpa using h.symm)
    simp [splitWords, this]
  | cons o os ih =>
    rw [sum_cons] at h
    have hd := @ih (cpts.drop o) (by rw [length_drop]; omega)
    have hall : (∀ c ∈ cpts, c ≤ maxCpt) ↔
        (∀ c ∈ cpts.take o, c ≤ maxCpt) ∧ ∀ c ∈ cpts.drop o, c ≤ maxCpt := by
      rw [← forall_mem_append, take_append_drop]
    rw [hall, ← hd, ← encodeCpts_isSome, splitWords]
    cases encodeCpts (cpts.take o) with
    | none => simp
    | some w => cases splitWords (cpts.drop o) os <;> simp

/-- Every word is the encoding of code points. -/
theorem splitWords_encoded {words : List (List UInt8)} (h : splitWords cpts offsets = some words) :
    ∀ w ∈ words, ∃ cs, encodeCpts cs = some w := by
  induction offsets generalizing cpts words with
  | nil =>
    cases h
    simp
  | cons o os ih =>
    simp only [splitWords] at h
    cases hw : encodeCpts (cpts.take o) with
    | none => simp [hw] at h
    | some w =>
      cases hws : splitWords (cpts.drop o) os with
      | none => simp [hw, hws] at h
      | some ws =>
        obtain rfl : w :: ws = words := by simpa [hw, hws] using h
        rw [forall_mem_cons]
        exact ⟨⟨_, hw⟩, ih hws⟩

/-- Every byte has a code point in the table. -/
theorem byteToUtf8_isSome (b : UInt8) : (byteToUtf8 b).isSome := by
  rw [byteToUtf8, cptToUtf8_isSome, byteCpt]
  have hb := b.toNat_lt
  have hc : (range b.toNat).countP (fun c => !printable c) ≤ b.toNat := by
    simpa using countP_le_length (p := fun c => !printable c) (l := range b.toNat)
  unfold maxCpt
  split <;> omega

/-- A map over a list that fails nowhere. -/
theorem mapM_isSome {α β : Type} {f : α → Option β} {l : List α} (h : ∀ a ∈ l, (f a).isSome) :
    (l.mapM f).isSome := by
  induction l with
  | nil => simp
  | cons a l ih =>
    rw [forall_mem_cons] at h
    obtain ⟨b, hb⟩ := isSome_iff_exists.mp h.1
    obtain ⟨bs, hbs⟩ := isSome_iff_exists.mp (ih h.2)
    simp [mapM_cons, hb, hbs]

/-- The second decoding and encoding never throws. -/
theorem byteEncodeWord_isSome {w : List UInt8} {cs : List Nat} (h : encodeCpts cs = some w) :
    (byteEncodeWord w).isSome := by
  have hd : cptsFromUtf8 w = cs := by
    have := cptsFromUtf8_encodeCpts h []
    rwa [append_nil, cptsFromUtf8, append_nil] at this
  obtain ⟨e, he⟩ := isSome_iff_exists.mp (mapM_isSome (l := w) fun b _ => byteToUtf8_isSome b)
  simp [byteEncodeWord, hd, h, he]

/-- Decoding a text and encoding every code point again throws nothing, neither by itself nor
within pre-tokenization, exactly when no four-byte form of the text is beyond the last code
point. -/
theorem pretokenize_total_iff (text : List UInt8) (offsets : List Nat)
    (hsum : offsets.sum = (cptsFromUtf8 text).length) :
    ((∀ c ∈ cptsFromUtf8 text, (cptToUtf8 c).isSome) ∧ (regexSplit text offsets).isSome) ↔
      ¬ HasBeyond text := by
  have henc : (∀ c ∈ cptsFromUtf8 text, (cptToUtf8 c).isSome) ↔ ¬ HasBeyond text := by
    simp only [cptToUtf8_isSome]
    exact cptsFromUtf8_le_iff text
  have hsplit : (regexSplit text offsets).isSome ↔ ¬ HasBeyond text := by
    rw [← cptsFromUtf8_le_iff, ← splitWords_isSome hsum, regexSplit]
    cases hw : splitWords (cptsFromUtf8 text) offsets with
    | none => simp
    | some words =>
      have hall : (words.mapM byteEncodeWord).isSome :=
        mapM_isSome fun w hm =>
          have ⟨_, hcs⟩ := splitWords_encoded hw w hm
          byteEncodeWord_isSome hcs
      simpa [byteEncodingProcess] using hall
  rw [henc, hsplit, and_self_iff]

/-- The bytes of the number after the last code point, in the form of four bytes. -/
def beyondLast : List UInt8 := [0xF4, 0x90, 0x80, 0x80]

theorem cptsFromUtf8_beyondLast : cptsFromUtf8 beyondLast = [0x110000] := by
  have hd : cptFromUtf8 [0xF4, 0x90, 0x80, 0x80] = some (0x110000, 4) := by decide
  rw [beyondLast, cptsFromUtf8.eq_2, hd]
  simp [cptsFromUtf8]

theorem pretokenize_total_iff_beyondLast :
    ((∀ c ∈ cptsFromUtf8 beyondLast, (cptToUtf8 c).isSome) ∧ (regexSplit beyondLast [1]).isSome) ↔
      ¬ HasBeyond beyondLast :=
  pretokenize_total_iff beyondLast [1] (by rw [cptsFromUtf8_beyondLast]; rfl)

/-- The decoder accepts these bytes and the encoder throws on what it made of them. -/
theorem beyondLast_throws :
    cptsFromUtf8 beyondLast = [0x110000] ∧ cptToUtf8 0x110000 = none ∧
      regexSplit beyondLast [1] = none := by
  refine ⟨cptsFromUtf8_beyondLast, by decide, ?_⟩
  rw [regexSplit, cptsFromUtf8_beyondLast]
  rfl

end Llama.Vocab
