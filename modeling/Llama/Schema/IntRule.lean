import Llama.Schema.IntExact

/-!
# The rule for bounded integers

What `build_min_max_int` generates, bound by bound, and exactly when that is the texts of the
integers between the bounds.
-/

namespace Llama.Schema

open Common Backtrack Computability List Language

/-- The texts of the integers between the bounds, of up to 16 digits. -/
def intWords (minValue maxValue : Int) : Language Char :=
  {w | ∃ n : Int, minValue ≤ n ∧ n ≤ maxValue ∧ (natText n.natAbs).length ≤ 16 ∧ w = intText n}

/-- The text generates the integers between the bounds, and `-0` at most when zero is one of
them. -/
structure IntExact (env : Str → Language Char) (minValue maxValue : Int) (text : Str) : Prop where
  words : ∀ w, w ≠ str "-0" → (w ∈ textWords env text ↔ w ∈ intWords minValue maxValue)
  zero : str "-0" ∈ textWords env text → minValue ≤ 0 ∧ 0 ≤ maxValue

/-- What stands behind the signs of the negative integers. -/
def negativeWords (minValue maxValue : Int) : Language Char :=
  {s | ∃ k : Nat, 0 < k ∧ minValue ≤ -k ∧ -k ≤ maxValue ∧ (natText k).length ≤ 16 ∧ s = natText k}

/-- The integers without a sign. -/
def positiveWords (minValue maxValue : Int) : Language Char :=
  {s | ∃ k : Nat, minValue ≤ k ∧ k ≤ maxValue ∧ (natText k).length ≤ 16 ∧ s = natText k}

variable {k m n d : Nat} {maxValue minValue : Int} {s w : Str} {N P L : Language Char}
  {env : Str → Language Char} {a b x : Char}

private theorem intText_neg (hk : 0 < k) : intText (-k : Int) = '-' :: natText k := by
  rw [intText, if_pos (by omega), Int.natAbs_neg, Int.natAbs_natCast]

private theorem intText_natCast (k : Nat) : intText (k : Int) = natText k := by
  rw [intText, if_neg (by omega), Int.natAbs_natCast]

private theorem dash_cons_mem_intWords :
    '-' :: s ∈ intWords minValue maxValue ↔ s ∈ negativeWords minValue maxValue := by
  constructor
  · rintro ⟨n, hmin, hmax, hlen, htext⟩
    rcases Int.lt_or_le n 0 with hn | hn
    · obtain ⟨k, rfl⟩ := Int.exists_eq_neg_ofNat (Int.le_of_lt hn)
      rw [Int.natAbs_neg, Int.natAbs_natCast] at hlen
      rw [intText_neg (by omega)] at htext
      exact ⟨k, by omega, hmin, hmax, hlen, (List.cons.inj htext).2⟩
    · obtain ⟨k, rfl⟩ := Int.eq_ofNat_of_zero_le hn
      rw [intText_natCast] at htext
      exact absurd (digits_natText k '-' (htext ▸ mem_cons_self)) (by decide)
  · rintro ⟨k, hk, hmin, hmax, hlen, rfl⟩
    exact ⟨-k, hmin, hmax, by rwa [Int.natAbs_neg, Int.natAbs_natCast], (intText_neg hk).symm⟩

private theorem mem_intWords_of_digits (hs : s.head? ≠ some '-') :
    s ∈ intWords minValue maxValue ↔ s ∈ positiveWords minValue maxValue := by
  constructor
  · rintro ⟨n, hmin, hmax, hlen, rfl⟩
    rcases Int.lt_or_le n 0 with hn | hn
    · obtain ⟨k, rfl⟩ := Int.exists_eq_neg_ofNat (Int.le_of_lt hn)
      rw [intText_neg (by omega)] at hs
      exact absurd rfl hs
    · obtain ⟨k, rfl⟩ := Int.eq_ofNat_of_zero_le hn
      rw [Int.natAbs_natCast] at hlen
      exact ⟨k, hmin, hmax, hlen, intText_natCast k⟩
  · rintro ⟨k, hmin, hmax, hlen, rfl⟩
    exact ⟨k, hmin, hmax, by rwa [Int.natAbs_natCast], (intText_natCast k).symm⟩

/-- What is generated, with a sign and without one. -/
def signedWords (N P : Language Char) : Language Char := {str "-"} * N + P

private theorem dash_cons_mem_signedWords (hP : ∀ s ∈ P, Digits s) :
    '-' :: s ∈ signedWords N P ↔ s ∈ N := by
  rw [signedWords, mem_add]
  constructor
  · rintro (h | h)
    · obtain ⟨u, rfl, v, hv, huv⟩ := mem_mul.mp h
      obtain rfl : v = s := (List.cons.inj huv).2
      exact hv
    · exact absurd (hP _ h '-' mem_cons_self) (by decide)
  · exact fun h => .inl (mem_mul.mpr ⟨str "-", rfl, s, h, rfl⟩)

private theorem mem_signedWords_of_digits (hs : s.head? ≠ some '-') :
    s ∈ signedWords N P ↔ s ∈ P := by
  rw [signedWords, mem_add]
  constructor
  · rintro (h | h)
    · obtain ⟨u, rfl, v, -, rfl⟩ := mem_mul.mp h
      exact absurd rfl hs
    · exact h
  · exact .inr

private theorem intExact_iff {text : Str} (htext : AlternatesDenotes env text (signedWords N P))
    (hP : ∀ s ∈ P, Digits s) :
    IntExact env minValue maxValue text ↔
      (∀ s, s ≠ str "0" → (s ∈ N ↔ s ∈ negativeWords minValue maxValue)) ∧
      P = positiveWords minValue maxValue ∧ (str "0" ∈ N → minValue ≤ 0 ∧ 0 ≤ maxValue) := by
  have hwords := htext.textWords_eq
  have hdash : str "-0" = '-' :: str "0" := rfl
  constructor
  · rintro ⟨hexact, hzero⟩
    rw [hwords] at hexact hzero
    refine ⟨fun s hs => ?_, ?_, fun h => hzero ((dash_cons_mem_signedWords hP).mpr h)⟩
    · have h := hexact ('-' :: s) fun heq => hs (List.cons.inj (hdash ▸ heq)).2
      rwa [dash_cons_mem_signedWords hP, dash_cons_mem_intWords] at h
    · ext s
      by_cases hs : s.head? = some '-'
      · constructor
        · intro h
          exact absurd (hP s h '-' (mem_of_mem_head? hs)) (by decide)
        · rintro ⟨k, -, -, -, rfl⟩
          exact absurd (digits_natText k '-' (mem_of_mem_head? hs)) (by decide)
      · have h := hexact s fun heq => hs (by rw [heq]; rfl)
        rwa [mem_signedWords_of_digits hs, mem_intWords_of_digits hs] at h
  · rintro ⟨hN, rfl, hzero⟩
    constructor
    · intro w hw
      rw [hwords]
      cases w with
      | nil => rw [mem_signedWords_of_digits (by simp), mem_intWords_of_digits (by simp)]
      | cons c s =>
        by_cases hc : c = '-'
        · subst hc
          rw [dash_cons_mem_signedWords hP, dash_cons_mem_intWords]
          exact hN s fun heq => hw (by rw [heq]; rfl)
        · have hhead : (c :: s).head? ≠ some '-' := fun h => hc (Option.some.inj h)
          rw [mem_signedWords_of_digits hhead, mem_intWords_of_digits hhead]
    · intro h
      rw [hwords, hdash, dash_cons_mem_signedWords hP] at h
      exact hzero h

/-- The function returns a rule for these words. -/
def Builds (env : Str → Language Char) (minValue maxValue : Int) (N P : Language Char) : Prop :=
  (∀ s ∈ P, Digits s) ∧
    ∃ text, buildMinMaxInt minValue maxValue = .ok text ∧
      AlternatesDenotes env text (signedWords N P)

private theorem digits_of_mem_naturalWords (h : s ∈ naturalWords m n) : Digits s := by
  obtain ⟨k, -, -, rfl⟩ := h
  exact digits_natText k

private theorem digits_of_mem_fromWords (h : s ∈ fromWords m) : Digits s := by
  obtain ⟨k, -, -, rfl⟩ := h
  exact digits_natText k

/-- What is written for two bounds that are no less than zero. -/
def boundsText (m n : Nat) : Str :=
  digitsLoop (natText n) ((natText n).length - (natText m).length) (natText m).length (natText m)

private theorem build_of_bounds (fuel : Nat) (hn : (n : Int) ≠ int64Max) (d : Nat) (top : Bool) :
    buildMinMaxIntFrom (fuel + 1) m n d top = .ok (boundsText m n) := by
  have hm : (m : Int) ≠ int64Min := by
    rw [int64Min]
    omega
  rw [buildMinMaxIntFrom]
  dsimp only
  rw [if_pos ⟨hm, hn⟩, if_neg (by omega), if_neg (by omega), Int.toNat_natCast, Int.toNat_natCast]
  rfl

section

variable {env : Str → Language Char}

variable {m n : Nat}

private theorem denotes_bounds (hmn : m ≤ n) (hn : (natText n).length ≤ 2000) :
    AlternatesDenotes env (boundsText m n) (naturalWords m n) := by
  have hle := length_natText_mono hmn
  exact digitsLoop_denotes hmn hn _ (by omega)

private theorem denotes_sign : ItemDenotes env (str "\"-\"") {str "-"} := by
  have htext : LiteralText ['-'] ['-'] :=
    LiteralText.char (u := []) (by decide) (fun rest => readChar_plain (by decide) rest)
      LiteralText.nil
  exact ItemDenotes.literal htext

private theorem denotes_dash {inner : Str} (h : AlternatesDenotes env inner N) :
    SequenceDenotes env (str "\"-\" (" ++ inner ++ str ")") ({str "-"} * N) := by
  have hall := denotes_sign.sequence.append h.group.sequence
  have htext : str "\"-\" (" ++ inner ++ str ")" =
      str "\"-\"" ++ str " " ++ (str "(" ++ inner ++ str ")") := by
    simp [str]
  rw [htext]
  exact hall

private theorem length_natText_small (h : n < 10 ^ 15) : (natText n).length ≤ 15 :=
  (length_natText_le_iff (by decide)).mpr h

private theorem ne_int64Max_of_small (h : n < 10 ^ 15) : (n : Int) ≠ int64Max := by
  rw [int64Max]
  omega

private theorem neg_ne_int64Min (h : n < 10 ^ 15) : (-n : Int) ≠ int64Min := by
  rw [int64Min]
  omega

private theorem neg_ne_int64Max (n : Nat) : (-n : Int) ≠ int64Max := by
  rw [int64Max]
  omega

private theorem builds_negative (hm : 0 < m) (hmn : m ≤ n) (hn : n < 10 ^ 15) :
    Builds env (-n : Int) (-m : Int) (naturalWords m n) 0 := by
  have hbuild : buildMinMaxInt (-n : Int) (-m : Int) =
      .ok (str "\"-\" (" ++ boundsText m n ++ str ")") := by
    rw [buildMinMaxInt, buildMinMaxIntFrom]
    dsimp only
    rw [if_pos ⟨neg_ne_int64Min hn, neg_ne_int64Max m⟩, if_pos (by omega), Int.neg_neg, Int.neg_neg,
      build_of_bounds _ (ne_int64Max_of_small hn)]
    rfl
  refine ⟨fun s hs => absurd hs (notMem_zero s), _, hbuild, ?_⟩
  have hlen := length_natText_small hn
  rw [signedWords, add_zero]
  exact (denotes_dash (denotes_bounds hmn (by omega))).alternates

private theorem builds_mixed (hm : 0 < m) (hmsmall : m < 10 ^ 15) (hn : n < 10 ^ 15) :
    Builds env (-m : Int) n (naturalWords 0 m) (naturalWords 0 n) := by
  have hbuild : buildMinMaxInt (-m : Int) n =
      .ok (str "\"-\" (" ++ boundsText 0 m ++ str ") | " ++ boundsText 0 n) := by
    have hzero : (0 : Int) = (0 : Nat) := rfl
    rw [buildMinMaxInt, buildMinMaxIntFrom]
    dsimp only
    rw [if_pos ⟨neg_ne_int64Min hmsmall, ne_int64Max_of_small hn⟩, if_neg (by omega),
      if_pos (by omega), Int.neg_neg, hzero, build_of_bounds _ (ne_int64Max_of_small hmsmall),
        Int.toNat_natCast]
    rfl
  refine ⟨fun s => digits_of_mem_naturalWords, _, hbuild, ?_⟩
  have hmlen := length_natText_small hmsmall
  have hnlen := length_natText_small hn
  have hneg : SequenceDenotes env _ _ := denotes_dash (denotes_bounds (Nat.zero_le m) (by omega))
  have hpos : AlternatesDenotes env _ _ := denotes_bounds (Nat.zero_le n) (by omega)
  have hall := hneg.alternates.append hpos
  have hparen : str ") | " = str ")" ++ str " | " := rfl
  rw [hparen]
  simp only [append_assoc] at hall ⊢
  exact hall

private theorem builds_positive (hmn : m ≤ n) (hn : n < 10 ^ 15) :
    Builds env m n 0 (naturalWords m n) := by
  have hlen := length_natText_small hn
  refine ⟨fun s => digits_of_mem_naturalWords, _,
    build_of_bounds _ (ne_int64Max_of_small hn) _ _, ?_⟩
  rw [signedWords, mul_zero, zero_add]
  exact denotes_bounds hmn (by omega)

end

private theorem digits_of_mem_oneDigit_mul (ha : 48 ≤ a.toNat) (hb : b.toNat ≤ 57)
    (hL : ∀ s ∈ L, Digits s)
    (h : w ∈ oneDigit a b * L) : Digits w := by
  obtain ⟨c, s, rfl, hc, hs⟩ := mem_oneDigit_mul.mp h
  exact digits_cons.mpr ⟨isDigit_iff.mpr (by omega), hL s hs⟩

private theorem digits_of_mem_firstDigitWords {low : Char} (hlow : 48 ≤ low.toNat)
    (hx : x.isDigit = true)
    (hL : ∀ s ∈ L, Digits s) (h : w ∈ firstDigitWords low x k d L) : Digits w := by
  have hcode := isDigit_iff.mp hx
  have hnine : '9'.toNat = 57 := rfl
  cases w with
  | nil => exact absurd h nil_notMem_firstDigitWords
  | cons c s =>
    rcases (cons_mem_firstDigitWords hx).mp h with ⟨-, h1, h2, hs⟩ | ⟨rfl, hs⟩ | ⟨h1, h2, hs⟩
    · exact digits_cons.mpr ⟨isDigit_iff.mpr (by omega), hs.1⟩
    · exact digits_cons.mpr ⟨hx, hL s hs⟩
    · exact digits_cons.mpr ⟨isDigit_iff.mpr (by omega), hs.1⟩

private theorem digits_of_mem_innerWords (fuel : Nat) (h : w ∈ innerWords fuel d m) : Digits w := by
  have hzero : '0'.toNat = 48 := rfl
  have hnine : '9'.toNat = 57 := rfl
  induction fuel generalizing d m w with
  | zero => exact absurd h (notMem_zero w)
  | succ fuel ih =>
    rw [innerWords] at h
    split at h
    · exact h.1
    · split at h
      next hm =>
        obtain ⟨hc, hcode⟩ := isDigit_charOf hm
        have hpred := toNat_predChar hc
        rcases (mem_add _ _ _).mp h with h | h
        · exact digits_of_mem_oneDigit_mul (by omega) (by omega) (fun s hs => hs.1) h
        · exact digits_of_mem_oneDigit_mul (by omega) (by omega) (fun s hs => hs.1) h
      next =>
        exact digits_of_mem_firstDigitWords (by omega) (isDigit_headD m) (fun s hs => ih hs) h

private theorem cons_mem_oneDigit {c : Char} :
    c :: s ∈ oneDigit a b ↔ (a.toNat ≤ c.toNat ∧ c.toNat ≤ b.toNat) ∧ s = [] := by
  constructor
  · rintro ⟨d, hd, heq⟩
    obtain ⟨rfl, rfl⟩ := List.cons.inj heq
    exact ⟨inClass_range_iff.mp hd, rfl⟩
  · rintro ⟨hc, rfl⟩
    exact ⟨c, inClass_range_iff.mpr hc, rfl⟩

private theorem natText_single (hm : m ≤ 9) : natText m = [Char.ofNat ('0'.toNat + m)] := by
  obtain ⟨hc, hcode⟩ := isDigit_charOf hm
  have hvalue : digitsValue [Char.ofNat ('0'.toNat + m)] = m := by
    rw [digitsValue_cons, hcode]
    simp [digitsValue]
  have hdigits : Digits [Char.ofNat ('0'.toNat + m)] :=
    digits_cons.mpr ⟨hc, fun d hd => by cases hd⟩
  have htext := natText_digitsValue hdigits (.inl rfl)
  rwa [hvalue] at htext

private theorem fromWords_digit (hpos : 0 < m) (hm : m ≤ 9) :
    (if '1' < Char.ofNat ('0'.toNat + m) then
        oneDigit '1' (predChar (Char.ofNat ('0'.toNat + m))) * anyDigits 1 15 else 0) +
      oneDigit (Char.ofNat ('0'.toNat + m)) '9' * anyDigits 0 15 = fromWords m := by
  obtain ⟨hx, hcode⟩ := isDigit_charOf hm
  have htext := natText_single hm
  have hpred := toNat_predChar hx
  have hone : '1'.toNat = 49 := rfl
  have hnine : '9'.toNat = 57 := rfl
  revert hx hcode htext hpred
  generalize Char.ofNat ('0'.toNat + m) = x
  intro hx hcode htext hpred
  ext w
  cases w with
  | nil =>
    refine ⟨fun hw => ?_, fun hw => absurd hw nil_notMem_fromWords⟩
    rcases (mem_add _ _ _).mp hw with hw | hw
    · split at hw
      · exact absurd hw nil_notMem_oneDigit_mul
      · exact absurd hw (notMem_zero _)
    · exact absurd hw nil_notMem_oneDigit_mul
  | cons c s =>
    have hfirst : c :: s ∈ (if '1' < x then oneDigit '1' (predChar x) * anyDigits 1 15 else 0) ↔
        (49 ≤ c.toNat ∧ c.toNat < x.toNat) ∧ s ∈ anyDigits 1 15 := by
      split
      next h =>
        rw [char_lt_iff, hone] at h
        rw [cons_mem_oneDigit_mul, hone, hpred]
        refine and_congr_left fun _ => ?_
        omega
      next h =>
        rw [char_lt_iff, hone] at h
        refine ⟨fun hw => absurd hw (notMem_zero _), fun hw => ?_⟩
        omega
    rw [mem_add, hfirst, cons_mem_oneDigit_mul, cons_mem_fromWords, mem_anyDigits,
      mem_anyDigits, hnine, isDigit_iff]
    by_cases hc : c.isDigit = true ∧ Digits s
    · obtain ⟨hc, hs⟩ := hc
      have hccode := isDigit_iff.mp hc
      by_cases hzero : c.toNat = 48
      · simp only [hs, true_and, hzero, forall_const]
        constructor
        · omega
        · rintro ⟨⟨-, rfl⟩, -, hle⟩
          obtain rfl : c = '0' := Char.toNat_inj.mp hzero
          have hsmall : digitsValue ['0'] = 0 := rfl
          omega
      · rw [le_digitsValue_iff htext hc hs hzero]
        have hnil : digitsValue [] = 0 := rfl
        simp only [hs, true_and, and_true, hzero, false_implies, hnil, length_nil]
        omega
    · constructor
      · rintro (⟨h, hs, -⟩ | ⟨h, hs, -⟩) <;> exact absurd ⟨isDigit_iff.mpr (by omega), hs⟩ hc
      · rintro ⟨⟨h, hs, -⟩, -⟩
        exact absurd ⟨isDigit_iff.mpr h, hs⟩ hc

/-- `[1-9] [0-9]{0,15}`. -/
theorem fromWords_one : oneDigit '1' '9' * anyDigits 0 15 = fromWords 1 := by
  have h := fromWords_digit (m := 1) (by decide) (by decide)
  have hchar : Char.ofNat ('0'.toNat + 1) = '1' := rfl
  rwa [hchar, if_neg (by decide), zero_add] at h

/-- `[0] | [1-9] [0-9]{0,15}`. -/
theorem fromWords_zero : oneDigit '0' '0' + oneDigit '1' '9' * anyDigits 0 15 = fromWords 0 := by
  rw [fromWords_one]
  ext w
  rw [mem_add]
  constructor
  · rintro (⟨c, hc, rfl⟩ | ⟨k, -, hlen, rfl⟩)
    · have hrange := inClass_range_iff.mp hc
      obtain rfl : c = '0' := Char.toNat_inj.mp (Nat.le_antisymm hrange.2 hrange.1)
      exact ⟨0, Nat.le_refl 0, by decide, rfl⟩
    · exact ⟨k, Nat.zero_le k, hlen, rfl⟩
  · rintro ⟨k, -, hlen, rfl⟩
    cases k with
    | zero => exact .inl (cons_mem_oneDigit.mpr ⟨⟨Nat.le_refl _, Nat.le_refl _⟩, rfl⟩)
    | succ k => exact .inr ⟨k + 1, Nat.succ_pos k, hlen, rfl⟩

section

variable {env : Str → Language Char}

private theorem denotes_unsigned :
    AlternatesDenotes env (str "[0] | [1-9] " ++ moreDigits 0 15) (fromWords 0) := by
  have hzero : ItemDenotes env (str "[0]") (oneDigit '0' '0') := denotes_digit (a := '0') rfl
  have hfirst : ItemDenotes env (str "[1-9]") (oneDigit '1' '9') :=
    denotes_oneDigit (a := '1') (b := '9') rfl rfl
  have hmore : ItemDenotes env (moreDigits 0 15) (anyDigits 0 15) :=
    denotes_moreDigits (by decide) (by decide)
  rw [← fromWords_zero]
  exact hzero.sequence.alternates.append (hfirst.sequence.append hmore.sequence).alternates

variable {n m : Nat}

private theorem build_of_upper (fuel : Nat) (hn : n < 10 ^ 15) (d : Nat) (top : Bool) :
    buildMinMaxIntFrom (fuel + 2) int64Min n d top =
      .ok ((if top then str "\"-\" [1-9] " ++ moreDigits 0 (max (d - 1) 1) ++ str " | " else []) ++
        boundsText 0 n) := by
  have hmax := ne_int64Max_of_small hn
  have hzero : (0 : Int) = (0 : Nat) := rfl
  rw [buildMinMaxIntFrom]
  dsimp only
  rw [if_neg (fun h => h.1 rfl), if_neg (not_not.mpr rfl), if_pos hmax, if_pos (by omega), hzero,
    build_of_bounds fuel hmax]
  rfl

/-- No upper bound, and negative numbers are let in. -/
theorem builds_from_negative (hm : 0 < m) (hsmall : m < 10 ^ 15) :
    Builds env (-m : Int) int64Max (naturalWords 0 m) (fromWords 0) := by
  have hbuild : buildMinMaxInt (-m : Int) int64Max =
      .ok (str "\"-\" (" ++ boundsText 0 m ++ str ") | [0] | [1-9] " ++ moreDigits 0 15) := by
    rw [buildMinMaxInt, buildMinMaxIntFrom]
    dsimp only
    rw [if_neg (fun h => h.2 rfl), if_pos (neg_ne_int64Min hsmall), if_pos (by omega), Int.neg_neg,
      build_of_upper _ hsmall]
    rfl
  refine ⟨fun s => digits_of_mem_fromWords, _, hbuild, ?_⟩
  have hlen := length_natText_small hsmall
  have hneg : SequenceDenotes env _ _ := denotes_dash (denotes_bounds (Nat.zero_le m) (by omega))
  have hall := hneg.alternates.append denotes_unsigned
  have hparen : str ") | [0] | [1-9] " = str ")" ++ (str " | " ++ str "[0] | [1-9] ") := rfl
  rw [hparen]
  simp only [append_assoc] at hall ⊢
  exact hall

/-- No upper bound, and a lower bound of one digit. -/
theorem builds_from_digit (hm : m ≤ 9) : Builds env m int64Max 0 (fromWords m) := by
  have hbuild := build_of_lower 23 m 16 true
  have hless : max (16 - 1) 1 = 15 := rfl
  dsimp only at hbuild
  rw [hless] at hbuild
  by_cases hzero : m = 0
  · subst hzero
    refine ⟨fun s => digits_of_mem_fromWords, _, hbuild, ?_⟩
    rw [signedWords, mul_zero, zero_add]
    exact denotes_unsigned
  · rw [if_neg hzero, if_pos hm, if_pos rfl] at hbuild
    refine ⟨fun s => digits_of_mem_fromWords, _, hbuild, ?_⟩
    rw [signedWords, mul_zero, zero_add, ← fromWords_digit (by omega) hm]
    obtain ⟨hc, hcode⟩ := isDigit_charOf hm
    have hone : '1'.toNat = 49 := rfl
    have hpredcode := toNat_predChar hc
    have hlast : AlternatesDenotes env
        (digitRange (Char.ofNat ('0'.toNat + m)) '9' ++ str " " ++ moreDigits 0 15)
        (oneDigit (Char.ofNat ('0'.toNat + m)) '9' * anyDigits 0 15) :=
      ((denotes_digitRange hc rfl).sequence.append
        (denotes_moreDigits (by decide) (by decide)).sequence).alternates
    split
    next h =>
      rw [char_lt_iff, hone, hcode] at h
      have hpred : (predChar (Char.ofNat ('0'.toNat + m))).isDigit = true :=
        isDigit_iff.mpr (by omega)
      have hfirst : SequenceDenotes env
          (digitRange '1' (predChar (Char.ofNat ('0'.toNat + m))) ++ str " " ++ moreDigits 1 15)
          (oneDigit '1' (predChar (Char.ofNat ('0'.toNat + m))) * anyDigits 1 15) :=
        (denotes_digitRange rfl hpred).sequence.append
          (denotes_moreDigits (by decide) (by decide)).sequence
      have hall := hfirst.alternates.append hlast
      simp only [append_assoc] at hall ⊢
      exact hall
    next =>
      rw [nil_append, zero_add]
      exact hlast

/-- No upper bound, and a lower bound of several digits. -/
theorem builds_from_digits {r : Str} (hm : natText m = x :: r) (hne : r ≠ []) (hd : r.length ≤ 14) :
    Builds env m int64Max 0
      (firstDigitWords '1' x (r.length + 1) 15 (innerWords 23 15 (digitsValue r))) := by
  have hpos := length_pos_iff.mpr hne
  obtain ⟨hx, hr⟩ := digits_cons.mp (hm ▸ digits_natText m)
  have hbig : ¬m ≤ 9 := by
    intro hle
    have hl := (length_natText_le_iff (n := m) (k := 1) Nat.one_pos).mpr (by omega)
    rw [hm, length_cons] at hl
    omega
  have htail := (length_tail_le (m := m) (by omega)).2
  rw [hm, tail_cons, length_cons] at htail
  obtain ⟨inner, hinner, hwords⟩ :
      ∃ inner, buildMinMaxIntFrom 23 (digitsValue r : Nat) int64Max 15 false = .ok inner ∧
        AlternatesDenotes env inner (innerWords 23 15 (digitsValue r)) :=
    inner_denotes 23 (by omega) (by omega) (by decide)
  have hbuild := build_of_lower 23 m 16 true
  have hless : max (16 - 1) 1 = 15 := rfl
  dsimp only at hbuild
  rw [if_neg (by omega), if_neg hbig, hm, hless, tail_cons, hinner, headD_cons,
    if_pos rfl, length_cons] at hbuild
  refine ⟨fun s hs => ?_, _, hbuild, ?_⟩
  · exact digits_of_mem_firstDigitWords (by decide) hx
      (fun u hu => digits_of_mem_innerWords 23 hu) hs
  · rw [signedWords, mul_zero, zero_add]
    exact denotes_firstDigit (by decide) hx (by omega) (by decide) hwords

/-- No lower bound, and an upper bound that is no less than zero. -/
theorem builds_to_natural (hn : n < 10 ^ 15) :
    Builds env int64Min n (fromWords 1) (naturalWords 0 n) := by
  refine ⟨fun s => digits_of_mem_naturalWords, _, build_of_upper 22 hn 16 true, ?_⟩
  have hlen := length_natText_small hn
  have hfirst : ItemDenotes env (str "[1-9]") (oneDigit '1' '9') :=
    denotes_oneDigit (a := '1') (b := '9') rfl rfl
  have hmore : ItemDenotes env (moreDigits 0 15) (anyDigits 0 15) :=
    denotes_moreDigits (by decide) (by decide)
  have hneg := denotes_sign.sequence.append (hfirst.sequence.append hmore.sequence)
  have hpos : AlternatesDenotes env _ _ := denotes_bounds (Nat.zero_le n) (by omega)
  have hall := hneg.alternates.append hpos
  rw [fromWords_one] at hall
  rw [if_pos rfl]
  exact hall

/-- No lower bound, and a negative upper bound. -/
theorem builds_to_negative (hm : 0 < m) (hsmall : m < 10 ^ 15) :
    Builds env int64Min (-m : Int) (innerWords 23 16 m) 0 := by
  have hlen := length_natText_small hsmall
  obtain ⟨inner, hinner, hwords⟩ : ∃ inner, buildMinMaxIntFrom 23 m int64Max 16 false = .ok inner ∧
      AlternatesDenotes env inner (innerWords 23 16 m) :=
    inner_denotes 23 (by omega) (by omega) (by decide)
  have hbuild : buildMinMaxInt int64Min (-m : Int) =
      .ok (str "\"-\" (" ++ inner ++ str ")") := by
    rw [buildMinMaxInt, buildMinMaxIntFrom]
    dsimp only
    rw [if_neg (fun h => h.1 rfl), if_neg (not_not.mpr rfl), if_pos (neg_ne_int64Max m),
      if_neg (by omega),
      Int.neg_neg, hinner]
    rfl
  refine ⟨fun s hs => absurd hs (notMem_zero s), _, hbuild, ?_⟩
  rw [signedWords, add_zero]
  exact (denotes_dash hwords).alternates

end

private theorem natText_eq_zero : natText k = str "0" ↔ k = 0 := by
  constructor
  · intro h
    have hvalue := digitsValue_natText k
    rw [h] at hvalue
    exact hvalue.symm
  · rintro rfl
    rfl

private theorem length_natText_le_sixteen : (natText k).length ≤ 16 ↔ k < 10 ^ 16 :=
  length_natText_le_iff (by decide)

private theorem negativeWords_of_nonneg (h : 0 ≤ minValue) :
    negativeWords minValue maxValue = 0 := by
  ext s
  refine ⟨?_, fun hs => absurd hs (notMem_zero s)⟩
  rintro ⟨k, hk, hmin, -⟩
  omega

private theorem positiveWords_of_neg (h : maxValue < 0) : positiveWords minValue maxValue = 0 := by
  ext s
  refine ⟨?_, fun hs => absurd hs (notMem_zero s)⟩
  rintro ⟨k, -, hmax, -⟩
  omega

private theorem naturalWords_eq_positiveWords (hm : minValue.toNat = m) (hn : n < 10 ^ 15) :
    naturalWords m n = positiveWords minValue n := by
  ext s
  constructor
  · rintro ⟨k, hlow, hhigh, rfl⟩
    exact ⟨k, by omega, by omega, length_natText_le_sixteen.mpr (by omega), rfl⟩
  · rintro ⟨k, hlow, hhigh, -, rfl⟩
    exact ⟨k, by omega, by omega, rfl⟩

private theorem fromWords_eq_positiveWords (hm : minValue.toNat = m) :
    fromWords m = positiveWords minValue int64Max := by
  ext s
  constructor
  · rintro ⟨k, hlow, hl, rfl⟩
    have hlt := length_natText_le_sixteen.mp hl
    refine ⟨k, by omega, ?_, hl, rfl⟩
    rw [int64Max]
    omega
  · rintro ⟨k, hlow, -, hl, rfl⟩
    exact ⟨k, by omega, hl, rfl⟩

private theorem mem_naturalWords_iff_negative (hm : (-maxValue).toNat = m) (hn : n < 10 ^ 15)
    (hs : s ≠ str "0") : s ∈ naturalWords m n ↔ s ∈ negativeWords (-n) maxValue := by
  constructor
  · rintro ⟨k, hlow, hhigh, rfl⟩
    have hk : k ≠ 0 := fun h => hs (natText_eq_zero.mpr h)
    exact ⟨k, by omega, by omega, by omega, length_natText_le_sixteen.mpr (by omega), rfl⟩
  · rintro ⟨k, hk, hlow, hhigh, -, rfl⟩
    exact ⟨k, by omega, by omega, rfl⟩

private theorem fromWords_eq_negativeWords (hm : max (-maxValue).toNat 1 = m) :
    fromWords m = negativeWords int64Min maxValue := by
  ext s
  constructor
  · rintro ⟨k, hlow, hl, rfl⟩
    have hlt := length_natText_le_sixteen.mp hl
    refine ⟨k, by omega, ?_, by omega, hl, rfl⟩
    rw [int64Min]
    omega
  · rintro ⟨k, hk, -, hhigh, hl, rfl⟩
    exact ⟨k, by omega, hl, rfl⟩

/-- The bound begins with one, and no other digit but the last one is zero or one. -/
def PlainAfterOne (text : Str) : Prop :=
  1 < text.length ∧ text.headD '0' = '1' ∧ PlainDigits text.tail

instance (text : Str) : Decidable (PlainAfterOne text) :=
  inferInstanceAs (Decidable (1 < text.length ∧ text.headD '0' = '1' ∧ PlainDigits text.tail))

private theorem lower_exact_iff {r : Str} (hm : natText m = x :: r) (hne : r ≠ [])
    (hd : r.length ≤ 14) :
    firstDigitWords '1' x (r.length + 1) 15 (innerWords 23 15 (digitsValue r)) = fromWords m ↔
      PlainDigits r := by
  obtain ⟨hx, hr⟩ := digits_cons.mp (hm ▸ digits_natText m)
  rw [firstDigitWords_eq_fromWords hm hne hd, innerWords_eq_iff hr hne (by omega) (by omega)]

/-- Behind the sign the zeros in front are let in, unless the bound begins with one. -/
theorem upper_exact_iff (hpos : 0 < m) (hsmall : m < 10 ^ 15) :
    (∀ s, s ≠ str "0" → (s ∈ innerWords 23 16 m ↔ s ∈ fromWords m)) ∧
        str "0" ∉ innerWords 23 16 m ↔ PlainAfterOne (natText m) := by
  have hlen := length_natText_small hsmall
  have hzeroCode : '0'.toNat = 48 := rfl
  have honeCode : '1'.toNat = 49 := rfl
  have hnineCode : '9'.toNat = 57 := rfl
  have hzeroText : str "0" = ['0'] := rfl
  have hzeros : ∀ k, '0' :: replicate (k + 1) '0' ∉ fromWords m := by
    intro k hmem
    have hnil := (cons_mem_fromWords.mp hmem).1.2.2 rfl
    cases hnil
  have hne0 : ∀ k, '0' :: replicate (k + 1) '0' ≠ str "0" := by
    intro k heq
    cases heq
  by_cases hnine : m ≤ 9
  · obtain ⟨hc, hcode⟩ := isDigit_charOf hnine
    have hpred := toNat_predChar hc
    have hmem : '0' :: replicate 1 '0' ∈ innerWords 23 16 m := by
      rw [innerWords, if_neg (by omega), if_pos hnine, mem_add, cons_mem_oneDigit_mul]
      refine .inl ⟨⟨Nat.le_refl _, by omega⟩, digits_replicate rfl 1, ?_, ?_⟩
      · exact Nat.le_refl 1
      · exact Nat.le_of_ble_eq_true rfl
    constructor
    · exact fun h => absurd ((h.1 _ (hne0 0)).mp hmem) (hzeros 0)
    · rintro ⟨hone, -⟩
      rw [natText_single hnine] at hone
      exact absurd hone (Nat.lt_irrefl 1)
  · obtain ⟨x, r, hm⟩ : ∃ x r, natText m = x :: r := exists_cons_of_ne_nil (natText_ne_nil m)
    have hlong := (length_tail_le (m := m) (by omega)).1
    rw [hm, length_cons] at hlong hlen
    have hne : r ≠ [] := length_pos_iff.mp (by omega)
    obtain ⟨hx, hr⟩ := digits_cons.mp (hm ▸ digits_natText m)
    have hxcode := isDigit_iff.mp hx
    have hlead : x.toNat ≠ 48 := by
      intro hzero
      obtain rfl : x = '0' := Char.toNat_inj.mp hzero
      exact hne (natText_zero_front hm)
    have hless : max (16 - 1) 1 = 15 := rfl
    have hwords : innerWords 23 16 m =
        firstDigitWords '0' x (r.length + 1) 15 (innerWords 22 15 (digitsValue r)) := by
      rw [innerWords, if_neg (by omega), if_neg hnine, hm, hless]
      rfl
    rw [hwords, hm, PlainAfterOne, headD_cons, tail_cons, length_cons]
    by_cases hone : x.toNat = 49
    · obtain rfl : x = '1' := Char.toNat_inj.mp hone
      have hlow : firstDigitWords '0' '1' (r.length + 1) 15 (innerWords 22 15 (digitsValue r)) =
          firstDigitWords '1' '1' (r.length + 1) 15 (innerWords 22 15 (digitsValue r)) := rfl
      have hinner : innerWords 22 15 (digitsValue r) = lowerWords r 15 ↔ PlainDigits r :=
        innerWords_eq_iff hr hne (by omega) (by omega)
      rw [hlow, and_iff_right hlong, and_iff_right rfl, ← hinner,
        ← firstDigitWords_eq_fromWords hm hne (by omega)]
      have hzeroNot : str "0" ∉
          firstDigitWords '1' '1' (r.length + 1) 15 (innerWords 22 15 (digitsValue r)) := by
        intro hmem
        rw [hzeroText] at hmem
        rcases (cons_mem_firstDigitWords hx).mp hmem with h | h | h
        · omega
        · cases h.1
        · omega
      have hzeroFrom : str "0" ∉ fromWords m := by
        intro hmem
        rw [hzeroText] at hmem
        have hle := (cons_mem_fromWords.mp hmem).2.2
        have hsmall : digitsValue ['0'] = 0 := rfl
        omega
      constructor
      · rintro ⟨heq, -⟩
        ext s
        by_cases hs : s = str "0"
        · rw [hs]
          exact iff_of_false hzeroNot hzeroFrom
        · exact heq s hs
      · intro heq
        exact ⟨fun s _ => by rw [heq], hzeroNot⟩
    · have hmem : '0' :: replicate (r.length + 1) '0' ∈
          firstDigitWords '0' x (r.length + 1) 15 (innerWords 22 15 (digitsValue r)) := by
        rw [cons_mem_firstDigitWords hx]
        refine .inl ⟨by omega, Nat.le_refl _, by omega, digits_replicate rfl _, ?_, ?_⟩
        · rw [length_replicate]
        · rw [length_replicate]
          omega
      constructor
      · exact fun h => absurd ((h.1 _ (hne0 r.length)).mp hmem) (hzeros r.length)
      · rintro ⟨-, rfl, -⟩
        exact absurd rfl hone

/-- When the rule generates exactly what is between the bounds. -/
def BoundsExact (minValue maxValue : Int) : Prop :=
  if maxValue = int64Max then minValue < 0 ∨ PlainDigits (natText minValue.toNat).tail
  else if minValue = int64Min then 0 ≤ maxValue ∨ PlainAfterOne (natText (-maxValue).toNat)
  else True

instance (minValue maxValue : Int) : Decidable (BoundsExact minValue maxValue) :=
  inferInstanceAs (Decidable
    (if maxValue = int64Max then minValue < 0 ∨ PlainDigits (natText minValue.toNat).tail
    else if minValue = int64Min then 0 ≤ maxValue ∨ PlainAfterOne (natText (-maxValue).toNat)
    else True))

private theorem intExact_of_builds (hbuild : Builds env minValue maxValue N P) :
    ∃ text, buildMinMaxInt minValue maxValue = .ok text ∧
      (IntExact env minValue maxValue text ↔
        (∀ s, s ≠ str "0" → (s ∈ N ↔ s ∈ negativeWords minValue maxValue)) ∧
        P = positiveWords minValue maxValue ∧
        (str "0" ∈ N → minValue ≤ 0 ∧ 0 ≤ maxValue)) := by
  obtain ⟨hdigits, text, htext, hdenotes⟩ := hbuild
  exact ⟨text, htext, intExact_iff hdenotes hdigits⟩

private theorem zero_mem_naturalWords (h : str "0" ∈ naturalWords m n) : m = 0 := by
  obtain ⟨k, hlow, -, htext⟩ := h
  have hk := natText_eq_zero.mp htext.symm
  omega

section

variable (env : Str → Language Char)

variable {maxValue minValue : Int}

private theorem exact_of_bounds (hmin : minValue.natAbs < 10 ^ 15)
    (hmax : maxValue.natAbs < 10 ^ 15)
    (hle : minValue ≤ maxValue) :
    ∃ text, buildMinMaxInt minValue maxValue = .ok text ∧ IntExact env minValue maxValue text := by
  rcases Int.lt_or_le maxValue 0 with hneg | hnonneg
  · obtain ⟨m, rfl⟩ := Int.exists_eq_neg_ofNat (Int.le_of_lt hneg)
    obtain ⟨n, rfl⟩ := Int.exists_eq_neg_ofNat (Int.le_of_lt (Int.lt_of_le_of_lt hle hneg))
    have hbuild : Builds env (-n) (-m) _ _ := builds_negative (by omega) (by omega) (by omega)
    obtain ⟨text, htext, hiff⟩ := intExact_of_builds hbuild
    refine ⟨text, htext, hiff.mpr ⟨fun s hs => ?_, ?_, fun hzero => ?_⟩⟩
    · exact mem_naturalWords_iff_negative (by omega) (by omega) hs
    · exact (positiveWords_of_neg hneg).symm
    · have := zero_mem_naturalWords hzero
      omega
  · obtain ⟨n, rfl⟩ := Int.eq_ofNat_of_zero_le hnonneg
    rcases Int.lt_or_le minValue 0 with hminneg | hminnonneg
    · obtain ⟨m, rfl⟩ := Int.exists_eq_neg_ofNat (Int.le_of_lt hminneg)
      have hbuild : Builds env (-m) n _ _ := builds_mixed (by omega) (by omega) (by omega)
      obtain ⟨text, htext, hiff⟩ := intExact_of_builds hbuild
      refine ⟨text, htext, hiff.mpr ⟨fun s hs => ?_, ?_, fun _ => ⟨by omega, hnonneg⟩⟩⟩
      · exact mem_naturalWords_iff_negative (by omega) (by omega) hs
      · exact naturalWords_eq_positiveWords (by omega) (by omega)
    · obtain ⟨m, rfl⟩ := Int.eq_ofNat_of_zero_le hminnonneg
      have hbuild : Builds env m n _ _ := builds_positive (by omega) (by omega)
      obtain ⟨text, htext, hiff⟩ := intExact_of_builds hbuild
      refine ⟨text, htext, hiff.mpr ⟨fun s _ => ?_, ?_, fun hzero => ?_⟩⟩
      · rw [negativeWords_of_nonneg hminnonneg]
      · exact naturalWords_eq_positiveWords (by omega) (by omega)
      · exact absurd hzero (notMem_zero _)

private theorem exact_iff_of_lower (hmin : minValue.natAbs < 10 ^ 15) :
    ∃ text, buildMinMaxInt minValue int64Max = .ok text ∧
      (IntExact env minValue int64Max text ↔
        minValue < 0 ∨ PlainDigits (natText minValue.toNat).tail) := by
  rcases Int.lt_or_le minValue 0 with hneg | hnonneg
  · obtain ⟨m, rfl⟩ := Int.exists_eq_neg_ofNat (Int.le_of_lt hneg)
    have hbuild : Builds env (-m) int64Max _ _ := builds_from_negative (by omega) (by omega)
    obtain ⟨text, htext, hiff⟩ := intExact_of_builds hbuild
    refine ⟨text, htext, iff_of_true (hiff.mpr ⟨fun s hs => ?_, ?_, fun _ => ?_⟩) (.inl hneg)⟩
    · exact mem_naturalWords_iff_negative (by rw [int64Max]; omega) (by omega) hs
    · exact fromWords_eq_positiveWords (by omega)
    · rw [int64Max]
      omega
  · obtain ⟨m, rfl⟩ := Int.eq_ofNat_of_zero_le hnonneg
    have hfrom : fromWords m = positiveWords m int64Max := fromWords_eq_positiveWords (by omega)
    have hnone : negativeWords m int64Max = 0 := negativeWords_of_nonneg hnonneg
    rw [Int.toNat_natCast, or_iff_right (by omega)]
    by_cases hnine : m ≤ 9
    · have hbuild : Builds env m int64Max _ _ := builds_from_digit hnine
      obtain ⟨text, htext, hiff⟩ := intExact_of_builds hbuild
      refine ⟨text, htext, iff_of_true (hiff.mpr ⟨fun s _ => ?_, hfrom, fun hzero => ?_⟩) ?_⟩
      · rw [hnone]
      · exact absurd hzero (notMem_zero _)
      · rw [natText_single hnine]
        intro c hc
        cases hc
    · obtain ⟨x, r, htext⟩ : ∃ x r, natText m = x :: r := exists_cons_of_ne_nil (natText_ne_nil m)
      have hlong := (length_tail_le (m := m) (by omega)).1
      have hlen := length_natText_small (n := m) (by omega)
      rw [htext, length_cons] at hlong hlen
      have hne : r ≠ [] := length_pos_iff.mp (by omega)
      have hbuild : Builds env m int64Max _ _ := builds_from_digits htext hne (by omega)
      obtain ⟨text, hok, hiff⟩ := intExact_of_builds hbuild
      refine ⟨text, hok, hiff.trans ?_⟩
      rw [hnone, ← hfrom, lower_exact_iff htext hne (by omega), htext, tail_cons]
      constructor
      · exact fun h => h.2.1
      · exact fun h => ⟨fun _ _ => Iff.rfl, h, fun hzero => absurd hzero (notMem_zero _)⟩

private theorem exact_iff_of_upper (hmax : maxValue.natAbs < 10 ^ 15) :
    ∃ text, buildMinMaxInt int64Min maxValue = .ok text ∧
      (IntExact env int64Min maxValue text ↔
        0 ≤ maxValue ∨ PlainAfterOne (natText (-maxValue).toNat)) := by
  have hlow : int64Min ≤ 0 := by decide
  rcases Int.lt_or_le maxValue 0 with hneg | hnonneg
  · obtain ⟨m, rfl⟩ := Int.exists_eq_neg_ofNat (Int.le_of_lt hneg)
    have hpos : 0 < m := by omega
    have hbuild : Builds env int64Min (-m) _ _ := builds_to_negative hpos (by omega)
    obtain ⟨text, htext, hiff⟩ := intExact_of_builds hbuild
    have hfrom : fromWords m = negativeWords int64Min (-m) := fromWords_eq_negativeWords (by omega)
    refine ⟨text, htext, hiff.trans ?_⟩
    rw [← hfrom, positiveWords_of_neg hneg, Int.neg_neg, Int.toNat_natCast,
      or_iff_right (by omega), ← upper_exact_iff hpos (by omega)]
    constructor
    · exact fun h => ⟨h.1, fun hzero => absurd (h.2.2 hzero).2 (by omega)⟩
    · exact fun h => ⟨h.1, rfl, fun hzero => absurd hzero h.2⟩
  · obtain ⟨n, rfl⟩ := Int.eq_ofNat_of_zero_le hnonneg
    have hbuild : Builds env int64Min n _ _ := builds_to_natural (by omega)
    obtain ⟨text, htext, hiff⟩ := intExact_of_builds hbuild
    have hneg : fromWords 1 = negativeWords int64Min n := fromWords_eq_negativeWords (by omega)
    refine ⟨text, htext, iff_of_true (hiff.mpr ⟨fun s _ => ?_, ?_, fun _ => ⟨hlow, hnonneg⟩⟩)
      (.inl hnonneg)⟩
    · rw [hneg]
    · exact naturalWords_eq_positiveWords (by rw [int64Min]; omega) (by omega)

/-- For each pair of bounds the rule is exact just when these digits are. -/
theorem buildMinMaxInt_exact_iff {minValue maxValue : Int}
    (hmin : minValue = int64Min ∨ minValue.natAbs < 10 ^ 15)
    (hmax : maxValue = int64Max ∨ maxValue.natAbs < 10 ^ 15) (hle : minValue ≤ maxValue)
    (hbound : minValue ≠ int64Min ∨ maxValue ≠ int64Max) :
    ∃ text, buildMinMaxInt minValue maxValue = .ok text ∧
      (IntExact env minValue maxValue text ↔ BoundsExact minValue maxValue) := by
  have hlow : int64Min.natAbs = 2 ^ 63 := rfl
  have hhigh : int64Max.natAbs = 2 ^ 63 - 1 := rfl
  rw [BoundsExact]
  by_cases hmaxTop : maxValue = int64Max
  · subst hmaxTop
    have hsmall : minValue.natAbs < 10 ^ 15 :=
      hmin.resolve_left (hbound.resolve_right (not_not.mpr rfl))
    rw [if_pos rfl]
    exact exact_iff_of_lower env hsmall
  · have hmaxSmall := hmax.resolve_left hmaxTop
    rw [if_neg hmaxTop]
    by_cases hminLow : minValue = int64Min
    · subst hminLow
      rw [if_pos rfl]
      exact exact_iff_of_upper env hmaxSmall
    · obtain ⟨text, htext, hexact⟩ := exact_of_bounds env (hmin.resolve_left hminLow) hmaxSmall hle
      rw [if_neg hminLow]
      exact ⟨text, htext, iff_of_true hexact trivial⟩

/-- 23 is let in with all that is greater. -/
theorem buildMinMaxInt_exact_iff_twentythree : ∃ text, buildMinMaxInt 23 int64Max = .ok text ∧
    (IntExact (fun _ => 0) 23 int64Max text ↔ BoundsExact 23 int64Max) :=
  buildMinMaxInt_exact_iff (fun _ => 0) (.inr (by decide)) (.inl rfl) (by decide) (.inl (by decide))

/-- The rule for the integers from 100 on lets 10 in: the call for what follows the first digit gets
`00` as the number zero. -/
theorem buildMinMaxInt_hundred : ∃ text, buildMinMaxInt 100 int64Max = .ok text ∧
    str "10" ∈ textWords (fun _ => 0) text ∧ str "10" ∉ intWords 100 int64Max ∧
    ¬IntExact (fun _ => 0) 100 int64Max text := by
  have hhundred : natText 100 = '1' :: str "00" := by decide
  have hbuild : Builds (fun _ => 0) (100 : Nat) int64Max _ _ :=
    builds_from_digits hhundred (by decide) (by decide)
  obtain ⟨-, text, htext, hwords⟩ := hbuild
  have hin : str "10" ∈ textWords (fun _ => 0) text := by
    rw [hwords.textWords_eq, mem_signedWords_of_digits (by decide)]
    refine (cons_mem_firstDigitWords (by decide)).mpr (.inr (.inl ⟨rfl, ?_⟩))
    have hzero : digitsValue (str "00") = 0 := rfl
    rw [hzero, innerWords, if_pos rfl]
    exact ⟨digits_replicate (n := 1) rfl, Nat.le_refl 1, by decide⟩
  have hout : str "10" ∉ intWords 100 int64Max := by
    rw [mem_intWords_of_digits (by decide), ← fromWords_eq_positiveWords (m := 100) rfl]
    intro hmem
    have hle := (cons_mem_fromWords.mp hmem).2.2
    exact absurd hle (by decide)
  exact ⟨text, htext, hin, hout, fun hexact => hout ((hexact.words _ (by decide)).mp hin)⟩

end

end Llama.Schema
