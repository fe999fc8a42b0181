import Llama.Schema.IntBounds

/-!
# What the pieces of a bounded integer generate

Digits and their values, and the words of `digit_range`, `more_digits` and `uniform_range`.
-/

namespace Llama.Schema

open Common Backtrack Computability List Language

/-- The text has only digits. -/
def Digits (s : Str) : Prop := ∀ c ∈ s, c.isDigit = true

variable {c a b : Char} {s t f : Str} {n : Nat} {L : Language Char}

theorem isDigit_iff : c.isDigit = true ↔ 48 ≤ c.toNat ∧ c.toNat ≤ 57 := by
  simp only [Char.isDigit, Bool.and_eq_true, decide_eq_true_eq]
  exact Iff.rfl

theorem digits_cons : Digits (c :: s) ↔ c.isDigit = true ∧ Digits s := forall_mem_cons

theorem digits_natText (n : Nat) : Digits (natText n) := fun _ => isDigit_natText

theorem toNat_charOfNat (h : n < 128) : (Char.ofNat n).toNat = n := by
  have hvalid : n.isValidChar := .inl (by omega)
  rw [Char.ofNat, dif_pos hvalid]
  rfl

theorem toNat_succChar (h : c.isDigit = true) : (succChar c).toNat = c.toNat + 1 := by
  have := isDigit_iff.mp h
  exact toNat_charOfNat (by omega)

theorem toNat_predChar (h : c.isDigit = true) : (predChar c).toNat = c.toNat - 1 := by
  have := isDigit_iff.mp h
  exact toNat_charOfNat (by omega)

private theorem char_le_iff : a ≤ b ↔ a.toNat ≤ b.toNat := Iff.rfl

theorem char_lt_iff : a < b ↔ a.toNat < b.toNat := Iff.rfl

theorem digitsValue_cons (c : Char) (s : Str) :
    digitsValue (c :: s) = (c.toNat - 48) * 10 ^ s.length + digitsValue s := by
  have hfold : ∀ (s : Str) (n : Nat),
      s.foldl (fun n c => n * 10 + (c.toNat - '0'.toNat)) n =
        n * 10 ^ s.length + digitsValue s := by
    intro s
    induction s with
    | nil =>
      intro n
      simp [digitsValue]
    | cons d s ih =>
      intro n
      have hd := ih (0 * 10 + (d.toNat - '0'.toNat))
      rw [digitsValue, foldl_cons, foldl_cons, ih, hd, length_cons, pow_succ,
        Nat.zero_mul, Nat.zero_add, Nat.add_mul, Nat.mul_assoc, Nat.mul_comm 10, Nat.add_assoc]
  have h := hfold s (0 * 10 + (c.toNat - '0'.toNat))
  rw [digitsValue, foldl_cons, h, Nat.zero_mul, Nat.zero_add]
  rfl

theorem digitsValue_lt (h : Digits s) : digitsValue s < 10 ^ s.length := by
  induction s with
  | nil => exact Nat.one_pos
  | cons c s ih =>
    obtain ⟨hc, hs⟩ := digits_cons.mp h
    have hcode := isDigit_iff.mp hc
    have hlt := ih hs
    have hle : (c.toNat - 48) * 10 ^ s.length ≤ 9 * 10 ^ s.length :=
      Nat.mul_le_mul_right _ (by omega)
    rw [digitsValue_cons, length_cons, pow_succ]
    omega

theorem digitsValue_le_cons_iff (ha : a.isDigit = true) (hb : b.isDigit = true) (hs : Digits s)
    (ht : Digits t) (hlen : s.length = t.length) :
    digitsValue (a :: s) ≤ digitsValue (b :: t) ↔
      a.toNat < b.toNat ∨ a.toNat = b.toNat ∧ digitsValue s ≤ digitsValue t := by
  have hacode := isDigit_iff.mp ha
  have hbcode := isDigit_iff.mp hb
  have hslt := digitsValue_lt hs
  have htlt := digitsValue_lt ht
  rw [digitsValue_cons, digitsValue_cons, hlen]
  rw [hlen] at hslt
  rcases Nat.lt_trichotomy a.toNat b.toNat with h | h | h
  · have hmul : (a.toNat - 48 + 1) * 10 ^ t.length ≤ (b.toNat - 48) * 10 ^ t.length :=
      Nat.mul_le_mul_right _ (by omega)
    rw [Nat.add_mul] at hmul
    constructor
    · exact fun _ => .inl h
    · intro _
      omega
  · rw [h]
    constructor
    · intro hle
      exact .inr ⟨rfl, by omega⟩
    · rintro (hlt | ⟨-, hle⟩) <;> omega
  · have hmul : (b.toNat - 48 + 1) * 10 ^ t.length ≤ (a.toNat - 48) * 10 ^ t.length :=
      Nat.mul_le_mul_right _ (by omega)
    rw [Nat.add_mul] at hmul
    constructor
    · intro hle
      omega
    · rintro (hlt | ⟨heq, -⟩) <;> omega

private theorem digits_ext (hs : Digits s) (ht : Digits t) (hlen : s.length = t.length)
    (h : digitsValue s = digitsValue t) : s = t := by
  induction s generalizing t with
  | nil => exact (length_eq_zero_iff.mp hlen.symm).symm
  | cons a s ih =>
    cases t with
    | nil => cases hlen
    | cons b t =>
      obtain ⟨ha, hs⟩ := digits_cons.mp hs
      obtain ⟨hb, ht⟩ := digits_cons.mp ht
      have hlen' := Nat.succ.inj hlen
      have hle := (digitsValue_le_cons_iff ha hb hs ht hlen').mp (Nat.le_of_eq h)
      have hge := (digitsValue_le_cons_iff hb ha ht hs hlen'.symm).mp (Nat.le_of_eq h.symm)
      have hcode : a.toNat = b.toNat := by omega
      rw [Char.toNat_inj.mp hcode, ih hs ht hlen' (by omega)]

theorem length_natText_le_iff {k : Nat} (hk : 0 < k) : (natText n).length ≤ k ↔ n < 10 ^ k :=
  Nat.length_toDigits_le_iff (by decide) hk

theorem length_natText_pos (n : Nat) : 0 < (natText n).length :=
  length_pos_iff.mpr (natText_ne_nil n)

/-- Digits without a zero in front are the text of their value. -/
theorem natText_digitsValue (h : Digits s)
    (hs : s.length = 1 ∨ 0 < s.length ∧ 10 ^ (s.length - 1) ≤ digitsValue s) :
    natText (digitsValue s) = s := by
  refine digits_ext (digits_natText _) h ?_ (digitsValue_natText _)
  have hpos : 0 < s.length := by omega
  have hle : (natText (digitsValue s)).length ≤ s.length :=
    (length_natText_le_iff hpos).mpr (digitsValue_lt h)
  have hnat := length_natText_pos (digitsValue s)
  rcases hs with hone | ⟨-, hlow⟩
  · omega
  · by_contra hne
    have hshort : (natText (digitsValue s)).length ≤ s.length - 1 := by omega
    have hlt := (length_natText_le_iff (by omega)).mp hshort
    omega

/-- The number of digits bounds the number from below. -/
theorem pow_le_of_length_natText (h : 1 < (natText n).length) :
    10 ^ ((natText n).length - 1) ≤ n := by
  by_contra hlt
  have hle := (length_natText_le_iff (n := n) (k := (natText n).length - 1) (by omega)).mpr
    (by omega)
  omega

/-- Digits of which there are as many as allowed. -/
def anyDigits (m n : Nat) : Language Char := {s | Digits s ∧ m ≤ s.length ∧ s.length ≤ n}

/-- The digits of one length from one text to another. -/
def rangeWords (from_ to_ : Str) : Language Char :=
  {s | Digits s ∧ s.length = from_.length ∧ digitsValue from_ ≤ digitsValue s ∧
    digitsValue s ≤ digitsValue to_}

/-- A digit of a range. -/
def oneDigit (a b : Char) : Language Char := symbols (inClass false [(a, b)])

section

variable {env : Str → Language Char}

private theorem ne_of_isDigit (h : c.isDigit = true) :
    c ≠ ']' ∧ c ≠ '\\' ∧ c ≠ '-' ∧ c ≠ '^' ∧ c ≠ '"' := by
  refine ⟨?_, ?_, ?_, ?_, ?_⟩ <;>
    · rintro rfl
      exact absurd h (by decide)

variable {a b : Char}

theorem denotes_oneDigit (ha : a.isDigit = true) (hb : b.isDigit = true) :
    ItemDenotes env (str "[" ++ [a] ++ str "-" ++ [b] ++ str "]") (oneDigit a b) := by
  obtain ⟨habracket, haescape, -, hacaret, -⟩ := ne_of_isDigit ha
  obtain ⟨hbbracket, hbescape, -⟩ := ne_of_isDigit hb
  have htext : str "[" ++ [a] ++ str "-" ++ [b] ++ str "]" = str "[" ++ [a, '-', b] ++ str "]" := by
    simp [str]
  rw [htext]
  apply ItemDenotes.cls (RangesText.nil.range habracket haescape hbbracket hbescape)
  rintro d ⟨⟩
  exact hacaret

theorem denotes_digit (ha : a.isDigit = true) :
    ItemDenotes env (str "[" ++ [a] ++ str "]") (oneDigit a a) := by
  obtain ⟨hbracket, hescape, -, hcaret, -⟩ := ne_of_isDigit ha
  apply ItemDenotes.cls (RangesText.nil.char hbracket hescape (by simp))
  rintro d ⟨⟩
  exact hcaret

theorem denotes_digitRange (ha : a.isDigit = true) (hb : b.isDigit = true) :
    ItemDenotes env (digitRange a b) (oneDigit a b) := by
  unfold digitRange
  split
  next h =>
    subst h
    exact denotes_digit ha
  next =>
    have hrange : ItemDenotes env _ _ := denotes_oneDigit ha hb
    simpa only [append_assoc] using hrange

theorem mem_oneDigit_mul {w : Str} :
    w ∈ oneDigit a b * L ↔ ∃ c s, w = c :: s ∧ (a.toNat ≤ c.toNat ∧ c.toNat ≤ b.toNat) ∧ s ∈ L := by
  rw [oneDigit, mem_symbols_mul]
  simp only [inClass_range_iff, char_le_iff]

private theorem repWords_oneDigit (m n : Nat) :
    repWords (oneDigit '0' '9') m (some n) = anyDigits m n := by
  ext s
  rw [oneDigit, mem_repWords_symbols, and_comm]
  have hdigit : (∀ c ∈ s, inClass false [('0', '9')] c = true) ↔ Digits s :=
    forall₂_congr fun c _ => by rw [inClass_range_iff, isDigit_iff]; exact Iff.rfl
  rw [hdigit]
  rfl

theorem denotes_moreDigits {m : Nat} (hmn : m ≤ n) (hn : n ≤ 2000) :
    ItemDenotes env (moreDigits m n) (anyDigits m n) := by
  have hdigit : ItemDenotes env (str "[0-9]") (oneDigit '0' '9') :=
    denotes_oneDigit (by decide) (by decide)
  rw [moreDigits]
  split
  next h =>
    obtain ⟨rfl, rfl⟩ := h
    rw [append_nil]
    have hone : anyDigits 1 1 = oneDigit '0' '9' := by
      rw [← repWords_oneDigit]
      ext w
      rw [oneDigit, mem_repWords_symbols]
      constructor
      · rintro ⟨hlen, hall⟩
        obtain ⟨c, rfl⟩ := length_eq_one_iff.mp (Nat.le_antisymm hlen.2 hlen.1)
        exact ⟨c, hall c (mem_singleton.mpr rfl), rfl⟩
      · rintro ⟨c, hc, rfl⟩
        refine ⟨⟨Nat.le_refl 1, Nat.le_refl 1⟩, fun d hd => ?_⟩
        rwa [mem_singleton.mp hd]
    rw [hone]
    exact hdigit
  next =>
    rw [← repWords_oneDigit]
    by_cases heq : n = m
    · subst heq
      rw [if_neg (not_not.mpr rfl), append_nil]
      exact hdigit.exactly hn
    · have hmax : (n : Int) ≠ intMax := by
        rw [intMax]
        omega
      rw [if_pos heq, if_pos hmax]
      have hbetween := hdigit.between (m := m) (n := n) (by omega) hn
      simpa [str] using hbetween

end

theorem stringRepeat_single (c : Char) (n : Nat) : stringRepeat [c] n = replicate n c := by
  induction n with
  | zero => rfl
  | succ n ih =>
    rw [stringRepeat, replicate_succ, flatten_cons, ← stringRepeat, ih, replicate_succ]
    rfl

theorem digits_replicate (h : c.isDigit = true) (n : Nat) :
    Digits (replicate n c) := fun d hd => by rwa [eq_of_mem_replicate hd]

theorem digitsValue_zeros (n : Nat) : digitsValue (replicate n '0') = 0 := by
  induction n with
  | zero => rfl
  | succ n ih =>
    rw [replicate_succ, digitsValue_cons, ih]
    simp

theorem digitsValue_nines (n : Nat) : digitsValue (replicate n '9') + 1 = 10 ^ n := by
  induction n with
  | zero => rfl
  | succ n ih =>
    have hnine : '9'.toNat - 48 = 9 := rfl
    rw [replicate_succ, digitsValue_cons, length_replicate, hnine, pow_succ]
    omega

/-- What stands behind the digits that agree, as `uniform_range` writes it. -/
def divergingText (fuel : Nat) (a b : Char) (fromSub toSub : Str) : Str :=
  let subLen := fromSub.length
  let subZeros := replicate subLen '0'
  let subNines := replicate subLen '9'
  if 0 < subLen then
    let last := str " | " ++ digitRange b b ++ str " " ++ uniformRangeFrom fuel subZeros toSub
    str "(" ++
      (if fromSub = subZeros then
        digitRange a (predChar b) ++ str " " ++ moreDigits subLen subLen ++ last
      else
        str "[" ++ [a] ++ str "] " ++ str "(" ++ uniformRangeFrom fuel fromSub subNines ++
          str ")" ++
          if a < predChar b then
            str " | " ++
              if toSub = subNines then
                digitRange (succChar a) b ++ str " " ++ moreDigits subLen subLen
              else
                digitRange (succChar a) (predChar b) ++ str " " ++ moreDigits subLen subLen ++ last
          else last) ++
      str ")"
  else str "[" ++ [a] ++ str "-" ++ [b] ++ str "]"

private theorem commonLength_append (h : a ≠ b) (p s t : Str) :
    commonLength (p ++ a :: s) (p ++ b :: t) = p.length := by
  induction p with
  | nil => rw [nil_append, nil_append, commonLength, if_neg h]; rfl
  | cons c p ih =>
    rw [cons_append, cons_append, commonLength, if_pos rfl, ih, length_cons]

private theorem commonLength_self (s : Str) : commonLength s s = s.length := by
  induction s with
  | nil => rfl
  | cons c s ih => rw [commonLength, if_pos rfl, ih, length_cons]

/-- Two texts of one length agree, or up to two characters that differ. -/
theorem eq_or_diverging (hlen : s.length = t.length) :
    s = t ∨ ∃ p a b s' t', s = p ++ a :: s' ∧ t = p ++ b :: t' ∧ a ≠ b ∧ s'.length = t'.length := by
  induction s generalizing t with
  | nil => exact .inl (length_eq_zero_iff.mp hlen.symm).symm
  | cons c s ih =>
    cases t with
    | nil => cases hlen
    | cons d t =>
      have hlen' := Nat.succ.inj hlen
      by_cases hcd : c = d
      · subst hcd
        rcases ih hlen' with rfl | ⟨p, a, b, s', t', rfl, rfl, hab, hl⟩
        · exact .inl rfl
        · exact .inr ⟨c :: p, a, b, s', t', rfl, rfl, hab, hl⟩
      · exact .inr ⟨[], c, d, s, t, rfl, rfl, hcd, hlen'⟩

private theorem uniformRangeFrom_self (fuel : Nat) (hs : s ≠ []) :
    uniformRangeFrom (fuel + 1) s s = str "\"" ++ s ++ str "\"" := by
  rw [uniformRangeFrom]
  dsimp only
  rw [commonLength_self, if_pos (length_pos_iff.mpr hs), take_length, drop_length]
  simp

private theorem uniformRangeFrom_diverging (fuel : Nat) (h : a ≠ b) (p s t : Str) :
    uniformRangeFrom (fuel + 1) (p ++ a :: s) (p ++ b :: t) =
      (if 0 < p.length then str "\"" ++ p ++ str "\"" ++ str " " else []) ++
        divergingText fuel a b s t := by
  have hsub : (p ++ a :: s).length - p.length - 1 = s.length := by simp
  rw [uniformRangeFrom]
  dsimp only
  rw [commonLength_append h, take_left, drop_left, drop_left]
  dsimp only
  rw [hsub]
  have hzeros : str "0" = ['0'] := rfl
  have hnines : str "9" = ['9'] := rfl
  rw [hzeros, hnines, stringRepeat_single, stringRepeat_single, ← append_assoc]
  congr 1
  split <;> simp

/-- A word of a range, by its first digit. -/
theorem mem_rangeWords_cons (ha : a.isDigit = true) (hb : b.isDigit = true) (hf : Digits f)
    (ht : Digits t) (hlen : f.length = t.length) :
    c :: s ∈ rangeWords (a :: f) (b :: t) ↔
      c.isDigit = true ∧ Digits s ∧ s.length = f.length ∧
        (a.toNat < c.toNat ∨ a.toNat = c.toNat ∧ digitsValue f ≤ digitsValue s) ∧
        (c.toNat < b.toNat ∨ c.toNat = b.toNat ∧ digitsValue s ≤ digitsValue t) := by
  constructor
  · rintro ⟨hdigits, hl, hlow, hhigh⟩
    obtain ⟨hc, hs⟩ := digits_cons.mp hdigits
    have hl' : s.length = f.length := Nat.succ.inj hl
    rw [digitsValue_le_cons_iff ha hc hf hs hl'.symm] at hlow
    rw [digitsValue_le_cons_iff hc hb hs ht (hl'.trans hlen)] at hhigh
    exact ⟨hc, hs, hl', hlow, hhigh⟩
  · rintro ⟨hc, hs, hl, hlow, hhigh⟩
    refine ⟨digits_cons.mpr ⟨hc, hs⟩, by rw [length_cons, length_cons, hl], ?_, ?_⟩
    · exact (digitsValue_le_cons_iff ha hc hf hs hl.symm).mpr hlow
    · exact (digitsValue_le_cons_iff hc hb hs ht (hl.trans hlen)).mpr hhigh

private theorem nil_notMem_rangeWords : [] ∉ rangeWords (a :: f) t := by
  rintro ⟨-, hlen, -⟩
  cases hlen

/-- Digits that both bounds begin with. -/
theorem rangeWords_append {p : Str} (hp : Digits p) (hf : Digits f) (ht : Digits t)
    (hlen : f.length = t.length) : rangeWords (p ++ f) (p ++ t) = {p} * rangeWords f t := by
  induction p with
  | nil =>
    have hone : ({[]} : Language Char) = 1 := rfl
    rw [nil_append, nil_append, hone, one_mul]
  | cons a p ih =>
    obtain ⟨ha, hp⟩ := digits_cons.mp hp
    have hcons : ({a :: p} : Language Char) = {[a]} * {p} := by
      ext w
      constructor
      · rintro rfl
        exact mem_mul.mpr ⟨[a], rfl, p, rfl, rfl⟩
      · intro h
        obtain ⟨u, rfl, v, rfl, rfl⟩ := mem_mul.mp h
        rfl
    have hpf : Digits (p ++ f) := fun c hc => (mem_append.mp hc).elim (hp c) (hf c)
    have hpt : Digits (p ++ t) := fun c hc => (mem_append.mp hc).elim (hp c) (ht c)
    have hl : (p ++ f).length = (p ++ t).length := by
      rw [length_append, length_append, hlen]
    rw [hcons, mul_assoc, ← ih hp, cons_append, cons_append]
    ext w
    cases w with
    | nil =>
      constructor
      · exact fun h => absurd h nil_notMem_rangeWords
      · intro h
        obtain ⟨u, rfl, v, -, huv⟩ := mem_mul.mp h
        cases huv
    | cons c s =>
      rw [mem_rangeWords_cons ha ha hpf hpt hl]
      constructor
      · rintro ⟨hc, hs, hsl, hlow, hhigh⟩
        have hca : c = a := Char.toNat_inj.mp (by omega)
        subst hca
        exact mem_mul.mpr ⟨[c], rfl, s, ⟨hs, hsl, by omega, by omega⟩, rfl⟩
      · intro h
        obtain ⟨u, rfl, v, ⟨hs, hsl, hlow, hhigh⟩, huv⟩ := mem_mul.mp h
        obtain ⟨rfl, rfl⟩ := List.cons.inj huv
        exact ⟨ha, hs, hsl, .inr ⟨rfl, hlow⟩, .inr ⟨rfl, hhigh⟩⟩

private theorem rangeWords_self (h : Digits s) : rangeWords s s = {s} := by
  ext w
  constructor
  · rintro ⟨hw, hlen, hlow, hhigh⟩
    exact digits_ext hw h hlen (Nat.le_antisymm hhigh hlow)
  · rintro rfl
    exact ⟨h, rfl, Nat.le_refl _, Nat.le_refl _⟩

theorem cons_mem_oneDigit_mul :
    c :: s ∈ oneDigit a b * L ↔ (a.toNat ≤ c.toNat ∧ c.toNat ≤ b.toNat) ∧ s ∈ L := by
  rw [mem_oneDigit_mul]
  constructor
  · rintro ⟨d, u, heq, hd, hu⟩
    obtain ⟨rfl, rfl⟩ := List.cons.inj heq
    exact ⟨hd, hu⟩
  · exact fun h => ⟨c, s, rfl, h⟩

theorem nil_notMem_oneDigit_mul : [] ∉ oneDigit a b * L := by
  rw [mem_oneDigit_mul]
  rintro ⟨c, s, heq, -⟩
  cases heq

theorem mem_anyDigits {m : Nat} :
    s ∈ anyDigits m n ↔ Digits s ∧ m ≤ s.length ∧ s.length ≤ n := Iff.rfl

private theorem mem_rangeWords :
    s ∈ rangeWords f t ↔ Digits s ∧ s.length = f.length ∧ digitsValue f ≤ digitsValue s ∧
      digitsValue s ≤ digitsValue t := Iff.rfl

private theorem digitsValue_le_nines (hs : Digits s) (hn : s.length = n) :
    digitsValue s ≤ digitsValue (replicate n '9') := by
  have hlt := digitsValue_lt hs
  have hnine := digitsValue_nines n
  rw [hn] at hlt
  omega

private theorem rangeWords_full (n : Nat) :
    rangeWords (replicate n '0') (replicate n '9') = anyDigits n n := by
  ext s
  rw [mem_rangeWords, mem_anyDigits, length_replicate, digitsValue_zeros]
  constructor
  · rintro ⟨hs, rfl, -⟩
    exact ⟨hs, Nat.le_refl _, Nat.le_refl _⟩
  · rintro ⟨hs, h1, h2⟩
    have hn := Nat.le_antisymm h2 h1
    exact ⟨hs, hn, Nat.zero_le _, digitsValue_le_nines hs hn⟩

/-- Neighbouring ranges of a first digit make one. -/
theorem oneDigit_mul_add {d e : Char} (hd : d.toNat = b.toNat + 1) (had : a.toNat ≤ d.toNat)
    (hbe : b.toNat ≤ e.toNat) : oneDigit a b * L + oneDigit d e * L = oneDigit a e * L := by
  ext w
  rw [mem_add, mem_oneDigit_mul, mem_oneDigit_mul, mem_oneDigit_mul]
  constructor
  · rintro (⟨c, s, rfl, hc, hs⟩ | ⟨c, s, rfl, hc, hs⟩) <;> exact ⟨c, s, rfl, by omega, hs⟩
  · rintro ⟨c, s, rfl, hc, hs⟩
    by_cases hcb : c.toNat ≤ b.toNat
    · exact .inl ⟨c, s, rfl, ⟨hc.1, hcb⟩, hs⟩
    · exact .inr ⟨c, s, rfl, by omega, hs⟩

private theorem oneDigit_mul_empty (h : b.toNat < a.toNat) : oneDigit a b * L = 0 := by
  ext w
  rw [mem_oneDigit_mul]
  constructor
  · rintro ⟨c, s, -, hc, -⟩
    omega
  · exact fun hw => absurd hw (notMem_zero w)

/-- The words of a range begin with its first digit, a digit between, or its last digit. -/
theorem rangeWords_cons (ha : a.isDigit = true) (hb : b.isDigit = true) (hf : Digits f)
    (ht : Digits t) (hlen : f.length = t.length) (hab : a.toNat < b.toNat) :
    rangeWords (a :: f) (b :: t) = oneDigit a a * rangeWords f (replicate f.length '9') +
      oneDigit (succChar a) (predChar b) * anyDigits f.length f.length +
        oneDigit b b * rangeWords (replicate f.length '0') t := by
  have hacode := isDigit_iff.mp ha
  have hbcode := isDigit_iff.mp hb
  ext w
  cases w with
  | nil =>
    rw [mem_add, mem_add]
    simp only [nil_notMem_rangeWords, nil_notMem_oneDigit_mul, or_self]
  | cons c s =>
    rw [mem_rangeWords_cons ha hb hf ht hlen, mem_add, mem_add, cons_mem_oneDigit_mul,
      cons_mem_oneDigit_mul, cons_mem_oneDigit_mul, mem_anyDigits, mem_rangeWords, mem_rangeWords,
      toNat_succChar ha, toNat_predChar hb, length_replicate, digitsValue_zeros]
    constructor
    · rintro ⟨-, hs, hl, hlow, hhigh⟩
      have hle := digitsValue_le_nines hs hl
      simp only [hs, hl, true_and, Nat.le_refl, and_true, Nat.zero_le, hle]
      omega
    · rintro ((⟨hc, hs, hl, hlow, -⟩ | ⟨hc, hs, h1, h2⟩) | ⟨hc, hs, hl, -, hhigh⟩) <;>
        exact ⟨isDigit_iff.mpr (by omega), hs, by omega, by omega, by omega⟩

section

variable {env : Str → Language Char}

private theorem denotes_digits (h : Digits s) :
    ItemDenotes env (str "\"" ++ s ++ str "\"") {s} := by
  apply ItemDenotes.literal
  induction s with
  | nil => exact LiteralText.nil
  | cons c s ih =>
    obtain ⟨hc, hs⟩ := digits_cons.mp h
    obtain ⟨-, hescape, -, -, hquote⟩ := ne_of_isDigit hc
    exact LiteralText.char (u := []) hquote (fun rest => readChar_plain hescape rest) (ih hs)

variable {f t : Str}

/-- What stands behind the digits that agree generates the range. -/
theorem denotes_diverging {fuel : Nat} (ha : a.isDigit = true) (hb : b.isDigit = true)
    (hf : Digits f) (ht : Digits t) (hlen : f.length = t.length) (hab : a.toNat < b.toNat)
    (hshort : f.length ≤ 2000)
    (ih : ∀ f' t' : Str, f'.length = f.length → f' ≠ [] → Digits f' → Digits t' →
      f'.length = t'.length → digitsValue f' ≤ digitsValue t' →
      SequenceDenotes env (uniformRangeFrom fuel f' t') (rangeWords f' t')) :
    ItemDenotes env (divergingText fuel a b f t) (rangeWords (a :: f) (b :: t)) := by
  have hacode := isDigit_iff.mp ha
  have hbcode := isDigit_iff.mp hb
  have hpredcode := toNat_predChar hb
  have hsucccode := toNat_succChar ha
  have hpred : (predChar b).isDigit = true := isDigit_iff.mpr (by omega)
  have hsucc : (succChar a).isDigit = true := isDigit_iff.mpr (by omega)
  rw [divergingText, rangeWords_cons ha hb hf ht hlen hab]
  dsimp only
  split
  next hpos =>
    have hne : f ≠ [] := length_pos_iff.mp hpos
    have hzeros := digits_replicate (c := '0') (by decide) f.length
    have hnines := digits_replicate (c := '9') (by decide) f.length
    have hzero := digitsValue_zeros f.length
    have hmiddle : ∀ x y : Char, x.isDigit = true → y.isDigit = true →
        SequenceDenotes env (digitRange x y ++ str " " ++ moreDigits f.length f.length)
          (oneDigit x y * anyDigits f.length f.length) := fun x y hx hy =>
      (denotes_digitRange hx hy).sequence.append
        (denotes_moreDigits (Nat.le_refl _) hshort).sequence
    have hlast : SequenceDenotes env
        (digitRange b b ++ str " " ++ uniformRangeFrom fuel (replicate f.length '0') t)
        (oneDigit b b * rangeWords (replicate f.length '0') t) :=
      (denotes_digitRange hb hb).sequence.append
        (ih _ t (length_replicate ..) (by simpa using hne) hzeros ht
          (by rw [length_replicate, hlen]) (by omega))
    split
    next hzerosEq =>
      have hfull : rangeWords f (replicate f.length '9') = anyDigits f.length f.length := by
        conv_lhs => rw [hzerosEq, length_replicate]
        exact rangeWords_full _
      rw [hfull, oneDigit_mul_add hsucccode (by omega) (by omega)]
      have hall := ((hmiddle a (predChar b) ha hpred).alternates.append hlast.alternates).group
      simpa only [append_assoc] using hall
    next =>
      have hfirst : SequenceDenotes env
          (str "[" ++ [a] ++ str "]" ++ str " " ++
            (str "(" ++ uniformRangeFrom fuel f (replicate f.length '9') ++ str ")"))
          (oneDigit a a * rangeWords f (replicate f.length '9')) :=
        (denotes_digit ha).sequence.append
          (ih f _ rfl hne hf hnines (by rw [length_replicate])
            (digitsValue_le_nines hf rfl)).alternates.group.sequence
      split
      next hgap =>
        rw [char_lt_iff, hpredcode] at hgap
        split
        next hninesEq =>
          rw [hninesEq, rangeWords_full, add_assoc,
            oneDigit_mul_add (by omega) (by omega) (by omega)]
          have hall := (hfirst.alternates.append (hmiddle (succChar a) b hsucc hb).alternates).group
          simpa [str] using hall
        next =>
          have hall := ((hfirst.alternates.append
            (hmiddle (succChar a) (predChar b) hsucc hpred).alternates).append
              hlast.alternates).group
          simpa [str] using hall
      next hgap =>
        rw [char_lt_iff, hpredcode] at hgap
        rw [oneDigit_mul_empty (a := succChar a) (by omega), add_zero]
        have hall := (hfirst.alternates.append hlast.alternates).group
        simpa [str] using hall
  next hpos =>
    obtain rfl : f = [] := length_eq_zero_iff.mp (by omega)
    obtain rfl : t = [] := length_eq_zero_iff.mp hlen.symm
    have hone : rangeWords [] [] = 1 := rangeWords_self (by simp [Digits])
    have hany : anyDigits 0 0 = 1 := (rangeWords_full 0).symm.trans hone
    rw [length_nil, replicate_zero, replicate_zero, hone, hany,
      oneDigit_mul_add hsucccode (by omega) (by omega),
      oneDigit_mul_add (by omega) (by omega) (by omega), mul_one]
    exact denotes_oneDigit ha hb

/-- `uniform_range` generates the range. -/
theorem uniformRangeFrom_denotes (fuel : Nat) (hfuel : f.length < fuel) (hne : f ≠ [])
    (hf : Digits f) (ht : Digits t) (hlen : f.length = t.length)
    (hle : digitsValue f ≤ digitsValue t) (hshort : f.length ≤ 2000) :
    SequenceDenotes env (uniformRangeFrom fuel f t) (rangeWords f t) := by
  induction fuel generalizing f t with
  | zero => omega
  | succ fuel ih =>
    rcases eq_or_diverging hlen with rfl | ⟨p, a, b, f', t', rfl, rfl, hab, hlen'⟩
    · rw [uniformRangeFrom_self fuel hne, rangeWords_self hf]
      exact (denotes_digits hf).sequence
    · obtain ⟨hp, haf⟩ : Digits p ∧ Digits (a :: f') :=
        ⟨fun c hc => hf c (mem_append_left _ hc), fun c hc => hf c (mem_append_right _ hc)⟩
      have hbt : Digits (b :: t') := fun c hc => ht c (mem_append_right _ hc)
      obtain ⟨ha, hf'⟩ := digits_cons.mp haf
      obtain ⟨hb, ht'⟩ := digits_cons.mp hbt
      have hmem : p ++ b :: t' ∈ rangeWords (p ++ a :: f') (p ++ b :: t') :=
        ⟨ht, hlen.symm, hle, Nat.le_refl _⟩
      rw [rangeWords_append hp haf hbt (by simp [hlen'])] at hmem ⊢
      obtain ⟨u, rfl, v, hv, huv⟩ := mem_mul.mp hmem
      obtain rfl := append_cancel_left huv
      rw [mem_rangeWords_cons ha hb hf' ht' hlen'] at hv
      have hlt : a.toNat < b.toNat := by
        have hcode : a.toNat ≠ b.toNat := fun h => hab (Char.toNat_inj.mp h)
        omega
      rw [length_append, length_cons] at hfuel hshort
      have htail : ItemDenotes env (divergingText fuel a b f' t') _ :=
        denotes_diverging ha hb hf' ht' hlen' hlt (by omega)
          fun g u hg hgne hgd hud hgu hgle => ih (by omega) hgne hgd hud hgu hgle (by omega)
      rw [uniformRangeFrom_diverging fuel hab]
      split
      next => exact (denotes_digits hp).sequence.append htail.sequence
      next hnil =>
        obtain rfl : u = [] := length_eq_zero_iff.mp (by omega)
        have hone : ({[]} : Language Char) = 1 := rfl
        rw [hone, one_mul]
        exact htail.sequence

end

end Llama.Schema
