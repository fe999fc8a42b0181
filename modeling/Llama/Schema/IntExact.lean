import Llama.Schema.IntWords

/-!
# When the rule for bounded integers is exact

With two bounds `build_min_max_int` generates the integers between them. With one bound the
digits behind the first one are handed on as a number, which forgets zeros in front, and a one in
front leaves out what begins with zero.
-/

namespace Llama.Schema

open Common Backtrack Computability List Language

/-- The texts of the numbers from one to another. -/
def naturalWords (m n : Nat) : Language Char := {s | ∃ k, m ≤ k ∧ k ≤ n ∧ s = natText k}

variable {m n k d fuel : Nat} {c low x : Char} {L : Language Char} {s r : Str}

theorem length_natText_mono (h : m ≤ n) : (natText m).length ≤ (natText n).length := by
  have hpos := length_natText_pos n
  rw [length_natText_le_iff hpos]
  exact Nat.lt_of_le_of_lt h ((length_natText_le_iff hpos).mp (Nat.le_refl _))

private theorem rangeWords_natText {t : Str} (ht : Digits t)
    (hlen : (natText m).length = t.length) :
    rangeWords (natText m) t = naturalWords m (digitsValue t) := by
  have hpos := length_natText_pos m
  have hlt := digitsValue_lt ht
  ext s
  constructor
  · rintro ⟨hs, hl, hlow, hhigh⟩
    rw [digitsValue_natText] at hlow
    refine ⟨digitsValue s, hlow, hhigh, (natText_digitsValue hs ?_).symm⟩
    by_cases hone : s.length = 1
    · exact .inl hone
    · have hpow := pow_le_of_length_natText (n := m) (by omega)
      rw [← hl] at hpow
      exact .inr ⟨by omega, Nat.le_trans hpow hlow⟩
  · rintro ⟨k, hlow, hhigh, rfl⟩
    refine ⟨digits_natText k, ?_, ?_, ?_⟩
    · have hle : (natText k).length ≤ t.length :=
        (length_natText_le_iff (by omega)).mpr (Nat.lt_of_le_of_lt hhigh hlt)
      have hge := length_natText_mono hlow
      omega
    · rwa [digitsValue_natText, digitsValue_natText]
    · rwa [digitsValue_natText]

private theorem natText_pow (k : Nat) : natText (10 ^ k) = '1' :: replicate k '0' := by
  have hdigits : Digits ('1' :: replicate k '0') :=
    digits_cons.mpr ⟨by decide, digits_replicate (by decide) k⟩
  have hvalue : digitsValue ('1' :: replicate k '0') = 10 ^ k := by
    rw [digitsValue_cons, digitsValue_zeros, length_replicate]
    exact Nat.one_mul _
  rw [← hvalue]
  apply natText_digitsValue hdigits
  rw [hvalue]
  exact .inr ⟨by simp, by simp⟩

private theorem naturalWords_add (hmk : m ≤ k) (hkn : k ≤ n) :
    naturalWords m (k - 1) + naturalWords k n = naturalWords m n := by
  ext s
  rw [mem_add]
  constructor
  · rintro (⟨j, h1, h2, rfl⟩ | ⟨j, h1, h2, rfl⟩)
    · by_cases hk : k = 0
      · exact ⟨j, h1, by omega, rfl⟩
      · exact ⟨j, h1, by omega, rfl⟩
    · exact ⟨j, by omega, h2, rfl⟩
  · rintro ⟨j, h1, h2, rfl⟩
    by_cases hj : j < k
    · exact .inl ⟨j, h1, by omega, rfl⟩
    · exact .inr ⟨j, by omega, h2, rfl⟩

section

variable {env : Str → Language Char}

variable {m : Nat}

private theorem uniformRange_denotes {t : Str} (ht : Digits t)
    (hlen : (natText m).length = t.length)
    (hle : m ≤ digitsValue t) (hshort : t.length ≤ 2000) :
    SequenceDenotes env (uniformRange (natText m) t) (naturalWords m (digitsValue t)) := by
  rw [← rangeWords_natText ht hlen]
  exact uniformRangeFrom_denotes _ (Nat.lt_succ_self _) (natText_ne_nil m) (digits_natText m) ht
    hlen (by rwa [digitsValue_natText]) (by omega)

/-- The loop over the numbers of digits generates the numbers between its bounds. -/
theorem digitsLoop_denotes (hmn : m ≤ n) (hshort : (natText n).length ≤ 2000) (k : Nat)
    (hk : (natText m).length + k = (natText n).length) :
    AlternatesDenotes env (digitsLoop (natText n) k (natText m).length (natText m))
      (naturalWords m n) := by
  induction k generalizing m with
  | zero =>
    have hrange : SequenceDenotes env (uniformRange (natText m) (natText n)) _ :=
      uniformRange_denotes (digits_natText n) (by omega) (by rwa [digitsValue_natText]) hshort
    rw [digitsValue_natText] at hrange
    exact hrange.alternates
  | succ k ih =>
    have hmpos := length_natText_pos m
    have hnine := digitsValue_nines (natText m).length
    have hmlt : m < 10 ^ (natText m).length := (length_natText_le_iff hmpos).mp (Nat.le_refl _)
    have hpow : 10 ^ (natText m).length ≤ n := by
      by_contra hlt
      have hle := (length_natText_le_iff (n := n) hmpos).mpr (by omega)
      omega
    have hnext : (natText (10 ^ (natText m).length)).length = (natText m).length + 1 := by
      rw [natText_pow, length_cons, length_replicate]
    have hfirst : SequenceDenotes env
        (uniformRange (natText m) (replicate (natText m).length '9')) _ :=
      uniformRange_denotes (digits_replicate rfl _) (by rw [length_replicate]) (by omega)
        (by rw [length_replicate]; omega)
    have hvalue : digitsValue (replicate (natText m).length '9') =
        10 ^ (natText m).length - 1 := by omega
    have hrest := ih hpow (by rw [hnext]; omega)
    have hall := hfirst.alternates.append hrest
    rw [hvalue, naturalWords_add (Nat.le_of_lt hmlt) hpow, hnext, natText_pow] at hall
    have hnines : str "9" = ['9'] := rfl
    have hzeros : str "1" ++ stringRepeat (str "0") (natText m).length =
        '1' :: replicate (natText m).length '0' := by
      have hzero : str "0" = ['0'] := rfl
      rw [hzero, stringRepeat_single]
      rfl
    rw [digitsLoop, hnines, stringRepeat_single, hzeros]
    exact hall

end

/-- What the branch for a lower bound of several digits generates: `x` is its first digit, `k` the
number of its digits, up to `d` digits may follow, and `L` is for what follows `x`. -/
def firstDigitWords (low x : Char) (k d : Nat) (L : Language Char) : Language Char :=
  (if '1' < x then oneDigit low (predChar x) * anyDigits k d else 0) + oneDigit x x * L +
    (if x < '9' then oneDigit (succChar x) '9' * anyDigits (k - 1) d else 0)

/-- What the calls below the first digit generate. -/
def innerWords : Nat → Nat → Nat → Language Char
  | 0, _, _ => 0
  | fuel + 1, d, m =>
    let less := max (d - 1) 1
    if m = 0 then anyDigits 1 d
    else if m ≤ 9 then
      oneDigit '0' (predChar (Char.ofNat ('0'.toNat + m))) * anyDigits 1 less +
        oneDigit (Char.ofNat ('0'.toNat + m)) '9' * anyDigits 0 less
    else
      firstDigitWords '0' ((natText m).headD '0') (natText m).length less
        (innerWords fuel less (digitsValue (natText m).tail))

theorem cons_mem_firstDigitWords (hx : x.isDigit = true) :
    c :: s ∈ firstDigitWords low x k d L ↔
      ('1'.toNat < x.toNat ∧ low.toNat ≤ c.toNat ∧ c.toNat < x.toNat ∧ s ∈ anyDigits k d) ∨
        (c = x ∧ s ∈ L) ∨ (x.toNat < c.toNat ∧ c.toNat ≤ '9'.toNat ∧ s ∈ anyDigits (k - 1) d) := by
  have hcode := isDigit_iff.mp hx
  have hpred := toNat_predChar hx
  have hsucc := toNat_succChar hx
  have hnine : '9'.toNat = 57 := rfl
  have hone : '1'.toNat = 49 := rfl
  have hself : c = x ↔ x.toNat ≤ c.toNat ∧ c.toNat ≤ x.toNat :=
    ⟨fun h => by rw [h]; exact ⟨Nat.le_refl _, Nat.le_refl _⟩,
      fun h => Char.toNat_inj.mp (Nat.le_antisymm h.2 h.1)⟩
  rw [firstDigitWords, mem_add, mem_add, cons_mem_oneDigit_mul, hself, or_assoc]
  refine or_congr ?_ (or_congr Iff.rfl ?_)
  · split
    next h =>
      rw [char_lt_iff] at h
      rw [cons_mem_oneDigit_mul, hpred]
      constructor
      · rintro ⟨⟨h1, h2⟩, hs⟩
        exact ⟨h, h1, by omega, hs⟩
      · rintro ⟨-, h1, h2, hs⟩
        exact ⟨⟨h1, by omega⟩, hs⟩
    next h =>
      rw [char_lt_iff] at h
      exact ⟨fun hw => absurd hw (notMem_zero _), fun hw => absurd hw.1 h⟩
  · split
    next h =>
      rw [cons_mem_oneDigit_mul, hsucc]
      constructor
      · rintro ⟨⟨h1, h2⟩, hs⟩
        exact ⟨by omega, h2, hs⟩
      · rintro ⟨h1, h2, hs⟩
        exact ⟨⟨by omega, h2⟩, hs⟩
    next h =>
      rw [char_lt_iff] at h
      refine ⟨fun hw => absurd hw (notMem_zero _), fun hw => ?_⟩
      omega

theorem nil_notMem_firstDigitWords : [] ∉ firstDigitWords low x k d L := by
  rw [firstDigitWords, mem_add, mem_add]
  rintro ((h | h) | h)
  · split at h
    · exact nil_notMem_oneDigit_mul h
    · exact notMem_zero _ h
  · exact nil_notMem_oneDigit_mul h
  · split at h
    · exact nil_notMem_oneDigit_mul h
    · exact notMem_zero _ h

/-- Two calls are told apart behind the first digit. -/
theorem firstDigitWords_inj (hx : x.isDigit = true) {M : Language Char} :
    firstDigitWords low x k d L = firstDigitWords low x k d M ↔ L = M := by
  refine ⟨fun heq => ?_, fun heq => heq ▸ rfl⟩
  have hmem : ∀ (N : Language Char) s, x :: s ∈ firstDigitWords low x k d N ↔ s ∈ N := by
    intro N s
    rw [cons_mem_firstDigitWords hx]
    constructor
    · rintro (h | h | h)
      · omega
      · exact h.2
      · omega
    · exact fun h => .inr (.inl ⟨rfl, h⟩)
  ext s
  rw [← hmem, heq, hmem]

section

variable {env : Str → Language Char}

variable {d m : Nat}

/-- The branch for a lower bound of several digits, for what its call generates. -/
theorem denotes_firstDigit {inner : Str} (hlow : low.isDigit = true) (hx : x.isDigit = true)
    (hk : k ≤ d) (hd : d ≤ 2000) (hinner : AlternatesDenotes env inner L) :
    AlternatesDenotes env
      ((if '1' < x then
          digitRange low (predChar x) ++ str " " ++ moreDigits k d ++ str " | "
        else []) ++
        digitRange x x ++ str " (" ++ inner ++ str ")" ++
        if x < '9' then
          str " | " ++ digitRange (succChar x) '9' ++ str " " ++ moreDigits (k - 1) d
        else [])
      (firstDigitWords low x k d L) := by
  have hcode := isDigit_iff.mp hx
  have hpredcode := toNat_predChar hx
  have hsucccode := toNat_succChar hx
  have hmiddle : AlternatesDenotes env
      (digitRange x x ++ str " " ++ (str "(" ++ inner ++ str ")")) (oneDigit x x * L) :=
    ((denotes_digitRange hx hx).sequence.append hinner.group.sequence).alternates
  have hfront : AlternatesDenotes env
      ((if '1' < x then
          digitRange low (predChar x) ++ str " " ++ moreDigits k d ++ str " | "
        else []) ++
        (digitRange x x ++ str " " ++ (str "(" ++ inner ++ str ")")))
      ((if '1' < x then oneDigit low (predChar x) * anyDigits k d else 0) +
        oneDigit x x * L) := by
    split
    next h =>
      have hone : '1'.toNat = 49 := rfl
      rw [char_lt_iff, hone] at h
      have hpred : (predChar x).isDigit = true := isDigit_iff.mpr (by omega)
      exact ((denotes_digitRange hlow hpred).sequence.append
        (denotes_moreDigits hk hd).sequence).alternates.append hmiddle
    next =>
      rw [nil_append, zero_add]
      exact hmiddle
  have hparen : str " (" = str " " ++ str "(" := rfl
  rw [firstDigitWords, hparen]
  by_cases h : x < '9'
  · rw [if_pos h, if_pos h]
    have hnine : '9'.toNat = 57 := rfl
    rw [char_lt_iff, hnine] at h
    have hsucc : (succChar x).isDigit = true := isDigit_iff.mpr (by omega)
    have hlast : SequenceDenotes env
        (digitRange (succChar x) '9' ++ str " " ++ moreDigits (k - 1) d)
        (oneDigit (succChar x) '9' * anyDigits (k - 1) d) :=
      (denotes_digitRange hsucc (by decide)).sequence.append
        (denotes_moreDigits (by omega) hd).sequence
    have hall := hfront.append hlast.alternates
    simp only [append_assoc] at hall ⊢
    exact hall
  · rw [if_neg h, if_neg h, add_zero, append_nil]
    simp only [append_assoc] at hfront ⊢
    exact hfront

theorem build_of_lower (fuel : Nat) (m d : Nat) (top : Bool) :
    buildMinMaxIntFrom (fuel + 1) m int64Max d top =
      let less := max (d - 1) 1
      if m = 0 then
        if top then .ok (str "[0] | [1-9] " ++ moreDigits 0 less) else .ok (moreDigits 1 d)
      else if m ≤ 9 then
        let c := Char.ofNat ('0'.toNat + m)
        let rangeStart := if top then '1' else '0'
        .ok ((if rangeStart < c then
            digitRange rangeStart (predChar c) ++ str " " ++ moreDigits 1 less ++ str " | "
          else []) ++
          digitRange c '9' ++ str " " ++ moreDigits 0 less)
      else
        let minS := natText m
        let c := minS.headD '0'
        (buildMinMaxIntFrom fuel (digitsValue minS.tail : Nat) int64Max less false).map fun inner =>
          (if '1' < c then
            digitRange (if top then '1' else '0') (predChar c) ++ str " " ++
              moreDigits minS.length less ++ str " | "
          else []) ++
          digitRange c c ++ str " (" ++ inner ++ str ")" ++
          if c < '9' then
            str " | " ++ digitRange (succChar c) '9' ++ str " " ++ moreDigits (minS.length - 1) less
          else [] := by
  have hmin : (m : Int) ≠ int64Min := by
    rw [int64Min]
    omega
  have hneg : ¬((m : Int) < 0) := by omega
  have hnine : ((m : Int) ≤ 9) ↔ m ≤ 9 := by omega
  have hzero : ((m : Int) = 0) ↔ m = 0 := by omega
  rw [buildMinMaxIntFrom]
  dsimp only
  rw [if_neg (fun h => h.2 rfl), if_pos hmin, if_neg hneg, Int.toNat_natCast]
  simp only [hnine, hzero]

theorem length_tail_le (hm : 9 < m) :
    1 < (natText m).length ∧
      (natText (digitsValue (natText m).tail)).length + 1 ≤ (natText m).length := by
  have hlen : 1 < (natText m).length := by
    by_contra h
    have hlt := (length_natText_le_iff (n := m) (k := 1) Nat.one_pos).mp (by omega)
    omega
  refine ⟨hlen, ?_⟩
  have htail : Digits (natText m).tail := fun c hc => isDigit_natText (mem_of_mem_tail hc)
  have hlt := digitsValue_lt htail
  have hl : (natText m).tail.length = (natText m).length - 1 := length_tail
  have hle := (length_natText_le_iff (n := digitsValue (natText m).tail)
    (k := (natText m).tail.length) (by omega)).mpr hlt
  omega

theorem isDigit_charOf (hm : m ≤ 9) :
    (Char.ofNat ('0'.toNat + m)).isDigit = true ∧ (Char.ofNat ('0'.toNat + m)).toNat = 48 + m := by
  have hzero : '0'.toNat = 48 := rfl
  have hcode : (Char.ofNat ('0'.toNat + m)).toNat = 48 + m := by
    rw [hzero]
    exact toNat_charOfNat (by omega)
  exact ⟨isDigit_iff.mpr (by omega), hcode⟩

theorem isDigit_headD (m : Nat) : ((natText m).headD '0').isDigit = true := by
  cases h : natText m with
  | nil => rfl
  | cons c s => exact isDigit_natText (h ▸ mem_cons_self)

/-- A call below the first digit returns, and generates what is meant. -/
theorem inner_denotes (fuel : Nat) (hfuel : (natText m).length ≤ fuel)
    (hd : (natText m).length + 1 ≤ d) (hshort : d ≤ 2000) :
    ∃ text, buildMinMaxIntFrom fuel m int64Max d false = .ok text ∧
      AlternatesDenotes env text (innerWords fuel d m) := by
  have hpos := length_natText_pos m
  induction fuel generalizing d m with
  | zero => omega
  | succ fuel ih =>
    have hless : max (d - 1) 1 = d - 1 := by omega
    rw [build_of_lower, innerWords]
    dsimp only
    rw [hless]
    by_cases hzero : m = 0
    · rw [if_pos hzero, if_pos hzero]
      exact ⟨_, rfl, (denotes_moreDigits (by omega) hshort).sequence.alternates⟩
    · rw [if_neg hzero, if_neg hzero]
      by_cases hnine : m ≤ 9
      · rw [if_pos hnine, if_pos hnine]
        obtain ⟨hc, hcode⟩ := isDigit_charOf hnine
        have hpredcode := toNat_predChar hc
        have hpred : (predChar (Char.ofNat ('0'.toNat + m))).isDigit = true :=
          isDigit_iff.mpr (by omega)
        refine ⟨_, rfl, ?_⟩
        have hlt : '0' < Char.ofNat ('0'.toNat + m) := by
          rw [char_lt_iff, hcode]
          change 48 < 48 + m
          omega
        have hzeroDigit : '0'.isDigit = true := by decide
        rw [if_neg Bool.false_ne_true, if_pos hlt]
        have hmore : ∀ k ≤ 1, ItemDenotes env (moreDigits k (d - 1)) (anyDigits k (d - 1)) :=
          fun k hk => denotes_moreDigits (by omega) (by omega)
        have hnine : '9'.isDigit = true := rfl
        have hfirst : SequenceDenotes env _ _ :=
          (denotes_digitRange hzeroDigit hpred).sequence.append (hmore 1 (by decide)).sequence
        have hlast : SequenceDenotes env _ _ :=
          (denotes_digitRange hc hnine).sequence.append (hmore 0 (by decide)).sequence
        have hall := hfirst.alternates.append hlast.alternates
        simpa only [append_assoc] using hall
      · rw [if_neg hnine, if_neg hnine]
        obtain ⟨hlen, htail⟩ := length_tail_le (m := m) (by omega)
        obtain ⟨inner, hbuild, hinner⟩ := ih (d := d - 1) (m := digitsValue (natText m).tail)
          (by omega) (by omega) (by omega) (length_natText_pos _)
        rw [hbuild]
        exact ⟨_, rfl,
          denotes_firstDigit (by decide) (isDigit_headD m) (by omega) (by omega) hinner⟩

end

/-- What may stand behind the first digit, when the digits `r` stand there in the bound: as many
digits that are not less, or more digits. -/
def lowerWords (r : Str) (d : Nat) : Language Char :=
  {s | Digits s ∧ r.length ≤ s.length ∧ s.length ≤ d ∧
    (s.length = r.length → digitsValue r ≤ digitsValue s)}

/-- No digit but the last one is zero or one. -/
def PlainDigits (r : Str) : Prop := ∀ c ∈ r.dropLast, '2' ≤ c

instance (r : Str) : Decidable (PlainDigits r) :=
  inferInstanceAs (Decidable (∀ c ∈ r.dropLast, '2' ≤ c))

private theorem plainDigits_cons {y : Char} :
    PlainDigits (x :: y :: r) ↔ '2' ≤ x ∧ PlainDigits (y :: r) := by
  rw [PlainDigits, dropLast_cons_cons]
  exact forall_mem_cons

private theorem cons_mem_lowerWords (hx : x.isDigit = true) (hr : Digits r) (hd : 0 < d) :
    c :: s ∈ lowerWords (x :: r) d ↔
      c.isDigit = true ∧ Digits s ∧ r.length ≤ s.length ∧ s.length ≤ d - 1 ∧
        (s.length = r.length →
          x.toNat < c.toNat ∨ x.toNat = c.toNat ∧ digitsValue r ≤ digitsValue s) := by
  constructor
  · rintro ⟨hdigits, hlow, hhigh, hvalue⟩
    obtain ⟨hc, hs⟩ := digits_cons.mp hdigits
    rw [length_cons, length_cons] at hlow
    rw [length_cons] at hhigh
    refine ⟨hc, hs, by omega, by omega, fun hl => ?_⟩
    exact (digitsValue_le_cons_iff hx hc hr hs hl.symm).mp
      (hvalue (by rw [length_cons, length_cons, hl]))
  · rintro ⟨hc, hs, hlow, hhigh, hvalue⟩
    refine ⟨digits_cons.mpr ⟨hc, hs⟩, ?_, ?_, fun hl => ?_⟩
    · rw [length_cons, length_cons]
      omega
    · rw [length_cons]
      omega
    · have hl' : s.length = r.length := Nat.succ.inj hl
      exact (digitsValue_le_cons_iff hx hc hr hs hl'.symm).mpr (hvalue hl')

/-- The call lets in a text that is no longer than its number. -/
theorem short_mem_innerWords (fuel : Nat) (hfuel : (natText m).length ≤ fuel)
    (hd : (natText m).length + 1 ≤ d) :
    ∃ s ∈ innerWords fuel d m, s.length ≤ (natText m).length := by
  have hpos := length_natText_pos m
  induction fuel generalizing d m with
  | zero => omega
  | succ fuel ih =>
    rw [innerWords]
    by_cases hzero : m = 0
    · rw [if_pos hzero]
      exact ⟨['0'], ⟨by simp [Digits], by simp, by rw [length_singleton]; omega⟩, hpos⟩
    · rw [if_neg hzero]
      by_cases hnine : m ≤ 9
      · rw [if_pos hnine]
        obtain ⟨hc, hcode⟩ := isDigit_charOf hnine
        refine ⟨[Char.ofNat ('0'.toNat + m)], (mem_add _ _ _).mpr (.inr ?_), hpos⟩
        have hlast : '9'.toNat = 57 := rfl
        rw [cons_mem_oneDigit_mul]
        refine ⟨⟨Nat.le_refl _, by omega⟩, mem_anyDigits.mpr ⟨?_, Nat.le_refl 0, Nat.zero_le _⟩⟩
        simp [Digits]
      · rw [if_neg hnine]
        obtain ⟨hlen, htail⟩ := length_tail_le (m := m) (by omega)
        obtain ⟨s, hs, hl⟩ := ih (d := max (d - 1) 1) (m := digitsValue (natText m).tail)
          (by omega) (by omega) (length_natText_pos _)
        refine ⟨(natText m).headD '0' :: s, ?_, by rw [length_cons]; omega⟩
        rw [cons_mem_firstDigitWords (isDigit_headD m)]
        exact .inr (.inl ⟨rfl, hs⟩)

private theorem natText_cons (hx : x.isDigit = true) (hr : Digits r) (hlead : '1'.toNat ≤ x.toNat) :
    natText (digitsValue (x :: r)) = x :: r := by
  apply natText_digitsValue (digits_cons.mpr ⟨hx, hr⟩)
  have hone : '1'.toNat = 49 := rfl
  have hmul : 1 * 10 ^ r.length ≤ (x.toNat - 48) * 10 ^ r.length :=
    Nat.mul_le_mul_right _ (by omega)
  rw [digitsValue_cons, length_cons, Nat.add_sub_cancel]
  exact .inr ⟨by omega, by omega⟩

private theorem innerWords_single (hx : x.isDigit = true) (hfuel : 1 ≤ fuel) (hd : 2 ≤ d) :
    innerWords fuel d (digitsValue [x]) = lowerWords [x] d := by
  have hcode := isDigit_iff.mp hx
  have hvalue : digitsValue [x] = x.toNat - 48 := by
    rw [digitsValue_cons]
    simp [digitsValue]
  have hnil : digitsValue [] = 0 := rfl
  obtain ⟨fuel, rfl⟩ := Nat.exists_eq_add_of_le' hfuel
  have hless : max (d - 1) 1 = d - 1 := by omega
  rw [innerWords, hless]
  by_cases hzero : digitsValue [x] = 0
  · rw [if_pos hzero]
    ext s
    constructor
    · rintro ⟨hs, h1, h2⟩
      exact ⟨hs, h1, h2, fun _ => by omega⟩
    · rintro ⟨hs, h1, h2, -⟩
      exact ⟨hs, h1, h2⟩
  · rw [if_neg hzero, if_pos (by omega)]
    have hchar : Char.ofNat ('0'.toNat + digitsValue [x]) = x := by
      apply Char.toNat_inj.mp
      rw [(isDigit_charOf (m := digitsValue [x]) (by omega)).2]
      omega
    rw [hchar]
    have hpred := toNat_predChar hx
    have hzeroCode : '0'.toNat = 48 := rfl
    have hnineCode : '9'.toNat = 57 := rfl
    ext w
    cases w with
    | nil =>
      constructor
      · intro hw
        rcases (mem_add _ _ _).mp hw with hw | hw <;> exact absurd hw nil_notMem_oneDigit_mul
      · rintro ⟨-, hlen, -⟩
        cases hlen
    | cons c s =>
      have hnilDigits : Digits [] := fun d hd => by cases hd
      rw [cons_mem_lowerWords hx hnilDigits (by omega), mem_add, cons_mem_oneDigit_mul,
        cons_mem_oneDigit_mul, mem_anyDigits, mem_anyDigits, isDigit_iff, hpred, hzeroCode,
        hnineCode, hnil, length_nil]
      by_cases hs : Digits s
      · simp only [hs, true_and]
        omega
      · simp [hs]

private theorem mem_lowerWords :
    s ∈ lowerWords r d ↔ Digits s ∧ r.length ≤ s.length ∧ s.length ≤ d ∧
      (s.length = r.length → digitsValue r ≤ digitsValue s) := Iff.rfl

/-- Behind a first digit that is no zero or one, all depends on what follows it. -/
theorem firstDigitWords_eq_lowerWords (hx : x.isDigit = true) (hlead : 50 ≤ x.toNat) (hr : Digits r)
    (hd : r.length + 2 ≤ d) :
    firstDigitWords '0' x (r.length + 1) (d - 1) L = lowerWords (x :: r) d ↔
      L = lowerWords r (d - 1) := by
  have hcode := isDigit_iff.mp hx
  have hzeroCode : '0'.toNat = 48 := rfl
  have honeCode : '1'.toNat = 49 := rfl
  have hnineCode : '9'.toNat = 57 := rfl
  have heq : firstDigitWords '0' x (r.length + 1) (d - 1) (lowerWords r (d - 1)) =
      lowerWords (x :: r) d := by
    ext w
    cases w with
    | nil =>
      constructor
      · exact fun hw => absurd hw nil_notMem_firstDigitWords
      · rintro ⟨-, hlen, -⟩
        cases hlen
    | cons c s =>
      rw [cons_mem_firstDigitWords hx, cons_mem_lowerWords hx hr (by omega), mem_anyDigits,
        mem_anyDigits, mem_lowerWords, isDigit_iff, ← Char.toNat_inj, hzeroCode, honeCode,
        hnineCode]
      by_cases hs : Digits s
      · simp only [hs, true_and]
        omega
      · simp [hs]
  rw [← heq, firstDigitWords_inj hx]

/-- The call is right when no digit but the last one is zero or one. -/
theorem innerWords_eq_iff (hr : Digits r) (hne : r ≠ []) (hfuel : r.length ≤ fuel)
    (hd : r.length + 1 ≤ d) :
    innerWords fuel d (digitsValue r) = lowerWords r d ↔ PlainDigits r := by
  induction r generalizing fuel d with
  | nil => exact absurd rfl hne
  | cons x r ih =>
    obtain ⟨hx, hr⟩ := digits_cons.mp hr
    have hcode := isDigit_iff.mp hx
    rw [length_cons] at hfuel hd
    cases r with
    | nil =>
      refine ⟨fun _ => ?_, fun _ => innerWords_single hx hfuel hd⟩
      intro c hc
      cases hc
    | cons y r =>
      rw [plainDigits_cons]
      have htwo : ('2' ≤ x) ↔ 50 ≤ x.toNat := Iff.rfl
      have hone : '1'.toNat = 49 := rfl
      have hlenr : (y :: r).length = r.length + 1 := length_cons
      by_cases hzero : x.toNat = 48
      · -- the call forgets the zero, and lets in a text that is too short
        have hvalue : digitsValue (x :: y :: r) = digitsValue (y :: r) := by
          rw [digitsValue_cons x, hzero]
          simp
        have hlt := digitsValue_lt hr
        have hshort := (length_natText_le_iff (n := digitsValue (y :: r))
          (k := (y :: r).length) (by omega)).mpr hlt
        obtain ⟨s, hs, hl⟩ := short_mem_innerWords fuel (d := d) (m := digitsValue (y :: r))
          (by omega) (by omega)
        constructor
        · intro heq
          rw [hvalue] at heq
          rw [heq] at hs
          have hle := hs.2.1
          rw [length_cons] at hle
          omega
        · intro hplain
          have := htwo.mp hplain.1
          omega
      · have htext := natText_cons hx hr (by omega)
        obtain ⟨fuel, rfl⟩ := Nat.exists_eq_add_of_le' (show 1 ≤ fuel by omega)
        have hbig : ¬digitsValue (x :: y :: r) ≤ 9 := by
          intro hle
          have hl := (length_natText_le_iff (n := digitsValue (x :: y :: r)) (k := 1)
            Nat.one_pos).mpr (by omega)
          rw [htext, length_cons, length_cons] at hl
          omega
        have hless : max (d - 1) 1 = d - 1 := by omega
        have hwords : innerWords (fuel + 1) d (digitsValue (x :: y :: r)) =
            firstDigitWords '0' x (r.length + 2) (d - 1)
              (innerWords fuel (d - 1) (digitsValue (y :: r))) := by
          rw [innerWords, if_neg (by omega), if_neg hbig, htext, hless]
          rfl
        rw [hwords]
        by_cases hxone : x.toNat = 49
        · -- nothing that begins with zero is let in
          constructor
          · intro heq
            have hmem : '0' :: replicate (r.length + 2) '0' ∈ lowerWords (x :: y :: r) d := by
              rw [cons_mem_lowerWords hx hr (by omega)]
              refine ⟨by decide, digits_replicate (by decide) _, ?_, ?_, fun hl => ?_⟩
              · rw [length_replicate]
                omega
              · rw [length_replicate]
                omega
              · rw [length_replicate] at hl
                omega
            rw [← heq, cons_mem_firstDigitWords hx] at hmem
            have hzeroCode : '0'.toNat = 48 := rfl
            rcases hmem with h | h | h
            · omega
            · rw [← h.1] at hxone
              omega
            · omega
          · intro hplain
            have := htwo.mp hplain.1
            omega
        · have hnext : innerWords fuel (d - 1) (digitsValue (y :: r)) =
              lowerWords (y :: r) (d - 1) ↔ PlainDigits (y :: r) :=
            ih hr (cons_ne_nil y r) (by omega) (by omega)
          rw [and_iff_right (htwo.mpr (by omega)), ← hnext]
          exact firstDigitWords_eq_lowerWords hx (by omega) hr (by omega)

/-- The texts of the numbers from a bound on, of up to 16 digits. -/
def fromWords (m : Nat) : Language Char :=
  {s | ∃ k, m ≤ k ∧ (natText k).length ≤ 16 ∧ s = natText k}

theorem natText_zero_front (h : natText k = '0' :: s) : s = [] := by
  by_contra hne
  have hpos := length_pos_iff.mpr hne
  have hlen : (natText k).length = s.length + 1 := by rw [h, length_cons]
  have hpow := pow_le_of_length_natText (n := k) (by omega)
  have hdigits : Digits s := fun c hc => isDigit_natText (h ▸ mem_cons_of_mem _ hc)
  have hlt := digitsValue_lt hdigits
  have hvalue := digitsValue_natText k
  rw [h, digitsValue_cons] at hvalue
  have hzero : ('0'.toNat - 48) * 10 ^ s.length = 0 := by
    have : '0'.toNat - 48 = 0 := rfl
    rw [this, Nat.zero_mul]
  rw [hlen, Nat.add_sub_cancel] at hpow
  omega

theorem cons_mem_fromWords :
    c :: s ∈ fromWords m ↔ (c.isDigit = true ∧ Digits s ∧ (c.toNat = 48 → s = [])) ∧
      s.length ≤ 15 ∧ m ≤ digitsValue (c :: s) := by
  constructor
  · rintro ⟨k, hm, hl, htext⟩
    obtain ⟨hc, hs⟩ := digits_cons.mp (htext ▸ digits_natText k)
    rw [← htext, length_cons] at hl
    refine ⟨⟨hc, hs, fun hzero => ?_⟩, by omega, by rwa [htext, digitsValue_natText]⟩
    obtain rfl : c = '0' := Char.toNat_inj.mp hzero
    exact natText_zero_front htext.symm
  · rintro ⟨⟨hc, hs, hzero⟩, hl, hm⟩
    have htext : natText (digitsValue (c :: s)) = c :: s := by
      by_cases hz : c.toNat = 48
      · obtain rfl := hzero hz
        exact natText_digitsValue (digits_cons.mpr ⟨hc, hs⟩) (.inl rfl)
      · have hcode := isDigit_iff.mp hc
        have hone : '1'.toNat = 49 := rfl
        exact natText_cons hc hs (by omega)
    refine ⟨digitsValue (c :: s), hm, ?_, htext.symm⟩
    rw [htext, length_cons]
    omega

theorem nil_notMem_fromWords : [] ∉ fromWords m := by
  rintro ⟨k, -, -, htext⟩
  exact natText_ne_nil k htext.symm

/-- Numbers are compared by their lengths first. -/
theorem le_digitsValue_iff (hm : natText m = x :: r) (hc : c.isDigit = true) (hs : Digits s)
    (hlead : c.toNat ≠ 48) :
    m ≤ digitsValue (c :: s) ↔ r.length < s.length ∨ r.length = s.length ∧
      (x.toNat < c.toNat ∨ x.toNat = c.toNat ∧ digitsValue r ≤ digitsValue s) := by
  have hcode := isDigit_iff.mp hc
  have hone : '1'.toNat = 49 := rfl
  have htext := natText_cons hc hs (by omega)
  obtain ⟨hx, hr⟩ := digits_cons.mp (hm ▸ digits_natText m)
  have hvalue : m = digitsValue (x :: r) := by rw [← hm, digitsValue_natText]
  rcases Nat.lt_trichotomy r.length s.length with hl | hl | hl
  · refine ⟨fun _ => .inl hl, fun _ => ?_⟩
    by_contra hlt
    have hle := length_natText_mono (Nat.le_of_lt (Nat.lt_of_not_le hlt))
    rw [htext, hm, length_cons, length_cons] at hle
    omega
  · rw [hvalue, digitsValue_le_cons_iff hx hc hr hs hl]
    omega
  · constructor
    · intro hle
      have hlen := length_natText_mono hle
      rw [htext, hm, length_cons, length_cons] at hlen
      omega
    · intro h
      omega

/-- The branch for a lower bound of several digits is right when the call is. -/
theorem firstDigitWords_eq_fromWords (hm : natText m = x :: r) (hne : r ≠ []) (hd : r.length ≤ 14) :
    firstDigitWords '1' x (r.length + 1) 15 L = fromWords m ↔ L = lowerWords r 15 := by
  have hpos := length_pos_iff.mpr hne
  obtain ⟨hx, hr⟩ := digits_cons.mp (hm ▸ digits_natText m)
  have hcode := isDigit_iff.mp hx
  have hlead : x.toNat ≠ 48 := by
    intro hzero
    obtain rfl : x = '0' := Char.toNat_inj.mp hzero
    exact hne (natText_zero_front hm)
  have honeCode : '1'.toNat = 49 := rfl
  have hnineCode : '9'.toNat = 57 := rfl
  have heq : firstDigitWords '1' x (r.length + 1) 15 (lowerWords r 15) = fromWords m := by
    ext w
    cases w with
    | nil =>
      exact ⟨fun hw => absurd hw nil_notMem_firstDigitWords,
        fun hw => absurd hw nil_notMem_fromWords⟩
    | cons c s =>
      rw [cons_mem_firstDigitWords hx, cons_mem_fromWords, mem_anyDigits, mem_anyDigits,
        mem_lowerWords, ← Char.toNat_inj, honeCode, hnineCode]
      by_cases hc : c.isDigit = true ∧ Digits s
      · obtain ⟨hc, hs⟩ := hc
        have hccode := isDigit_iff.mp hc
        by_cases hzero : c.toNat = 48
        · simp only [hs, true_and, hc, hzero, forall_const]
          constructor
          · omega
          · rintro ⟨rfl, -, hle⟩
            -- a single zero is less than the bound
            obtain rfl : c = '0' := Char.toNat_inj.mp hzero
            have hsmall : digitsValue ['0'] = 0 := rfl
            rw [hsmall] at hle
            obtain rfl := Nat.le_zero.mp hle
            have htext : natText 0 = ['0'] := rfl
            rw [htext] at hm
            exact absurd (List.cons.inj hm).2.symm hne
        · rw [le_digitsValue_iff hm hc hs hzero]
          simp only [hs, true_and, hc, hzero, false_implies]
          omega
      · constructor
        · rintro (⟨-, h1, h2, hs, -⟩ | ⟨hcx, hs, -⟩ | ⟨h1, h2, hs, -⟩)
          · exact absurd ⟨isDigit_iff.mpr (by omega), hs⟩ hc
          · exact absurd ⟨isDigit_iff.mpr (by omega), hs⟩ hc
          · exact absurd ⟨isDigit_iff.mpr (by omega), hs⟩ hc
        · rintro ⟨⟨h, hs, -⟩, -⟩
          exact absurd ⟨h, hs⟩ hc
  rw [← heq, firstDigitWords_inj hx]

end Llama.Schema
