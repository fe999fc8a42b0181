import Llama.Grammar.Utf8

/-!
# Matching an incomplete character

`llama_grammar_match_partial_char` compares the ranges of a class with the interval of the code
points that an incomplete character can still become. For a class that is not negated that is
exact as long as the bounds of its ranges are in order. A negated class is refused as soon as one
range meets the interval, although only ranges that cover it leave nothing to match.
-/

namespace Llama.Grammar

open List

/-- The smallest code point that needs this number of bytes. -/
def minChar (bytes : Nat) : Nat :=
  if bytes ≤ 1 then 0 else if bytes = 2 then 0x80 else if bytes = 3 then 0x800 else 0x10000

theorem toNat_byte {n : Nat} (h : n < 256) : (UInt8.ofNat n).toNat = n := UInt8.toNat_ofNat_of_lt h

theorem isContinuation_byte (n : Nat) : isContinuation (UInt8.ofNat (n % 64 + 0x80)) = true := by
  have hlt : n % 64 < 64 := Nat.mod_lt _ (by decide)
  rw [isContinuation, toNat_byte (by omega), beq_iff_eq]
  omega

theorem bits_byte (n : Nat) : (UInt8.ofNat (n % 64 + 0x80)).toNat % 64 = n % 64 := by
  have hlt : n % 64 < 64 := Nat.mod_lt _ (by decide)
  rw [toNat_byte (by omega)]
  omega

/-- What the bytes of a character are. -/
structure EncodedAs (bytes : List UInt8) (c : Nat) : Prop where
  head : ∃ b tail, bytes = b :: tail ∧ width b = tail.length + 1 ∧
    ∀ t ∈ tail, isContinuation t = true
  decoded : decodeFrom bytes 0 0 = some ([c], c, 0)
  least : minChar bytes.length ≤ c
  length_le : bytes.length ≤ 4

theorem encodedAs (c : Char) : EncodedAs (String.utf8EncodeChar c) c.toNat := by
  have hc : c.toNat < 0x110000 := by
    rcases c.valid with h | h <;> simp only [Char.toNat, UInt32.toNat] at * <;> omega
  fun_cases String.utf8EncodeChar c with
  | case1 v h =>
    have hb : (UInt8.ofNat v).toNat = v := toNat_byte (by omega)
    have hw : width (UInt8.ofNat v) = 1 := by
      rw [width, hb, utf8Lookup, if_pos (by omega)]
      rfl
    refine ⟨⟨_, _, rfl, hw, by simp⟩, ?_, by simp [minChar], by simp⟩
    have hmod : v % 2 ^ 7 = c.toNat := by
      change _ = v
      omega
    simp only [decodeFrom, hw, hb, hmod]
    rfl
  | case2 v h h' =>
    have hb : (UInt8.ofNat (v / 64 % 0x20 + 0xc0)).toNat = v / 64 % 0x20 + 0xc0 :=
      toNat_byte (by omega)
    have hw : width (UInt8.ofNat (v / 64 % 0x20 + 0xc0)) = 2 := by
      rw [width, hb, utf8Lookup, if_neg (by omega), if_neg (by omega), if_pos (by omega)]
      rfl
    refine ⟨⟨_, _, rfl, hw, all_eq_true.mp
      (by simp only [all_cons, isContinuation_byte, all_nil,
      Bool.and_self])⟩, ?_, ?_, by simp⟩
    · have hcp : (v / 64 % 0x20 + 0xc0) % 2 ^ 6 * 64 + v % 64 = c.toNat := by
        change _ = v
        omega
      simp only [decodeFrom, hw, hb, bits_byte, hcp]
      rfl
    · change 0x80 ≤ v
      omega
  | case3 v h h' h'' =>
    have hb : (UInt8.ofNat (v / 4096 % 0x10 + 0xe0)).toNat = v / 4096 % 0x10 + 0xe0 :=
      toNat_byte (by omega)
    have hw : width (UInt8.ofNat (v / 4096 % 0x10 + 0xe0)) = 3 := by
      rw [width, hb, utf8Lookup, if_neg (by omega), if_neg (by omega), if_neg (by omega),
        if_pos (by omega)]
      rfl
    refine ⟨⟨_, _, rfl, hw, all_eq_true.mp
      (by simp only [all_cons, isContinuation_byte, all_nil,
      Bool.and_self])⟩, ?_, ?_, by simp⟩
    · have hcp : ((v / 4096 % 0x10 + 0xe0) % 2 ^ 5 * 64 + v / 64 % 64) * 64 + v % 64 =
          c.toNat := by
        change _ = v
        omega
      simp only [decodeFrom, hw, hb, bits_byte, hcp]
      rfl
    · change 0x800 ≤ v
      omega
  | case4 v h h' h'' =>
    have hv : v < 0x110000 := hc
    have hb : (UInt8.ofNat (v / 262144 % 0x08 + 0xf0)).toNat = v / 262144 % 0x08 + 0xf0 :=
      toNat_byte (by omega)
    have hw : width (UInt8.ofNat (v / 262144 % 0x08 + 0xf0)) = 4 := by
      rw [width, hb, utf8Lookup, if_neg (by omega), if_neg (by omega), if_neg (by omega),
        if_neg (by omega)]
      rfl
    refine ⟨⟨_, _, rfl, hw, all_eq_true.mp
      (by simp only [all_cons, isContinuation_byte, all_nil,
      Bool.and_self])⟩, ?_, ?_, by simp⟩
    · have hcp : (((v / 262144 % 0x08 + 0xf0) % 2 ^ 4 * 64 + v / 4096 % 64) * 64 + v / 64 % 64) *
          64 + v % 64 = c.toNat := by
        change _ = v
        omega
      simp only [decodeFrom, hw, hb, bits_byte, hcp]
      rfl
    · change 0x10000 ≤ v
      omega

/-- A code point that the bytes can become: continuation bytes complete them to this character,
and the form is not longer than it must be. -/
def Completion (pre : List UInt8) (c : Nat) : Prop :=
  ∃ tail : List UInt8, (∀ t ∈ tail, isContinuation t = true) ∧
    (decodeUtf8 (pre ++ tail) .empty).1 = [c, 0] ∧ minChar (pre ++ tail).length ≤ c

/-- The bytes are the beginning of a character, but not all of it. -/
def BeginsChar (pre : List UInt8) : Prop :=
  ∃ c : Char, pre <+: String.utf8EncodeChar c ∧ pre ≠ [] ∧
    pre.length < (String.utf8EncodeChar c).length

/-- The missing bytes add six bits each. -/
theorem decodeFrom_tail {tail : List UInt8} : ∀ {value k : Nat}, tail.length = k + 1 →
    ∃ c, decodeFrom tail value (k + 1) = some ([c], c, 0) ∧ c / 64 ^ (k + 1) = value := by
  induction tail with
  | nil => exact fun h => absurd h (by simp)
  | cons t tail ih =>
    intro value k hlen
    have hlt : t.toNat % 64 < 64 := Nat.mod_lt _ (by decide)
    rw [decodeFrom]
    cases k with
    | zero =>
      obtain rfl : tail = [] := by simpa using hlen
      refine ⟨value * 64 + t.toNat % 64, rfl, ?_⟩
      change (value * 64 + t.toNat % 64) / 64 = value
      omega
    | succ k =>
      obtain ⟨c, h1, h2⟩ := @ih (value * 64 + t.toNat % 64) k (by simpa using hlen)
      refine ⟨c, by rw [h1, emit_pos]; rfl, ?_⟩
      rw [Nat.pow_succ, ← Nat.div_div_eq_div_mul, h2]
      omega

/-- Every code point with the bits so far is reached. -/
theorem exists_tail (c k : Nat) : ∃ tail : List UInt8, tail.length = k + 1 ∧
    (∀ t ∈ tail, isContinuation t = true) ∧
    decodeFrom tail (c / 64 ^ (k + 1)) (k + 1) = some ([c], c, 0) := by
  have hnext : ∀ k, c / 64 ^ (k + 1) * 64 + c / 64 ^ k % 64 = c / 64 ^ k := by
    intro k
    rw [Nat.pow_succ, ← Nat.div_div_eq_div_mul]
    omega
  induction k with
  | zero =>
    refine ⟨[UInt8.ofNat (c % 64 + 0x80)], rfl, fun t ht => ?_, ?_⟩
    · rw [mem_singleton.mp ht]
      exact isContinuation_byte c
    · have h := hnext 0
      rw [Nat.pow_zero, Nat.div_one] at h
      rw [decodeFrom, bits_byte, h]
      rfl
  | succ k ih =>
    obtain ⟨tail, h1, h2, h3⟩ := ih
    refine ⟨UInt8.ofNat (c / 64 ^ (k + 1) % 64 + 0x80) :: tail, by rw [length_cons, h1], ?_, ?_⟩
    · exact forall_mem_cons.mpr ⟨isContinuation_byte _, h2⟩
    · rw [decodeFrom, bits_byte, hnext, h3, emit_pos]
      rfl

variable {t : UInt8} {pre : List UInt8} {k value c : Nat} {rules : Rules} {p : Pos}

theorem continuation_ne_zero (h : isContinuation t = true) : t ≠ 0 := by
  rintro rfl
  cases h

theorem width_continuation (h : isContinuation t = true) : width t = 0 := by
  rw [isContinuation, beq_iff_eq] at h
  rw [width, utf8Lookup, if_neg (by omega), if_pos (by omega)]
  rfl

theorem missingAfter_of_le {s : List UInt8} : ∀ {missing : Nat}, s.length ≤ missing →
    missingAfter s missing = missing - s.length := by
  induction s with
  | nil => exact fun _ => rfl
  | cons b s ih =>
    intro missing h
    rw [length_cons] at h
    obtain ⟨m, rfl⟩ : ∃ m, missing = m + 1 := ⟨missing - 1, by omega⟩
    rw [missingAfter, ih (by omega), length_cons]
    omega

/-- What is known of the beginning of a character: the bits so far, and that `k + 1` bytes are
missing. -/
structure Begun (pre : List UInt8) (value k : Nat) : Prop where
  no_nul : 0 ∉ pre
  decoded : decodeFrom pre 0 0 = some ([], value, k + 1)
  pos : 0 < pre.length
  le_four : pre.length + (k + 1) ≤ 4
  least : ∃ c, value = c / 64 ^ (k + 1) ∧ minChar (pre.length + (k + 1)) ≤ c

theorem begun (h : BeginsChar pre) : ∃ value k, Begun pre value k := by
  obtain ⟨c, ⟨rest, hrest⟩, hne, hlt⟩ := h
  obtain ⟨⟨b, tail, htail, hw, hcont⟩, hdec, hmin, hfour⟩ := encodedAs c
  rw [← hrest] at hdec hmin hfour hlt htail
  obtain ⟨b', pre', rfl⟩ := exists_cons_of_ne_nil hne
  simp only [cons_append, List.cons.injEq] at htail
  obtain ⟨rfl, rfl⟩ := htail
  rw [decodeFrom_append] at hdec
  obtain ⟨⟨cps, value, missing⟩, hr, hrest'⟩ := Option.bind_eq_some_iff.mp hdec
  obtain ⟨q, hq, hrq⟩ := Option.map_eq_some_iff.mp hrest'
  simp only [length_append, length_cons] at hlt hmin hfour hw
  have hnil : cps = [] := by
    refine (decoded_nil_iff hr).mpr fun x hx => ?_
    obtain rfl : b' = x := by simpa using hx
    rw [length_cons, hw]
    omega
  have hmiss : missing = rest.length := by
    have hm := missingAfter_eq hr
    rw [missingAfter, hw, missingAfter_of_le (by omega)] at hm
    simp only at hm
    omega
  obtain ⟨k, hk⟩ : ∃ k, rest.length = k + 1 := ⟨rest.length - 1, by omega⟩
  rw [hmiss, hk] at hq hr
  obtain ⟨c', h1, h2⟩ := @decodeFrom_tail rest value k hk
  obtain rfl : q = ([c'], c', 0) := Option.some.inj (hq.symm.trans h1)
  obtain rfl : c' = c.toNat := congrArg (fun r => r.2.1) hrq
  subst hnil
  refine ⟨value, k, ?_, hr, Nat.succ_pos _, by rw [length_cons]; omega, c.toNat, h2.symm, ?_⟩
  · intro h0
    rcases mem_cons.mp h0 with rfl | h0
    · have hz : width 0 = 1 := rfl
      omega
    · exact continuation_ne_zero (hcont 0 (mem_append_left _ h0)) rfl
  · rw [length_cons, ← hk]
    exact hmin

/-- The lower bound that the code computes. -/
def lowBound (value k : Nat) : Nat :=
  if value * 64 ^ (k + 1) = 0 ∧ k = 1 then 2 ^ 11
  else if value * 64 ^ (k + 1) = 0 ∧ k = 2 then 2 ^ 16 else value * 64 ^ (k + 1)

/-- It is the smallest code point with these bits that needs the number of bytes. -/
theorem Begun.lowBound_eq (h : Begun pre value k) :
    lowBound value k = max (value * 64 ^ (k + 1)) (minChar (pre.length + (k + 1))) ∧
      (k = 0 → 2 ≤ value) ∧ lowBound value k < (value + 1) * 64 ^ (k + 1) := by
  obtain ⟨c, rfl, hmin⟩ := h.least
  have hpos := h.pos
  have hfour := h.le_four
  generalize pre.length = n at hmin hpos hfour
  obtain rfl | rfl | rfl : k = 0 ∨ k = 1 ∨ k = 2 := by omega
  · obtain rfl | rfl | rfl : n = 1 ∨ n = 2 ∨ n = 3 := by omega
    all_goals
      simp only [minChar, lowBound] at *
      simp at *
      omega
  · obtain rfl | rfl : n = 1 ∨ n = 2 := by omega
    all_goals
      simp only [minChar, lowBound] at *
      simp at *
      split <;> omega
  · obtain rfl : n = 1 := by omega
    simp only [minChar, lowBound] at *
    simp at *
    split <;> omega

theorem Begun.completion_iff (h : Begun pre value k) (c : Nat) :
    Completion pre c ↔ lowBound value k ≤ c ∧ c < (value + 1) * 64 ^ (k + 1) := by
  have hpow : 0 < 64 ^ (k + 1) := Nat.pow_pos (by decide)
  have hdiv : c / 64 ^ (k + 1) = value ↔
      value * 64 ^ (k + 1) ≤ c ∧ c < (value + 1) * 64 ^ (k + 1) := by
    rw [Nat.div_eq_iff hpow, Nat.succ_mul]
    omega
  have hdecode : ∀ tail : List UInt8, (∀ t ∈ tail, isContinuation t = true) →
      decodeUtf8 (pre ++ tail) .empty =
        finish ((decodeFrom tail value (k + 1)).map fun q => (q.1, q.2)) := by
    intro tail ht
    have h0 : 0 ∉ pre ++ tail := by
      intro hmem
      rcases mem_append.mp hmem with hmem | hmem
      · exact h.no_nul hmem
      · exact continuation_ne_zero (ht 0 hmem) rfl
    have heq := decodeUtf8_eq h0 0 0
    rw [take_zero, all_nil, if_pos rfl, decodeFrom_append, h.decoded] at heq
    exact heq
  rw [h.lowBound_eq.1]
  constructor
  · rintro ⟨tail, ht, hd, hmin⟩
    rw [hdecode tail ht] at hd
    rcases Nat.lt_trichotomy tail.length (k + 1) with hlt | heq | hgt
    · cases hq : decodeFrom tail value (k + 1) with
      | none =>
        rw [hq] at hd
        cases hd
      | some q =>
        have hnil := (decoded_nil_of_missing hq (Nat.succ_pos k)).mpr hlt
        rw [hq, Option.map_some, hnil] at hd
        cases hd
    · obtain ⟨c', h1, h2⟩ := @decodeFrom_tail tail value k heq
      rw [h1] at hd
      obtain rfl : c' = c := by simpa [finish] using hd
      rw [length_append, heq] at hmin
      have := hdiv.mp h2
      omega
    · obtain ⟨t, rest, hrest⟩ := exists_cons_of_ne_nil
        (ne_nil_of_length_pos (l := tail.drop (k + 1)) (by rw [length_drop]; omega))
      have htake : (tail.take (k + 1)).length = k + 1 := by
        rw [length_take]
        omega
      obtain ⟨c', h1, -⟩ := @decodeFrom_tail _ value k htake
      have hcont : isContinuation t = true :=
        ht t (mem_of_mem_drop (by rw [hrest]; exact mem_cons_self ..))
      rw [← take_append_drop (k + 1) tail, decodeFrom_append, h1, hrest, Option.bind_some,
        decodeFrom, width_continuation hcont] at hd
      cases hd
  · rintro ⟨hlow, hhigh⟩
    obtain ⟨tail, h1, h2, h3⟩ := exists_tail c k
    rw [hdiv.mpr (by omega)] at h3
    refine ⟨tail, h2, ?_, ?_⟩
    · rw [hdecode tail h2, h3]
      rfl
    · rw [length_append, h1]
      omega

/-- What elements of a class stand for: a range of code points, or any code point. -/
inductive ClassItem where
  | range (lower upper : Nat)
  | any
  deriving DecidableEq, Repr

/-- The item of an element that no upper bound follows. -/
def Element.item (e : Element) : ClassItem :=
  if e.type = .charAny then .any else .range e.value e.value

/-- The items of the class that starts with the first element. -/
def classItems : List Element → List ClassItem
  | e :: u :: es =>
    if u.type = .charRngUpper then
      .range e.value u.value ::
        match es with
        | a :: es => if a.type = .charAlt then classItems (a :: es) else []
        | [] => []
    else e.item :: if u.type = .charAlt then classItems (u :: es) else []
  | [e] => [e.item]
  | [] => []

/-- The item holds a code point. -/
def ClassItem.holds (c : Nat) : ClassItem → Bool
  | .range lower upper => decide (lower ≤ c) && decide (c ≤ upper)
  | .any => true

/-- The bounds of the item meet an interval; nothing is asked of their order. -/
def ClassItem.meets (low high : Nat) : ClassItem → Bool
  | .range lower upper => decide (lower ≤ high) && decide (low ≤ upper)
  | .any => true

theorem Element.item_holds (e : Element) (c : Nat) (found : Bool) :
    (if e.type = .charAny then true else found || e.value == c) = (found || e.item.holds c) := by
  rw [Element.item]
  split
  · simp [ClassItem.holds]
  · rw [ClassItem.holds]
    congr 1
    rw [Bool.eq_iff_iff, beq_iff_eq, Bool.and_eq_true, decide_eq_true_eq, decide_eq_true_eq]
    omega

/-- A code point is found when an item holds it. -/
theorem matchLoop_fst (c : Nat) : ∀ (es : List Element) (found : Bool),
    (matchLoop c found es).1 = (found || (classItems es).any (ClassItem.holds c))
  | [], found => by simp [matchLoop, classItems]
  | [e], found => by
    rw [matchLoop, Element.item_holds, classItems, any_cons, any_nil, Bool.or_false]
  | [e, u], found => by
    have ih := matchLoop_fst c [u]
    rw [matchLoop, classItems]
    by_cases hu : u.type = .charRngUpper
    · simp [hu, ClassItem.holds]
    · by_cases ha : u.type = .charAlt
      · simp only [if_neg hu, if_pos ha]
        rw [Element.item_holds, ih, any_cons, Bool.or_assoc]
      · simp only [hu, ha, if_false]
        rw [Element.item_holds, any_cons, any_nil, Bool.or_false]
  | e :: u :: a :: es, found => by
    have ih := matchLoop_fst c (u :: a :: es)
    have ih' := matchLoop_fst c (a :: es)
    rw [matchLoop, classItems]
    by_cases hu : u.type = .charRngUpper
    · by_cases ha : a.type = .charAlt
      · simp only [hu, ha, if_true]
        rw [ih', any_cons, ClassItem.holds, Bool.or_assoc]
      · simp [hu, ha, ClassItem.holds]
    · by_cases ha : u.type = .charAlt
      · simp only [if_neg hu, if_pos ha]
        rw [Element.item_holds, ih, any_cons, Bool.or_assoc]
      · simp only [hu, ha, if_false]
        rw [Element.item_holds, any_cons, any_nil, Bool.or_false]

theorem Element.item_meets (e : Element) (low high : Nat) (positive rest : Bool)
    (h : positive = true ∨ e.type ≠ .charAny) :
    (if e.type = .charAny then true
      else if low ≤ e.value ∧ e.value ≤ high then positive else rest) =
      if e.item.meets low high then positive else rest := by
  rw [Element.item]
  split
  · rename_i hany
    rcases h with rfl | h
    · simp [ClassItem.meets]
    · exact (h hany).elim
  · simp only [ClassItem.meets, Bool.and_eq_true, decide_eq_true_eq]
    congr 1
    rw [eq_iff_iff]
    exact and_comm

/-- The loop over an incomplete character looks for an item that meets the interval. -/
theorem matchPartialLoop_eq (low high : Nat) (positive : Bool) : ∀ es : List Element,
    (positive = true ∨ ∀ e ∈ es.head?, e.type ≠ .charAny) → matchPartialLoop low high positive es =
      if (classItems es).any (ClassItem.meets low high) then positive else !positive
  | [], _ => by simp [matchPartialLoop, classItems]
  | [e], h => by
    rw [matchPartialLoop, Element.item_meets e low high positive _ (h.imp id fun h => h e rfl),
      classItems, any_cons, any_nil, Bool.or_false]
  | [e, u], h => by
    have he : positive = true ∨ e.type ≠ .charAny := h.imp id fun h => h e rfl
    rw [matchPartialLoop, classItems]
    by_cases hu : u.type = .charRngUpper
    · simp [hu, ClassItem.meets]
    · by_cases ha : u.type = .charAlt
      · have ih := matchPartialLoop_eq low high positive [u] (.inr (by simp [ha]))
        simp only [if_neg hu, if_pos ha]
        rw [Element.item_meets e low high positive _ he, ih, any_cons]
        by_cases hm : e.item.meets low high = true <;> simp [hm]
      · simp only [hu, ha, if_false]
        rw [Element.item_meets e low high positive _ he, any_cons, any_nil, Bool.or_false]
  | e :: u :: a :: es, h => by
    have he : positive = true ∨ e.type ≠ .charAny := h.imp id fun h => h e rfl
    rw [matchPartialLoop, classItems]
    by_cases hu : u.type = .charRngUpper
    · by_cases ha : a.type = .charAlt
      · have ih := matchPartialLoop_eq low high positive (a :: es) (.inr (by simp [ha]))
        simp only [hu, ha, if_true]
        rw [ih, any_cons, ClassItem.meets]
        by_cases hm : e.value ≤ high ∧ low ≤ u.value
        · simp [hm]
        · rw [if_neg hm]
          have hfalse : (decide (e.value ≤ high) && decide (low ≤ u.value)) = false := by
            simpa using hm
          rw [hfalse, Bool.false_or]
      · simp [hu, ha, ClassItem.meets]
    · by_cases ha : u.type = .charAlt
      · have ih := matchPartialLoop_eq low high positive (u :: a :: es) (.inr (by simp [ha]))
        simp only [if_neg hu, if_pos ha]
        rw [Element.item_meets e low high positive _ he, ih, any_cons]
        by_cases hm : e.item.meets low high = true <;> simp [hm]
      · simp only [hu, ha, if_false]
        rw [Element.item_meets e low high positive _ he, any_cons, any_nil, Bool.or_false]

/-- The class at a pointer. -/
def Rules.classAt (rules : Rules) (p : Pos) : List ClassItem := classItems (rules.from p)

/-- The answer for an incomplete character is right: it is yes exactly when some completion
matches. -/
def PartialExact (rules : Rules) (p : Pos) (pre : List UInt8) : Prop :=
  matchPartialChar rules p (decodeUtf8 pre .empty).2 = .ok true ↔
    ∃ c, Completion pre c ∧ ∃ q, matchChar rules p c = .ok (true, q)

/-- The bounds of an item lie around completions: the lower one is not above all of them, and the
upper one not below. -/
def ClassItem.Around (pre : List UInt8) : ClassItem → Prop
  | .range lower upper => (∃ c, Completion pre c ∧ lower ≤ c) ∧ ∃ c, Completion pre c ∧ c ≤ upper
  | .any => True

/-- The bounds of an item are in order. -/
def ClassItem.InOrder : ClassItem → Prop
  | .range lower upper => lower ≤ upper
  | .any => True

/-- When the answer is right: for a class that is not negated, if an item lies around completions
then one with bounds in order does; for a negated class, if an item lies around completions then
every completion is in the class. -/
def ClassFits (rules : Rules) (p : Pos) (pre : List UInt8) : Prop :=
  (∃ it ∈ rules.classAt p, it.Around pre) →
    if isPositiveChar (rules.elem p) then ∃ it ∈ rules.classAt p, it.Around pre ∧ it.InOrder
    else ∀ c, Completion pre c → ∃ it ∈ rules.classAt p, it.holds c

theorem Begun.around_iff (h : Begun pre value k) (it : ClassItem) :
    it.Around pre ↔ it.meets (lowBound value k) ((value + 1) * 64 ^ (k + 1) - 1) = true := by
  have hlt := h.lowBound_eq.2.2
  cases it with
  | any => simp [ClassItem.Around, ClassItem.meets]
  | range lower upper =>
    simp only [ClassItem.Around, ClassItem.meets, h.completion_iff, Bool.and_eq_true,
      decide_eq_true_eq]
    constructor
    · rintro ⟨⟨c, hc, hl⟩, c', hc', hu⟩
      omega
    · rintro ⟨hl, hu⟩
      exact ⟨⟨_, ⟨by omega, by omega⟩, hl⟩, ⟨_, ⟨Nat.le_refl _, hlt⟩, hu⟩⟩

theorem Begun.state_eq (h : Begun pre value k) :
    (decodeUtf8 pre .empty).2 = { value := value, nRemain := (k + 1 : Nat) } := by
  have heq := decodeUtf8_eq h.no_nul 0 0
  rw [take_zero, all_nil, if_pos rfl, h.decoded] at heq
  exact congrArg Prod.snd heq

/-- A terminal that is not negated is not followed by another one in its class. -/
theorem head_ne_charAny
    (hp : (isPositiveChar (rules.elem p) || (rules.elem p).type == .charNot) = true) :
    isPositiveChar (rules.elem p) = true ∨ ∀ e ∈ (rules.from p).head?, e.type ≠ .charAny := by
  rw [Bool.or_eq_true] at hp
  refine hp.imp id fun hnot e he hany => ?_
  have helem : rules.elem p = e := by rw [Rules.elem, he, Option.getD_some]
  rw [helem, hany] at hnot
  cases hnot

theorem Begun.matchPartialChar_iff (h : Begun pre value k)
    (hp : (isPositiveChar (rules.elem p) || (rules.elem p).type == .charNot) = true) :
    matchPartialChar rules p (decodeUtf8 pre .empty).2 = .ok true ↔
      ((∃ it ∈ rules.classAt p, it.Around pre) ↔ isPositiveChar (rules.elem p) = true) := by
  have htwo := h.lowBound_eq.2.1
  have hpow : 2 ^ ((k + 1) * 6) = 64 ^ (k + 1) := by rw [Nat.mul_comm, Nat.pow_mul]
  have hhigh : value * 64 ^ (k + 1) + (64 ^ (k + 1) - 1) = (value + 1) * 64 ^ (k + 1) - 1 := by
    have hpos : 0 < 64 ^ (k + 1) := Nat.pow_pos (by decide)
    rw [Nat.succ_mul]
    omega
  have hearly : ¬ (((k + 1 : Nat) : Int) < 0 ∨ ((k + 1 : Nat) : Int) = 1 ∧ value < 2) := by omega
  have hlow : (if value * 64 ^ (k + 1) = 0 ∧ ((k + 1 : Nat) : Int) = 2 then 2 ^ 11
      else if value * 64 ^ (k + 1) = 0 ∧ ((k + 1 : Nat) : Int) = 3 then 2 ^ 16
      else value * 64 ^ (k + 1)) = lowBound value k := by
    have h2 : ((k + 1 : Nat) : Int) = 2 ↔ k = 1 := by omega
    have h3 : ((k + 1 : Nat) : Int) = 3 ↔ k = 2 := by omega
    simp only [lowBound, h2, h3]
  rw [h.state_eq, matchPartialChar]
  simp only [if_pos hp, Int.toNat_natCast, hpow, hhigh, if_neg hearly, hlow]
  rw [matchPartialLoop_eq _ _ _ _ (head_ne_charAny hp)]
  simp only [h.around_iff]
  change Except.ok (if (rules.classAt p).any _ = true then _ else _) = _ ↔ _
  rw [← any_eq_true]
  cases isPositiveChar (rules.elem p) <;>
    cases (rules.classAt p).any
      (ClassItem.meets (lowBound value k) ((value + 1) * 64 ^ (k + 1) - 1)) <;>
    simp

theorem matchChar_iff
    (hp : (isPositiveChar (rules.elem p) || (rules.elem p).type == .charNot) = true) :
    (∃ q, matchChar rules p c = .ok (true, q)) ↔
      ((∃ it ∈ rules.classAt p, it.holds c = true) ↔ isPositiveChar (rules.elem p) = true) := by
  rw [matchChar]
  simp only [if_pos hp, matchLoop_fst, Bool.false_or, Except.ok.injEq, Prod.mk.injEq,
    exists_and_left, exists_eq', and_true]
  rw [← any_eq_true, beq_iff_eq]
  change (rules.classAt p).any _ = _ ↔ _
  exact Bool.eq_iff_iff

/-- An item that holds a completion lies around it. -/
theorem ClassItem.around_of_holds {it : ClassItem} (hc : Completion pre c) (h : it.holds c = true) :
    it.Around pre := by
  cases it with
  | any => trivial
  | range lower upper =>
    simp only [ClassItem.holds, Bool.and_eq_true, decide_eq_true_eq] at h
    exact ⟨⟨c, hc, h.1⟩, ⟨c, hc, h.2⟩⟩

/-- An item holds a completion exactly when it lies around completions with bounds in order. -/
theorem Begun.holds_iff (h : Begun pre value k) (it : ClassItem) :
    (∃ c, Completion pre c ∧ it.holds c = true) ↔ it.Around pre ∧ it.InOrder := by
  constructor
  · rintro ⟨c, hc, hit⟩
    refine ⟨ClassItem.around_of_holds hc hit, ?_⟩
    cases it with
    | any => trivial
    | range lower upper =>
      simp only [ClassItem.holds, Bool.and_eq_true, decide_eq_true_eq] at hit
      exact Nat.le_trans hit.1 hit.2
  · rintro ⟨hit, hord⟩
    have hlt := h.lowBound_eq.2.2
    cases it with
    | any => exact ⟨lowBound value k, (h.completion_iff _).mpr ⟨Nat.le_refl _, hlt⟩, rfl⟩
    | range lower upper =>
      obtain ⟨⟨c, hc, hl⟩, c', hc', hu⟩ := hit
      rw [h.completion_iff] at hc hc'
      have hord' : lower ≤ upper := hord
      refine ⟨max lower (lowBound value k), (h.completion_iff _).mpr ⟨by omega, by omega⟩, ?_⟩
      simp only [ClassItem.holds, Bool.and_eq_true, decide_eq_true_eq]
      omega

/-- The answer for the beginning of a character is right exactly when the class fits. -/
theorem partial_exact_iff {rules : Rules} {p : Pos} {pre : List UInt8}
    (hp : (isPositiveChar (rules.elem p) || (rules.elem p).type == .charNot) = true)
    (hpre : BeginsChar pre) : PartialExact rules p pre ↔ ClassFits rules p pre := by
  obtain ⟨value, k, h⟩ := begun hpre
  have hlt := h.lowBound_eq.2.2
  have hfirst : Completion pre (lowBound value k) := (h.completion_iff _).mpr ⟨Nat.le_refl _, hlt⟩
  rw [PartialExact, h.matchPartialChar_iff hp, ClassFits]
  simp only [matchChar_iff hp]
  cases hpos : isPositiveChar (rules.elem p) with
  | true =>
    simp only [iff_true, if_true]
    have hmatch : (∃ c, Completion pre c ∧ ∃ it ∈ rules.classAt p, it.holds c = true) ↔
        ∃ it ∈ rules.classAt p, it.Around pre ∧ it.InOrder := by
      constructor
      · rintro ⟨c, hc, it, hit, hholds⟩
        exact ⟨it, hit, (h.holds_iff it).mp ⟨c, hc, hholds⟩⟩
      · rintro ⟨it, hit, hboth⟩
        obtain ⟨c, hc, hholds⟩ := (h.holds_iff it).mpr hboth
        exact ⟨c, hc, it, hit, hholds⟩
    rw [hmatch]
    exact ⟨fun hiff => hiff.mp, fun himp => ⟨himp, fun ⟨it, hit, har, _⟩ => ⟨it, hit, har⟩⟩⟩
  | false =>
    simp only [Bool.false_eq_true, iff_false, if_false]
    constructor
    · intro hiff har c hc
      by_contra hnone
      exact hiff.mpr ⟨c, hc, hnone⟩ har
    · intro hcover
      constructor
      · intro hnone
        refine ⟨lowBound value k, hfirst, fun ⟨it, hit, hholds⟩ => hnone ⟨it, hit, ?_⟩⟩
        exact ClassItem.around_of_holds hfirst hholds
      · rintro ⟨c, hc, hnone⟩ har
        exact hnone (hcover har c hc)

/-- The class `[^é]`. -/
def notEAcute : Rules := [[⟨.charNot, 0xe9⟩, ⟨.end_, 0⟩]]

theorem beginsChar_c3 : BeginsChar [0xc3] := ⟨'é', ⟨[0xa9], by decide⟩, by decide, by decide⟩

/-- The first byte of `é` before the class `[^é]`. -/
theorem partial_exact_notEAcute :
    PartialExact notEAcute ⟨0, 0⟩ [0xc3] ↔ ClassFits notEAcute ⟨0, 0⟩ [0xc3] :=
  partial_exact_iff (by decide) beginsChar_c3

/-- `è` begins with the same byte and is in the class `[^é]`, but the byte is refused. -/
theorem partial_not_exact : ¬ PartialExact notEAcute ⟨0, 0⟩ [0xc3] := by
  have hno : matchPartialChar notEAcute ⟨0, 0⟩ (decodeUtf8 [0xc3] .empty).2 = .ok false := by decide
  have hcomp : Completion [0xc3] 0xe8 :=
    ⟨[0xa8], forall_mem_singleton.mpr (by decide), by decide, by decide⟩
  intro h
  have hyes := h.mpr ⟨0xe8, hcomp, ⟨0, 1⟩, by decide⟩
  rw [hno] at hyes
  exact absurd hyes (by decide)

end Llama.Grammar
