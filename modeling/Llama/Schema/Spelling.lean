import Llama.Schema.Notation

/-!
# Spelling rules

Texts that are put together the way the converter puts them together, and the words they
generate: a rule for each way.
-/

namespace Llama.Schema

open Common Backtrack Computability List

/-- A character that `parse_space` looks at. -/
def isBlank (c : Char) : Bool := c = ' ' || c = '\t' || c = '\r' || c = '\n' || c = '#'

private theorem skipSpace_space (nested : Bool) (s : Str) :
    skipSpace nested (' ' :: s) = skipSpace nested s := by
  rw [skipSpace, skipSpaceFrom, if_neg (by decide), if_pos (.inl rfl)]
  rfl

variable {c a b : Char} {t s u : Str} {p : Char → Bool} {ranges : List (Char × Char)} {m : Nat}

private theorem skipSpace_cons (h : isBlank c = false) (nested : Bool) (s : Str) :
    skipSpace nested (c :: s) = c :: s := by
  simp only [isBlank, Bool.or_eq_false_iff, decide_eq_false_iff_not] at h
  rw [skipSpace, skipSpaceFrom, if_neg h.2, if_neg]
  rintro (hc | hc | ⟨-, hc | hc⟩)
  · exact h.1.1.1.1 hc
  · exact h.1.1.1.2 hc
  · exact h.1.1.2 hc
  · exact h.1.2 hc

/-- The text begins with something that is not skipped. -/
def Begins (t : Str) : Prop := ∃ c s, t = c :: s ∧ isBlank c = false

private theorem Begins.skipSpace_append (h : Begins t) (nested : Bool) (rest : Str) :
    skipSpace nested (t ++ rest) = t ++ rest := by
  obtain ⟨c, s, rfl, hc⟩ := h
  exact skipSpace_cons hc nested (s ++ rest)

theorem Begins.append (h : Begins t) (u : Str) : Begins (t ++ u) := by
  obtain ⟨c, s, rfl, hc⟩ := h
  exact ⟨c, s ++ u, rfl, hc⟩

/-- The items so far and those in the text, up to the rest. -/
def SequenceReads (nested : Bool) (items : List Item) (s : Str) (all : List Item) (rest : Str) :
    Prop :=
  ∃ fuel, readSequence fuel nested items s = some (all, rest)

/-- The alternates in the text, up to the rest. -/
def AlternatesReads (nested : Bool) (s : Str) (alternates : List (List Item)) (rest : Str) : Prop :=
  ∃ fuel, readAlternates fuel nested s = some (alternates, rest)

/-- The text spells the items: in front of what is no name, they are added to those so far. -/
structure SequenceText (t : Str) (items : List Item) : Prop where
  begins : Begins t
  reads : ∀ {nested front rest all pos}, Stops isRuleChar rest →
    SequenceReads nested (front ++ items) (skipSpace nested rest) all pos →
    SequenceReads nested front (t ++ rest) all pos

/-- The character ends a sequence. -/
def ClosesSequence (s : Str) : Prop := s = [] ∨ (∃ u, s = ')' :: u) ∨ ∃ u, s = '|' :: u

private theorem SequenceReads.of_closes (h : ClosesSequence s) (nested : Bool) (items : List Item) :
    SequenceReads nested items s items s := by
  refine ⟨1, ?_⟩
  obtain rfl | ⟨u, rfl⟩ | ⟨u, rfl⟩ := h <;> rfl

/-- What can follow alternates: further ones, or their end. -/
inductive AlternatesTail (nested : Bool) : Str → List (List Item) → Str → Prop where
  | nil : AlternatesTail nested [] [] []
  | close (u : Str) : AlternatesTail nested (')' :: u) [] (')' :: u)
  | bar {u : Str} {alternates : List (List Item)} {rest : Str}
      (h : AlternatesReads nested (skipSpace true u) alternates rest) :
      AlternatesTail nested ('|' :: u) alternates rest

/-- The text spells the alternates. -/
structure AlternatesText (t : Str) (alternates : List (List Item)) : Prop where
  begins : Begins t
  reads : ∀ {nested rest more pos}, Stops isRuleChar rest →
    AlternatesTail nested (skipSpace nested rest) more pos →
    AlternatesReads nested (t ++ rest) (alternates ++ more) pos

private theorem stops_nil : Stops p [] := fun _ h => by cases h

private theorem stops_cons (h : p c = false) (s : Str) : Stops p (c :: s) := by
  intro a ha
  obtain rfl := Option.some.inj ha
  exact h

private theorem AlternatesTail.closes {nested : Bool} {more : List (List Item)} {pos : Str}
    (h : AlternatesTail nested s more pos) : ClosesSequence s := by
  cases h with
  | nil => exact .inl rfl
  | close u => exact .inr (.inl ⟨u, rfl⟩)
  | bar h => exact .inr (.inr ⟨_, rfl⟩)

theorem SequenceText.alternates {items : List Item} (h : SequenceText t items) :
    AlternatesText t [items] := by
  refine ⟨h.begins, fun {nested rest more pos} hstops htail => ?_⟩
  have hread : SequenceReads nested [] (t ++ rest) items (skipSpace nested rest) :=
    h.reads hstops (SequenceReads.of_closes htail.closes nested ([] ++ items))
  obtain ⟨n, hn⟩ := hread
  generalize skipSpace nested rest = s at hn htail
  cases htail with
  | nil =>
    refine ⟨n + 1, ?_⟩
    rw [readAlternates, hn]
    rfl
  | close u =>
    refine ⟨n + 1, ?_⟩
    rw [readAlternates, hn]
    rfl
  | @bar u _ _ hbar =>
    obtain ⟨k, hk⟩ := hbar
    refine ⟨max n k + 1, ?_⟩
    rw [readAlternates, readSequence_mono (Nat.le_max_left n k) hn, Option.bind_some]
    change (readAlternates (max n k) nested (skipSpace true u)).map _ = _
    rw [readAlternates_mono (Nat.le_max_right n k) hk]
    rfl

theorem AlternatesText.append {t u : Str} {a b : List (List Item)} (ht : AlternatesText t a)
    (hu : AlternatesText u b) : AlternatesText (t ++ str " | " ++ u) (a ++ b) := by
  refine ⟨(ht.begins.append _).append _, fun {nested rest more pos} hstops htail => ?_⟩
  rw [append_assoc, append_assoc, append_assoc]
  apply ht.reads (stops_cons rfl _)
  change AlternatesTail nested (skipSpace nested (' ' :: '|' :: ' ' :: (u ++ rest))) _ _
  rw [skipSpace_space, skipSpace_cons rfl]
  apply AlternatesTail.bar
  rw [skipSpace_space, hu.begins.skipSpace_append]
  exact hu.reads hstops htail

theorem AlternatesText.space {a : List (List Item)} (h : AlternatesText t a) :
    AlternatesText (t ++ str " ") a := by
  refine ⟨h.begins.append _, fun {nested rest more pos} hstops htail => ?_⟩
  rw [append_assoc]
  apply h.reads (stops_cons rfl _)
  change AlternatesTail nested (skipSpace nested (' ' :: rest)) _ _
  rw [skipSpace_space]
  exact htail

theorem AlternatesText.spells {a : List (List Item)} (h : AlternatesText t a) : Spells t a := by
  have hread : AlternatesReads false (t ++ []) (a ++ []) [] := h.reads stops_nil AlternatesTail.nil
  have hskip := h.begins.skipSpace_append true []
  rw [append_nil] at hskip
  rw [append_nil, append_nil, ← hskip] at hread
  exact hread

theorem SequenceText.append {t u : Str} {a b : List Item} (ht : SequenceText t a)
    (hu : SequenceText u b) : SequenceText (t ++ str " " ++ u) (a ++ b) := by
  refine ⟨(ht.begins.append _).append _, fun {nested front rest all pos} hstops hread => ?_⟩
  rw [append_assoc, append_assoc]
  apply ht.reads (stops_cons rfl _)
  change SequenceReads nested _ (skipSpace nested (' ' :: (u ++ rest))) _ _
  rw [skipSpace_space, hu.begins.skipSpace_append]
  apply hu.reads hstops
  rw [append_assoc]
  exact hread

/-- A group, with space behind its parenthesis or none. -/
theorem SequenceText.group_of_skip {lead : Str} {a : List (List Item)} (h : AlternatesText t a)
    (hlead : ∀ s, skipSpace true (lead ++ s) = skipSpace true s) :
    SequenceText (str "(" ++ lead ++ t ++ str ")") [.group a] := by
  refine ⟨⟨'(', lead ++ t ++ str ")", rfl, rfl⟩, fun {nested front rest all pos} hstops hread => ?_⟩
  obtain ⟨n, hn⟩ := hread
  have hinner : AlternatesReads true (t ++ ')' :: rest) (a ++ []) (')' :: rest) := by
    apply h.reads (stops_cons rfl _)
    rw [skipSpace_cons rfl]
    exact AlternatesTail.close rest
  obtain ⟨k, hk⟩ := hinner
  refine ⟨max n k + 1, ?_⟩
  have htext : str "(" ++ lead ++ t ++ str ")" ++ rest = '(' :: (lead ++ (t ++ ')' :: rest)) := by
    simp [str]
  rw [htext, readSequence, if_neg (by decide), if_neg (by decide), if_neg (by decide),
    if_pos rfl, hlead, h.begins.skipSpace_append, readAlternates_mono (Nat.le_max_right n k) hk,
    Option.bind_some, append_nil]
  exact readSequence_mono (Nat.le_max_left n k) hn

theorem SequenceText.group {t : Str} {a : List (List Item)} (h : AlternatesText t a) :
    SequenceText (str "(" ++ t ++ str ")") [.group a] := by
  have hgroup : SequenceText (str "(" ++ [] ++ t ++ str ")") [.group a] :=
    SequenceText.group_of_skip h fun _ => rfl
  rwa [append_nil] at hgroup

/-- `( t )`. -/
theorem SequenceText.spacedGroup {a : List (List Item)} (h : AlternatesText t a) :
    SequenceText (str "( " ++ t ++ str " )") [.group a] := by
  have hgroup : SequenceText (str "(" ++ str " " ++ (t ++ str " ") ++ str ")") [.group a] :=
    SequenceText.group_of_skip h.space fun s => skipSpace_space true s
  have htext : str "( " ++ t ++ str " )" = str "(" ++ str " " ++ (t ++ str " ") ++ str ")" := by
    simp [str]
  rwa [htext]

theorem SequenceText.repeated {front : List Item} {item : Item} {bounds : Nat × Option Nat}
    (h : SequenceText t (front ++ [item])) (hc : isRepetition c = true)
    (hread : ∀ nested rest, readRepetition nested c (u ++ rest) = some (bounds, rest)) :
    SequenceText (t ++ c :: u) (front ++ [.rep item bounds.1 bounds.2]) := by
  refine ⟨h.begins.append _, fun {nested front' rest all pos} hstops hrest => ?_⟩
  obtain ⟨n, hn⟩ := hrest
  rw [append_assoc, cons_append]
  have hother : isBlank c = false ∧ isRuleChar c = false ∧ c ≠ '"' ∧ c ≠ '[' ∧ c ≠ '(' ∧
      c ≠ '.' := by
    simp only [isRepetition, Bool.or_eq_true, decide_eq_true_eq] at hc
    obtain ((rfl | rfl) | rfl) | rfl := hc <;> decide
  obtain ⟨hblank, hrule, hquote, hbracket, hgroup, hdot⟩ := hother
  apply h.reads (stops_cons hrule _)
  refine ⟨n + 1, ?_⟩
  have hlast : repeatLast (front' ++ (front ++ [item])) bounds =
      some (front' ++ (front ++ [.rep item bounds.1 bounds.2])) := by
    simp [repeatLast, ← append_assoc]
  rw [skipSpace_cons hblank, readSequence, if_neg hquote, if_neg hbracket,
    if_neg (by simp [hrule]), if_neg hgroup, if_neg hdot, if_pos hc, hread, Option.bind_some]
  dsimp only
  rw [hlast]
  exact hn

theorem SequenceText.name {name : Str} (hname : name ≠ []) (h : ∀ c ∈ name, isRuleChar c = true) :
    SequenceText name [.ref name] := by
  cases name with
  | nil => exact absurd rfl hname
  | cons c name =>
    have hc := h c mem_cons_self
    have hother : isBlank c = false ∧ c ≠ '"' ∧ c ≠ '[' := by
      refine ⟨?_, ?_, ?_⟩
      · by_contra hblank
        simp only [isBlank, Bool.not_eq_false, Bool.or_eq_true, decide_eq_true_eq] at hblank
        obtain (((rfl | rfl) | rfl) | rfl) | rfl := hblank <;> exact absurd hc (by decide)
      all_goals
        rintro rfl
        exact absurd hc (by decide)
    obtain ⟨hblank, hquote, hbracket⟩ := hother
    refine ⟨⟨c, name, rfl, hblank⟩, fun {nested front rest all pos} hstops hrest => ?_⟩
    obtain ⟨n, hn⟩ := hrest
    have htake : (c :: name ++ rest).takeWhile isRuleChar = c :: name := by
      rw [takeWhile_append_of_pos h, takeWhile_eq_nil_iff.mpr, append_nil]
      intro hlen
      have hhead := hstops rest[0] (by
        rw [head?_eq_getElem?, getElem?_eq_getElem hlen]
        rfl)
      simp [hhead]
    have hdrop : (c :: name ++ rest).dropWhile isRuleChar = rest := by
      have hsplit := takeWhile_append_dropWhile (p := isRuleChar) (l := c :: name ++ rest)
      rw [htake] at hsplit
      exact append_cancel_left hsplit
    refine ⟨n + 1, ?_⟩
    rw [cons_append] at htake hdrop ⊢
    rw [readSequence, if_neg hquote, if_neg hbracket, if_pos hc, htake, hdrop]
    exact hn

/-- The text spells the characters of a literal. -/
def LiteralText (t s : Str) : Prop :=
  ∀ fuel rest, t.length < fuel → readQuoted fuel (t ++ '"' :: rest) = some (s, rest)

theorem LiteralText.nil : LiteralText [] [] := by
  intro fuel rest h
  cases fuel with
  | zero => cases h
  | succ n => rfl

/-- A character in front, spelled by some text. -/
theorem LiteralText.char (hc : c ≠ '"')
    (hread : ∀ rest, readChar (c :: (u ++ rest)) = some (a, rest)) (h : LiteralText t s) :
    LiteralText (c :: u ++ t) (a :: s) := by
  intro fuel rest hlen
  cases fuel with
  | zero => cases hlen
  | succ n =>
    rw [append_assoc, cons_append, readQuoted, if_neg hc, hread, Option.bind_some]
    dsimp only
    rw [h n rest (by simp at hlen ⊢; omega)]
    rfl

theorem readChar_plain (hc : c ≠ '\\') (s : Str) : readChar (c :: s) = some (c, s) := by
  unfold readChar
  split
  next h => cases h
  next h => exact absurd (List.cons.inj h).1 hc
  next h => exact absurd (List.cons.inj h).1 hc
  next h =>
    obtain ⟨rfl, rfl⟩ := List.cons.inj h
    rfl

theorem SequenceText.literal (h : LiteralText t s) :
    SequenceText (str "\"" ++ t ++ str "\"") [.literal s] := by
  refine ⟨⟨'"', t ++ str "\"", rfl, rfl⟩, fun {nested front rest all pos} hstops hrest => ?_⟩
  obtain ⟨n, hn⟩ := hrest
  refine ⟨n + 1, ?_⟩
  have htext : str "\"" ++ t ++ str "\"" ++ rest = '"' :: (t ++ '"' :: rest) := by simp [str]
  rw [htext, readSequence, if_pos rfl, h _ rest (by rw [length_append]; omega), Option.bind_some]
  exact hn

/-- The text spells the ranges of a class. -/
def RangesText (t : Str) (ranges : List (Char × Char)) : Prop :=
  ∀ fuel rest, t.length < fuel → readRanges fuel (t ++ ']' :: rest) = some (ranges, rest)

theorem RangesText.nil : RangesText [] [] := by
  intro fuel rest h
  cases fuel with
  | zero => cases h
  | succ n => rfl

theorem RangesText.cons {r : Char × Char} (hc : c ≠ ']')
    (hread : ∀ rest, readRange (c :: (u ++ (t ++ ']' :: rest))) = some (r, t ++ ']' :: rest))
    (h : RangesText t ranges) : RangesText (c :: u ++ t) (r :: ranges) := by
  intro fuel rest hlen
  cases fuel with
  | zero => cases hlen
  | succ n =>
    rw [append_assoc, cons_append, readRanges, if_neg hc, hread, Option.bind_some]
    dsimp only
    rw [h n rest (by simp at hlen ⊢; omega)]
    rfl

theorem readRange_char (hread : readChar (c :: u) = some (a, s)) (hs : ∀ d ∈ s.head?, d ≠ '-') :
    readRange (c :: u) = some ((a, a), s) := by
  rw [readRange, hread, Option.bind_some]
  dsimp only
  split
  next => exact absurd rfl (hs '-' rfl)
  next => rfl

theorem RangesText.char (hc : c ≠ ']')
    (hescape : c ≠ '\\') (ht : ∀ d ∈ t.head?, d ≠ '-') (h : RangesText t ranges) :
    RangesText (c :: t) ((c, c) :: ranges) := by
  apply RangesText.cons (u := []) hc _ h
  intro rest
  apply readRange_char (readChar_plain hescape _)
  intro d hd
  cases t with
  | nil =>
    obtain rfl := Option.some.inj hd
    decide
  | cons e t => exact ht d hd

theorem RangesText.range (ha : a ≠ ']')
    (hescape : a ≠ '\\') (hb : b ≠ ']') (hescape' : b ≠ '\\') (h : RangesText t ranges) :
    RangesText (a :: '-' :: b :: t) ((a, b) :: ranges) := by
  apply RangesText.cons (u := ['-', b]) ha _ h
  intro rest
  rw [readRange, readChar_plain hescape, Option.bind_some]
  change (if b = ']' then _ else _) = _
  rw [if_neg hb, readChar_plain hescape']
  rfl

/-- A class, whose text is read from behind the bracket. -/
theorem SequenceText.classItem {t : Str} {item : Item}
    (hclass : ∀ rest, readClass (t ++ ']' :: rest) = some (item, rest)) :
    SequenceText (str "[" ++ t ++ str "]") [item] := by
  refine ⟨⟨'[', t ++ str "]", rfl, rfl⟩, fun {nested front rest all pos} hstops hrest => ?_⟩
  obtain ⟨n, hn⟩ := hrest
  refine ⟨n + 1, ?_⟩
  have htext : str "[" ++ t ++ str "]" ++ rest = '[' :: (t ++ ']' :: rest) := by simp [str]
  rw [htext, readSequence, if_neg (by decide), if_pos rfl, hclass, Option.bind_some]
  exact hn

theorem SequenceText.cls {t : Str} {ranges : List (Char × Char)} (h : RangesText t ranges)
    (ht : ∀ c ∈ t.head?, c ≠ '^') : SequenceText (str "[" ++ t ++ str "]") [.cls false ranges] := by
  refine SequenceText.classItem fun rest => ?_
  unfold readClass
  split
  next s heq =>
    cases t with
    | nil => cases heq
    | cons c t =>
      obtain ⟨rfl, -⟩ := List.cons.inj heq
      exact absurd rfl (ht '^' rfl)
  next =>
    rw [h _ rest (by rw [length_append]; omega)]
    rfl

theorem SequenceText.notCls (h : RangesText t ranges) :
    SequenceText (str "[^" ++ t ++ str "]") [.cls true ranges] := by
  refine SequenceText.classItem (t := '^' :: t) fun rest => ?_
  rw [cons_append, readClass, h _ rest (by rw [length_append]; omega)]
  rfl

private theorem takeWhile_natText (m : Nat) (hs : Stops Char.isDigit s) :
    (natText m ++ s).takeWhile Char.isDigit = natText m ∧
      (natText m ++ s).dropWhile Char.isDigit = s := by
  have hdigits : ∀ c ∈ natText m, c.isDigit = true := fun c => isDigit_natText
  have htake : s.takeWhile Char.isDigit = [] := by
    cases s with
    | nil => rfl
    | cons c s => exact takeWhile_cons_of_neg (by simp [hs c rfl])
  have hleft : (natText m ++ s).takeWhile Char.isDigit = natText m := by
    rw [takeWhile_append_of_pos hdigits, htake, append_nil]
  refine ⟨hleft, ?_⟩
  have hsplit := takeWhile_append_dropWhile (p := Char.isDigit) (l := natText m ++ s)
  rw [hleft] at hsplit
  exact append_cancel_left hsplit

private theorem isBlank_of_isDigit (h : c.isDigit = true) : isBlank c = false := by
  by_contra hblank
  simp only [isBlank, Bool.not_eq_false, Bool.or_eq_true, decide_eq_true_eq] at hblank
  obtain (((rfl | rfl) | rfl) | rfl) | rfl := hblank <;> exact absurd h (by decide)

private theorem begins_natText (m : Nat) : Begins (natText m) := by
  cases hm : natText m with
  | nil => exact absurd hm (natText_ne_nil m)
  | cons c s =>
    exact ⟨c, s, rfl, isBlank_of_isDigit (isDigit_natText (hm ▸ mem_cons_self))⟩

private theorem readBounds_natText {rest : Str} {max : Option Nat} (nested : Bool)
    (hs : Stops Char.isDigit s) (hmax : readMax nested m (skipSpace nested s) = some (max, rest))
    (hthreshold : withinThreshold m max = true) :
    readBounds nested (natText m ++ s) = some ((m, max), rest) := by
  obtain ⟨htake, hdrop⟩ := takeWhile_natText m hs
  rw [readBounds]
  dsimp only
  rw [(begins_natText m).skipSpace_append, htake, hdrop, if_neg (natText_ne_nil m),
    digitsValue_natText, hmax, Option.bind_some]
  dsimp only
  rw [if_pos hthreshold]

/-- `{m}`. -/
theorem readRepetition_exactly (hm : m ≤ 2000) (nested : Bool) (rest : Str) :
    readRepetition nested '\x7b' (natText m ++ str "\x7d" ++ rest) = some ((m, some m), rest) := by
  rw [readRepetition, if_neg (by decide), if_neg (by decide), if_neg (by decide), append_assoc]
  apply readBounds_natText nested (stops_cons rfl _)
  · change readMax nested m (skipSpace nested ('\x7d' :: rest)) = _
    rw [skipSpace_cons rfl]
    rfl
  · simp [withinThreshold, hm]

/-- `{m,n}`. -/
theorem readRepetition_between {n : Nat} (hm : m ≤ 2000) (hn : n ≤ 2000) (nested : Bool)
    (rest : Str) :
    readRepetition nested '\x7b' (natText m ++ str "," ++ natText n ++ str "\x7d" ++ rest) =
      some ((m, some n), rest) := by
  rw [readRepetition, if_neg (by decide), if_neg (by decide), if_neg (by decide),
    append_assoc, append_assoc, append_assoc]
  apply readBounds_natText nested (stops_cons rfl _)
  · change readMax nested m (skipSpace nested (',' :: (natText n ++ '\x7d' :: rest))) = _
    obtain ⟨htake, hdrop⟩ := takeWhile_natText n (s := '\x7d' :: rest) (stops_cons rfl rest)
    rw [skipSpace_cons rfl, readMax, (begins_natText n).skipSpace_append, htake, hdrop,
      skipSpace_cons rfl, if_neg (natText_ne_nil n), digitsValue_natText]
    rfl
  · simp [withinThreshold, hm, hn]

theorem inClass_range_iff : inClass false [(a, b)] c = true ↔ a ≤ c ∧ c ≤ b := by
  simp [inClass]

private theorem inClass_self_iff : inClass false [(c, c)] a = true ↔ a = c := by
  rw [inClass_range_iff]
  constructor
  · exact fun h => Char.le_antisymm h.2 h.1
  · rintro rfl
    exact ⟨Char.le_refl a, Char.le_refl a⟩

theorem mem_symbols_self {w : Str} : w ∈ symbols (inClass false [(c, c)]) ↔ w = [c] := by
  constructor
  · rintro ⟨a, ha, rfl⟩
    rw [inClass_self_iff.mp ha]
  · rintro rfl
    exact ⟨c, inClass_self_iff.mpr rfl, rfl⟩

section

variable (env : Str → Language Char)

/-- The text is one item that generates the language. -/
def ItemDenotes (t : Str) (L : Language Char) : Prop :=
  ∃ item, SequenceText t [item] ∧ Item.words env item = L

/-- The text is a sequence that generates the language. -/
def SequenceDenotes (t : Str) (L : Language Char) : Prop :=
  ∃ items, SequenceText t items ∧ sequenceWords env items = L

/-- The text is alternates that generate the language. -/
def AlternatesDenotes (t : Str) (L : Language Char) : Prop :=
  ∃ alternates, AlternatesText t alternates ∧ alternatesWords env alternates = L

private theorem sequenceWords_append (a b : List Item) :
    sequenceWords env (a ++ b) = sequenceWords env a * sequenceWords env b := by
  induction a with
  | nil => rw [nil_append, sequenceWords, one_mul]
  | cons item a ih => rw [cons_append, sequenceWords, sequenceWords, ih, mul_assoc]

private theorem alternatesWords_append (a b : List (List Item)) :
    alternatesWords env (a ++ b) = alternatesWords env a + alternatesWords env b := by
  induction a with
  | nil => rw [nil_append, alternatesWords, zero_add]
  | cons items a ih => rw [cons_append, alternatesWords, alternatesWords, ih, add_assoc]

end

section

variable {env : Str → Language Char} {t u : Str} {L M : Language Char}

theorem ItemDenotes.sequence (h : ItemDenotes env t L) : SequenceDenotes env t L := by
  obtain ⟨item, ht, rfl⟩ := h
  exact ⟨[item], ht, by rw [sequenceWords, sequenceWords, mul_one]⟩

theorem SequenceDenotes.append (ht : SequenceDenotes env t L) (hu : SequenceDenotes env u M) :
    SequenceDenotes env (t ++ str " " ++ u) (L * M) := by
  obtain ⟨a, ha, rfl⟩ := ht
  obtain ⟨b, hb, rfl⟩ := hu
  exact ⟨a ++ b, ha.append hb, sequenceWords_append env a b⟩

theorem SequenceDenotes.alternates (h : SequenceDenotes env t L) : AlternatesDenotes env t L := by
  obtain ⟨a, ha, rfl⟩ := h
  exact ⟨[a], ha.alternates, by rw [alternatesWords, alternatesWords, add_zero]⟩

theorem AlternatesDenotes.append (ht : AlternatesDenotes env t L)
    (hu : AlternatesDenotes env u M) : AlternatesDenotes env (t ++ str " | " ++ u) (L + M) := by
  obtain ⟨a, ha, rfl⟩ := ht
  obtain ⟨b, hb, rfl⟩ := hu
  exact ⟨a ++ b, ha.append hb, alternatesWords_append env a b⟩

theorem AlternatesDenotes.group (h : AlternatesDenotes env t L) :
    ItemDenotes env (str "(" ++ t ++ str ")") L := by
  obtain ⟨a, ha, rfl⟩ := h
  exact ⟨.group a, SequenceText.group ha, rfl⟩

theorem AlternatesDenotes.spacedGroup (h : AlternatesDenotes env t L) :
    ItemDenotes env (str "( " ++ t ++ str " )") L := by
  obtain ⟨a, ha, rfl⟩ := h
  exact ⟨.group a, SequenceText.spacedGroup ha, rfl⟩

theorem AlternatesDenotes.textWords_eq (h : AlternatesDenotes env t L) : textWords env t = L := by
  obtain ⟨a, ha, rfl⟩ := h
  exact ha.spells.textWords_eq env

theorem ItemDenotes.repeated (h : ItemDenotes env t L) (c : Char) (u : Str)
    (bounds : Nat × Option Nat) (hc : isRepetition c = true)
    (hread : ∀ nested rest, readRepetition nested c (u ++ rest) = some (bounds, rest)) :
    ItemDenotes env (t ++ c :: u) (repWords L bounds.1 bounds.2) := by
  obtain ⟨item, ht, rfl⟩ := h
  have hseq : SequenceText t ([] ++ [item]) := ht
  exact ⟨.rep item bounds.1 bounds.2, hseq.repeated hc hread, rfl⟩

theorem ItemDenotes.star (h : ItemDenotes env t L) :
    ItemDenotes env (t ++ str "*") (repWords L 0 none) :=
  h.repeated '*' [] (0, none) rfl fun _ _ => rfl

/-- `t+`. -/
theorem ItemDenotes.plus (h : ItemDenotes env t L) :
    ItemDenotes env (t ++ str "+") (repWords L 1 none) :=
  h.repeated '+' [] (1, none) rfl fun _ _ => rfl

/-- `t?`. -/
theorem ItemDenotes.opt (h : ItemDenotes env t L) :
    ItemDenotes env (t ++ str "?") (repWords L 0 (some 1)) :=
  h.repeated '?' [] (0, some 1) rfl fun _ _ => rfl

variable {m : Nat}

theorem ItemDenotes.exactly (h : ItemDenotes env t L) (hm : m ≤ 2000) :
    ItemDenotes env (t ++ '\x7b' :: (natText m ++ str "\x7d")) (repWords L m (some m)) :=
  h.repeated '\x7b' _ (m, some m) rfl fun nested rest => readRepetition_exactly hm nested rest

theorem ItemDenotes.between (h : ItemDenotes env t L) {n : Nat} (hm : m ≤ 2000) (hn : n ≤ 2000) :
    ItemDenotes env (t ++ '\x7b' :: (natText m ++ str "," ++ natText n ++ str "\x7d"))
      (repWords L m (some n)) :=
  h.repeated '\x7b' _ (m, some n) rfl fun nested rest => readRepetition_between hm hn nested rest

theorem ItemDenotes.literal {s : Str} (h : LiteralText t s) :
    ItemDenotes env (str "\"" ++ t ++ str "\"") {s} :=
  ⟨.literal s, SequenceText.literal h, rfl⟩

theorem ItemDenotes.cls {ranges : List (Char × Char)} (h : RangesText t ranges)
    (ht : ∀ c ∈ t.head?, c ≠ '^') :
    ItemDenotes env (str "[" ++ t ++ str "]") (symbols (inClass false ranges)) :=
  ⟨.cls false ranges, SequenceText.cls h ht, rfl⟩

theorem ItemDenotes.notCls {ranges : List (Char × Char)} (h : RangesText t ranges) :
    ItemDenotes env (str "[^" ++ t ++ str "]") (symbols (inClass true ranges)) :=
  ⟨.cls true ranges, SequenceText.notCls h, rfl⟩

theorem ItemDenotes.name (ht : t ≠ []) (h : ∀ c ∈ t, isRuleChar c = true) :
    ItemDenotes env t (env t) :=
  ⟨.ref t, SequenceText.name ht h, rfl⟩

theorem ItemDenotes.spaceName : ItemDenotes env (str "space") (env (str "space")) :=
  ItemDenotes.name (by decide) (all_eq_true.mp rfl)

end

end Llama.Schema
