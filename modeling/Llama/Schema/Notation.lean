import Llama.Lib.Scan
import Llama.Schema.Converter

/-!
# The notation of the rules

What `llama_grammar_parser` reads in the right side of a rule, and the words that the side
generates when languages are given for the names. The rules of the converter name no tokens, so
the reader has no `<` and `!`.
-/

namespace Llama.Schema

open Common Backtrack Computability Option

/-- An item of a sequence. -/
inductive Item where
  | literal (s : Str)
  | cls (negated : Bool) (ranges : List (Char × Char))
  | ref (name : Str)
  | group (alternates : List (List Item))
  | rep (item : Item) (min : Nat) (max : Option Nat)

/-- The character is in the class. -/
def inClass (negated : Bool) (ranges : List (Char × Char)) (c : Char) : Bool :=
  (ranges.any fun r => r.1 ≤ c && c ≤ r.2) != negated

section

variable (env : Str → Language Char)

mutual

def Item.words : Item → Language Char
  | .literal s => {s}
  | .cls negated ranges => symbols (inClass negated ranges)
  | .ref name => env name
  | .group alternates => alternatesWords alternates
  | .rep item min max => repWords item.words min max

def sequenceWords : List Item → Language Char
  | [] => 1
  | item :: items => item.words * sequenceWords items

def alternatesWords : List (List Item) → Language Char
  | [] => 0
  | items :: alternates => sequenceWords items + alternatesWords alternates

end

end

/-- `parse_space`; the second flag says that the inner loop, over a comment, is running. -/
def skipSpaceFrom (newlineOk : Bool) : Bool → Str → Str
  | _, [] => []
  | true, c :: s =>
    if c = '\r' ∨ c = '\n' then
      if newlineOk then skipSpaceFrom newlineOk false s else c :: s
    else skipSpaceFrom newlineOk true s
  | false, c :: s =>
    if c = '#' then skipSpaceFrom newlineOk true s
    else if c = ' ' ∨ c = '\t' ∨ (newlineOk ∧ (c = '\r' ∨ c = '\n')) then
      skipSpaceFrom newlineOk false s
    else c :: s

/-- `parse_space`. -/
def skipSpace (newlineOk : Bool) (s : Str) : Str := skipSpaceFrom newlineOk false s

/-- The value of a hexadecimal digit. -/
def hexDigit (c : Char) : Option Nat :=
  if 'a' ≤ c ∧ c ≤ 'f' then some (c.toNat - 'a'.toNat + 10)
  else if 'A' ≤ c ∧ c ≤ 'F' then some (c.toNat - 'A'.toNat + 10)
  else if '0' ≤ c ∧ c ≤ '9' then some (c.toNat - '0'.toNat)
  else none

/-- `parse_hex`. -/
def readHex : Nat → Str → Nat → Option (Char × Str)
  | 0, s, value => some (Char.ofNat value, s)
  | _ + 1, [], _ => none
  | n + 1, c :: s, value => (hexDigit c).bind fun d => readHex n s (value * 16 + d)

/-- `parse_char`. -/
def readChar : Str → Option (Char × Str)
  | [] => none
  | '\\' :: [] => none
  | '\\' :: c :: s =>
    if c = 'x' then readHex 2 s 0
    else if c = 'u' then readHex 4 s 0
    else if c = 'U' then readHex 8 s 0
    else if c = 't' then some ('\t', s)
    else if c = 'r' then some ('\r', s)
    else if c = 'n' then some ('\n', s)
    else if c = '\\' ∨ c = '"' ∨ c = '[' ∨ c = ']' then some (c, s)
    else none
  | c :: s => some (c, s)

/-- The loop over the characters of a literal. The first argument bounds the turns. -/
def readQuoted : Nat → Str → Option (Str × Str)
  | 0, _ => none
  | _ + 1, [] => none
  | fuel + 1, c :: s =>
    if c = '"' then some ([], s)
    else
      (readChar (c :: s)).bind fun (a, s) =>
        (readQuoted fuel s).map fun (cs, s) => (a :: cs, s)

/-- A character of a class, or a range: the dash in front of `]` is a character. -/
def readRange (s : Str) : Option ((Char × Char) × Str) :=
  (readChar s).bind fun (a, s) =>
    match s with
    | '-' :: d :: s =>
      if d = ']' then some ((a, a), '-' :: d :: s)
      else (readChar (d :: s)).map fun (b, s) => ((a, b), s)
    | s => some ((a, a), s)

/-- The loop over the characters of a class. The first argument bounds the turns. -/
def readRanges : Nat → Str → Option (List (Char × Char) × Str)
  | 0, _ => none
  | _ + 1, [] => none
  | fuel + 1, c :: s =>
    if c = ']' then some ([], s)
    else
      (readRange (c :: s)).bind fun (r, s) =>
        (readRanges fuel s).map fun (rs, s) => (r :: rs, s)

/-- A class, from behind its bracket. -/
def readClass (s : Str) : Option (Item × Str) :=
  match s with
  | '^' :: s => (readRanges (s.length + 1) s).map fun (rs, s) => (.cls true rs, s)
  | s => (readRanges (s.length + 1) s).map fun (rs, s) => (.cls false rs, s)

/-- `MAX_REPETITION_THRESHOLD` holds. -/
def withinThreshold (min : Nat) (max : Option Nat) : Bool := min ≤ 2000 && max.all (· ≤ 2000)

/-- What follows `min_times`: `}`, `,}` or `,n}`. -/
def readMax (nested : Bool) (min : Nat) : Str → Option (Option Nat × Str)
  | '\x7d' :: s => some (some min, s)
  | ',' :: s =>
    let s := skipSpace nested s
    let digits := s.takeWhile Char.isDigit
    match skipSpace nested (s.dropWhile Char.isDigit) with
    | '\x7d' :: s => some (if digits = [] then none else some (digitsValue digits), s)
    | _ => none
  | _ => none

/-- The bounds of `{m}`, `{m,}` and `{m,n}`, from behind the brace. -/
def readBounds (nested : Bool) (s : Str) : Option ((Nat × Option Nat) × Str) :=
  let s := skipSpace nested s
  let digits := s.takeWhile Char.isDigit
  if digits = [] then none
  else
    let min := digitsValue digits
    (readMax nested min (skipSpace nested (s.dropWhile Char.isDigit))).bind fun (max, s) =>
      if withinThreshold min max then some ((min, max), s) else none

/-- The characters that begin a repetition. -/
def isRepetition (c : Char) : Bool := c = '*' || c = '+' || c = '?' || c = '\x7b'

/-- The bounds of a repetition. -/
def readRepetition (nested : Bool) (c : Char) (s : Str) : Option ((Nat × Option Nat) × Str) :=
  if c = '*' then some ((0, none), s)
  else if c = '+' then some ((1, none), s)
  else if c = '?' then some ((0, some 1), s)
  else readBounds nested s

def repeatLast (items : List Item) (bounds : Nat × Option Nat) : Option (List Item) :=
  items.getLast?.map fun item => items.dropLast ++ [.rep item bounds.1 bounds.2]

mutual

/-- `parse_sequence`: the items so far, and those added. The first argument bounds the depth. -/
def readSequence : Nat → Bool → List Item → Str → Option (List Item × Str)
  | 0, _, _, _ => none
  | _ + 1, _, items, [] => some (items, [])
  | fuel + 1, nested, items, c :: s =>
    if c = '"' then
      (readQuoted (s.length + 1) s).bind fun (cs, s) =>
        readSequence fuel nested (items ++ [.literal cs]) (skipSpace nested s)
    else if c = '[' then
      (readClass s).bind fun (item, s) =>
        readSequence fuel nested (items ++ [item]) (skipSpace nested s)
    else if isRuleChar c then
      readSequence fuel nested (items ++ [.ref ((c :: s).takeWhile isRuleChar)])
        (skipSpace nested ((c :: s).dropWhile isRuleChar))
    else if c = '(' then
      (readAlternates fuel true (skipSpace true s)).bind fun (alternates, s) =>
        match s with
        | ')' :: s =>
          readSequence fuel nested (items ++ [.group alternates]) (skipSpace nested s)
        | _ => none
    else if c = '.' then
      readSequence fuel nested (items ++ [.cls true []]) (skipSpace nested s)
    else if isRepetition c then
      (readRepetition nested c s).bind fun (bounds, s) =>
        (repeatLast items bounds).bind fun items =>
          readSequence fuel nested items (skipSpace nested s)
    else some (items, c :: s)

/-- `parse_alternates`. -/
def readAlternates : Nat → Bool → Str → Option (List (List Item) × Str)
  | 0, _, _ => none
  | fuel + 1, nested, s =>
    (readSequence fuel nested [] s).bind fun (items, s) =>
      match s with
      | '|' :: s =>
        (readAlternates fuel nested (skipSpace true s)).map fun (alternates, s) =>
          (items :: alternates, s)
      | s => some ([items], s)

end

private theorem read_succ (fuel : Nat) :
    (∀ nested items s r, readSequence fuel nested items s = some r →
      readSequence (fuel + 1) nested items s = some r) ∧
    ∀ nested s r, readAlternates fuel nested s = some r →
      readAlternates (fuel + 1) nested s = some r := by
  induction fuel with
  | zero => exact ⟨nofun, nofun⟩
  | succ fuel ih =>
    obtain ⟨hseq, halt⟩ := ih
    constructor
    · intro nested items s r h
      cases s with
      | nil => exact h
      | cons c s =>
        rw [readSequence] at h ⊢
        split
        next hc =>
          rw [if_pos hc] at h
          obtain ⟨p, hp, h⟩ := bind_eq_some_iff.mp h
          exact bind_eq_some_iff.mpr ⟨p, hp, hseq _ _ _ _ h⟩
        next hc =>
          rw [if_neg hc] at h
          split
          next hc =>
            rw [if_pos hc] at h
            obtain ⟨p, hp, h⟩ := bind_eq_some_iff.mp h
            exact bind_eq_some_iff.mpr ⟨p, hp, hseq _ _ _ _ h⟩
          next hc =>
            rw [if_neg hc] at h
            split
            next hc =>
              rw [if_pos hc] at h
              exact hseq _ _ _ _ h
            next hc =>
              rw [if_neg hc] at h
              split
              next hc =>
                rw [if_pos hc] at h
                obtain ⟨⟨alternates, s⟩, hp, h⟩ := bind_eq_some_iff.mp h
                refine bind_eq_some_iff.mpr ⟨(alternates, s), halt _ _ _ hp, ?_⟩
                dsimp only at h ⊢
                split
                next s =>
                  exact hseq _ _ _ _ h
                next hne =>
                  split at h
                  next s => exact absurd rfl (hne s)
                  next => cases h
              next hc =>
                rw [if_neg hc] at h
                split
                next hc =>
                  rw [if_pos hc] at h
                  exact hseq _ _ _ _ h
                next hc =>
                  rw [if_neg hc] at h
                  split
                  next hc =>
                    rw [if_pos hc] at h
                    obtain ⟨p, hp, h⟩ := bind_eq_some_iff.mp h
                    obtain ⟨q, hq, h⟩ := bind_eq_some_iff.mp h
                    exact bind_eq_some_iff.mpr ⟨p, hp, bind_eq_some_iff.mpr ⟨q, hq, hseq _ _ _ _ h⟩⟩
                  next hc =>
                    rw [if_neg hc] at h
                    exact h
    · intro nested s r h
      rw [readAlternates] at h ⊢
      obtain ⟨⟨items, s⟩, hp, h⟩ := bind_eq_some_iff.mp h
      refine bind_eq_some_iff.mpr ⟨(items, s), hseq _ _ _ _ hp, ?_⟩
      dsimp only at h ⊢
      split
      next s =>
        obtain ⟨p, hp, h⟩ := map_eq_some_iff.mp h
        exact map_eq_some_iff.mpr ⟨p, halt _ _ _ hp, h⟩
      next s hne =>
        split at h
        next s => exact absurd rfl (hne s)
        next => exact h

theorem readSequence_mono {fuel fuel' : Nat} (hle : fuel ≤ fuel') {nested : Bool}
    {items : List Item} {s : Str} {r : List Item × Str}
    (h : readSequence fuel nested items s = some r) :
    readSequence fuel' nested items s = some r := by
  induction fuel', hle using Nat.le_induction with
  | base => exact h
  | succ n _ ih => exact (read_succ n).1 _ _ _ _ ih

theorem readAlternates_mono {fuel fuel' : Nat} (hle : fuel ≤ fuel') {nested : Bool} {s : Str}
    {r : List (List Item) × Str} (h : readAlternates fuel nested s = some r) :
    readAlternates fuel' nested s = some r := by
  induction fuel', hle using Nat.le_induction with
  | base => exact h
  | succ n _ ih => exact (read_succ n).2 _ _ _ ih

/-- The text spells the alternates, as the right side of a rule. -/
def Spells (text : Str) (alternates : List (List Item)) : Prop :=
  ∃ fuel, readAlternates fuel false (skipSpace true text) = some (alternates, [])

theorem Spells.unique {text : Str} {a b : List (List Item)} (ha : Spells text a)
    (hb : Spells text b) : a = b := by
  obtain ⟨n, hn⟩ := ha
  obtain ⟨k, hk⟩ := hb
  have han := readAlternates_mono (Nat.le_max_left n k) hn
  have hbk := readAlternates_mono (Nat.le_max_right n k) hk
  exact congrArg Prod.fst (some.inj (han.symm.trans hbk))

/-- The words that a right side generates. -/
def textWords (env : Str → Language Char) (text : Str) : Language Char :=
  {w | ∃ alternates, Spells text alternates ∧ w ∈ alternatesWords env alternates}

theorem Spells.textWords_eq {text : Str} {alternates : List (List Item)}
    (h : Spells text alternates) (env : Str → Language Char) :
    textWords env text = alternatesWords env alternates := by
  ext w
  constructor
  · rintro ⟨b, hb, hw⟩
    rwa [h.unique hb]
  · exact fun hw => ⟨alternates, h, hw⟩

end Llama.Schema
