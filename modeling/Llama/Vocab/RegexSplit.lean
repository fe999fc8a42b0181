import Llama.Lib.Scan

/-!
# Splitting a text into words

`unicode_regex_split_custom_gpt2` and `unicode_regex_split_custom_llama3` of `unicode.cpp` cut
segments of code points by hand where a regular expression is meant. The classes of the code
points and their lower case come from tables and are arguments here. A position in a segment is
the list of the code points from there on.
-/

namespace Llama.Vocab

/-- `unicode_cpt_flags`. -/
structure CptFlags where
  isUndefined : Bool
  isNumber : Bool
  isLetter : Bool
  isSeparator : Bool
  isAccentMark : Bool
  isPunctuation : Bool
  isSymbol : Bool
  isControl : Bool
  isWhitespace : Bool
  isLowercase : Bool
  isUppercase : Bool
  isNfd : Bool
  deriving DecidableEq, Repr

/-- `unicode_cpt_flags{}`. -/
def CptFlags.zero : CptFlags :=
  ⟨false, false, false, false, false, false, false, false, false, false, false, false⟩

def CptFlags.asUint (f : CptFlags) : Nat :=
  f.isUndefined.toNat * 0x0001 + f.isNumber.toNat * 0x0002 + f.isLetter.toNat * 0x0004 +
    f.isSeparator.toNat * 0x0008 + f.isAccentMark.toNat * 0x0010 +
    f.isPunctuation.toNat * 0x0020 + f.isSymbol.toNat * 0x0040 + f.isControl.toNat * 0x0080 +
    f.isWhitespace.toNat * 0x0100 + f.isLowercase.toNat * 0x0200 +
    f.isUppercase.toNat * 0x0400 + f.isNfd.toNat * 0x0800

/-- Neither white space nor a letter nor a number. -/
def CptFlags.unclassed (f : CptFlags) : Bool := !(f.isWhitespace || f.isLetter || f.isNumber)

/-- The condition of the branches for the other code points. -/
def CptFlags.isOther (f : CptFlags) : Bool := f.unclassed && f.asUint ≠ 0

/-- `_get_flags`: behind the end of the segment no flag is set. -/
def flagsAt (flags : Nat → CptFlags) (s : List Nat) : CptFlags := s.head?.elim .zero flags

/-- The code point of a character literal. -/
def cpt (c : Char) : Nat := c.toNat

/-- The branch for `'s|'t|'re|'ve|'m|'ll|'d`: the length of the token. -/
def contraction (fold : Nat → Nat) : List Nat → Option Nat
  | c :: next :: rest =>
    if c = cpt '\'' then
      let next := fold next
      if next = cpt 's' ∨ next = cpt 't' ∨ next = cpt 'm' ∨ next = cpt 'd' then some 2
      else
        match rest with
        | [] => none
        | nextNext :: _ =>
          let nextNext := fold nextNext
          if (next = cpt 'r' ∧ nextNext = cpt 'e') ∨ (next = cpt 'v' ∧ nextNext = cpt 'e') ∨
              (next = cpt 'l' ∧ nextNext = cpt 'l') then some 3
          else none
    else none
  | _ => none

section

variable (flags : Nat → CptFlags)

def isLetter (c : Nat) : Bool := (flags c).isLetter

def isNumber (c : Nat) : Bool := (flags c).isNumber

def isWhitespace (c : Nat) : Bool := (flags c).isWhitespace

/-- Neither white space nor a letter nor a number. -/
def isUnclassed (c : Nat) : Bool := (flags c).unclassed

/-- What the branches for the other code points go over. -/
def isOther (c : Nat) : Bool := (flags c).isOther

def isNewline (c : Nat) : Bool := c = cpt '\r' || c = cpt '\n'

/-- The last branches of the two loops, behind those for letters, numbers and others. -/
def whitespaceToken (numWhitespaces : Nat) (s : List Nat) : Nat :=
  if 1 < numWhitespaces ∧ s.drop numWhitespaces ≠ [] then numWhitespaces - 1
  else if 0 < numWhitespaces then numWhitespaces
  else 1

/-- A turn of the loop of `unicode_regex_split_custom_gpt2`: the length of its token. -/
def gpt2Token (s : List Nat) : Nat :=
  match contraction id s with
  | some len => len
  | none =>
    let lead := if s.head? = some (cpt ' ') then 1 else 0
    let behind := s.drop lead
    let flags2 := flagsAt flags behind
    if flags2.isLetter then lead + (behind.takeWhile (isLetter flags)).length
    else if flags2.isNumber then lead + (behind.takeWhile (isNumber flags)).length
    else if flags2.isOther then
      lead + (behind.takeWhile (isOther flags)).length
    else whitespaceToken (s.takeWhile (isWhitespace flags)).length s

/-- `unicode_regex_split_custom_gpt2`, for one segment. -/
def gpt2Segment (s : List Nat) : List Nat := Backtrack.cut (gpt2Token flags) s.length s

/-- `_add_token`, which leaves out empty tokens. -/
def addToken (len : Nat) : List Nat := if 0 < len then [len] else []

/-- The loop of the branch for `\p{N}{1,3}`, with the number of digits since the last token. -/
def numberTokens : Nat → List Nat → List Nat
  | count, [] => addToken count
  | count, c :: s =>
    if (flags c).isNumber then
      if 3 ≤ count + 1 then addToken (count + 1) ++ numberTokens 0 s
      else numberTokens (count + 1) s
    else addToken count

/-- The loop over white space: the number of code points, and the end of the last `\r` or `\n`,
both from the position on. -/
def countWhitespaces : Nat → Nat → List Nat → Nat × Nat
  | num, last, [] => (num, last)
  | num, last, c :: s =>
    if (flags c).isWhitespace then
      countWhitespaces (num + 1) (if isNewline c then num + 1 else last) s
    else (num, last)

/-- A turn of the loop of `unicode_regex_split_custom_llama3`: the lengths of its tokens. -/
def llama3Tokens (tolower : Nat → Nat) : List Nat → List Nat
  | [] => []
  | c :: rest =>
    let s := c :: rest
    match contraction tolower s with
    | some len => [len]
    | none =>
      if !(isNewline c || (flags c).isNumber) &&
          ((flags c).isLetter || (flagsAt flags rest).isLetter) then
        [1 + (rest.takeWhile (isLetter flags)).length]
      else if (flags c).isNumber then numberTokens flags 0 s
      else
        let flags2 := if c = cpt ' ' then flagsAt flags rest else flags c
        if flags2.unclassed && (flags c).asUint ≠ 0 then
          let lead := if c = cpt ' ' then 1 else 0
          let others := ((s.drop lead).takeWhile (isOther flags)).length
          [lead + others + ((s.drop (lead + others)).takeWhile isNewline).length]
        else
          let (numWhitespaces, lastEnd) := countWhitespaces flags 0 0 s
          if 0 < lastEnd then [lastEnd] else [whitespaceToken numWhitespaces s]

/-- The loop of `unicode_regex_split_custom_llama3`. The first argument bounds the turns. -/
def llama3From (tolower : Nat → Nat) : Nat → List Nat → List Nat
  | 0, _ => []
  | _ + 1, [] => []
  | n + 1, c :: s =>
    llama3Tokens flags tolower (c :: s) ++
      llama3From tolower n ((c :: s).drop (llama3Tokens flags tolower (c :: s)).sum)

/-- `unicode_regex_split_custom_llama3`, for one segment. -/
def llama3Segment (tolower : Nat → Nat) (s : List Nat) : List Nat :=
  llama3From flags tolower s.length s

end

/-- The segments of the code points that the offsets give. -/
def segments : List Nat → List Nat → List (List Nat)
  | _, [] => []
  | cpts, offset :: offsets => cpts.take offset :: segments (cpts.drop offset) offsets

def unicodeRegexSplitCustomGpt2 (flags : Nat → CptFlags) (cpts offsets : List Nat) : List Nat :=
  (segments cpts offsets).flatMap (gpt2Segment flags)

def unicodeRegexSplitCustomLlama3 (flags : Nat → CptFlags) (tolower : Nat → Nat)
    (cpts offsets : List Nat) : List Nat :=
  (segments cpts offsets).flatMap (llama3Segment flags tolower)

end Llama.Vocab
