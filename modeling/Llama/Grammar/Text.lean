import Llama.Grammar.Matcher
import Mathlib.Algebra.Order.Group.Nat

/-!
# Reading the text of a grammar

The helpers of the parser in `llama-grammar.cpp`. The text is a C string; a pointer into it is
the list of the bytes that follow, and the terminating 0 is the end of the list. A pointer that
is returned next to a value comes second.
-/

namespace Llama.Grammar

open List

/-- A pointer into the text. -/
abbrev Text := List UInt8

/-- What a parse throws, with the text from the pointer that its message prints. -/
inductive ParseError where
  | expectingHexChars (size : Nat) (src : Text)
  | expectingName (src : Text)
  | expectingInteger (src : Text)
  | unknownEscape (src : Text)
  | unexpectedEndOfInput
  | expectingLess (pos : Text)
  | expectingBracket (pos : Text)
  | expectingGreater (pos : Text)
  | noVocab (src : Text)
  | invalidToken (text : Text)
  | outOfRange
  | expectingPrecedingItem (pos : Text)
  | expectingParenthesis (pos : Text)
  | expectingInt (pos : Text)
  | expectingBrace (pos : Text)
  | expectingComma (pos : Text)
  | tooManyRepetitions
  | expectingDefinition (pos : Text)
  | expectingNewline (pos : Text)
  | undefinedRule
  | undefinedIdentifier (name : Text)
  /-- A loop of the model ran longer than its bound; the source has no such error. -/
  | fuel
  deriving DecidableEq, Repr

/-- A character of the source. -/
def byte (c : Char) : UInt8 := UInt8.ofNat c.toNat

def peek (pos : Text) : UInt8 := pos.head?.getD 0

/-- The text from `src` to the later pointer `pos`. -/
def between (src pos : Text) : Text := src.take (src.length - pos.length)

def isDigitChar (c : UInt8) : Bool := byte '0' ≤ c && c ≤ byte '9'

def isWordChar (c : UInt8) : Bool :=
  (byte 'a' ≤ c && c ≤ byte 'z') || (byte 'A' ≤ c && c ≤ byte 'Z') || c == byte '-' || isDigitChar c

/-- `parse_space`; the flag says that the inner loop, over a comment, is running. -/
def parseSpaceLoop (newlineOk : Bool) : Bool → Text → Text
  | _, [] => []
  | true, b :: bs =>
    if b = byte '\r' ∨ b = byte '\n' then
      if newlineOk then parseSpaceLoop newlineOk false bs else b :: bs
    else parseSpaceLoop newlineOk true bs
  | false, b :: bs =>
    if b = byte '#' then parseSpaceLoop newlineOk true bs
    else if b = byte ' ' ∨ b = byte '\t' ∨ (newlineOk ∧ (b = byte '\r' ∨ b = byte '\n')) then
      parseSpaceLoop newlineOk false bs
    else b :: bs

def parseSpace (src : Text) (newlineOk : Bool) : Text := parseSpaceLoop newlineOk false src

def parseName (src : Text) : Except ParseError Text :=
  let pos := src.dropWhile isWordChar
  if pos.length = src.length then .error (.expectingName src) else .ok pos

def parseInt (src : Text) : Except ParseError Text :=
  let pos := src.dropWhile isDigitChar
  if pos.length = src.length then .error (.expectingInteger src) else .ok pos

/-- `std::stoull` on digits. -/
def stoull (digits : Text) : Except ParseError Nat :=
  let n := digits.foldl (fun n b => n * 10 + (b.toNat - 48)) 0
  if n < 2 ^ 64 then .ok n else .error .outOfRange

/-- `decode_utf8` of a single character: `n` bytes of the sequence are missing. -/
def decodeTail : Nat → Text → Nat → Nat × Text
  | n + 1, b :: bs, value => decodeTail n bs (value * 64 + b.toNat % 64)
  | _, pos, value => (value, pos)

/-- `decode_utf8` of a single character; the length of the sequence is `lookup[highbits]`, and
the arithmetic is that of 32 bits, which four bytes never exceed. -/
def decodeUtf8Char (b : UInt8) (bs : Text) : Nat × Text :=
  let highbits := b.toNat / 16
  let len := if highbits < 12 then 1 else if highbits < 14 then 2 else if highbits = 14 then 3
    else 4
  decodeTail (len - 1) bs (b.toNat % 2 ^ (8 - len))

/-- The value of a hexadecimal digit. -/
def hexValue (c : UInt8) : Option Nat :=
  if byte 'a' ≤ c ∧ c ≤ byte 'f' then some (c.toNat - (byte 'a').toNat + 10)
  else if byte 'A' ≤ c ∧ c ≤ byte 'F' then some (c.toNat - (byte 'A').toNat + 10)
  else if byte '0' ≤ c ∧ c ≤ byte '9' then some (c.toNat - (byte '0').toNat)
  else none

/-- The loop of `parse_hex`: `none` when it stops before `n` digits. -/
def parseHexLoop : Nat → Text → Nat → Option (Nat × Text)
  | 0, pos, value => some (value, pos)
  | _ + 1, [], _ => none
  | n + 1, c :: pos, value =>
    match hexValue c with
    | some d => parseHexLoop n pos (value * 16 + d)
    | none => none

def parseHex (src : Text) (size : Nat) : Except ParseError (Nat × Text) :=
  match parseHexLoop size src 0 with
  | some r => .ok r
  | none => .error (.expectingHexChars size src)

def parseChar (src : Text) : Except ParseError (Nat × Text) :=
  match src with
  | [] => .error .unexpectedEndOfInput
  | b :: bs =>
    if b = byte '\\' then
      match bs with
      | [] => .error (.unknownEscape src)
      | c :: pos =>
        if c = byte 'x' then parseHex pos 2
        else if c = byte 'u' then parseHex pos 4
        else if c = byte 'U' then parseHex pos 8
        else if c = byte 't' then .ok (9, pos)
        else if c = byte 'r' then .ok (13, pos)
        else if c = byte 'n' then .ok (10, pos)
        else if c = byte '\\' ∨ c = byte '"' ∨ c = byte '[' ∨ c = byte ']' then .ok (c.toNat, pos)
        else .error (.unknownEscape src)
    else .ok (decodeUtf8Char b bs)

/-- `parse_token` with a function for `tokenize` of the vocabulary, when there is one. -/
def parseToken (vocab : Option (Text → List Nat)) (src : Text) : Except ParseError (Nat × Text) :=
  if peek src ≠ byte '<' then .error (.expectingLess src)
  else
    let pos := src.tail
    if peek pos = byte '[' then do
      let pos := pos.tail
      let intEnd ← parseInt pos
      let tokenId ← stoull (between pos intEnd)
      if peek intEnd ≠ byte ']' then throw (.expectingBracket intEnd)
      let pos := intEnd.tail
      if peek pos ≠ byte '>' then throw (.expectingGreater pos)
      pure (tokenId % 2 ^ 32, pos.tail)
    else
      match vocab with
      | none => .error (.noVocab src)
      | some tokenize =>
        let pos := pos.dropWhile (· ≠ byte '>')
        if peek pos ≠ byte '>' then .error (.expectingGreater pos)
        else
          let pos := pos.tail
          match tokenize (between src pos) with
          | [token] => .ok (token, pos)
          | _ => .error (.invalidToken (between src pos))

/-- The loop over the characters of a literal, from behind the opening quote. -/
def parseLiteral : Nat → Text → Except ParseError (List Element × Text)
  | 0, _ => .error .fuel
  | fuel + 1, pos =>
    if peek pos = byte '"' then .ok ([], pos.tail)
    else if pos = [] then .error .unexpectedEndOfInput
    else do
      let (value, pos) ← parseChar pos
      let (es, pos) ← parseLiteral fuel pos
      pure ({ type := .char, value := value } :: es, pos)

/-- The loop over the items of a class; the first item has a type of its own. -/
def parseClass : Nat → GreType → Text → Except ParseError (List Element × Text)
  | 0, _, _ => .error .fuel
  | fuel + 1, type, pos =>
    if peek pos = byte ']' then .ok ([], pos.tail)
    else if pos = [] then .error .unexpectedEndOfInput
    else do
      let (value, pos) ← parseChar pos
      if peek pos = byte '-' ∧ peek pos.tail ≠ byte ']' then
        if pos.tail = [] then throw .unexpectedEndOfInput
        let (upper, pos) ← parseChar pos.tail
        let (es, pos) ← parseClass fuel .charAlt pos
        pure ({ type := type, value := value } ::
          { type := .charRngUpper, value := upper } :: es, pos)
      else
        let (es, pos) ← parseClass fuel .charAlt pos
        pure ({ type := type, value := value } :: es, pos)

variable {pos : Text} {c : Prop} {e : ParseError}

theorem tail_length_lt {c : Char} (h : peek pos = byte c) (hc : byte c ≠ 0) :
    pos.tail.length < pos.length := by
  cases pos with
  | nil => exact (hc h.symm).elim
  | cons b bs => simp

theorem parseSpaceLoop_length (newlineOk : Bool) (comment : Bool) (pos : Text) :
    (parseSpaceLoop newlineOk comment pos).length ≤ pos.length := by
  induction pos generalizing comment with
  | nil => cases comment <;> simp [parseSpaceLoop]
  | cons b bs ih =>
    have hle : ∀ flag, (parseSpaceLoop newlineOk flag bs).length ≤ bs.length + 1 :=
      fun flag => (ih flag).trans (Nat.le_succ _)
    cases comment with
    | true =>
      rw [parseSpaceLoop]
      split
      · split
        · exact hle false
        · exact le_refl _
      · exact hle true
    | false =>
      rw [parseSpaceLoop]
      split
      · exact hle true
      · split
        · exact hle false
        · exact le_refl _

theorem parseSpace_length (src : Text) (newlineOk : Bool) :
    (parseSpace src newlineOk).length ≤ src.length := parseSpaceLoop_length _ _ _

theorem dropWhile_length_lt {f : UInt8 → Bool} {src : Text}
    (h : (src.dropWhile f).length ≠ src.length) : (src.dropWhile f).length < src.length :=
  lt_of_le_of_ne (dropWhile_sublist f).length_le h

theorem between_dropWhile (f : UInt8 → Bool) (src : Text) :
    between src (src.dropWhile f) = src.takeWhile f := by
  have hsplit := takeWhile_append_dropWhile (p := f) (l := src)
  have hlen := congrArg List.length hsplit
  rw [length_append] at hlen
  have hpre : src.take (src.takeWhile f).length = src.takeWhile f := by
    nth_rewrite 2 [← hsplit]
    exact take_left
  rw [between, ← hlen, Nat.add_sub_cancel, hpre]

/-- The call does not run out of turns, and what it returns is as wanted. -/
def Reads {α : Type} (x : Except ParseError α) (Q : α → Prop) : Prop :=
  match x with
  | .ok a => Q a
  | .error e => e ≠ .fuel

variable {α β : Type} {x : Except ParseError α} {Q R : α → Prop}

theorem Reads.mono (h : Reads x Q) (hQ : ∀ a, Q a → R a) : Reads x R := by
  cases x with
  | ok a => exact hQ a h
  | error e => exact h

theorem Reads.bind {f : α → Except ParseError β} {R : β → Prop} (h : Reads x Q)
    (hf : ∀ a, Q a → Reads (f a) R) : Reads (x >>= f) R := by
  cases x with
  | ok a => exact hf a h
  | error e => exact h

theorem reads_pure {a : α} (h : Q a) : Reads (pure a) Q := h

theorem reads_throw (h : e ≠ .fuel) : Reads (throw e) Q := h

theorem Reads.ite [Decidable c] {y : Except ParseError α} (hx : c → Reads x Q)
    (hy : ¬ c → Reads y Q) : Reads (if c then x else y) Q := by
  split
  · exact hx ‹_›
  · exact hy ‹_›

theorem Reads.unless [Decidable c] {f : Unit → Except ParseError α} (he : e ≠ .fuel)
    (h : ¬ c → Reads (f ()) Q) :
    Reads (if c then throw e >>= f else f ()) Q := by
  split
  · exact he
  · exact h ‹_›

/-- A name is read to its last word character. -/
theorem parseName_reads (src : Text) : Reads (parseName src) fun pos =>
    pos.length < src.length ∧ between src pos = src.takeWhile isWordChar :=
  Reads.ite (fun _ => reads_throw (by simp)) fun hne =>
    ⟨dropWhile_length_lt hne, between_dropWhile _ _⟩

theorem parseInt_reads (src : Text) : Reads (parseInt src) fun pos => pos.length < src.length :=
  Reads.ite (fun _ => reads_throw (by simp)) dropWhile_length_lt

theorem stoull_reads (digits : Text) : Reads (stoull digits) fun _ => True :=
  Reads.ite (fun _ => trivial) fun _ => reads_throw (by simp)

theorem decodeTail_length (n : Nat) (pos : Text) (value : Nat) :
    (decodeTail n pos value).2.length ≤ pos.length := by
  induction n generalizing pos value with
  | zero => simp [decodeTail]
  | succ n ih =>
    cases pos with
    | nil => simp [decodeTail]
    | cons b bs => exact (ih bs _).trans (Nat.le_succ _)

theorem parseHexLoop_length {n : Nat} {value : Nat} {r : Nat × Text}
    (h : parseHexLoop n pos value = some r) : r.2.length ≤ pos.length := by
  induction n generalizing pos value with
  | zero =>
    cases h
    exact le_refl _
  | succ n ih =>
    cases pos with
    | nil => cases h
    | cons c pos =>
      rw [parseHexLoop] at h
      split at h
      · exact (ih h).trans (Nat.le_succ _)
      · cases h

theorem parseHex_reads (pos : Text) (size : Nat) :
    Reads (parseHex pos size) fun r => r.2.length ≤ pos.length := by
  rw [parseHex]
  split
  · rename_i hr
    exact parseHexLoop_length hr
  · exact reads_throw (by simp)

theorem parseChar_reads (src : Text) : Reads (parseChar src) fun r => r.2.length < src.length := by
  match src with
  | [] => exact reads_throw (by simp)
  | b :: [] =>
    refine Reads.ite (fun _ => reads_throw (by simp)) fun _ => ?_
    exact Nat.lt_succ_of_le (decodeTail_length _ _ _)
  | b :: c :: pos =>
    have hhex : ∀ size, Reads (parseHex pos size) fun r => r.2.length < (b :: c :: pos).length :=
      fun size => (parseHex_reads pos size).mono fun _ hr =>
        lt_of_le_of_lt hr (by simp only [length_cons]; omega)
    have hone : ∀ value : Nat, Reads (.ok (value, pos)) fun r : Nat × Text =>
        r.2.length < (b :: c :: pos).length :=
      fun value => reads_pure (by simp only [length_cons]; omega)
    refine Reads.ite (fun _ => ?_) fun _ => Nat.lt_succ_of_le (decodeTail_length _ _ _)
    refine Reads.ite (fun _ => hhex 2) fun _ => Reads.ite (fun _ => hhex 4) fun _ =>
      Reads.ite (fun _ => hhex 8) fun _ => Reads.ite (fun _ => hone 9) fun _ =>
      Reads.ite (fun _ => hone 13) fun _ => Reads.ite (fun _ => hone 10) fun _ =>
      Reads.ite (fun _ => hone c.toNat) fun _ => reads_throw (by simp)

theorem parseToken_reads (vocab : Option (Text → List Nat)) (src : Text) :
    Reads (parseToken vocab src) fun r => r.2.length < src.length := by
  have htail : ∀ pos : Text, pos.tail.length ≤ pos.length := fun pos => by simp
  refine Reads.ite (fun _ => reads_throw (by simp)) fun hless => ?_
  have hlt := tail_length_lt (not_not.mp hless) (by decide)
  refine Reads.ite (fun _ => ?_) fun _ => ?_
  · refine (parseInt_reads _).bind fun intEnd hint => ?_
    refine (stoull_reads _).bind fun token _ => ?_
    refine Reads.unless (by simp) fun _ => Reads.unless (by simp) fun _ => reads_pure ?_
    have h1 := htail src.tail
    have h2 := htail intEnd
    have h3 := htail intEnd.tail
    simp only
    omega
  · cases vocab with
    | none => exact reads_throw (by simp)
    | some tokenize =>
      refine Reads.ite (fun _ => reads_throw (by simp)) fun _ => ?_
      dsimp only
      split
      · have h1 := (dropWhile_sublist (l := src.tail) (· ≠ byte '>')).length_le
        have h2 := htail (src.tail.dropWhile (· ≠ byte '>'))
        exact reads_pure ((h2.trans h1).trans_lt hlt)
      · exact reads_throw (by simp)

end Llama.Grammar
