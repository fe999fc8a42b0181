import Llama.Common.Text
import Llama.Lib.Loop

/-!
# The reversed partial expression

`regex_to_reversed_partial_regex` of `regex-partial.cpp` reads a regular expression from left to
right and writes one that matches the reversed beginnings of what it matches. The model bounds
neither memory nor the length of a text that the pattern asks for, except where the loop over
`parts.size() - 1` wraps around.
-/

namespace Llama.Regex

open Common

/-- The ways a run ends without a text: an exception of the function or of `std::stoi`, an
iterator at or behind the end that is dereferenced, a string that outgrows `max_size()`, and
more turns than the caller of the model allowed. -/
inductive ReverseStop where
  | thrown (message : String)
  | number (e : StoiError)
  | pastEnd
  | outgrown
  | fuel
  deriving DecidableEq, Repr

/-- The branch for `[`, from behind the bracket: the set, and the text behind it. -/
def readSet : Str → Except ReverseStop (Str × Str)
  | [] => .error (.thrown "Unmatched '[' in pattern")
  | c :: rest =>
    if c = ']' then .ok ([c], rest)
    else if c = '\\' then
      match rest with
      -- both iterators are behind the end after the backslash
      | [] => .error .pastEnd
      | d :: rest => (readSet rest).map fun r => (c :: d :: r.1, r.2)
    else (readSet rest).map fun r => (c :: r.1, r.2)

def parseOptInt (s : Str) (default : Option Int) : Except ReverseStop (Option Int) :=
  if s = [] then .ok default
  else match stoi s with
    | .ok n => .ok (some n)
    | .error e => .error (.number e)

/-- The check of a repetition range. -/
def checkRange (min max : Option Int) : Except ReverseStop (Int × Option Int) :=
  match min, max with
  | some min, some max =>
    if max < min then .error (.thrown "Invalid repetition range in pattern")
    else .ok (min, some max)
  | min, max => .ok (min.getD 0, max)

/-- The numbers in curly brackets. -/
def readRange (text : Str) : Except ReverseStop (Int × Option Int) :=
  match text.splitOn ',' with
  | [a] => do
    let min ← parseOptInt a (some 0)
    checkRange min min
  | [a, b] => do
    let min ← parseOptInt a (some 0)
    let max ← parseOptInt b none
    checkRange min max
  | _ => .error (.thrown "Invalid repetition range in pattern")

/-- The elements that a repeated element becomes. -/
def repeatPart (part : Str) (range : Int × Option Int) : List Str :=
  List.replicate range.1.toNat part ++
    match range.2 with
    | some max => List.replicate (max - range.1).toNat (part ++ str "?")
    | none => [part ++ str "*"]

/-- What one turn of the loop of `process` does. -/
inductive Turn where
  | next (alternatives : List (List Str)) (sequence : List Str) (rest : Str)
  | group (rest : Str)
  | close
  | stop (e : ReverseStop)

/-- The text behind the mark of a group that does not capture. -/
def dropMark (rest : Str) : Str := if str "?:" <+: rest then rest.drop 2 else rest

/-- The text behind the mark of a star that is reluctant. -/
def dropLazy (rest : Str) : Str := if str "?" <+: rest then rest.drop 1 else rest

/-- The branch for the quantifiers. -/
def quantifierTurn (alternatives : List (List Str)) (sequence : List Str) (c : Char)
    (rest : Str) : Turn :=
  match sequence.getLast? with
  | none => .stop (.thrown "Quantifier without preceding element")
  | some last =>
    if c = '*' then
      if rest = [] then .stop .pastEnd
      else .next alternatives (sequence.dropLast ++ [last ++ [c]]) (dropLazy rest)
    else .next alternatives (sequence.dropLast ++ [last ++ [c]]) rest

/-- The branch for `{`. -/
def countTurn (alternatives : List (List Str)) (sequence : List Str) (rest : Str) : Turn :=
  match sequence.getLast? with
  | none => .stop (.thrown "Repetition without preceding element")
  | some last =>
    match rest.dropWhile (· ≠ '}') with
    | [] => .stop (.thrown "Unmatched '\x7b' in pattern")
    | _ :: behind =>
      match readRange (rest.takeWhile (· ≠ '}')) with
      | .error e => .stop e
      | .ok range => .next alternatives (sequence.dropLast ++ repeatPart last range) behind

/-- A turn at the character `c`. -/
def turn (alternatives : List (List Str)) (sequence : List Str) (c : Char) (rest : Str) : Turn :=
  if c = '[' then
    match readSet rest with
    | .error e => .stop e
    | .ok (set, rest) => .next alternatives (sequence ++ [c :: set]) rest
  else if c = '*' ∨ c = '?' ∨ c = '+' then quantifierTurn alternatives sequence c rest
  else if c = '{' then countTurn alternatives sequence rest
  else if c = '(' then .group (dropMark rest)
  else if c = ')' then .close
  else if c = '|' then .next (alternatives ++ [sequence]) [] rest
  else if c = '\\' then
    match rest with
    | [] => .next alternatives sequence []
    | d :: rest => .next alternatives (sequence ++ [[c, d]]) rest
  else .next alternatives (sequence ++ [[c]]) rest

/-- `parts.size() - 1`, a `size_t`. -/
def groupTurns (size : Nat) : Nat := if size = 0 then 2 ^ 64 - 1 else size - 1

/-- `max_size()` of a string. -/
def maxSize : Nat := 2 ^ 63 - 1

/-- The loop over the reversed parts. -/
def closeParts : List Str → Str
  | [] => []
  | [part] => part
  | part :: parts => part ++ str ")?" ++ closeParts parts

/-- The parts of an alternative, the last one innermost. -/
def partsText (parts : List Str) : Str :=
  stringRepeat (str "(?:") (groupTurns parts.length) ++ closeParts parts.reverse

def alternativeText (parts : List Str) : Except ReverseStop Str :=
  if 3 * groupTurns parts.length ≤ maxSize then .ok (partsText parts) else .error .outgrown

/-- What `process` returns. -/
def alternativesText (alternatives : List (List Str)) : Except ReverseStop Str :=
  (alternatives.mapM alternativeText).map fun alts => stringJoin alts (str "|")

/-- A group of the result. -/
def groupPart (sub : Str) : Str := str "(?:" ++ sub ++ str ")"

/-- `process`, with the text that it leaves. The first argument bounds the turns. -/
def processFrom : Nat → List (List Str) → List Str → Str → Except ReverseStop (Str × Str)
  | 0, _, _, _ => .error .fuel
  | n + 1, alternatives, sequence, rest =>
    match rest with
    | [] => (alternativesText (alternatives ++ [sequence])).map fun s => (s, rest)
    | c :: behind =>
      match turn alternatives sequence c behind with
      | .next alternatives sequence rest => processFrom n alternatives sequence rest
      | .group inner =>
        match processFrom n [] [] inner with
        | .error e => .error e
        | .ok (_, []) => .error .pastEnd
        | .ok (sub, d :: rest) =>
          if d = ')' then processFrom n alternatives (sequence ++ [groupPart sub]) rest
          else .error (.thrown "Unmatched '(' in pattern")
      | .close => (alternativesText (alternatives ++ [sequence])).map fun s => (s, rest)
      | .stop e => .error e

/-- `regex_to_reversed_partial_regex`. Every turn passes a character. -/
def regexToReversedPartialRegex (pattern : Str) : Except ReverseStop Str :=
  match processFrom (pattern.length + 1) [] [] pattern with
  | .error e => .error e
  | .ok (res, []) => .ok (str "^(" ++ res ++ str ")")
  | .ok (_, _ :: _) => .error (.thrown "Unmatched '(' in pattern")

-- patterns of the unit tests
example : regexToReversedPartialRegex (str "a(bc|de)") =
    .ok (str "^((?:(?:(?:c)?b|(?:e)?d))?a)") := by decide

example : regexToReversedPartialRegex (str "ab\x7b2,4\x7dc") =
    .ok (str "^((?:(?:(?:(?:(?:c)?b?)?b?)?b)?b)?a)") := by decide

end Llama.Regex
