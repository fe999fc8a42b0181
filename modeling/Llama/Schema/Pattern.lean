import Llama.Schema.Converter
import Llama.Lib.Loop

/-!
# Regular expressions of a schema

`_visit_pattern` reads the `pattern` of a string schema from left to right and writes a rule.
`Accepted` is the grammar of the patterns that it gets through.
-/

namespace Llama.Schema

open Common List
open Relation (ReflTransGen)

/-- The ways a run ends without a return: `back()` of an empty sequence, an exception that is
not caught, and more turns than the caller of the model allowed. -/
inductive PatternStop where
  | emptySequence
  | outOfRange
  | fuel
  deriving DecidableEq, Repr

/-- `literal_or_rule`: the flag says that it is a literal. -/
abbrev LiteralOrRule := Str × Bool

def toRule (ls : LiteralOrRule) : Str := if ls.2 then str "\"" ++ ls.1 ++ str "\"" else ls.1

def flushLiteral (literal : Str) : List LiteralOrRule :=
  if literal = [] then [] else [(literal, true)]

/-- The loop of `join_seq`, with the literal so far. -/
def joinLiterals : Str → List LiteralOrRule → List LiteralOrRule
  | literal, [] => flushLiteral literal
  | literal, (s, true) :: items => joinLiterals (literal ++ s) items
  | literal, (s, false) :: items => flushLiteral literal ++ (s, false) :: joinLiterals [] items

def joinSeq (seq : List LiteralOrRule) : LiteralOrRule :=
  (stringJoin ((joinLiterals [] seq).map toRule) (str " "), false)

/-- `NON_LITERAL_SET`. -/
def isNonLiteral (c : Char) : Bool := (str "|.()[]\x7b\x7d*+?").contains c

/-- `ESCAPED_IN_REGEXPS_BUT_NOT_IN_LITERALS`. -/
def isEscapedInRegexps (c : Char) : Bool := (str "^$.[]()|\x7b\x7d*+?").contains c

/-- The loop of the literal branch: the literal, and the text behind it. -/
def readLiteral (literal : Str) : Str → Str × Str
  | [] => (literal, [])
  | [c] =>
    if c = '"' then (literal ++ str "\\\"", [])
    else if isNonLiteral c then (literal, [c])
    else (literal ++ [c], [])
  | c :: next :: rest =>
    if c = '\\' then
      if isEscapedInRegexps next then readLiteral (literal ++ [next]) rest
      else readLiteral (literal ++ [c, next]) rest
    else if c = '"' then readLiteral (literal ++ str "\\\"") (next :: rest)
    else if !isNonLiteral c && (literal.isEmpty || next = '.' || !isNonLiteral next) then
      readLiteral (literal ++ [c]) (next :: rest)
    else (literal, c :: next :: rest)

/-- The loop of the bracket branch: the text in the brackets, and the text behind the closing
one, when there is one. -/
def readBracket : Str → Str × Option Str
  | [] => ([], none)
  | c :: rest =>
    if c = ']' then ([], some rest)
    else if c = '\\' then
      match rest with
      | [] => ([c], none)
      | d :: rest => (c :: d :: (readBracket rest).1, (readBracket rest).2)
    else (c :: (readBracket rest).1, (readBracket rest).2)

/-- The numbers in curly brackets. -/
def readTimes : List Str → Except StoiError (Int × Int)
  | [n] => do
    let times ← stoi n
    pure (times, times)
  | [a, b] => do
    let minTimes ← if a = [] then pure 0 else stoi a
    let maxTimes ← if b = [] then pure intMax else stoi b
    pure (minTimes, maxTimes)
  | _ => pure (0, intMax)

/-- What the lambdas of `_visit_pattern` share: the text from `i` on, the converter and
`sub_rule_ids`. -/
structure Reader where
  rest : Str
  converter : Converter
  subRuleIds : List (Str × Str)

/-- `_errors.push_back`. -/
def Reader.addError (r : Reader) (message : String) : Reader :=
  { r with converter := { r.converter with errors := r.converter.errors ++ [message] } }

/-- `_warnings.push_back`. -/
def Reader.addWarning (r : Reader) (message : String) : Reader :=
  { r with converter := { r.converter with warnings := r.converter.warnings ++ [message] } }

def Reader.getDot (r : Reader) : Str × Reader :=
  let rule := if r.converter.dotall then str "[\\U00000000-\\U0010FFFF]" else str "[^\\x0A\\x0D]"
  let added := r.converter.addRule (str "dot") rule
  (added.1, { r with converter := added.2 })

/-- The rule of its own that a repeated rule gets, with `sub_rule_ids`. -/
def Reader.subRule (r : Reader) (name sub : Str) : Str × Reader :=
  match r.subRuleIds.lookup sub with
  | some id => (id, r)
  | none =>
    let added := r.converter.addRule (name ++ str "-" ++ natText (r.subRuleIds.length + 1)) sub
    (added.1, { r with converter := added.2, subRuleIds := (sub, added.1) :: r.subRuleIds })

/-- A repetition of `last` instead of it. -/
def Reader.repeatLast (r : Reader) (name : Str) (last : LiteralOrRule) (times : Int × Int) :
    LiteralOrRule × Reader :=
  if last.2 then ((repetition (str "\"" ++ last.1 ++ str "\"") times.1 times.2, false), r)
  else
    let sub := r.subRule name last.1
    ((repetition sub.1 times.1 times.2, false), sub.2)

/-- What one turn of the loop of `transform` does: it goes on with the sequence, runs
`transform` for a group, returns, or does not come back. -/
inductive Turn where
  | next (seq : List LiteralOrRule) (r : Reader)
  | group (r : Reader)
  | done (out : LiteralOrRule) (r : Reader)
  | stop (e : PatternStop)

/-- The text in curly brackets, from behind the opening one. -/
def curlyText (rest : Str) : Str := rest.takeWhile (· ≠ '}')

/-- The text from the closing curly bracket on. -/
def fromCurly (rest : Str) : Str := rest.dropWhile (· ≠ '}')

/-- The branch for `{`, with the text behind the brace. -/
def countTurn (name : Str) (seq : List LiteralOrRule) (r : Reader) (rest : Str) : Turn :=
  let behind := fromCurly rest
  let r := if behind = [] then r.addError "Unbalanced curly brackets" else r
  let r := { r with rest := behind.tail }
  let nums := (curlyText rest).splitOn ','
  let r := if 2 < nums.length then r.addError "Wrong number of values in curly brackets" else r
  match readTimes nums with
  | .error .invalidArgument => .done ([], false) (r.addError "Invalid number in curly brackets")
  | .error .outOfRange => .stop .outOfRange
  | .ok times =>
    match seq.getLast? with
    | none => .stop .emptySequence
    | some last =>
      let repeated := r.repeatLast name last times
      .next (seq.dropLast ++ [repeated.1]) repeated.2

/-- A turn at the character `c`; `before` is the character in front of the place where
`transform` started. -/
def turn (name : Str) (before : Option Char) (seq : List LiteralOrRule) (r : Reader) (c : Char)
    (rest : Str) : Turn :=
  let r := { r with rest := rest }
  if c = '.' then
    let dot := r.getDot
    .next (seq ++ [(dot.1, false)]) dot.2
  else if c = '(' then
    .group (if rest.head? = some '?' then r.addWarning "Unsupported pattern syntax" else r)
  else if c = ')' then
    .done (joinSeq seq)
      (if before.isSome ∧ before ≠ some '(' then r.addError "Unbalanced parentheses" else r)
  else if c = '[' then
    let bracket := readBracket rest
    let r := if bracket.2 = none then r.addError "Unbalanced square brackets" else r
    .next (seq ++ [(str "[" ++ bracket.1 ++ str "]", false)]) { r with rest := bracket.2.getD [] }
  else if c = '|' then .next (seq ++ [(str "|", false)]) r
  else if c = '*' ∨ c = '+' ∨ c = '?' then
    match seq.getLast? with
    | none => .stop .emptySequence
    | some last => .next (seq.dropLast ++ [(toRule last ++ [c], false)]) r
  else if c = '{' then countTurn name seq r rest
  else
    let read := readLiteral [] (c :: rest)
    .next (if read.1 = [] then seq else seq ++ [(read.1, true)]) { r with rest := read.2 }

/-- The loop of `transform`. The first argument bounds the turns. -/
def transformFrom (name : Str) : Nat → Option Char → List LiteralOrRule → Reader →
    Except PatternStop (LiteralOrRule × Reader)
  | 0, _, _, _ => .error .fuel
  | n + 1, before, seq, r =>
    match r.rest with
    | [] => .ok (joinSeq seq, r)
    | c :: rest =>
      match turn name before seq r c rest with
      | .next seq r => transformFrom name n before seq r
      | .group r => do
        let (sub, r) ← transformFrom name n (some '(') [] r
        transformFrom name n before (seq ++ [(str "(" ++ toRule sub ++ str ")", false)]) r
      | .done out r => .ok (out, r)
      | .stop e => .error e

def patternRule (sub : LiteralOrRule) : Str :=
  str "\"\\\"\" (" ++ toRule sub ++ str ") \"\\\"\" space"

def Converter.visitPattern (c : Converter) (fuel : Nat) (pattern name : Str) :
    Except PatternStop (Str × Converter) :=
  if pattern.head? = some '^' ∧ pattern.getLast? = some '$' then do
    let (sub, r) ← transformFrom name fuel none [] ⟨pattern.tail.dropLast, c, []⟩
    pure (r.converter.addRule name (patternRule sub))
  else
    .ok ([], { c with errors := c.errors ++ ["Pattern must start with '^' and end with '$'"] })

/-- One character or escape of a literal in front of a text. -/
inductive Plain : Str → Str → Prop where
  | escape (c : Char) (rest : Str) : Plain ('\\' :: c :: rest) rest
  | char {c : Char} {rest : Str} (hc : isNonLiteral c = false) (hlast : c = '\\' → rest = []) :
      Plain (c :: rest) rest

def isQuantifier (c : Char) : Bool := c = '*' || c = '+' || c = '?'

/-- The text that is left of a pattern is read, `depth` groups deep; the flag says that the
group has no element yet. A text behind a `)` that closes no group is not looked at. -/
inductive Accepted : Nat → Bool → Str → Prop where
  | done (depth : Nat) (first : Bool) : Accepted depth first []
  | dot {depth : Nat} {first : Bool} {rest : Str} :
      Accepted depth false rest → Accepted depth first ('.' :: rest)
  | bar {depth : Nat} {first : Bool} {rest : Str} :
      Accepted depth false rest → Accepted depth first ('|' :: rest)
  | group {depth : Nat} {first : Bool} {rest : Str} :
      Accepted (depth + 1) true rest → Accepted depth first ('(' :: rest)
  | closeTop (first : Bool) (rest : Str) : Accepted 0 first (')' :: rest)
  | close {depth : Nat} {first : Bool} {rest : Str} :
      Accepted depth false rest → Accepted (depth + 1) first (')' :: rest)
  | bracket {depth : Nat} {first : Bool} {rest : Str} :
      Accepted depth false ((readBracket rest).2.getD []) → Accepted depth first ('[' :: rest)
  | quantifier {depth : Nat} {c : Char} {rest : Str} (hc : isQuantifier c = true) :
      Accepted depth false rest → Accepted depth false (c :: rest)
  | count {depth : Nat} {rest : Str} {times : Int × Int}
      (h : readTimes ((curlyText rest).splitOn ',') = .ok times) :
      Accepted depth false (fromCurly rest).tail → Accepted depth false ('{' :: rest)
  | invalidTop {first : Bool} {rest : Str}
      (h : readTimes ((curlyText rest).splitOn ',') = .error .invalidArgument) :
      Accepted 0 first ('{' :: rest)
  | invalid {depth : Nat} {first : Bool} {rest : Str}
      (h : readTimes ((curlyText rest).splitOn ',') = .error .invalidArgument) :
      Accepted depth false (fromCurly rest).tail → Accepted (depth + 1) first ('{' :: rest)
  | literal {depth : Nat} {first : Bool} {s rest : Str} (h : Plain s rest) :
      Accepted depth false rest → Accepted depth first s

variable {depth n : Nat} {first : Bool} {s rest literal : Str} {c : Char}

theorem Plain.length_lt (h : Plain s rest) : rest.length < s.length := by
  cases h with
  | escape c rest => simp only [length_cons]; omega
  | char => simp

private theorem length_le_of_plain (h : ReflTransGen Plain s rest) : rest.length ≤ s.length := by
  induction h with
  | refl => exact Nat.le_refl _
  | tail _ hstep ih => exact Nat.le_trans (Nat.le_of_lt hstep.length_lt) ih

theorem Plain.unique {rest' : Str} (h : Plain s rest) (h' : Plain s rest') : rest = rest' := by
  cases h with
  | escape c rest =>
    cases h' with
    | escape => rfl
    | char hc hlast => simpa using hlast rfl
  | char hc hlast =>
    cases h' with
    | escape c rest => simpa using hlast rfl
    | char => rfl

/-- The literal loop, with `literal` read so far, passes characters and escapes of a literal,
one or more of them unless it stands in front of a special character. -/
structure LiteralRead (literal s : Str) (out : Str × Str) : Prop where
  passed : ReflTransGen Plain s out.2
  nothing : out.1 = [] → literal = [] ∧ out.2 = s
  something : (∀ c ∈ s.head?, isNonLiteral c = false) → s ≠ [] → out.1 ≠ []
  stays : out.2 = s → out.1 = literal

theorem LiteralRead.step {literal' : Str} {out : Str × Str} (hp : Plain s rest)
    (hne : literal' ≠ []) (h : LiteralRead literal' rest out) : LiteralRead literal s out where
  passed := .head hp h.passed
  nothing h' := absurd (h.nothing h').1 hne
  something _ _ h' := hne (h.nothing h').1
  stays h' := by
    have hlen := length_le_of_plain h.passed
    rw [h'] at hlen
    exact absurd hp.length_lt (Nat.not_lt.mpr hlen)

theorem LiteralRead.last {out : Str} (hp : Plain s []) (hne : out ≠ []) :
    LiteralRead literal s (out, []) where
  passed := .single hp
  nothing h := absurd h hne
  something _ _ := hne
  stays h := by
    subst h
    cases hp

private theorem readLiteral_read (literal s : Str) :
    LiteralRead literal s (readLiteral literal s) := by
  fun_induction readLiteral literal s with
  | case1 literal => exact ⟨.refl, fun h => ⟨h, rfl⟩, fun _ h => absurd rfl h, fun _ => rfl⟩
  | case2 literal => exact .last (.char (by decide) (by simp)) (by simp [str])
  | case3 literal c hq hc =>
    refine ⟨.refl, fun h => ⟨h, rfl⟩, fun h => ?_, fun _ => rfl⟩
    have := h c rfl
    rw [hc] at this
    cases this
  | case4 literal c hq hc => exact .last (.char (by simpa using hc) fun _ => rfl) (by simp)
  | case5 literal next rest hnext ih => exact ih.step (.escape next rest) (by simp)
  | case6 literal next rest hnext ih => exact ih.step (.escape next rest) (by simp)
  | case7 literal next rest hb ih =>
    exact ih.step (.char (by decide) (by simp)) (by simp [str])
  | case8 literal c next rest hb hq hc ih =>
    rw [Bool.and_eq_true, Bool.not_eq_true'] at hc
    exact ih.step (.char hc.1 fun h => absurd h hb) (by simp)
  | case9 literal c next rest hb hq hc =>
    refine ⟨.refl, fun h => ⟨h, rfl⟩, fun h _ hl => ?_, fun _ => rfl⟩
    simp [h c rfl, (show literal = [] from hl)] at hc

/-- What the literal loop passes does not matter. -/
theorem Accepted.of_plain (hp : ReflTransGen Plain s rest) (h : Accepted depth false rest) :
    Accepted depth false s := by
  induction hp using ReflTransGen.head_induction_on with
  | refl => exact h
  | head hstep _ ih => exact .literal hstep ih

/-- A special character starts no literal. -/
theorem Plain.head (h : Plain s rest) : ∀ c ∈ s.head?, isNonLiteral c = false := by
  intro c hc
  cases h with
  | escape d rest =>
    obtain rfl : '\\' = c := by simpa using hc
    decide
  | char hd =>
    obtain rfl := Option.some.inj hc
    exact hd

private theorem Accepted.behind_plain (hp : Plain s rest) (h : Accepted depth first s) :
    Accepted depth false rest := by
  have hno : ∀ c rest', s = c :: rest' → isNonLiteral c = true → False := by
    rintro c rest' rfl hc
    rw [hp.head c rfl] at hc
    cases hc
  cases h with
  | done => cases hp
  | dot => exact (hno _ _ rfl (by decide)).elim
  | bar => exact (hno _ _ rfl (by decide)).elim
  | group => exact (hno _ _ rfl (by decide)).elim
  | closeTop => exact (hno _ _ rfl (by decide)).elim
  | close => exact (hno _ _ rfl (by decide)).elim
  | bracket => exact (hno _ _ rfl (by decide)).elim
  | quantifier hc =>
    refine (hno _ _ rfl ?_).elim
    simp only [isQuantifier, Bool.or_eq_true, decide_eq_true_eq] at hc
    rcases hc with (rfl | rfl) | rfl <;> decide
  | count => exact (hno _ _ rfl (by decide)).elim
  | invalidTop => exact (hno _ _ rfl (by decide)).elim
  | invalid => exact (hno _ _ rfl (by decide)).elim
  | literal hp' h => exact hp.unique hp' ▸ h

private theorem Accepted.behind_literal (hp : ReflTransGen Plain s rest)
    (h : Accepted depth false s) :
    Accepted depth false rest := by
  induction hp using ReflTransGen.head_induction_on with
  | refl => exact h
  | head hstep _ ih => exact ih (h.behind_plain hstep)

/-- What the turn leads to is accepted. -/
def Turn.Accepts (depth : Nat) : Turn → Prop
  | .next seq r => Accepted depth seq.isEmpty r.rest
  | .group r => Accepted (depth + 1) true r.rest
  | .done _ r => ∀ d, depth = d + 1 → Accepted d false r.rest
  | .stop _ => False

@[simp] theorem isEmpty_append_singleton {α : Type} (l : List α) (a : α) :
    (l ++ [a]).isEmpty = false := by
  cases l <;> rfl

@[simp] theorem Reader.addError_rest (r : Reader) (message : String) :
    (r.addError message).rest = r.rest := rfl

@[simp] theorem Reader.addWarning_rest (r : Reader) (message : String) :
    (r.addWarning message).rest = r.rest := rfl

@[simp] theorem Reader.getDot_rest (r : Reader) : r.getDot.2.rest = r.rest := rfl

@[simp] theorem Reader.repeatLast_rest (r : Reader) (name : Str) (last : LiteralOrRule)
    (times : Int × Int) : (r.repeatLast name last times).2.rest = r.rest := by
  unfold Reader.repeatLast Reader.subRule
  dsimp only
  split
  · rfl
  · split <;> rfl

private theorem addError_if_rest (c : Prop) [Decidable c] (r : Reader) (message : String) :
    (if c then r.addError message else r).rest = r.rest := by
  split <;> rfl

variable {name : Str} {before : Option Char} {seq : List LiteralOrRule} {r : Reader}
  {depth : Nat} {rest : Str}

private theorem countTurn_accepts : (countTurn name seq r rest).Accepts depth ↔
    (readTimes ((curlyText rest).splitOn ',') = .error .invalidArgument ∧
      ∀ d, depth = d + 1 → Accepted d false (fromCurly rest).tail) ∨
    (∃ times, readTimes ((curlyText rest).splitOn ',') = .ok times) ∧ seq ≠ [] ∧
      Accepted depth false (fromCurly rest).tail := by
  unfold countTurn
  dsimp only
  cases h : readTimes ((curlyText rest).splitOn ',') with
  | error e =>
    cases e with
    | invalidArgument => simp [Turn.Accepts, addError_if_rest]
    | outOfRange => simp [Turn.Accepts]
  | ok times =>
    cases hlast : seq.getLast? with
    | none => simp [Turn.Accepts, getLast?_eq_none_iff.mp hlast]
    | some last =>
      have hne : seq ≠ [] := by
        rintro rfl
        cases hlast
      simp [Turn.Accepts, addError_if_rest, hne]

private theorem turn_of_accepted (h : Accepted depth seq.isEmpty (c :: rest)) :
    (turn name before seq r c rest).Accepts depth := by
  have hempty : ∀ {first}, seq.isEmpty = first → first = false → seq ≠ [] := by
    rintro first hf rfl rfl
    cases hf
  unfold turn
  dsimp only
  generalize hfirst : seq.isEmpty = first at h
  cases h with
  | dot h =>
    rw [if_pos rfl]
    simpa [Turn.Accepts] using h
  | bar h =>
    rw [if_neg (by decide), if_neg (by decide), if_neg (by decide), if_neg (by decide), if_pos rfl]
    simpa [Turn.Accepts] using h
  | group h =>
    rw [if_neg (by decide), if_pos rfl]
    simp only [Turn.Accepts]
    split <;> exact h
  | closeTop =>
    rw [if_neg (by decide), if_neg (by decide), if_pos rfl]
    intro d hd
    cases hd
  | close h =>
    rw [if_neg (by decide), if_neg (by decide), if_pos rfl]
    intro d hd
    obtain rfl : _ = d := Nat.succ.inj hd
    split <;> exact h
  | bracket h =>
    rw [if_neg (by decide), if_neg (by decide), if_neg (by decide), if_pos rfl]
    simpa [Turn.Accepts] using h
  | quantifier hc h =>
    have hne := hempty hfirst rfl
    have hquant : c = '*' ∨ c = '+' ∨ c = '?' := by
      simpa [isQuantifier, or_assoc] using hc
    have hothers : c ≠ '.' ∧ c ≠ '(' ∧ c ≠ ')' ∧ c ≠ '[' ∧ c ≠ '|' := by
      rcases hquant with rfl | rfl | rfl <;> decide
    obtain ⟨h1, h2, h3, h4, h5⟩ := hothers
    rw [if_neg h1, if_neg h2, if_neg h3, if_neg h4, if_neg h5, if_pos hquant]
    cases hlast : seq.getLast? with
    | none => exact absurd (getLast?_eq_none_iff.mp hlast) hne
    | some last => simpa [Turn.Accepts] using h
  | count ht h =>
    rw [if_neg (by decide), if_neg (by decide), if_neg (by decide), if_neg (by decide),
      if_neg (by decide), if_neg (by decide), if_pos rfl]
    exact countTurn_accepts.mpr (.inr ⟨⟨_, ht⟩, hempty hfirst rfl, h⟩)
  | invalidTop ht =>
    rw [if_neg (by decide), if_neg (by decide), if_neg (by decide), if_neg (by decide),
      if_neg (by decide), if_neg (by decide), if_pos rfl]
    exact countTurn_accepts.mpr (.inl ⟨ht, fun d hd => by cases hd⟩)
  | invalid ht h =>
    rw [if_neg (by decide), if_neg (by decide), if_neg (by decide), if_neg (by decide),
      if_neg (by decide), if_neg (by decide), if_pos rfl]
    refine countTurn_accepts.mpr (.inl ⟨ht, fun d hd => ?_⟩)
    obtain rfl : _ = d := Nat.succ.inj hd
    exact h
  | literal hp h =>
    have hc := hp.head c rfl
    have hother : ∀ d, isNonLiteral d = true → c ≠ d := by
      rintro d hd rfl
      rw [hc] at hd
      cases hd
    have hquant : ¬ (c = '*' ∨ c = '+' ∨ c = '?') := by
      rintro (h | h | h) <;> exact hother _ (by decide) h
    rw [if_neg (hother '.' (by decide)), if_neg (hother '(' (by decide)),
      if_neg (hother ')' (by decide)), if_neg (hother '[' (by decide)),
      if_neg (hother '|' (by decide)), if_neg hquant, if_neg (hother '{' (by decide))]
    have hread := readLiteral_read [] (c :: rest)
    have hne := hread.something (fun d hd => hp.head d hd) (by simp)
    rw [if_neg hne]
    have hbehind : Accepted depth false (readLiteral [] (c :: rest)).2 :=
      (Accepted.literal hp h).behind_literal hread.passed
    simpa [Turn.Accepts] using hbehind

private theorem accepted_of_turn (h : (turn name before seq r c rest).Accepts depth) :
    Accepted depth seq.isEmpty (c :: rest) := by
  unfold turn at h
  dsimp only at h
  split at h
  next hc =>
    subst hc
    exact .dot (by simpa [Turn.Accepts] using h)
  split at h
  next hc =>
    subst hc
    refine .group ?_
    simp only [Turn.Accepts] at h
    split at h <;> exact h
  split at h
  next hc =>
    subst hc
    cases depth with
    | zero => exact .closeTop _ _
    | succ d =>
      refine .close ?_
      have hd := h d rfl
      split at hd <;> exact hd
  split at h
  next hc =>
    subst hc
    exact .bracket (by simpa [Turn.Accepts] using h)
  split at h
  next hc =>
    subst hc
    exact .bar (by simpa [Turn.Accepts] using h)
  split at h
  next hc =>
    cases hlast : seq.getLast? with
    | none =>
      rw [hlast] at h
      exact h.elim
    | some last =>
      rw [hlast] at h
      have hne : seq.isEmpty = false := by
        cases seq with
        | nil => cases hlast
        | cons => rfl
      rw [hne]
      exact .quantifier (by simpa [isQuantifier, or_assoc] using hc)
        (by simpa [Turn.Accepts] using h)
  split at h
  next hc =>
    subst hc
    obtain ⟨ht, h⟩ | ⟨⟨times, ht⟩, hne, h⟩ := countTurn_accepts.mp h
    · cases depth with
      | zero => exact .invalidTop ht
      | succ d => exact .invalid ht (h d rfl)
    · have hne' : seq.isEmpty = false := by simpa using hne
      rw [hne']
      exact .count ht h
  next =>
    have hread := readLiteral_read [] (c :: rest)
    simp only [Turn.Accepts] at h
    split at h
    next hnil =>
      -- nothing was read, and the loop stays where it is
      rw [(hread.nothing hnil).2] at h
      exact h
    next hne =>
      rw [isEmpty_append_singleton] at h
      obtain hrefl | ⟨s, hp, hpassed⟩ := hread.passed.cases_head
      · exact absurd (hread.stays hrefl.symm) hne
      · exact .literal hp (h.of_plain hpassed)

/-- The text that a turn leaves. -/
def Turn.left : Turn → Str
  | .next _ r => r.rest
  | .group r => r.rest
  | .done _ r => r.rest
  | .stop _ => []

private theorem readBracket_length (rest : Str) :
    ((readBracket rest).2.getD []).length ≤ rest.length := by
  fun_induction readBracket rest with
  | case1 => simp
  | case2 => simp
  | case3 => simp
  | case4 c hc d rest =>
    simp only [length_cons]
    omega
  | case5 c rest hc hb ih =>
    simp only [length_cons]
    omega

private theorem fromCurly_length (rest : Str) : (fromCurly rest).tail.length ≤ rest.length := by
  have := (dropWhile_sublist (l := rest) (· ≠ '}')).length_le
  rw [length_tail]
  exact Nat.le_trans (Nat.sub_le _ _) this

private theorem countTurn_length : (countTurn name seq r rest).left.length ≤ rest.length := by
  have hlen := fromCurly_length rest
  unfold countTurn
  dsimp only
  split
  · simpa [Turn.left, addError_if_rest] using hlen
  · simp [Turn.left]
  · cases seq.getLast? with
    | none => simp [Turn.left]
    | some last => simpa [Turn.left, addError_if_rest] using hlen

/-- A turn passes its character unless it is a closing bracket that nothing opens. -/
theorem turn_length (hc : c ≠ ']') (hc' : c ≠ '}') :
    (turn name before seq r c rest).left.length ≤ rest.length := by
  unfold turn
  dsimp only
  split
  next => simp [Turn.left]
  split
  next =>
    simp only [Turn.left]
    split <;> simp
  split
  next => simp [Turn.left, addError_if_rest]
  split
  next => simpa [Turn.left] using readBracket_length rest
  split
  next => simp [Turn.left]
  split
  next => cases seq.getLast? <;> simp [Turn.left]
  split
  next => exact countTurn_length
  next h1 h2 h3 h4 h5 h6 h7 =>
    have hplain : isNonLiteral c = false := by
      simp only [not_or] at h6
      simp [isNonLiteral, str, h1, h2, h3, h4, h5, h6, h7, hc, hc']
    have hread := readLiteral_read [] (c :: rest)
    have hne := hread.something (fun d hd => Option.some.inj hd ▸ hplain) (by simp)
    obtain hrefl | ⟨s, hp, hpassed⟩ := hread.passed.cases_head
    · exact absurd (hread.stays hrefl.symm) hne
    · have h1 := hp.length_lt
      have h2 := length_le_of_plain hpassed
      simp only [Turn.left, length_cons] at *
      omega

private theorem Accepted.not_closing (h : Accepted depth first (c :: rest)) :
    c ≠ ']' ∧ c ≠ '}' := by
  cases h with
  | quantifier hc =>
    constructor
    · rintro rfl
      exact absurd hc (by decide)
    · rintro rfl
      exact absurd hc (by decide)
  | literal hp =>
    have hc := hp.head c rfl
    constructor
    · rintro rfl
      exact absurd hc (by decide)
    · rintro rfl
      exact absurd hc (by decide)
  | _ => decide

/-- An accepted text is read to the end of its group. -/
theorem transformFrom_of_accepted (name : Str) (before : Option Char)
    (h : Accepted depth seq.isEmpty r.rest) (hn : r.rest.length < n) :
    ∃ out r', transformFrom name n before seq r = .ok (out, r') ∧
      r'.rest.length ≤ r.rest.length ∧ ∀ d, depth = d + 1 → Accepted d false r'.rest := by
  induction n generalizing before seq r depth with
  | zero => omega
  | succ n ih =>
    rw [transformFrom]
    cases hrest : r.rest with
    | nil => exact ⟨_, _, rfl, by simp [hrest], fun d _ => by rw [hrest]; exact .done _ _⟩
    | cons c rest =>
      rw [hrest] at h hn
      rw [length_cons] at hn
      obtain ⟨hc, hc'⟩ := h.not_closing
      have haccepts : (turn name before seq r c rest).Accepts depth := turn_of_accepted h
      have hlen : (turn name before seq r c rest).left.length ≤ rest.length := turn_length hc hc'
      dsimp only
      cases hturn : turn name before seq r c rest with
      | stop e =>
        rw [hturn] at haccepts
        exact haccepts.elim
      | done out r' =>
        rw [hturn] at haccepts hlen
        exact ⟨out, r', rfl, Nat.le_trans hlen (Nat.le_succ _), haccepts⟩
      | next seq' r' =>
        rw [hturn] at haccepts hlen
        simp only [Turn.left] at hlen
        obtain ⟨out, r'', hok, hle, hend⟩ := ih before haccepts (by omega)
        exact ⟨out, r'', hok, by simp only [length_cons]; omega, hend⟩
      | group r' =>
        rw [hturn] at haccepts hlen
        simp only [Turn.left] at hlen
        have hgroup : Accepted (depth + 1) ([] : List LiteralOrRule).isEmpty r'.rest := haccepts
        obtain ⟨sub, r₁, hsub, hle₁, hend₁⟩ := ih (some '(') hgroup (by omega)
        have hnext : Accepted depth (seq ++ [(str "(" ++ toRule sub ++ str ")", false)]).isEmpty
            r₁.rest := by
          rw [isEmpty_append_singleton]
          exact hend₁ depth rfl
        obtain ⟨out, r₂, hok, hle₂, hend₂⟩ := ih before hnext (by omega)
        refine ⟨out, r₂, ?_, by simp only [length_cons]; omega, hend₂⟩
        dsimp only
        rw [hsub]
        exact hok

/-- What the loop returns from is accepted, if what is left is. -/
theorem accepted_of_transformFrom {r' : Reader} {out : LiteralOrRule}
    (h : transformFrom name n before seq r = .ok (out, r'))
    (hend : ∀ d, depth = d + 1 → Accepted d false r'.rest) : Accepted depth seq.isEmpty r.rest := by
  induction n generalizing before seq r r' out depth with
  | zero => cases h
  | succ n ih =>
    rw [transformFrom] at h
    cases hrest : r.rest with
    | nil => exact .done _ _
    | cons c rest =>
      rw [hrest] at h
      dsimp only at h
      suffices haccepts : (turn name before seq r c rest).Accepts depth from
        accepted_of_turn haccepts
      cases hturn : turn name before seq r c rest with
      | stop e =>
        rw [hturn] at h
        cases h
      | done out' r₁ =>
        rw [hturn] at h
        cases h
        exact hend
      | next seq' r₁ =>
        rw [hturn] at h
        exact ih h hend
      | group r₁ =>
        rw [hturn] at h
        dsimp only at h
        cases hsub : transformFrom name n (some '(') [] r₁ with
        | error e =>
          rw [hsub] at h
          cases h
        | ok a =>
          obtain ⟨sub, r₂⟩ := a
          rw [hsub] at h
          have hnext := ih h hend
          rw [isEmpty_append_singleton] at hnext
          have hsub' : Accepted (depth + 1) true r₁.rest := ih hsub fun d hd => by
            obtain rfl : depth = d := Nat.succ.inj hd
            exact hnext
          exact hsub'

/-- `_visit_pattern` comes back, with a rule under the name that it returns or with an error. -/
def PatternTotal (c : Converter) (pattern name : Str) : Prop :=
  ∃ fuel key c', c.visitPattern fuel pattern name = .ok (key, c') ∧
    ((∃ rule, c'.rules.lookup key = some rule) ∨ c'.errors ≠ [])

/-- The conversion comes back exactly when the pattern does not have both anchors or what is
between them is read. -/
theorem visitPattern_total_iff (c : Converter) {pattern : Str} (_ : pattern ≠ [])
    (name : Str) : PatternTotal c pattern name ↔
      (pattern.head? = some '^' → pattern.getLast? = some '$' →
        Accepted 0 true pattern.tail.dropLast) := by
  unfold PatternTotal Converter.visitPattern
  by_cases hanchors : pattern.head? = some '^' ∧ pattern.getLast? = some '$'
  · simp only [hanchors.1, hanchors.2, forall_const]
    constructor
    · rintro ⟨fuel, key, c', hok, -⟩
      obtain ⟨⟨sub, r⟩, hrun, -⟩ := Loop.bind_ok.mp hok
      exact accepted_of_transformFrom hrun fun d hd => by cases hd
    · intro h
      have hstart : Accepted 0 ([] : List LiteralOrRule).isEmpty
          (Reader.mk pattern.tail.dropLast c []).rest := h
      obtain ⟨sub, r, hrun, -⟩ := transformFrom_of_accepted name none hstart (Nat.lt_succ_self _)
      refine ⟨pattern.tail.dropLast.length + 1, (r.converter.addRule name (patternRule sub)).1,
        (r.converter.addRule name (patternRule sub)).2, ?_,
        .inl ⟨patternRule sub, r.converter.lookup_addRule name _⟩⟩
      rw [if_pos ⟨trivial, trivial⟩]
      exact Loop.bind_ok.mpr ⟨(sub, r), hrun, rfl⟩
  · simp only [if_neg hanchors]
    refine iff_of_true ⟨0, _, _, rfl, .inr (by simp)⟩ fun h1 h2 => absurd ⟨h1, h2⟩ hanchors

theorem visitPattern_total_iff_group :
    PatternTotal ⟨false, [], [], []⟩ (str "^(ab)+$") (str "root") ↔
      ((str "^(ab)+$").head? = some '^' → (str "^(ab)+$").getLast? = some '$' →
        Accepted 0 true (str "^(ab)+$").tail.dropLast) :=
  visitPattern_total_iff ⟨false, [], [], []⟩ (by decide) (str "root")

private theorem transformFrom_brace (n : Nat) (name : Str) (before : Option Char)
    (seq : List LiteralOrRule) (r : Reader) (h : r.rest = ['}']) :
    transformFrom name n before seq r = .error .fuel := by
  induction n with
  | zero => rfl
  | succ n ih =>
    have hturn : turn name before seq r '}' [] = .next seq r := by
      obtain ⟨rest, c, ids⟩ := r
      obtain rfl : rest = ['}'] := h
      rfl
    rw [transformFrom, h]
    dsimp only
    rw [hturn]
    exact ih

/-- The pattern `^}$` keeps the loop where it is; `^*$` and `^(?:a)$` take the last element
of an empty sequence, and the count in `^a{2147483648}$` throws. -/
theorem patterns_not_total :
    (∀ n, Converter.visitPattern ⟨false, [], [], []⟩ n (str "^\x7d$") (str "root") = .error .fuel) ∧
      Converter.visitPattern ⟨false, [], [], []⟩ 10 (str "^*$") (str "root") =
        .error .emptySequence ∧
      Converter.visitPattern ⟨false, [], [], []⟩ 10 (str "^(?:a)$") (str "root") =
        .error .emptySequence ∧
      Converter.visitPattern ⟨false, [], [], []⟩ 10 (str "^a\x7b2147483648\x7d$") (str "root") =
        .error .outOfRange := by
  refine ⟨fun n => ?_, by decide, by decide, by decide⟩
  have hrun : transformFrom (str "root") n none [] ⟨['}'], ⟨false, [], [], []⟩, []⟩ =
      .error .fuel := transformFrom_brace n _ _ _ _ rfl
  rw [Converter.visitPattern, if_pos (by decide)]
  change (transformFrom (str "root") n none [] ⟨['}'], ⟨false, [], [], []⟩, []⟩ >>= _) = _
  rw [hrun]
  rfl

end Llama.Schema
