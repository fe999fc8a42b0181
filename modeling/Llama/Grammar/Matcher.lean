import Mathlib.Data.List.Basic
import Mathlib.Algebra.Order.Ring.Int

/-!
# The grammar matcher

`llama-grammar.cpp`: rules are arrays of elements, a stack is an array of pointers into the
rules, and the state of the matcher is an array of stacks. A pointer is the index of a rule
and of an element of it; reading behind the end of a rule, which the source never does on
rules of its parser, gives `END`. Stacks are lists with the top first.
-/

namespace Llama.Grammar

/-- `llama_gretype`. -/
inductive GreType where
  | end_ | alt | ruleRef | char | charNot | charRngUpper | charAlt | charAny | token | tokenNot
  deriving DecidableEq, Repr

/-- `llama_grammar_element`. -/
structure Element where
  /-- Kind of the element. -/
  type : GreType
  /-- Code point, rule index or token. -/
  value : Nat
  deriving DecidableEq, Repr

/-- `llama_grammar_rules`. -/
abbrev Rules := List (List Element)

/-- A pointer to an element. -/
structure Pos where
  /-- Index of the rule. -/
  rule : Nat
  /-- Index of the element in the rule. -/
  idx : Nat
  deriving DecidableEq, Repr

/-- The pointer `pos + k`. -/
def Pos.add (p : Pos) (k : Nat) : Pos := { p with idx := p.idx + k }

/-- `llama_grammar_stack`. -/
abbrev Stack := List Pos

instance : LawfulBEq Stack := inferInstance

/-- `llama_grammar_stacks`. -/
abbrev Stacks := List Stack

/-- How a call can fail to return: `GGML_ABORT`, the recursion is deeper than the fuel, or the
exception about an empty grammar stack. -/
inductive Stop where
  | abort | fuel | emptyStack
  deriving DecidableEq, Repr

def Rules.rule (rules : Rules) (r : Nat) : List Element := (rules[r]?).getD []

/-- The elements from a pointer on. -/
def Rules.from (rules : Rules) (p : Pos) : List Element := (rules.rule p.rule).drop p.idx

/-- The element at a pointer. -/
def Rules.elem (rules : Rules) (p : Pos) : Element :=
  ((rules.from p).head?).getD { type := .end_, value := 0 }

/-- `llama_grammar_is_end_of_sequence`. -/
def isEndOfSequence (e : Element) : Bool :=
  match e.type with
  | .end_ => true
  | .alt => true
  | _ => false

/-- The element starts a range of characters. -/
def isPositiveChar (e : Element) : Bool := e.type == .char || e.type == .charAny

/-- The loop of `llama_grammar_match_char`: what was found, and the number of elements
passed. -/
def matchLoop (chr : Nat) (found : Bool) : List Element → Bool × Nat
  | e :: u :: es =>
    if u.type = .charRngUpper then
      let found := found || (decide (e.value ≤ chr) && decide (chr ≤ u.value))
      match es with
      | a :: es =>
        if a.type = .charAlt then ((matchLoop chr found (a :: es)).1,
          (matchLoop chr found (a :: es)).2 + 2)
        else (found, 2)
      | [] => (found, 2)
    else
      let found := if e.type = .charAny then true else found || e.value == chr
      if u.type = .charAlt then ((matchLoop chr found (u :: es)).1,
        (matchLoop chr found (u :: es)).2 + 1)
      else (found, 1)
  | [e] => (if e.type = .charAny then true else found || e.value == chr, 1)
  | [] => (found, 0)

/-- `llama_grammar_match_char`. -/
def matchChar (rules : Rules) (p : Pos) (chr : Nat) : Except Stop (Bool × Pos) :=
  let e := rules.elem p
  if isPositiveChar e || e.type == .charNot then
    let r := matchLoop chr false (rules.from p)
    .ok (r.1 == isPositiveChar e, p.add r.2)
  else .error .abort

/-- `llama_grammar_match_token`. -/
def matchToken (rules : Rules) (p : Pos) (token : Nat) : Except Stop Bool :=
  let e := rules.elem p
  match e.type with
  | .token => .ok (e.value == token)
  | .tokenNot => .ok (e.value != token)
  | _ => .error .abort

/-- Push a pointer unless the sequence ends there. -/
def Rules.push (rules : Rules) (p : Pos) (st : Stack) : Stack :=
  if isEndOfSequence (rules.elem p) then st else p :: st

/-- The starts of the alternates after the one at hand; `i` is the index of the first element. -/
def nextStarts : List Element → Nat → List Nat
  | [], _ => []
  | e :: es, i =>
    match e.type with
    | .alt => (i + 1) :: nextStarts es (i + 1)
    | .end_ => []
    | _ => nextStarts es (i + 1)

/-- The starts of the alternates of a rule, found by scanning. -/
def altStarts (rule : List Element) : List Nat := 0 :: nextStarts rule 0

/-- Add a stack unless it is there. -/
def addStack (st : Stack) (sts : Stacks) : Stacks :=
  if st ∈ sts then sts else sts ++ [st]

/-- `llama_grammar_advance_stack`. The fuel bounds the depth of the recursion. -/
def advanceStack (rules : Rules) : Nat → Stack → Stacks → Except Stop Stacks
  | 0, _, _ => .error .fuel
  | _ + 1, [], acc => .ok (addStack [] acc)
  | fuel + 1, p :: st, acc =>
    match (rules.elem p).type with
    | .ruleRef =>
      let r := (rules.elem p).value
      (altStarts (rules.rule r)).foldlM
        (fun acc i => advanceStack rules fuel
          (rules.push { rule := r, idx := i } (rules.push (p.add 1) st)) acc) acc
    | .char => .ok (addStack (p :: st) acc)
    | .charNot => .ok (addStack (p :: st) acc)
    | .charAny => .ok (addStack (p :: st) acc)
    | .token => .ok (addStack (p :: st) acc)
    | .tokenNot => .ok (addStack (p :: st) acc)
    | _ => .error .abort

/-- `llama_grammar_accept_chr`. -/
def acceptChr (rules : Rules) (fuel : Nat) (chr : Nat) (acc : Stacks) (st : Stack) :
    Except Stop Stacks :=
  match st with
  | [] => .ok acc
  | p :: rest =>
    if (rules.elem p).type = .token ∨ (rules.elem p).type = .tokenNot then .ok acc
    else do
      let m ← matchChar rules p chr
      if m.1 then advanceStack rules fuel (rules.push m.2 rest) acc else .ok acc

/-- `llama_grammar_accept`. -/
def accept (rules : Rules) (fuel : Nat) (sts : Stacks) (chr : Nat) : Except Stop Stacks :=
  sts.foldlM (acceptChr rules fuel chr) []

/-- The three vectors of `llama_grammar_detect_left_recursion`. -/
structure Marks where
  /-- Rules that were walked to their end. -/
  visited : Nat → Bool
  /-- Rules whose walk is under way. -/
  inProgress : Nat → Bool
  /-- Rules with an empty alternate. -/
  mayBeEmpty : Nat → Bool

/-- The walk of a rule starts; the rule is marked when it has an empty alternate. -/
def Marks.enter (m : Marks) (r : Nat) (empty : Bool) : Marks :=
  { m with inProgress := Function.update m.inProgress r true
           mayBeEmpty := if empty then Function.update m.mayBeEmpty r true else m.mayBeEmpty }

/-- The walk of a rule ends. -/
def Marks.leave (m : Marks) (r : Nat) : Marks :=
  { m with inProgress := Function.update m.inProgress r false
           visited := Function.update m.visited r true }

/-- First loop: some alternate is empty. -/
def hasEmptyAlternate (atRuleStart : Bool) : List Element → Bool
  | [] => false
  | e :: es =>
    if isEndOfSequence e then
      if atRuleStart then true else hasEmptyAlternate true es
    else hasEmptyAlternate false es

/-- Second loop: recurse into the leftmost rules. -/
def walkLeft (detect : Nat → Marks → Option (Bool × Marks)) :
    Bool → List Element → Marks → Option (Bool × Marks)
  | _, [], m => some (false, m)
  | recurse, e :: es, m =>
    if e.type = .ruleRef ∧ recurse then
      match detect e.value m with
      | some (true, m) => some (true, m)
      | some (false, m) => walkLeft detect (m.mayBeEmpty e.value) es m
      | none => none
    else if isEndOfSequence e then walkLeft detect true es m
    else walkLeft detect false es m

/-- `llama_grammar_detect_left_recursion`; `none` when the recursion is deeper than the fuel. -/
def detectLeftRecursion (rules : Rules) : Nat → Nat → Marks → Option (Bool × Marks)
  | 0, _, _ => none
  | fuel + 1, r, m =>
    if m.inProgress r then some (true, m)
    else
      match walkLeft (detectLeftRecursion rules fuel) true (rules.rule r)
          (m.enter r (hasEmptyAlternate true (rules.rule r))) with
      | some (true, m) => some (true, m)
      | some (false, m) => some (false, m.leave r)
      | none => none

/-- The loop of `llama_grammar_init_impl` over the rules. No chain of rules in progress is
longer than the number of rules. -/
def checkLeftRecursion (rules : Rules) : List Nat → Marks → Option (Bool × Marks)
  | [], m => some (false, m)
  | i :: is, m =>
    if m.visited i then checkLeftRecursion rules is m
    else
      match detectLeftRecursion rules (rules.length + 1) i m with
      | some (true, m) => some (true, m)
      | some (false, m) => checkLeftRecursion rules is m
      | none => none

/-- No rule is marked. -/
def Marks.empty : Marks := ⟨fun _ => false, fun _ => false, fun _ => false⟩

/-- Copy a rule up to its `END`. -/
def copyRule (rule : List Element) : List Element :=
  rule.takeWhile (fun e => e.type != .end_) ++ [{ type := .end_, value := 0 }]

/-- The loop over the alternates of the start rule. -/
def initialStacks (rules : Rules) (fuel start : Nat) : Except Stop Stacks :=
  (altStarts (rules.rule start)).foldlM
    (fun acc i => advanceStack rules fuel (rules.push { rule := start, idx := i } []) acc) []

/-- `llama_grammar_init_impl`; `none` is the null pointer. -/
def initImpl (rules : Rules) (fuel start : Nat) : Except Stop (Option (Rules × Stacks)) :=
  let rules := rules.map copyRule
  match checkLeftRecursion rules (List.range rules.length) Marks.empty with
  | some (true, _) => .ok none
  | some (false, _) => do
    let sts ← initialStacks rules fuel start
    .ok (some (rules, sts))
  | none => .error .fuel

/-- Initialize and accept the code points in turn. -/
def matchWord (rules : Rules) (fuel start : Nat) (w : List Nat) :
    Except Stop (Option Stacks) := do
  match ← initImpl rules fuel start with
  | none => .ok none
  | some (rules, sts) => do
    let sts ← w.foldlM (accept rules fuel) sts
    .ok (some sts)

end Llama.Grammar
