import Llama.Grammar.Text

/-!
# The grammar parser

`llama_grammar_parser`: a recursive descent that writes the elements of the rules as it reads.
A call runs on the state of the parser and may throw; the state stays as it was at the throw.
Names of rules are numbered by first use, groups and repetitions get rules with names of their
own.

Identifiers are natural numbers: a grammar with 2^32 rules does not fit in memory.
-/

namespace Llama.Grammar

/-- `llama_grammar_parser`. -/
structure Parser where
  /-- The map `symbol_ids`. -/
  symbolIds : List (Text × Nat)
  rules : Rules
  deriving DecidableEq, Repr

/-- A call of the parser. -/
abbrev ParserM := EStateM ParseError Parser

/-- A helper that throws. -/
def ParserM.lift {α : Type} : Except ParseError α → ParserM α
  | .ok a => pure a
  | .error e => throw e

/-- `symbol_ids[key] = id`. -/
def assignId (key : Text) (id : Nat) : List (Text × Nat) → List (Text × Nat)
  | [] => [(key, id)]
  | p :: ps => if p.1 = key then (key, id) :: ps else p :: assignId key id ps

def getSymbolId (name : Text) : ParserM Nat := fun p =>
  match p.symbolIds.lookup name with
  | some id => .ok id p
  | none => .ok p.symbolIds.length
      { p with symbolIds := p.symbolIds ++ [(name, p.symbolIds.length)] }

/-- The name of a synthesized rule. -/
def generatedName (base : Text) (id : Nat) : Text :=
  base ++ byte '_' :: (Nat.toDigits 10 id).map byte

def Parser.generateSymbolId (p : Parser) (base : Text) : Nat × Parser :=
  let id := p.symbolIds.length
  (id, { p with symbolIds := assignId (generatedName base id) id p.symbolIds })

/-- `rules.resize(id + 1)` unless it is longer, and `rules[id] = rule`. -/
def writeAt {α : Type} (pad : α) (id : Nat) (a : α) (l : List α) : List α :=
  (l ++ List.replicate (id + 1 - l.length) pad).set id a

def Parser.addRule (p : Parser) (id : Nat) (rule : List Element) : Parser :=
  { p with rules := writeAt [] id rule p.rules }

def uint64Max : Nat := 2 ^ 64 - 1

def maxRepetitionThreshold : Nat := 2000

/-- A reference to a rule. -/
def refTo (id : Nat) : Element := { type := .ruleRef, value := id }

/-- `n_opt`: the difference is one of 64-bit numbers. -/
def optionalCount (minTimes maxTimes : Nat) : Nat :=
  if maxTimes = uint64Max then 1 else (maxTimes + 2 ^ 64 - minTimes) % 2 ^ 64

def lastRecRuleId (recs : List (Nat × List Element)) : Nat := (recs.getLast?.map Prod.fst).getD 0

/-- The first turns of the loop of `handle_repetitions` that adds rules: the parser, and the
rules added. -/
def addRecRules (ruleName : Text) (prev : List Element) (noMax : Bool) :
    Nat → Parser → Parser × List (Nat × List Element)
  | 0, p => (p, [])
  | i + 1, p =>
    let (p, recs) := addRecRules ruleName prev noMax i p
    let (id, p) := p.generateSymbolId ruleName
    let ref := if 0 < i ∨ noMax then [refTo (if noMax then id else lastRecRuleId recs)] else []
    let rule := prev ++ ref ++ [{ type := .alt, value := 0 }, { type := .end_, value := 0 }]
    (p.addRule id rule, recs ++ [(id, rule)])

/-- `handle_repetitions`: the new rule. -/
def handleRepetitions (pos ruleName : Text) (rule : List Element) (lastSymStart minTimes
    maxTimes : Nat) : ParserM (List Element) := fun p =>
  if lastSymStart = rule.length then .error (.expectingPrecedingItem pos) p
  else
    let prev := rule.drop lastSymStart
    let inserted := List.replicate (minTimes - 1) prev
    let rule := if minTimes = 0 then rule.take lastSymStart else rule ++ inserted.flatten
    let nOpt := optionalCount minTimes maxTimes
    let r := addRecRules ruleName prev (maxTimes = uint64Max) nOpt p
    let rule := if 0 < nOpt then rule ++ [refTo (lastRecRuleId r.2)] else rule
    .ok rule r.1

/-- An integer of a repetition. -/
def parseBound (pos : Text) (isNested : Bool) : Except ParseError (Nat × Text) := do
  let intEnd ← parseInt pos
  let n ← stoull (between pos intEnd)
  pure (n, parseSpace intEnd isNested)

/-- The integer behind the comma, when there is one. -/
def parseUpper (pos : Text) (isNested : Bool) : Except ParseError (Nat × Text) :=
  if isDigitChar (peek pos) then parseBound pos isNested else .ok (uint64Max, pos)

/-- What follows `min_times`: `}`, `,}` or `,n}`. -/
def parseMaxTimes (minTimes : Nat) (pos : Text) (isNested : Bool) :
    Except ParseError (Nat × Text) :=
  if peek pos = byte '}' then .ok (minTimes, parseSpace pos.tail isNested)
  else if peek pos = byte ',' then do
    let (maxTimes, pos) ← parseUpper (parseSpace pos.tail isNested) isNested
    if peek pos ≠ byte '}' then throw (.expectingBrace pos)
    pure (maxTimes, parseSpace pos.tail isNested)
  else .error (.expectingComma pos)

/-- The bounds of `{m}`, `{m,}` and `{m,n}`, from behind the brace. -/
def parseBounds (pos : Text) (isNested : Bool) : Except ParseError (Nat × Nat × Text) := do
  let pos := parseSpace pos isNested
  if isDigitChar (peek pos) = false then throw (.expectingInt pos)
  let (minTimes, pos) ← parseBound pos isNested
  let (maxTimes, pos) ← parseMaxTimes minTimes pos isNested
  if minTimes > maxRepetitionThreshold ∨
      (maxTimes ≠ uint64Max ∧ maxTimes > maxRepetitionThreshold) then throw .tooManyRepetitions
  pure (minTimes, maxTimes, pos)

/-- The rule of a sequence while it is read. -/
structure Sequence where
  rule : List Element
  lastSymStart : Nat
  deriving DecidableEq, Repr

/-- A new item at the end of the rule. -/
def Sequence.push (s : Sequence) (es : List Element) : Sequence :=
  { rule := s.rule ++ es, lastSymStart := s.rule.length }

/-- A repetition of the last item. -/
def repeatLast (ruleName : Text) (s : Sequence) (pos : Text) (minTimes maxTimes : Nat) :
    ParserM (Option (Sequence × Text)) := do
  let rule ← handleRepetitions pos ruleName s.rule s.lastSymStart minTimes maxTimes
  pure (some ({ s with rule := rule }, pos))

/-- The body of the loop of `parse_sequence`; `none` leaves the loop. The argument
`alternates` is `parse_alternates` of a group. -/
def parseItem (vocab : Option (Text → List Nat)) (alternates : Text → Nat → ParserM Text)
    (ruleName : Text) (isNested : Bool) (s : Sequence) (pos : Text) :
    ParserM (Option (Sequence × Text)) := do
  let c := peek pos
  if c = byte '"' then
    let (es, pos) ← ParserM.lift (parseLiteral (pos.length + 1) pos.tail)
    pure (some (s.push es, parseSpace pos isNested))
  else if c = byte '[' then
    let pos := pos.tail
    let (es, pos) ← ParserM.lift
      (if peek pos = byte '^' then parseClass (pos.length + 1) .charNot pos.tail
        else parseClass (pos.length + 1) .char pos)
    pure (some (s.push es, parseSpace pos isNested))
  else if c = byte '<' ∨ c = byte '!' then
    let (type, pos) :=
      if c = byte '!' then (GreType.tokenNot, pos.tail) else (GreType.token, pos)
    let (token, tokenEnd) ← ParserM.lift (parseToken vocab pos)
    pure (some (s.push [{ type := type, value := token }], parseSpace tokenEnd isNested))
  else if isWordChar c then
    let nameEnd ← ParserM.lift (parseName pos)
    let refRuleId ← getSymbolId (between pos nameEnd)
    pure (some (s.push [refTo refRuleId], parseSpace nameEnd isNested))
  else if c = byte '(' then
    let pos := parseSpace pos.tail true
    let subRuleId ← modifyGet fun p => p.generateSymbolId ruleName
    let pos ← alternates pos subRuleId
    if peek pos ≠ byte ')' then throw (.expectingParenthesis pos)
    pure (some (s.push [refTo subRuleId], parseSpace pos.tail isNested))
  else if c = byte '.' then
    pure (some (s.push [{ type := .charAny, value := 0 }], parseSpace pos.tail isNested))
  else if c = byte '*' then repeatLast ruleName s (parseSpace pos.tail isNested) 0 uint64Max
  else if c = byte '+' then repeatLast ruleName s (parseSpace pos.tail isNested) 1 uint64Max
  else if c = byte '?' then repeatLast ruleName s (parseSpace pos.tail isNested) 0 1
  else if c = byte '{' then
    let (minTimes, maxTimes, pos) ← ParserM.lift (parseBounds pos.tail isNested)
    repeatLast ruleName s pos minTimes maxTimes
  else pure none

def parseSequenceLoop (vocab : Option (Text → List Nat)) (alternates : Text → Nat → ParserM Text)
    (ruleName : Text) (isNested : Bool) : Nat → Sequence → Text → ParserM (List Element × Text)
  | 0, _, _ => throw .fuel
  | fuel + 1, s, pos => do
    if pos = [] then pure (s.rule, pos)
    else
      match ← parseItem vocab alternates ruleName isNested s pos with
      | some (s, pos) => parseSequenceLoop vocab alternates ruleName isNested fuel s pos
      | none => pure (s.rule, pos)

/-- `parse_sequence`: the rule so far, and its elements added. -/
def parseSequence (vocab : Option (Text → List Nat)) (alternates : Text → Nat → ParserM Text)
    (ruleName : Text) (isNested : Bool) (rule : List Element) (src : Text) :
    ParserM (List Element × Text) :=
  parseSequenceLoop vocab alternates ruleName isNested (src.length + 1)
    { rule := rule, lastSymStart := rule.length } src

/-- The loop of `parse_alternates` over further alternates. -/
def parseAlternatesLoop (sequence : List Element → Text → ParserM (List Element × Text)) :
    Nat → List Element → Text → ParserM (List Element × Text)
  | 0, _, _ => throw .fuel
  | fuel + 1, rule, pos => do
    if peek pos = byte '|' then
      let (rule, pos) ← sequence (rule ++ [{ type := .alt, value := 0 }]) (parseSpace pos.tail true)
      parseAlternatesLoop sequence fuel rule pos
    else pure (rule, pos)

/-- `parse_alternates`; the first argument bounds the depth of groups. -/
def parseAlternates (vocab : Option (Text → List Nat)) (ruleName : Text) :
    Nat → Bool → Text → Nat → ParserM Text
  | 0, _, _, _ => throw .fuel
  | depth + 1, isNested, src, ruleId => do
    let sequence :=
      parseSequence vocab (parseAlternates vocab ruleName depth true) ruleName isNested
    let (rule, pos) ← sequence [] src
    let (rule, pos) ← parseAlternatesLoop sequence (pos.length + 1) rule pos
    modify fun p => p.addRule ruleId (rule ++ [{ type := .end_, value := 0 }])
    pure pos

/-- The end of the line of a rule. -/
def parseLineEnd (pos : Text) : Except ParseError Text :=
  if peek pos = byte '\r' then .ok (if peek pos.tail = byte '\n' then pos.drop 2 else pos.tail)
  else if peek pos = byte '\n' then .ok pos.tail
  else if pos ≠ [] then .error (.expectingNewline pos)
  else .ok pos

def parseRule (vocab : Option (Text → List Nat)) (src : Text) : ParserM Text := do
  let nameEnd ← ParserM.lift (parseName src)
  let pos := parseSpace nameEnd false
  let name := between src nameEnd
  let ruleId ← getSymbolId name
  if peek pos ≠ byte ':' ∨ peek pos.tail ≠ byte ':' ∨ peek pos.tail.tail ≠ byte '=' then
    throw (.expectingDefinition pos)
  let pos := parseSpace (pos.drop 3) true
  let pos ← parseAlternates vocab name (pos.length + 1) false pos ruleId
  let pos ← ParserM.lift (parseLineEnd pos)
  pure (parseSpace pos true)

/-- The loop of `parse` over the rules. -/
def parseRules (vocab : Option (Text → List Nat)) : Nat → Text → ParserM Unit
  | 0, _ => throw .fuel
  | fuel + 1, pos => do
    if pos = [] then pure ()
    else
      let pos ← parseRule vocab pos
      parseRules vocab fuel pos

/-- The validation of a rule: a reference to a rule that is not there is an error if some name
stands for it. -/
def checkRule (p : Parser) (rule : List Element) : Except ParseError Unit := do
  if rule = [] then throw .undefinedRule
  rule.forM fun e =>
    if e.type = .ruleRef ∧ p.rules.rule e.value = [] then
      match p.symbolIds.find? fun kv => kv.2 = e.value with
      | some kv => throw (.undefinedIdentifier kv.1)
      | none => pure ()
    else pure ()

/-- The body of the `try` of `parse`. -/
def parseText (vocab : Option (Text → List Nat)) (src : Text) : ParserM Unit := do
  let pos := parseSpace src true
  parseRules vocab (pos.length + 1) pos
  let p ← get
  ParserM.lift (p.rules.forM (checkRule p))

/-- A parser before it has read anything. -/
def Parser.empty : Parser := { symbolIds := [], rules := [] }

/-- `parse`: whether it returns true, and the parser afterwards. -/
def parse (vocab : Option (Text → List Nat)) (src : Text) : Bool × Parser :=
  match parseText vocab src Parser.empty with
  | .ok _ p => (true, p)
  | .error _ p => (false, { p with rules := [] })

end Llama.Grammar
