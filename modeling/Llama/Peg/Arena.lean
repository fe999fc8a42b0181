import Llama.Lib.JsonNumber
import Llama.Peg.Trie

/-!
# The PEG parser

An arena is a list of parsers that name each other by index, with a map of named rules.
`parse` runs one of them at one position of the input. In lenient mode the input is the
part that has arrived so far, and a parser that reaches its end may ask for more.

The recursion follows the arena and not a syntax tree, so `parse` counts its depth. `Halts`
says when the depth suffices.
-/

namespace Llama.Peg

/-- `common_peg_parse_result_type`. -/
inductive ResultType where
  | fail
  | success
  | needMoreInput
  deriving DecidableEq, Repr

/-- `common_peg_ast_node`, with its children in place of their indices. -/
inductive AstNode where
  | mk (rule tag : String) (start stop : Nat) (text : List UInt8) (children : List AstNode)
      (isPartial : Bool)

/-- `common_peg_parse_result`. -/
structure Result where
  type : ResultType
  start : Nat
  stop : Nat
  nodes : List AstNode

/-- `common_peg_parse_context`: the input and the lenient flag. -/
structure Context where
  input : List UInt8
  lenient : Bool

/-- `common_peg_chars_parser::char_range`. -/
structure CharRange where
  start : Nat
  stop : Nat
  deriving DecidableEq, Repr

def CharRange.contains (r : CharRange) (cp : Nat) : Bool := r.start ≤ cp && cp ≤ r.stop

/-- `nlohmann::ordered_json`. -/
abbrev Schema := Json.Value Json.Number

/-- `common_peg_parser_variant`. A maximum of -1 stands for no bound. -/
inductive Parser where
  | epsilon
  | start
  | stop
  | literal (text : List UInt8)
  | sequence (children : List Nat)
  | choice (children : List Nat)
  | repetition (child : Nat) (minCount maxCount : Int)
  | lookahead (child : Nat)
  | negate (child : Nat)
  | any
  | space
  | chars (pattern : String) (ranges : List CharRange) (negated : Bool) (minCount maxCount : Int)
  | string (delimiter : UInt8)
  | untilOneOf (delimiters : List (List UInt8))
  | schema (child : Nat) (name : String) (schema : Option Schema) (raw : Bool)
  | rule (name : String) (child : Nat) (trigger : Bool)
  | ref (name : String)
  | atomic (child : Nat)
  | tag (child : Nat) (tag : String)

/-- `common_peg_arena`. -/
structure Arena where
  parsers : List Parser
  rules : List (String × Nat)
  root : Option Nat

/-- The ways a run ends without a result: the exceptions of the source, and a recursion
that is deeper than the caller allowed. -/
inductive Error where
  | noRoot
  | outOfRange (id : Nat)
  | ruleNotFound (name : String)
  | depth
  deriving DecidableEq, Repr

namespace Result

/-- A result that consumes nothing. -/
def atStart (type : ResultType) (start : Nat) : Result := ⟨type, start, start, []⟩

end Result

namespace Context

variable (ctx : Context)

/-- The answer of a terminal parser that needs a byte beyond the end. -/
def exhausted (start pos : Nat) : Result :=
  if ctx.lenient then ⟨.needMoreInput, start, pos, []⟩ else .atStart .fail start

/-- `common_peg_literal_parser`. -/
def literal (start : Nat) : List UInt8 → Nat → Result
  | [], pos => ⟨.success, start, pos, []⟩
  | b :: rest, pos =>
    match ctx.input[pos]? with
    | none => ctx.exhausted start pos
    | some c => if c ≠ b then .atStart .fail start else literal start rest (pos + 1)

/-- `common_peg_any_parser`. -/
def any (start : Nat) : Result :=
  match parseUtf8Codepoint ctx.input start with
  | .incomplete => ctx.exhausted start start
  | .invalid => .atStart .fail start
  | .success _ n => ⟨.success, start, start + n, []⟩

/-- `std::isspace` in the C locale. -/
def isSpace (b : UInt8) : Bool := b = 0x20 || (0x09 ≤ b && b ≤ 0x0d)

/-- `common_peg_space_parser`. -/
def space (start : Nat) : Result :=
  ⟨.success, start, start + ((ctx.input.drop start).takeWhile isSpace).length, []⟩

/-- The class of a `chars` parser holds the code point. -/
def inClass (ranges : List CharRange) (negated : Bool) (cp : Nat) : Bool :=
  (ranges.any fun r => r.contains cp) != negated

/-- The end of a `chars` parser after its loop. -/
def charsEnd (minCount : Int) (start pos count : Nat) : Result :=
  if (count : Int) < minCount then
    if ctx.input.length ≤ pos ∧ ctx.lenient = true then ⟨.needMoreInput, start, pos, []⟩
    else ⟨.fail, start, pos, []⟩
  else ⟨.success, start, pos, []⟩

/-- The loop of `common_peg_chars_parser`. Each turn reads a byte or more, so a first
argument above the number of bytes left is never used up. -/
def charsFrom (ranges : List CharRange) (negated : Bool) (minCount maxCount : Int) (start : Nat) :
    Nat → Nat → Nat → Result
  | 0, pos, count => ctx.charsEnd minCount start pos count
  | n + 1, pos, count =>
    if maxCount = -1 ∨ (count : Int) < maxCount then
      match parseUtf8Codepoint ctx.input pos with
      | .incomplete =>
        if minCount ≤ count then ⟨.success, start, pos, []⟩ else ctx.exhausted start pos
      | .invalid =>
        if minCount ≤ count then ⟨.success, start, pos, []⟩ else .atStart .fail start
      | .success cp k =>
        if inClass ranges negated cp then
          charsFrom ranges negated minCount maxCount start n (pos + k) (count + 1)
        else ctx.charsEnd minCount start pos count
    else ctx.charsEnd minCount start pos count

def isHexDigit (c : UInt8) : Bool :=
  (0x30 ≤ c && c ≤ 0x39) || (0x61 ≤ c && c ≤ 0x66) || (0x41 ≤ c && c ≤ 0x46)

/-- The digits of `handle_unicode_escape`. -/
def hexDigits (start : Nat) : Nat → Nat → Result
  | 0, pos => ⟨.success, start, pos, []⟩
  | n + 1, pos =>
    match ctx.input[pos]? with
    | none => ctx.exhausted start pos
    | some c => if isHexDigit c then hexDigits start n (pos + 1) else .atStart .fail start

/-- The escapes of one letter: `/`, `b`, `f`, `n`, `r`, `t`, the backslash and the delimiter. -/
def simpleEscape (delimiter c : UInt8) : Bool :=
  c = delimiter || [0x5c, 0x2f, 0x62, 0x66, 0x6e, 0x72, 0x74].contains c

/-- `handle_escape_sequence`, with the backslash at `pos`. -/
def escapeSequence (start pos : Nat) (delimiter : UInt8) : Result :=
  match ctx.input[pos + 1]? with
  | none => ctx.exhausted start (pos + 1)
  | some c =>
    if simpleEscape delimiter c then ⟨.success, start, pos + 2, []⟩
    else if c = 0x75 then ctx.hexDigits start 4 (pos + 2)
    else .atStart .fail start

/-- The loop of `common_peg_string_parser`. A first argument of at least the number of
bytes left is used up at the end of the input only. -/
def stringFrom (delimiter : UInt8) (start : Nat) : Nat → Nat → Result
  | 0, pos => if ctx.lenient then ⟨.needMoreInput, start, pos, []⟩ else ⟨.fail, start, pos, []⟩
  | n + 1, pos =>
    match ctx.input[pos]? with
    | none => if ctx.lenient then ⟨.needMoreInput, start, pos, []⟩ else ⟨.fail, start, pos, []⟩
    | some c =>
      if c = delimiter then ⟨.success, start, pos, []⟩
      else if c = 0x5c then
        let r := ctx.escapeSequence start pos delimiter
        if r.type ≠ .success then r else stringFrom delimiter start n r.stop
      else
        match parseUtf8Codepoint ctx.input pos with
        | .incomplete => ctx.exhausted start pos
        | .invalid => .atStart .fail start
        | .success _ k => stringFrom delimiter start n (pos + k)

/-- The end of an `until` parser after its loop. -/
def untilEnd (start pos : Nat) : Result :=
  if pos = ctx.input.length ∧ ctx.lenient = true then ⟨.needMoreInput, start, pos, []⟩
  else ⟨.success, start, pos, []⟩

/-- The loop of `common_peg_until_parser`. The scan position and `last_valid_pos` move
together. -/
def untilFrom (matcher : Trie) (start : Nat) : Nat → Nat → Result
  | 0, pos => ctx.untilEnd start pos
  | n + 1, pos =>
    if pos < ctx.input.length then
      match parseUtf8Codepoint ctx.input pos with
      | .incomplete => ctx.exhausted start pos
      | .invalid => .atStart .fail start
      | .success _ k =>
        match matcher.checkAt ctx.input pos with
        | .noMatch => untilFrom matcher start n (pos + k)
        | _ => ⟨.success, start, pos, []⟩
    else ctx.untilEnd start pos

/-! ## Parsers with children

`call` runs another parser of the arena. -/

variable (call : Nat → Nat → Except Error Result)

/-- The loop of `common_peg_sequence_parser`. -/
def sequence (start : Nat) : List Nat → Nat → List AstNode → Except Error Result
  | [], pos, nodes => .ok ⟨.success, start, pos, nodes⟩
  | child :: rest, pos, nodes => do
    let r ← call child pos
    match r.type with
    | .fail => .ok ⟨.fail, start, r.stop, []⟩
    | .needMoreInput => .ok ⟨.needMoreInput, start, r.stop, nodes ++ r.nodes⟩
    | .success => sequence start rest r.stop (nodes ++ r.nodes)

/-- The loop of `common_peg_choice_parser`. -/
def choice (start : Nat) : List Nat → Except Error Result
  | [] => .ok (.atStart .fail start)
  | child :: rest => do
    let r ← call child start
    if r.type ≠ .fail then .ok r else choice start rest

/-- The end of a repetition after its loop. -/
def repetitionEnd (minCount : Int) (start pos count : Nat) (nodes : List AstNode) : Result :=
  if 0 < minCount ∧ (count : Int) < minCount then
    if ctx.input.length ≤ pos ∧ ctx.lenient = true then ⟨.needMoreInput, start, pos, nodes⟩
    else ⟨.fail, start, pos, []⟩
  else ⟨.success, start, pos, nodes⟩

/-- The loop of `common_peg_repetition_parser`. Each turn that goes on moves the position,
so a first argument above the number of bytes left is never used up. -/
def repetition (child : Nat) (minCount maxCount : Int) (start : Nat) :
    Nat → Nat → Nat → List AstNode → Except Error Result
  | 0, _, _, _ => .error .depth
  | n + 1, pos, count, nodes =>
    if maxCount = -1 ∨ (count : Int) < maxCount then
      if ctx.input.length ≤ pos then .ok (ctx.repetitionEnd minCount start pos count nodes)
      else do
        let r ← call child pos
        match r.type with
        | .success =>
          -- an empty match would repeat forever
          if r.stop = pos then .ok (ctx.repetitionEnd minCount start pos count nodes)
          else repetition child minCount maxCount start n r.stop (count + 1) (nodes ++ r.nodes)
        | .needMoreInput => .ok ⟨.needMoreInput, start, r.stop, nodes ++ r.nodes⟩
        | .fail => .ok (ctx.repetitionEnd minCount start pos count nodes)
    else .ok (ctx.repetitionEnd minCount start pos count nodes)

/-- The node that a rule or a tag adds over the result of its child. -/
def wrap (rule tag : String) (r : Result) : Result :=
  if r.type = .fail then r
  else
    let text :=
      if r.start < ctx.input.length then (ctx.input.drop r.start).take (r.stop - r.start) else []
    { r with nodes := [.mk rule tag r.start r.stop text r.nodes (r.type = .needMoreInput)] }

/-- `common_peg_not_parser` on the result of its child. -/
def negated (start : Nat) : ResultType → Result
  | .success => .atStart .fail start
  | .needMoreInput => .atStart .needMoreInput start
  | .fail => .atStart .success start

end Context

namespace Arena

/-- `common_peg_arena::get_rule`. -/
def getRule (a : Arena) (name : String) : Except Error Nat :=
  match a.rules.lookup name with
  | some id => .ok id
  | none => .error (.ruleNotFound name)

/-- `parser_executor` on one parser at `start`. -/
def exec (a : Arena) (ctx : Context) (call : Nat → Nat → Except Error Result) (start : Nat) :
    Parser → Except Error Result
  | .epsilon => .ok (.atStart .success start)
  | .start => .ok (.atStart (if start = 0 then .success else .fail) start)
  | .stop => .ok (.atStart (if ctx.input.length ≤ start then .success else .fail) start)
  | .literal text => .ok (ctx.literal start text start)
  | .sequence children => Context.sequence call start children start []
  | .choice children => Context.choice call start children
  | .repetition child minCount maxCount =>
    ctx.repetition call child minCount maxCount start (ctx.input.length + 1) start 0 []
  | .lookahead child => do
    let r ← call child start
    .ok (.atStart r.type start)
  | .negate child => do
    let r ← call child start
    .ok (Context.negated start r.type)
  | .any => .ok (ctx.any start)
  | .space => .ok (ctx.space start)
  | .chars _ ranges isNegated minCount maxCount =>
    .ok (ctx.charsFrom ranges isNegated minCount maxCount start (ctx.input.length + 1) start 0)
  | .string delimiter => .ok (ctx.stringFrom delimiter start ctx.input.length start)
  | .untilOneOf delimiters =>
    .ok (ctx.untilFrom (Trie.ofWords delimiters) start ctx.input.length start)
  | .schema child _ _ _ => call child start
  | .rule name child _ => do
    let r ← call child start
    .ok (ctx.wrap name "" r)
  | .ref name => do
    let id ← a.getRule name
    call id start
  | .atomic child => do
    let r ← call child start
    -- a partial match hands no nodes up
    .ok (if r.type = .needMoreInput then { r with nodes := [] } else r)
  | .tag child tag => do
    let r ← call child start
    .ok (ctx.wrap "" tag r)

/-- `common_peg_arena::parse(id, ctx, start)`, to a depth. -/
def parse (a : Arena) (ctx : Context) : Nat → Nat → Nat → Except Error Result
  | 0, _, _ => .error .depth
  | depth + 1, id, start =>
    match a.parsers[id]? with
    | none => .error (.outOfRange id)
    | some p => a.exec ctx (a.parse ctx depth) start p

/-- `common_peg_arena::parse(ctx, start)`, to a depth. -/
def parseRoot (a : Arena) (ctx : Context) (depth start : Nat) : Except Error Result :=
  match a.root with
  | none => .error .noRoot
  | some id => a.parse ctx depth id start

/-- The call `parse(ctx, start)` returns `r`. -/
def Returns (a : Arena) (ctx : Context) (start : Nat) (r : Result) : Prop :=
  ∃ depth, a.parseRoot ctx depth start = .ok r

end Arena

end Llama.Peg
