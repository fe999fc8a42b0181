import Llama.Peg.Build

/-!
# Saving an arena

An arena is saved as the text of a JSON value and loaded from it. The value is a
`nlohmann::json`, whose objects are maps ordered by their keys. The schemas of an arena are
of the other JSON type, whose objects keep the order in which their members came, so a
schema is converted when it is saved and converted back when it is loaded.
-/

namespace Llama.Peg

open Json

/-- The exceptions of `save` and `load`: an error of the loader, a value of the wrong type, a
string that is not UTF-8, and a text that is not JSON. -/
inductive LoadError where
  | runtime (what : String)
  | wrongType (expected : String)
  | utf8
  | json
  deriving DecidableEq, Repr

/-- An object, with its members in the order of their keys. -/
def obj (members : List (String × Schema)) : Schema :=
  .object (keySort (members.map fun m => (m.1.toList, m.2)))

def str (s : String) : Schema := .string s.toList

/-- A `size_t`. -/
def sizeNumber (n : Nat) : Schema := .number (.int ((n % 2 ^ 64 : Nat) : Int) (by omega) (by omega))

def intNumber (n : Int) : Schema :=
  .number (.int ((n + 2 ^ 31) % 2 ^ 32 - 2 ^ 31) (by omega) (by omega))

/-- A `uint32_t`. -/
def codeNumber (n : Nat) : Schema := .number (.int ((n % 2 ^ 32 : Nat) : Int) (by omega) (by omega))

/-- The characters of a byte string, if it is UTF-8. -/
def decodeText (bytes : List UInt8) : Option (List Char) :=
  bytes.toByteArray.utf8Decode?.map Array.toList

/-- A byte string. That it is UTF-8 is checked when the value is written. -/
def byteString (bytes : List UInt8) : Except LoadError Schema :=
  match decodeText bytes with
  | some s => .ok (.string s)
  | none => .error .utf8

def byteStrings : List (List UInt8) → Except LoadError (List Schema)
  | [] => .ok []
  | bytes :: rest => do
    let s ← byteString bytes
    let others ← byteStrings rest
    .ok (s :: others)

def serializeParserVariant : Parser → Except LoadError Schema
  | .epsilon => .ok (obj [("type", str "epsilon")])
  | .start => .ok (obj [("type", str "start")])
  | .stop => .ok (obj [("type", str "end")])
  | .literal text => do .ok (obj [("type", str "literal"), ("literal", ← byteString text)])
  | .sequence children =>
    .ok (obj [("type", str "sequence"), ("children", .array (children.map sizeNumber))])
  | .choice children =>
    .ok (obj [("type", str "choice"), ("children", .array (children.map sizeNumber))])
  | .repetition child minCount maxCount =>
    .ok (obj [("type", str "repetition"), ("child", sizeNumber child),
      ("min_count", intNumber minCount), ("max_count", intNumber maxCount)])
  | .lookahead child => .ok (obj [("type", str "and"), ("child", sizeNumber child)])
  | .negate child => .ok (obj [("type", str "not"), ("child", sizeNumber child)])
  | .any => .ok (obj [("type", str "any")])
  | .space => .ok (obj [("type", str "space")])
  | .chars pattern ranges negated minCount maxCount =>
    .ok (obj [("type", str "chars"), ("pattern", str pattern),
      ("ranges", .array (ranges.map fun r =>
        obj [("start", codeNumber r.start), ("end", codeNumber r.stop)])),
      ("negated", .bool negated), ("min_count", intNumber minCount),
      ("max_count", intNumber maxCount)])
  | .string delimiter => do
    .ok (obj [("type", str "string"), ("delimiter", ← byteString [delimiter])])
  | .untilOneOf delimiters => do
    .ok (obj [("type", str "until"), ("delimiters", .array (← byteStrings delimiters))])
  | .schema child name schema raw =>
    .ok (obj [("type", str "schema"), ("child", sizeNumber child), ("name", str name),
      -- the other JSON type: the members are put in order
      ("schema", match schema with
        | some s => s.sort
        | none => .null),
      ("raw", .bool raw)])
  | .rule name child trigger =>
    .ok (obj [("type", str "rule"), ("name", str name), ("child", sizeNumber child),
      ("trigger", .bool trigger)])
  | .ref name => .ok (obj [("type", str "ref"), ("name", str name)])
  | .atomic child => .ok (obj [("type", str "atomic"), ("child", sizeNumber child)])
  | .tag child tag =>
    .ok (obj [("type", str "tag"), ("child", sizeNumber child), ("tag", str tag)])

/-- The loop of `to_json`. -/
def serializeParsers : List Parser → Except LoadError (List Schema)
  | [] => .ok []
  | p :: rest => do
    let j ← serializeParserVariant p
    let others ← serializeParsers rest
    .ok (j :: others)

/-- `COMMON_PEG_INVALID_PARSER_ID`. -/
def invalidParserId : Nat := 2 ^ 64 - 1

/-- `common_peg_arena::to_json`. -/
def Arena.toJson (a : Arena) : Except LoadError Schema := do
  let parsers ← serializeParsers a.parsers
  .ok (obj [("parsers", .array parsers),
    ("rules", obj (a.rules.map fun r => (r.1, sizeNumber r.2))),
    ("root", sizeNumber (a.root.getD invalidParserId))])

/-- `common_peg_arena::save`. -/
def Arena.save (F : FloatText) (a : Arena) : Except LoadError (List Char) := do
  .ok (dump F.text (← a.toJson))

/-- The member of an object, if there is one: `contains` and `operator[]`. -/
def field (j : Schema) (name : String) : Option Schema :=
  match j with
  | .object members => members.lookup name.toList
  | _ => none

/-- A member that must be there. -/
def need (j : Schema) (name : String) (what : String) : Except LoadError Schema :=
  match field j name with
  | some v => .ok v
  | none => .error (.runtime what)

/-- The integer part of a finite double. -/
def truncate (bits : UInt64) : Int :=
  let exponent := ((bits >>> 52) &&& 0x7ff).toNat
  let digits := 2 ^ 52 + (bits &&& 0xfffffffffffff).toNat
  let size : Nat :=
    if 1075 ≤ exponent then digits * 2 ^ (exponent - 1075) else digits / 2 ^ (1075 - exponent)
  if bits >>> 63 = 1 then -size else size

/-- `get<std::string>`. -/
def getString : Schema → Except LoadError (List Char)
  | .string s => .ok s
  | _ => .error (.wrongType "string")

def getBool : Schema → Except LoadError Bool
  | .bool b => .ok b
  | _ => .error (.wrongType "boolean")

/-- `get<size_t>`. -/
def getSize : Schema → Except LoadError Nat
  | .number (.int n _ _) => .ok (n % 2 ^ 64).toNat
  | .number (.float b) => .ok (truncate b % 2 ^ 64).toNat
  | _ => .error (.wrongType "number")

/-- `get<int>`, which also takes a boolean. -/
def getInt : Schema → Except LoadError Int
  | .number (.int n _ _) => .ok ((n + 2 ^ 31) % 2 ^ 32 - 2 ^ 31)
  | .number (.float b) => .ok ((truncate b + 2 ^ 31) % 2 ^ 32 - 2 ^ 31)
  | .bool b => .ok (if b then 1 else 0)
  | _ => .error (.wrongType "number")

/-- `get<uint32_t>`, which also takes a boolean. -/
def getCode : Schema → Except LoadError Nat
  | .number (.int n _ _) => .ok (n % 2 ^ 32).toNat
  | .number (.float b) => .ok (truncate b % 2 ^ 32).toNat
  | .bool b => .ok (if b then 1 else 0)
  | _ => .error (.wrongType "number")

/-- What a loop over a value visits. -/
def elements : Schema → List Schema
  | .null => []
  | .array items => items
  | .object members => members.map Prod.snd
  | v => [v]

/-- Reads every value of a list. -/
def readAll {α : Type} (read : Schema → Except LoadError α) :
    List Schema → Except LoadError (List α)
  | [] => .ok []
  | v :: rest => do
    let x ← read v
    let others ← readAll read rest
    .ok (x :: others)

/-- A member that must be an array. -/
def needArray (j : Schema) (name : String) (what : String) : Except LoadError (List Schema) :=
  match field j name with
  | some (.array items) => .ok items
  | _ => .error (.runtime what)

/-- A member that must be a string. -/
def needString (j : Schema) (name : String) (what : String) : Except LoadError (List Char) :=
  match field j name with
  | some (.string s) => .ok s
  | _ => .error (.runtime what)

/-- One range of a character class. -/
def deserializeRange (j : Schema) : Except LoadError CharRange := do
  let start ← need j "start" "char_range missing 'start' or 'end' field"
  let stop ← need j "end" "char_range missing 'start' or 'end' field"
  .ok ⟨← getCode start, ← getCode stop⟩

/-- The branches of `deserialize_parser_variant`. -/
def deserializeAs (j : Schema) : String → Except LoadError Parser
  | "epsilon" => .ok .epsilon
  | "start" => .ok .start
  | "end" => .ok .stop
  | "literal" => do
    let text ← needString j "literal" "literal parser missing or invalid 'literal' field"
    .ok (.literal (encode text))
  | "sequence" => do
    let children ← needArray j "children" "sequence parser missing or invalid 'children' field"
    .ok (.sequence (← readAll getSize children))
  | "choice" => do
    let children ← needArray j "children" "choice parser missing or invalid 'children' field"
    .ok (.choice (← readAll getSize children))
  | "repetition" => do
    let child ← need j "child" "repetition parser missing required fields"
    let minCount ← need j "min_count" "repetition parser missing required fields"
    let maxCount ← need j "max_count" "repetition parser missing required fields"
    .ok (.repetition (← getSize child) (← getInt minCount) (← getInt maxCount))
  | "and" => do
    let child ← need j "child" "and parser missing 'child' field"
    .ok (.lookahead (← getSize child))
  | "not" => do
    let child ← need j "child" "not parser missing 'child' field"
    .ok (.negate (← getSize child))
  | "any" => .ok .any
  | "space" => .ok .space
  | "chars" => do
    let pattern ← need j "pattern" "chars parser missing required fields"
    let ranges ← need j "ranges" "chars parser missing required fields"
    let negated ← need j "negated" "chars parser missing required fields"
    let minCount ← need j "min_count" "chars parser missing required fields"
    let maxCount ← need j "max_count" "chars parser missing required fields"
    let pattern ← getString pattern
    let negated ← getBool negated
    let minCount ← getInt minCount
    let maxCount ← getInt maxCount
    .ok (.chars (String.ofList pattern) (← readAll deserializeRange (elements ranges)) negated
      minCount maxCount)
  | "string" => do
    let delimiter ← need j "delimiter" "string parser missing delimiter field."
    match encode (← getString delimiter) with
    | [] => .error (.runtime "string parser delimiter is empty.")
    | b :: _ => .ok (.string b)
  | "until" => do
    let delimiters ← needArray j "delimiters" "until parser missing or invalid 'delimiters' field"
    .ok (.untilOneOf ((← readAll getString delimiters).map encode))
  | "schema" => do
    let child ← need j "child" "schema parser missing required fields"
    let name ← need j "name" "schema parser missing required fields"
    let schema ← need j "schema" "schema parser missing required fields"
    let raw ← need j "raw" "schema parser missing required fields"
    let child ← getSize child
    let name ← getString name
    let raw ← getBool raw
    .ok (.schema child (String.ofList name)
      (match schema with
        | .null => none
        | s => some s) raw)
  | "rule" => do
    let name ← need j "name" "rule parser missing required fields"
    let child ← need j "child" "rule parser missing required fields"
    let trigger ← need j "trigger" "rule parser missing required fields"
    .ok (.rule (String.ofList (← getString name)) (← getSize child) (← getBool trigger))
  | "ref" => do
    let name ← needString j "name" "ref parser missing or invalid 'name' field"
    .ok (.ref (String.ofList name))
  | "atomic" => do
    let child ← need j "child" "tag parser missing required fields"
    .ok (.atomic (← getSize child))
  | "tag" => do
    let child ← need j "child" "tag parser missing required fields"
    let tag ← need j "tag" "tag parser missing required fields"
    .ok (.tag (← getSize child) (String.ofList (← getString tag)))
  | type => .error (.runtime ("Unknown parser type: " ++ type))

def deserializeParserVariant (j : Schema) : Except LoadError Parser := do
  let type ← needString j "type" "Parser variant JSON missing or invalid 'type' field"
  deserializeAs j (String.ofList type)

/-- A rule of the saved map. -/
def deserializeRule (m : List Char × Schema) : Except LoadError (String × Nat) := do
  .ok (String.ofList m.1, ← getSize m.2)

/-- The saved map of rules. -/
def deserializeRules : List (List Char × Schema) → Except LoadError (List (String × Nat))
  | [] => .ok []
  | m :: rest => do
    let r ← deserializeRule m
    let others ← deserializeRules rest
    .ok (r :: others)

/-- `common_peg_arena::from_json`. -/
def Arena.fromJson (j : Schema) : Except LoadError Arena := do
  let parsers ← needArray j "parsers" "JSON missing or invalid 'parsers' array"
  let rules ← match field j "rules" with
    | some (.object members) => .ok members
    | _ => .error (.runtime "JSON missing or invalid 'rules' object")
  let root ← need j "root" "JSON missing 'root' field"
  let parsers ← readAll deserializeParserVariant parsers
  let rules ← deserializeRules rules
  match rules.find? fun r => parsers.length ≤ r.2 with
  | some r =>
    .error (.runtime ("Rule '" ++ r.1 ++ "' references invalid parser ID: " ++ toString r.2))
  | none =>
    let root ← getSize root
    if root = invalidParserId then .ok ⟨parsers, rules, none⟩
    else if parsers.length ≤ root then
      .error (.runtime ("Root references invalid parser ID: " ++ toString root))
    else .ok ⟨parsers, rules, some root⟩

/-- `common_peg_arena::load`: `nlohmann::json::parse` keeps the members in order of their
keys. -/
def Arena.load (F : FloatText) (data : List Char) : Except LoadError Arena :=
  match Json.parse F.num data with
  | some v => Arena.fromJson v.sort
  | none => .error .json

end Llama.Peg
