import Llama.Schema.Spelling

/-!
# The rules that come with the converter

`SPACE_RULE`, `PRIMITIVE_RULES` and `STRING_FORMAT_RULES`, and how they get into the grammar.
-/

namespace Llama.Schema

open Common Backtrack Computability List

def spaceRule : Str := str "| \" \" | \"\\n\"\x7b1,2\x7d [ \\t]\x7b0,20\x7d"

structure BuiltinRule where
  content : Str
  deps : List Str

/-- The content of the rule `char`. -/
def charRuleText : Str :=
  str "[^\"\\\\\\x7F\\x00-\\x1F] | [\\\\] ([\"\\\\bfnrt] | \"u\" [0-9a-fA-F]\x7b4\x7d)"

/-- `PRIMITIVE_RULES` and, behind them, `STRING_FORMAT_RULES`. -/
def builtinRules : List (Str × BuiltinRule) :=
  [(str "boolean", ⟨str "(\"true\" | \"false\") space", []⟩),
    (str "decimal-part", ⟨str "[0-9]\x7b1,16\x7d", []⟩),
    (str "integral-part", ⟨str "[0] | [1-9] [0-9]\x7b0,15\x7d", []⟩),
    (str "number",
    ⟨str "(\"-\"? integral-part) (\".\" decimal-part)? ([eE] [-+]? integral-part)? space",
      [str "integral-part", str "decimal-part"]⟩),
    (str "integer", ⟨str "(\"-\"? integral-part) space", [str "integral-part"]⟩),
    (str "value", ⟨str "object | array | string | number | boolean | null",
      [str "object", str "array", str "string", str "number", str "boolean", str "null"]⟩),
    (str "object",
      ⟨str "\"\x7b\" space ( string \":\" space value (\",\" space string \":\" space value)* )? \"\x7d\" space",
        [str "string", str "value"]⟩),
    (str "array", ⟨str "\"[\" space ( value (\",\" space value)* )? \"]\" space", [str "value"]⟩),
    (str "uuid", ⟨str ("\"\\\"\" [0-9a-fA-F]\x7b8\x7d \"-\" [0-9a-fA-F]\x7b4\x7d \"-\" " ++
      "[0-9a-fA-F]\x7b4\x7d \"-\" [0-9a-fA-F]\x7b4\x7d \"-\" [0-9a-fA-F]\x7b12\x7d \"\\\"\" space"), []⟩),
    (str "char", ⟨charRuleText, []⟩),
    (str "string", ⟨str "\"\\\"\" char* \"\\\"\" space", [str "char"]⟩),
    (str "null", ⟨str "\"null\" space", []⟩),
    (str "date", ⟨str ("[0-9]\x7b4\x7d \"-\" ( \"0\" [1-9] | \"1\" [0-2] ) \"-\" " ++
      "( \"0\" [1-9] | [1-2] [0-9] | \"3\" [0-1] )"), []⟩),
    (str "time", ⟨str ("([01] [0-9] | \"2\" [0-3]) \":\" [0-5] [0-9] \":\" [0-5] [0-9] " ++
      "( \".\" [0-9]\x7b3\x7d )? ( \"Z\" | ( \"+\" | \"-\" ) ( [01] [0-9] | \"2\" [0-3] ) \":\" " ++
      "[0-5] [0-9] )"), []⟩),
    (str "date-time", ⟨str "date \"T\" time", [str "date", str "time"]⟩),
    (str "date-string", ⟨str "\"\\\"\" date \"\\\"\" space", [str "date"]⟩),
    (str "time-string", ⟨str "\"\\\"\" time \"\\\"\" space", [str "time"]⟩),
    (str "date-time-string", ⟨str "\"\\\"\" date-time \"\\\"\" space", [str "date-time"]⟩)]

/-- `_add_primitive`: the name of the rule. A rule that is depended on is added when its name is
free, so there are at most as many levels as rules. -/
def addPrimitiveFrom : Nat → Str → BuiltinRule → Converter → Str × Converter
  | 0, name, rule, c => c.addRule name rule.content
  | fuel + 1, name, rule, c =>
    let (key, c) := c.addRule name rule.content
    (key, rule.deps.foldl (fun c dep =>
      match builtinRules.lookup dep with
      | none => { c with errors := c.errors ++ ["Rule " ++ String.ofList dep ++ " not known"] }
      | some depRule =>
        if (c.rules.lookup dep).isNone then (addPrimitiveFrom fuel dep depRule c).2 else c) c)

/-- `_add_primitive` of the rule that is listed under the name. -/
def addPrimitive (name : Str) (c : Converter) : Str × Converter :=
  match builtinRules.lookup name with
  | none => (name, c)
  | some rule => addPrimitiveFrom builtinRules.length name rule c

/-- The languages fit the rules. -/
def Solves (rules : List (Str × Str)) (env : Str → Language Char) : Prop :=
  ∀ name text, rules.lookup name = some text → env name = textWords env text

variable {name : Str}

private theorem isRuleChar_of_mem_escapeName {c : Char} (h : c ∈ escapeName name) :
    isRuleChar c = true := by
  have hfrom : ∀ (replaced : Bool) (s : Str), c ∈ escapeNameFrom replaced s →
      isRuleChar c = true := by
    intro replaced s
    induction s generalizing replaced with
    | nil => exact fun h => by cases h
    | cons d s ih =>
      rw [escapeNameFrom]
      split
      next hd =>
        intro h
        rcases mem_cons.mp h with rfl | h
        · exact hd
        · exact ih _ h
      next =>
        split
        next => exact ih _
        next =>
          intro h
          rcases mem_cons.mp h with rfl | h
          · rfl
          · exact ih _ h
  exact hfrom false name h

private theorem escapeName_ne_nil (h : name ≠ []) : escapeName name ≠ [] := by
  cases name with
  | nil => exact absurd rfl h
  | cons c s =>
    rw [escapeName, escapeNameFrom]
    split
    · exact cons_ne_nil _ _
    · rw [if_neg Bool.false_ne_true]
      exact cons_ne_nil _ _

/-- A key is a name that the parser reads. -/
theorem Converter.ruleKey_reads (c : Converter) (h : name ≠ []) (rule : Str) :
    c.ruleKey name rule ≠ [] ∧ ∀ d ∈ c.ruleKey name rule, isRuleChar d = true := by
  have hne := escapeName_ne_nil h
  unfold Converter.ruleKey
  dsimp only
  split
  next => exact ⟨hne, fun d => isRuleChar_of_mem_escapeName⟩
  next =>
    refine ⟨append_ne_nil_of_left_ne_nil hne _, fun d hd => ?_⟩
    rcases mem_append.mp hd with hd | hd
    · exact isRuleChar_of_mem_escapeName hd
    · have hdigit := isDigit_natText hd
      rw [isRuleChar, Char.isAlphanum, hdigit, Bool.or_true, Bool.true_or]

/-- A rule that the parser reads under its key. -/
theorem Converter.addRule_denotes (c : Converter) (h : name ≠ []) (rule : Str)
    (env : Str → Language Char) :
    ItemDenotes env (c.addRule name rule).1 (env (c.addRule name rule).1) :=
  ItemDenotes.name (c.ruleKey_reads h rule).1 (c.ruleKey_reads h rule).2

/-- What may follow a backslash, but for `u`. -/
def escapeLetters : List (Char × Char) :=
  [('"', '"'), ('\\', '\\'), ('b', 'b'), ('f', 'f'), ('n', 'n'), ('r', 'r'), ('t', 't')]

/-- The hexadecimal digits. -/
def hexRanges : List (Char × Char) := [('0', '9'), ('a', 'f'), ('A', 'F')]

/-- What is kept out of a character without escape. -/
def escapedRanges : List (Char × Char) :=
  [('"', '"'), ('\\', '\\'), ('\x7F', '\x7F'), ('\x00', '\x1F')]

/-- The words of a character. -/
def charWords : Language Char :=
  symbols (inClass true escapedRanges) +
    symbols (inClass false [('\\', '\\')]) *
      (symbols (inClass false escapeLetters) +
        {str "u"} * repWords (symbols (inClass false hexRanges)) 4 (some 4))

private theorem spells_charRuleText :
    Spells charRuleText
      [[.cls true escapedRanges],
        [.cls false [('\\', '\\')], .group [[.cls false escapeLetters],
          [.literal (str "u"), .rep (.cls false hexRanges) 4 (some 4)]]]] :=
  ⟨20, rfl⟩

theorem textWords_charRuleText (env : Str → Language Char) :
    textWords env charRuleText = charWords := by
  rw [spells_charRuleText.textWords_eq]
  simp only [alternatesWords, sequenceWords, Item.words, add_zero, mul_one]
  rfl

def spaceWords : Language Char :=
  1 + ({str " "} + repWords {str "\n"} 1 (some 2) *
    repWords (symbols (inClass false [(' ', ' '), ('\t', '\t')])) 0 (some 20))

private theorem spells_spaceRule :
    Spells spaceRule
      [[], [.literal (str " ")],
        [.rep (.literal (str "\n")) 1 (some 2),
          .rep (.cls false [(' ', ' '), ('\t', '\t')]) 0 (some 20)]] :=
  ⟨20, rfl⟩

theorem textWords_spaceRule (env : Str → Language Char) : textWords env spaceRule = spaceWords := by
  rw [spells_spaceRule.textWords_eq]
  simp only [alternatesWords, sequenceWords, Item.words, add_zero, mul_one]
  rfl

end Llama.Schema
