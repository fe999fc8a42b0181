import Llama.Lib.Backtrack
import Llama.Regex.Reverse

/-!
# Regular expressions

The syntax of the expressions that `common_regex` is meant for, their texts and what they match
as ECMAScript has it. `accepts` says which characters a literal, a dot, an escape or a set
stands for.
-/

namespace Llama.Regex

open Common Backtrack Computability

/-- What stands for one character. -/
inductive Atom where
  | literal (c : Char)
  | dot
  | escape (c : Char)
  | set (body : Str)
  deriving DecidableEq, Repr

/-- The quantifiers; `range` without a maximum is `{min,}`. -/
inductive Quantifier where
  | once
  | star
  | plus
  | opt
  | exactly (n : Nat)
  | range (min : Nat) (max : Option Nat)
  deriving DecidableEq, Repr

/-- An element of an alternative; a group has alternatives of its own. -/
inductive Node where
  | atom (a : Atom) (q : Quantifier)
  | group (capturing : Bool) (alternatives : List (List Node)) (q : Quantifier)

/-- The alternatives of an expression. -/
abbrev Pattern := List (List Node)

def Atom.text : Atom → Str
  | .literal c => [c]
  | .dot => str "."
  | .escape c => ['\\', c]
  | .set body => '[' :: body

def Quantifier.text : Quantifier → Str
  | .once => []
  | .star => str "*"
  | .plus => str "+"
  | .opt => str "?"
  | .exactly n => str "\x7b" ++ natText n ++ str "\x7d"
  | .range min max => str "\x7b" ++ natText min ++ str "," ++ (max.elim [] natText) ++ str "\x7d"

mutual

def Node.text : Node → Str
  | .atom a q => a.text ++ q.text
  | .group capturing alternatives q =>
    str "(" ++ (if capturing then [] else str "?:") ++ patternText alternatives ++ str ")" ++ q.text

def nodesText : List Node → Str
  | [] => []
  | node :: nodes => node.text ++ nodesText nodes

def patternText : List (List Node) → Str
  | [] => []
  | [nodes] => nodesText nodes
  | nodes :: nodes' :: pattern => nodesText nodes ++ str "|" ++ patternText (nodes' :: pattern)

end

/-- The characters that are not literals. -/
def syntaxCharacters : Str := str "^$\\.*+?()[]\x7b\x7d|"

/-- The atom is written as ECMAScript has it, and stands for one character. -/
def Atom.Valid : Atom → Prop
  | .literal c => c ∉ syntaxCharacters
  | .dot => True
  | .escape c => c ∈ str "dDsSwWtnvfr" ∨ (c.isAlphanum = false ∧ c ≠ '_')
  | .set body => readSet body = .ok (body, [])

/-- The numbers of a quantifier are numbers of `int`, in order. -/
def Quantifier.Valid : Quantifier → Prop
  | .exactly n => (n : Int) ≤ intMax
  | .range min max => (min : Int) ≤ intMax ∧ ∀ n ∈ max, min ≤ n ∧ (n : Int) ≤ intMax
  | _ => True

mutual

def Node.Valid : Node → Prop
  | .atom a q => a.Valid ∧ q.Valid
  | .group _ alternatives q => alternatives ≠ [] ∧ PatternValid alternatives ∧ q.Valid

def NodesValid : List Node → Prop
  | [] => True
  | node :: nodes => node.Valid ∧ NodesValid nodes

/-- Every atom and every quantifier of the pattern is valid. -/
def PatternValid : List (List Node) → Prop
  | [] => True
  | nodes :: pattern => NodesValid nodes ∧ PatternValid pattern

end

def Quantifier.matcher (m : Matcher Char) : Quantifier → Matcher Char
  | .once => m
  | .star => Backtrack.star m
  | .plus => Backtrack.plus m
  | .opt => Backtrack.opt m
  | .exactly n => times m n
  | .range min max => rep m min max

def Quantifier.words (L : Language Char) : Quantifier → Language Char
  | .once => L
  | .star => L∗
  | .plus => L * L∗
  | .opt => 1 + L
  | .exactly n => L ^ n
  | .range min max => repWords L min max

section

variable (accepts : Atom → Char → Bool)

mutual

def Node.matcher : Node → Matcher Char
  | .atom a q => q.matcher (sym (accepts a))
  | .group _ alternatives q => q.matcher (patternMatcher alternatives)

def nodesMatcher : List Node → Matcher Char
  | [] => eps
  | node :: nodes => seq node.matcher (nodesMatcher nodes)

/-- How backtracking matches a pattern. -/
def patternMatcher : List (List Node) → Matcher Char
  | [] => fun _ => []
  | nodes :: pattern => alt (nodesMatcher nodes) (patternMatcher pattern)

end

mutual

def Node.words : Node → Language Char
  | .atom a q => q.words (symbols (accepts a))
  | .group _ alternatives q => q.words (patternWords alternatives)

def nodesWords : List Node → Language Char
  | [] => 1
  | node :: nodes => node.words * nodesWords nodes

def patternWords : List (List Node) → Language Char
  | [] => 0
  | nodes :: pattern => nodesWords nodes + patternWords pattern

end

variable {accepts}

theorem Quantifier.recognizes {m : Matcher Char} {L : Language Char} (hm : Recognizes m L)
    {q : Quantifier} (hq : q.Valid) : Recognizes (q.matcher m) (q.words L) := by
  cases q with
  | once => exact hm
  | star => exact hm.star
  | plus => exact hm.plus
  | opt => exact hm.opt
  | exactly n => exact hm.times n
  | range min max => exact hm.rep min fun n hn => (hq.2 n hn).1

private theorem recognizes_fail : Recognizes (fun _ => [] : Matcher Char) 0 := by
  intro s t
  simp

mutual

theorem Node.recognizes : (node : Node) → node.Valid →
    Recognizes (node.matcher accepts) (node.words accepts)
  | .atom a q, h => by
    rw [Node.matcher, Node.words]
    exact Quantifier.recognizes (recognizes_sym _) h.2
  | .group _ alternatives q, h => by
    rw [Node.matcher, Node.words]
    exact Quantifier.recognizes (patternMatcher_recognizes alternatives h.2.1) h.2.2

theorem nodesMatcher_recognizes : (nodes : List Node) → NodesValid nodes →
    Recognizes (nodesMatcher accepts nodes) (nodesWords accepts nodes)
  | [], _ => recognizes_eps
  | node :: nodes, h => (Node.recognizes node h.1).seq (nodesMatcher_recognizes nodes h.2)

/-- Backtracking finds the words of the pattern. -/
theorem patternMatcher_recognizes : (pattern : List (List Node)) → PatternValid pattern →
    Recognizes (patternMatcher accepts pattern) (patternWords accepts pattern)
  | [], _ => recognizes_fail
  | nodes :: pattern, h =>
    (nodesMatcher_recognizes nodes h.1).alt (patternMatcher_recognizes pattern h.2)

end

end

end Llama.Regex
