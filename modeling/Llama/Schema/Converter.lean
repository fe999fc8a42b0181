import Llama.Common.Text
import Mathlib.Data.List.Nodup
import Mathlib.Data.List.Perm.Subperm

/-!
# The schema converter

`common_schema_converter` of `json-schema-to-grammar.cpp` collects grammar rules by name. The map
of the rules is an association list; nothing depends on its order.
-/

namespace Llama.Schema

open Common List

/-- `build_repetition` without a separator. -/
def repetition (itemRule : Str) (minItems maxItems : Int) : Str :=
  if maxItems = 0 then []
  else if minItems = 0 ∧ maxItems = 1 then itemRule ++ str "?"
  else if minItems = 1 ∧ maxItems = intMax then itemRule ++ str "+"
  else if minItems = 0 ∧ maxItems = intMax then itemRule ++ str "*"
  else itemRule ++ str "\x7b" ++ intText minItems ++ str "," ++
    (if maxItems ≠ intMax then intText maxItems else []) ++ str "\x7d"

/-- `common_schema_converter`, as far as the functions of the model use it. -/
structure Converter where
  dotall : Bool
  rules : List (Str × Str)
  errors : List String
  warnings : List String
  deriving DecidableEq, Repr

/-- The characters that `INVALID_RULE_CHARS_RE` does not match. -/
def isRuleChar (c : Char) : Bool := c.isAlphanum || c = '-'

/-- `regex_replace(name, INVALID_RULE_CHARS_RE, "-")`: the flag says that the character
before was replaced, in the same match. -/
def escapeNameFrom : Bool → Str → Str
  | _, [] => []
  | replaced, c :: s =>
    if isRuleChar c then c :: escapeNameFrom false s
    else if replaced then escapeNameFrom true s
    else '-' :: escapeNameFrom true s

/-- `esc_name`. -/
def escapeName (name : Str) : Str := escapeNameFrom false name

def assignRule (key rule : Str) : List (Str × Str) → List (Str × Str)
  | [] => [(key, rule)]
  | (k, r) :: rest => if k = key then (key, rule) :: rest else (k, r) :: assignRule key rule rest

/-- The key is free, or the rule is there already. -/
def Converter.fits (c : Converter) (rule key : Str) : Bool :=
  match c.rules.lookup key with
  | none => true
  | some r => r = rule

/-- The key that `_add_rule` takes. One of the numbers up to the number of rules is free. -/
def Converter.ruleKey (c : Converter) (name rule : Str) : Str :=
  let escName := escapeName name
  if c.fits rule escName then escName
  else escName ++ natText (((range (c.rules.length + 1)).find? fun i =>
    c.fits rule (escName ++ natText i)).getD 0)

def Converter.addRule (c : Converter) (name rule : Str) : Str × Converter :=
  let key := c.ruleKey name rule
  (key, { c with rules := assignRule key rule c.rules })

private theorem lookup_assignRule (key rule k : Str) (rules : List (Str × Str)) :
    (assignRule key rule rules).lookup k = if k = key then some rule else rules.lookup k := by
  induction rules with
  | nil =>
    rw [assignRule, lookup_cons, lookup_nil]
    split <;> simp_all
  | cons e rest ih =>
    obtain ⟨k', r⟩ := e
    rw [assignRule]
    by_cases hk : k' = key
    · subst hk
      rw [if_pos rfl, lookup_cons, lookup_cons]
      split <;> simp_all
    · rw [if_neg hk, lookup_cons, ih, lookup_cons]
      by_cases hkk : k = k'
      · subst hkk
        simp [hk]
      · have hb : (k == k') = false := by simpa using hkk
        simp [hb]

variable {c : Converter}

private theorem mem_keys_of_not_fits {rule key : Str} (h : c.fits rule key = false) :
    key ∈ c.rules.map Prod.fst := by
  unfold Converter.fits at h
  split at h
  next => cases h
  next r hr =>
    obtain ⟨l₁, l₂, hl, -⟩ := lookup_eq_some_iff.mp hr
    rw [hl]
    simp

private theorem Converter.fits_ruleKey (c : Converter) (name rule : Str) :
    c.fits rule (c.ruleKey name rule) = true := by
  unfold Converter.ruleKey
  dsimp only
  split
  next h => exact h
  next h =>
    cases hfind : (range (c.rules.length + 1)).find? fun i =>
      c.fits rule (escapeName name ++ natText i) with
    | some i =>
      rw [Option.getD_some]
      have hp := find?_some hfind
      exact hp
    | none =>
      exfalso
      -- as many keys as numbers would all be taken
      rw [find?_eq_none] at hfind
      have hsub : (range (c.rules.length + 1)).map (fun i => escapeName name ++ natText i) ⊆
          c.rules.map Prod.fst := by
        intro k hk
        obtain ⟨i, hi, rfl⟩ := mem_map.mp hk
        exact mem_keys_of_not_fits (by simpa using hfind i hi)
      have hnodup : ((range (c.rules.length + 1)).map
          fun i => escapeName name ++ natText i).Nodup := by
        apply List.Nodup.map _ nodup_range
        intro i j hij
        exact natText_injective (append_cancel_left hij)
      have hle := (hnodup.subperm hsub).length_le
      simp only [length_map, length_range] at hle
      omega

/-- The rule is there under the key that is returned. -/
theorem Converter.lookup_addRule (c : Converter) (name rule : Str) :
    (c.addRule name rule).2.rules.lookup (c.addRule name rule).1 = some rule := by
  rw [Converter.addRule, lookup_assignRule, if_pos rfl]

theorem Converter.addRule_keeps {k r : Str} (h : c.rules.lookup k = some r) (name rule : Str) :
    (c.addRule name rule).2.rules.lookup k = some r := by
  rw [Converter.addRule, lookup_assignRule]
  split
  next hk =>
    have hfits := c.fits_ruleKey name rule
    rw [← hk, Converter.fits, h] at hfits
    simpa using (decide_eq_true_iff.mp hfits).symm
  next => exact h

end Llama.Schema
