import Llama.Grammar.Matcher
import Llama.Lib.Leftmost

/-!
# Rules that the parser produces

A rule of the parser is a list of alternates, each a sequence of rule references, character
classes and tokens, laid out as elements: a class is its first item, marked `CHAR` or
`CHAR_NOT`, followed by `CHAR_ALT` items; a range has its upper end in an element of its own.
Such rules are a context-free grammar whose terminals are the classes and tokens.
-/

namespace Llama.Grammar

open List

/-- An item of a character class. -/
inductive Item where
  | char (c : Nat)
  | range (lo hi : Nat)
  deriving DecidableEq, Repr

/-- The code point is the item's or lies in its range. -/
def Item.holds (c : Nat) : Item → Bool
  | .char x => x == c
  | .range lo hi => decide (lo ≤ c) && decide (c ≤ hi)

/-- A terminal of the grammar. -/
inductive Terminal where
  | any
  | cls (neg : Bool) (first : Item) (rest : List Item)
  | token (neg : Bool) (id : Nat)
  deriving DecidableEq, Repr

/-- Code points that a terminal stands for; a token stands for none. -/
def Terminal.accepts : Terminal → Nat → Bool
  | .any, _ => true
  | .cls neg first rest, c => (first :: rest).any (Item.holds c) != neg
  | .token _ _, _ => false

/-- A symbol of an alternate. -/
abbrev Sym := Symbol Terminal Nat

/-- The alternates of every rule. -/
structure RuleSet where
  /-- The alternates of the rules. -/
  alts : List (List (List Sym))
  /-- Every rule has an alternate. -/
  defined : ∀ as ∈ alts, as ≠ []
  /-- Only rules of the grammar are referred to. -/
  closed : ∀ as ∈ alts, ∀ a ∈ as, ∀ r, .nonterminal r ∈ a → r < alts.length

/-- The productions of a grammar. -/
def RuleSet.prods (G : RuleSet) (r : Nat) : List (List Sym) := (G.alts[r]?).getD []

/-- One context-free rule for every alternate. -/
def RuleSet.contextFreeRules (G : RuleSet) : List (ContextFreeRule Terminal Nat) :=
  (List.range G.alts.length).flatMap fun r =>
    (G.prods r).map fun a => { input := r, output := a }

def RuleSet.cfg (G : RuleSet) (start : Nat) : ContextFreeGrammar Terminal where
  NT := Nat
  initial := start
  rules := G.contextFreeRules.toFinset

/-- The start rule derives the code points: it generates a word of terminals that stand for
them. -/
def RuleSet.Derives (G : RuleSet) (start : Nat) (w : List Nat) : Prop :=
  ∃ cw ∈ (G.cfg start).language, Forall₂ (fun t c => t.accepts c = true) cw w

def Item.elements (type : GreType) : Item → List Element
  | .char c => [{ type := type, value := c }]
  | .range lo hi => [{ type := type, value := lo }, { type := .charRngUpper, value := hi }]

def Terminal.elements : Terminal → List Element
  | .any => [{ type := .charAny, value := 0 }]
  | .cls neg first rest =>
    first.elements (if neg then .charNot else .char) ++ rest.flatMap (Item.elements .charAlt)
  | .token neg id => [{ type := if neg then .tokenNot else .token, value := id }]

/-- The elements of a symbol. -/
def symElements : Sym → List Element
  | .terminal t => t.elements
  | .nonterminal r => [{ type := .ruleRef, value := r }]

/-- The elements of an alternate. -/
def altElements (a : List Sym) : List Element := a.flatMap symElements

def ruleElements : List (List Sym) → List Element
  | [] => [{ type := .end_, value := 0 }]
  | [a] => altElements a ++ [{ type := .end_, value := 0 }]
  | a :: as => altElements a ++ { type := .alt, value := 0 } :: ruleElements as

/-- The rules as the parser lays them out. -/
def RuleSet.elements (G : RuleSet) : Rules := G.alts.map ruleElements

variable {G : RuleSet}

variable {r start : Nat} {a : List Sym} {e : Element}

theorem RuleSet.mem_prods (h : a ∈ G.prods r) : ∃ as, G.alts[r]? = some as ∧ a ∈ as := by
  simp only [RuleSet.prods] at h
  cases hr : G.alts[r]? with
  | none => simp [hr] at h
  | some as => exact ⟨as, rfl, by simpa [hr] using h⟩

theorem RuleSet.lt_of_mem_prods (h : a ∈ G.prods r) : r < G.alts.length := by
  obtain ⟨as, has, -⟩ := RuleSet.mem_prods h
  exact (List.getElem?_eq_some_iff.mp has).1

theorem RuleSet.ref_lt {n : Nat} (h : a ∈ G.prods r) (hn : .nonterminal n ∈ a) :
    n < G.alts.length := by
  obtain ⟨as, has, hmem⟩ := RuleSet.mem_prods h
  exact G.closed as (mem_of_getElem? has) a hmem n hn

theorem RuleSet.prods_ne_nil (h : r < G.alts.length) : G.prods r ≠ [] := by
  rw [RuleSet.prods, getElem?_eq_getElem h]
  exact G.defined _ (getElem_mem h)

theorem RuleSet.mem_contextFreeRules (r : ContextFreeRule Terminal Nat) :
    r ∈ G.contextFreeRules ↔ r.output ∈ G.prods r.input := by
  simp only [RuleSet.contextFreeRules, mem_flatMap, mem_range, mem_map]
  constructor
  · rintro ⟨n, -, a, ha, rfl⟩
    exact ha
  · intro h
    exact ⟨r.input, RuleSet.lt_of_mem_prods h, r.output, h, rfl⟩

theorem RuleSet.mem_cfg_rules (r : ContextFreeRule Terminal (G.cfg start).NT) :
    r ∈ (G.cfg start).rules ↔ r.output ∈ G.prods r.input :=
  (@mem_toFinset (ContextFreeRule Terminal Nat) _ _ r).trans (RuleSet.mem_contextFreeRules r)

/-- Leftmost runs of the productions. -/
abbrev RuleSet.Run (G : RuleSet) : List Sym → List Nat → List Sym → Prop :=
  Leftmost.Run G.prods fun t c => t.accepts c = true

theorem RuleSet.derives_iff_run {w : List Nat} :
    G.Derives start w ↔ G.Run [.nonterminal start] w [] :=
  Leftmost.exists_derives_iff_run (G := G.cfg start) RuleSet.mem_cfg_rules

theorem RuleSet.leftStep_lt {a b : Nat} (h : Leftmost.LeftStep G.prods a b) :
    b < G.alts.length := by
  obtain ⟨pre, post, hmem, -⟩ := h
  exact RuleSet.ref_lt hmem (by simp)

/-- Without left recursion every form halts. -/
theorem RuleSet.halts (h : ¬ Leftmost.LeftRecursive G.prods) (f : List Sym) :
    Leftmost.Halts G.prods f :=
  Leftmost.halts_of_wellFounded (Leftmost.wellFounded_leftStep (Set.finite_lt_nat G.alts.length)
    (fun _ _ hab => RuleSet.leftStep_lt hab) h) f

/-- The element ends a sequence of the layout. -/
theorem isEndOfSequence_iff : isEndOfSequence e = true ↔ e.type = .end_ ∨ e.type = .alt := by
  cases e with
  | mk type value => cases type <;> simp [isEndOfSequence]

theorem Item.type_of_mem {type : GreType} {i : Item} (he : e ∈ i.elements type) :
    e.type = type ∨ e.type = .charRngUpper := by
  cases i <;> simp only [Item.elements, mem_cons, not_mem_nil, or_false] at he
  · exact .inl (by rw [he])
  · rcases he with rfl | rfl
    · exact .inl rfl
    · exact .inr rfl

/-- A terminal is made of characters or is a token. -/
theorem Terminal.type_of_mem {t : Terminal} {e : Element} (he : e ∈ t.elements) :
    e.type ∈ [.charAny, .char, .charNot, .charAlt, .charRngUpper, .token, .tokenNot] := by
  cases t with
  | any =>
    simp only [Terminal.elements, mem_singleton] at he
    simp [he]
  | cls neg first rest =>
    simp only [Terminal.elements, mem_append, mem_flatMap] at he
    rcases he with he | ⟨i, -, he⟩
    · rcases Item.type_of_mem he with h | h <;> cases neg <;> simp [h]
    · rcases Item.type_of_mem he with h | h <;> simp [h]
  | token neg id =>
    simp only [Terminal.elements, mem_singleton] at he
    cases neg <;> simp [he]

theorem Terminal.elements_ne_end {t : Terminal} {e : Element} (he : e ∈ t.elements) :
    e.type ≠ .end_ ∧ e.type ≠ .alt := by
  have h := Terminal.type_of_mem he
  constructor <;> intro hn <;> simp [hn] at h

theorem symElements_ne_end {s : Sym} (he : e ∈ symElements s) : e.type ≠ .end_ ∧ e.type ≠ .alt := by
  cases s with
  | terminal t => exact Terminal.elements_ne_end he
  | nonterminal r =>
    simp only [symElements, mem_singleton] at he
    simp [he]

theorem altElements_ne_end (he : e ∈ altElements a) : e.type ≠ .end_ ∧ e.type ≠ .alt := by
  simp only [altElements, mem_flatMap] at he
  obtain ⟨s, -, he⟩ := he
  exact symElements_ne_end he

theorem symElements_ne_nil (s : Sym) : symElements s ≠ [] := by
  cases s with
  | terminal t =>
    cases t with
    | cls neg first rest => cases first <;> simp [symElements, Terminal.elements, Item.elements]
    | _ => simp [symElements, Terminal.elements]
  | nonterminal r => simp [symElements]

/-- A rule ends with `END` and has no other. -/
theorem copyRule_ruleElements (as : List (List Sym)) :
    copyRule (ruleElements as) = ruleElements as := by
  have halt : ∀ a : List Sym, ∀ es : List Element,
      (altElements a ++ es).takeWhile (fun e => e.type != .end_) =
        altElements a ++ es.takeWhile (fun e => e.type != .end_) := by
    intro a es
    rw [takeWhile_append_of_pos]
    intro e he
    simpa using (altElements_ne_end he).1
  induction as with
  | nil => rfl
  | cons a as ih =>
    cases as with
    | nil =>
      simp only [copyRule, ruleElements, halt, append_assoc]
      rfl
    | cons b bs =>
      simp only [copyRule, ruleElements, halt, append_assoc] at ih ⊢
      rw [takeWhile_cons_of_pos (by rfl), cons_append, ih]

theorem RuleSet.map_copyRule (G : RuleSet) : G.elements.map copyRule = G.elements := by
  simp only [RuleSet.elements, map_map]
  exact map_congr_left fun as _ => copyRule_ruleElements as

theorem RuleSet.rule_elements (h : r < G.alts.length) :
    G.elements.rule r = ruleElements (G.prods r) := by
  simp [Rules.rule, RuleSet.elements, RuleSet.prods, getElem?_eq_getElem h]

end Llama.Grammar
