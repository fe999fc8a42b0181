import Llama.Grammar.Parsed
import Llama.Grammar.TokenRun

/-!
# Parsed rules are well formed

The rules of a successful parse have the shape that the matcher relies on: it never comes to an
element that it cannot handle, whatever code points it accepts.
-/

namespace Llama.Grammar

open Relation Leftmost List

variable {G : RuleSet}

/-- The element can stand in front of a part of a class: of a further item, or of the upper end
of a range. -/
def Continues (before e : Element) : Prop :=
  before.type = .char ∨ before.type = .charNot ∨ before.type = .charAlt ∨
    (e.type = .charAlt ∧ before.type = .charRngUpper)

/-- The shape that the matcher relies on. -/
structure WellFormed (rules : Rules) : Prop where
  nonempty : ∀ rule ∈ rules, rule ≠ []
  ends : ∀ rule ∈ rules, ∃ body e, rule = body ++ [e] ∧ e.type = .end_ ∧ ∀ x ∈ body, x.type ≠ .end_
  refs : ∀ rule ∈ rules, ∀ e ∈ rule, e.type = .ruleRef → ∃ r ∈ rules[e.value]?, r ≠ []
  classes : ∀ rule ∈ rules, ∀ pre e post, rule = pre ++ e :: post →
    e.type = .charAlt ∨ e.type = .charRngUpper → ∃ before ∈ pre.getLast?, Continues before e

/-- The elements of a class after its first are in a class. -/
def ClassChain (es : List Element) : Prop :=
  ∀ pre e post, es = pre ++ e :: post → e.type = .charAlt ∨ e.type = .charRngUpper →
    ∃ before ∈ pre.getLast?, Continues before e

theorem classChain_nil : ClassChain [] := by
  intro pre e post h
  simp at h

variable {xs : List Element} {e : Element} {fuel chr start : Nat} {s : Stack} {f : List Sym}

/-- Parts of a class at the seam need their class in front. -/
theorem ClassChain.append {ys : List Element} (hx : ClassChain xs) (hy : ClassChain ys) :
    ClassChain (xs ++ ys) := by
  intro pre e post h he
  rcases append_eq_append_iff.mp h with ⟨zs, rfl, hys⟩ | ⟨zs, hxs, htail⟩
  · obtain ⟨before, hb, hc⟩ := hy zs e post hys he
    refine ⟨before, ?_, hc⟩
    rw [getLast?_append, hb]
    rfl
  · cases zs with
    | nil =>
      obtain ⟨before, hb, -⟩ := hy [] e post (by simpa using htail.symm) he
      cases hb
    | cons z zs =>
      simp only [cons_append, List.cons.injEq] at htail
      obtain ⟨rfl, rfl⟩ := htail
      exact hx pre e zs hxs he

/-- One element more, which is in a class if it is a part of one. -/
theorem ClassChain.concat (hx : ClassChain xs)
    (he : e.type = .charAlt ∨ e.type = .charRngUpper → ∃ before ∈ xs.getLast?, Continues before e) :
    ClassChain (xs ++ [e]) := by
  intro pre x post h hpart
  rcases append_eq_append_iff.mp h with ⟨zs, rfl, hys⟩ | ⟨zs, hxs, htail⟩
  · cases zs with
    | nil =>
      rw [append_nil]
      obtain ⟨rfl, -⟩ := List.cons.inj hys
      exact he hpart
    | cons z zs => simp at hys
  · cases zs with
    | nil =>
      obtain ⟨rfl, -⟩ := List.cons.inj (by simpa using htail : x :: post = [e])
      rw [← append_nil pre, ← hxs]
      exact he hpart
    | cons z zs =>
      simp only [cons_append, List.cons.injEq] at htail
      obtain ⟨rfl, rfl⟩ := htail
      exact hx pre x zs hxs hpart

theorem classChain_singleton (he : FollowsClass e) : ClassChain [e] :=
  classChain_nil.concat fun h => (h.elim he.2 he.1).elim

def EndsInClass (es : List Element) : Prop :=
  ∃ e ∈ es.getLast?, e.type = .char ∨ e.type = .charNot ∨ e.type = .charAlt ∨ e.type = .charRngUpper

/-- An item at the end: its first element begins a class or goes on with one. -/
theorem ClassChain.item (hx : ClassChain xs) {type : GreType}
    (ht : type = .char ∨ type = .charNot ∨ type = .charAlt ∧ EndsInClass xs) (i : Item) :
    ClassChain (xs ++ i.elements type) ∧ EndsInClass (xs ++ i.elements type) := by
  have hfirst : ∀ value, ClassChain (xs ++ [{ type := type, value := value }]) := by
    intro value
    refine hx.concat fun hpart => ?_
    rcases ht with rfl | rfl | ⟨rfl, e, he, hclass⟩
    · simp at hpart
    · simp at hpart
    · refine ⟨e, he, ?_⟩
      rcases hclass with h | h | h | h <;> simp [Continues, h]
  have hclass : type = .char ∨ type = .charNot ∨ type = .charAlt := by
    rcases ht with rfl | rfl | ⟨rfl, -⟩ <;> simp
  cases i with
  | char c =>
    refine ⟨hfirst c, { type := type, value := c }, by simp [Item.elements], ?_⟩
    rcases hclass with h | h | h <;> simp [h]
  | range lo hi =>
    rw [Item.elements_range, append_cons]
    refine ⟨(hfirst lo).concat fun _ => ⟨{ type := type, value := lo }, by simp, ?_⟩,
      { type := .charRngUpper, value := hi }, by simp, by simp⟩
    rcases hclass with h | h | h <;> simp [Continues, h]

theorem ClassChain.items (hx : ClassChain xs) (he : EndsInClass xs) (rest : List Item) :
    ClassChain (xs ++ rest.flatMap (Item.elements .charAlt)) := by
  induction rest generalizing xs with
  | nil => simpa using hx
  | cons i rest ih =>
    obtain ⟨hchain, hends⟩ := hx.item (.inr (.inr ⟨rfl, he⟩)) i
    rw [flatMap_cons, ← append_assoc]
    exact ih hchain hends

theorem classChain_symElements (s : Sym) : ClassChain (symElements s) := by
  match s with
  | .nonterminal r => exact classChain_singleton (by simp [FollowsClass])
  | .terminal .any => exact classChain_singleton (by simp [FollowsClass])
  | .terminal (.token neg id) =>
    exact classChain_singleton (by cases neg <;> simp [FollowsClass])
  | .terminal (.cls neg first rest) =>
    have htype : (if neg then GreType.charNot else .char) = .char ∨
        (if neg then GreType.charNot else .char) = .charNot ∨
        ((if neg then GreType.charNot else .char) = .charAlt ∧ EndsInClass []) := by
      cases neg <;> simp
    obtain ⟨hchain, hends⟩ := classChain_nil.item htype first
    exact hchain.items hends rest

theorem classChain_altElements (a : List Sym) : ClassChain (altElements a) := by
  induction a with
  | nil => exact classChain_nil
  | cons s a ih => exact (classChain_symElements s).append ih

theorem classChain_closedElements (as : List (List Sym)) : ClassChain (closedElements as) := by
  induction as with
  | nil => exact classChain_nil
  | cons a as ih =>
    have halt := (classChain_altElements a).append
      (classChain_singleton (e := { type := .alt, value := 0 }) (by simp [FollowsClass]))
    exact halt.append ih

theorem type_of_mem_closedElements {as : List (List Sym)} (he : e ∈ closedElements as) :
    e.type ≠ .end_ := by
  obtain ⟨a, -, hmem⟩ := mem_flatMap.mp he
  rcases mem_append.mp hmem with hmem | hmem
  · exact (altElements_ne_end hmem).1
  · obtain rfl := mem_singleton.mp hmem
    simp

/-- A reference among the elements is one of the alternates. -/
theorem ref_mem_of_mem_altElements {a : List Sym} (he : e ∈ altElements a)
    (ht : e.type = .ruleRef) : .nonterminal e.value ∈ a := by
  obtain ⟨s, hs, hmem⟩ := mem_flatMap.mp he
  cases s with
  | terminal t => exact ((Terminal.elements_pass hmem).1 ht).elim
  | nonterminal r =>
    obtain rfl := mem_singleton.mp hmem
    exact hs

/-- The rules of a grammar are well formed. -/
theorem RuleSet.wellFormed (G : RuleSet) : WellFormed G.elements := by
  have hrule : ∀ rule ∈ G.elements, ∃ as a, as ++ [a] ∈ G.alts ∧
      rule = closedElements as ++ altElements a ++ [{ type := .end_, value := 0 }] := by
    intro rule hmem
    obtain ⟨bs, hbs, rfl⟩ := mem_map.mp hmem
    have hsplit := dropLast_append_getLast (G.defined bs hbs)
    refine ⟨bs.dropLast, bs.getLast (G.defined bs hbs), by rwa [hsplit], ?_⟩
    rw [← ruleElements_concat, hsplit]
  refine ⟨?_, ?_, ?_, ?_⟩
  · intro rule hmem
    obtain ⟨as, a, -, rfl⟩ := hrule rule hmem
    simp
  · intro rule hmem
    obtain ⟨as, a, -, rfl⟩ := hrule rule hmem
    refine ⟨_, _, rfl, rfl, fun x hx => ?_⟩
    rcases mem_append.mp hx with hx | hx
    · exact type_of_mem_closedElements hx
    · exact (altElements_ne_end hx).1
  · intro rule hmem e he ht
    obtain ⟨as, a, has, rfl⟩ := hrule rule hmem
    have href : ∃ b ∈ as ++ [a], .nonterminal e.value ∈ b := by
      rcases mem_append.mp he with he | he
      · rcases mem_append.mp he with he | he
        · obtain ⟨b, hb, hmem⟩ := mem_flatMap.mp he
          rcases mem_append.mp hmem with hmem | hmem
          · exact ⟨b, mem_append_left _ hb, ref_mem_of_mem_altElements hmem ht⟩
          · obtain rfl := mem_singleton.mp hmem
            cases ht
        · exact ⟨a, by simp, ref_mem_of_mem_altElements he ht⟩
      · obtain rfl := mem_singleton.mp he
        cases ht
    obtain ⟨b, hb, hr⟩ := href
    have hlt := G.closed _ has b hb _ hr
    refine ⟨ruleElements G.alts[e.value], ?_, ruleElements_ne_nil _⟩
    simp [RuleSet.elements, getElem?_eq_getElem hlt]
  · intro rule hmem
    obtain ⟨as, a, -, rfl⟩ := hrule rule hmem
    exact ((classChain_closedElements as).append (classChain_altElements a)).append
      (classChain_singleton (by simp [FollowsClass]))

theorem advanceStack_ne_abort (hs : Represents G s f) (acc : Stacks) :
    advanceStack G.elements fuel s acc ≠ .error .abort := by
  by_cases h : HaltsIn G.prods fuel f
  · obtain ⟨acc', hok, -⟩ := advanceStack_ok hs h acc
    rw [hok]
    exact nofun
  · rw [advanceStack_fuel hs h]
    exact nofun

theorem acceptChr_ne_abort (hs : Represents G s f) (hf : FormReady f) (acc : Stacks) :
    acceptChr G.elements fuel chr acc s ≠ .error .abort := by
  cases f with
  | nil =>
    obtain rfl := hs.eq_nil_iff.mpr rfl
    intro h
    cases h
  | cons c f =>
    cases c with
    | nonterminal r => exact hf.elim
    | terminal t =>
      obtain ⟨p, st, sy, g, rfl, rfl, hp, hst⟩ := hs.cases_cons
      rw [acceptChr]
      split
      · intro h
        cases h
      · rename_i htok
        have ht : t.isChar = true := by simpa [hp.token_or_char] using htok
        simp only [matchChar_terminal hp ht, bind, Except.bind]
        split
        · exact advanceStack_ne_abort (hst.push hp.next) acc
        · intro h
          cases h

theorem accept_ne_abort {sts : Stacks} (h : StacksReady G sts) :
    accept G.elements fuel sts chr ≠ .error .abort :=
  Loop.foldlM_ne_error (I := fun _ => True) trivial (fun _ _ _ _ _ _ => trivial)
    fun acc s hs _ => by
      obtain ⟨f, hrep, hf⟩ := h s hs
      exact acceptChr_ne_abort hrep hf acc

theorem initialStacks_ne_abort (hs : start < G.alts.length) :
    initialStacks G.elements fuel start ≠ .error .abort :=
  Loop.foldlM_ne_error (I := fun _ => True) trivial (fun _ _ _ _ _ _ => trivial)
    fun acc i hi _ => by
      obtain ⟨a, -, hp⟩ := RuleSet.start_points hs hi
      exact advanceStack_ne_abort (represents_start hp) acc

/-- Whatever the depth of the recursion and whatever code points are accepted, the matcher
comes to no element that it cannot handle. -/
theorem matchWord_ne_abort (hs : start < G.alts.length) (fuel : Nat) (w : List Nat) :
    matchWord G.elements fuel start w ≠ .error .abort := by
  have hlen : start < G.elements.length := by simpa [RuleSet.elements] using hs
  rw [matchWord, initImpl, RuleSet.map_copyRule]
  simp only [bind, Except.bind]
  split
  · rename_i e he
    intro habort
    obtain rfl := Except.error.inj habort
    split at he
    · cases he
    · split at he
      · rename_i hinit
        obtain rfl := Except.error.inj he
        exact initialStacks_ne_abort hs hinit
      · cases he
    · cases he
  · rename_i r hr
    split
    · intro h
      cases h
    · rename_i rules sts
      split at hr
      · cases hr
      · split at hr
        · cases hr
        · rename_i hinit
          cases hr
          have hready := (ReachableState.init hlen hinit).stacksReady
          have hne : w.foldlM (accept G.elements fuel) sts ≠ .error .abort :=
            Loop.foldlM_ne_error (I := StacksReady G) hready (fun _ _ _ _ hr h => hr.accept h)
              fun _ _ _ hr => accept_ne_abort hr
          intro habort
          split at habort
          · rename_i hword
            obtain rfl := Except.error.inj habort
            exact hne hword
          · cases habort
      · cases hr

/-- The rules of a successful parse are well formed, and on those that pass the check for left
recursion the matcher never aborts. -/
theorem parse_wellFormed (vocab : Option (Text → List Nat)) (src : Text)
    (h : (parse vocab src).1 = true) :
    WellFormed (parse vocab src).2.rules ∧ ∀ start < (parse vocab src).2.rules.length,
      ∀ fuel w, matchWord (parse vocab src).2.rules fuel start w ≠ .error .abort := by
  obtain ⟨G, -, hrules⟩ := parse_ruleSet (p := (parse vocab src).2) (Prod.ext h rfl)
  rw [hrules]
  refine ⟨G.wellFormed, fun start hs fuel w => ?_⟩
  exact matchWord_ne_abort (by simpa [RuleSet.elements] using hs) fuel w

/-- `root ::= [^a-c] | "d"` -/
def classOrLetter : Text :=
  ['r', 'o', 'o', 't', ' ', ':', ':', '=', ' ', '[', '^', 'a', '-', 'c', ']', ' ', '|', ' ', '"',
    'd', '"'].map byte

theorem parse_wellFormed_classOrLetter :
    WellFormed (parse none classOrLetter).2.rules ∧
      matchWord (parse none classOrLetter).2.rules 5 0 [100, 97] ≠ .error .abort :=
  have h := parse_wellFormed none classOrLetter (by decide)
  ⟨h.1, h.2 0 (by decide) 5 [100, 97]⟩

end Llama.Grammar
