import Llama.Grammar.Accept
import Mathlib.Order.Interval.Finset.Nat

/-!
# The check for left recursion

`llama_grammar_detect_left_recursion` marks a rule as possibly empty only when it has an empty
alternate of its own. What it reports is a left recursion, but a rule that is empty through
other rules hides the references behind it, and then `llama_grammar_advance_stack` need not
terminate.
-/

namespace Llama.Grammar

open Relation Leftmost List Function

variable {G : RuleSet}

/-- Rules marked as possibly empty are. -/
def Marks.Sound (G : RuleSet) (m : Marks) : Prop :=
  ∀ r, m.mayBeEmpty r = true → Nullable G.prods [.nonterminal r]

/-- Number of rules in progress. -/
def Marks.depth (G : RuleSet) (m : Marks) : Nat :=
  ((Finset.range G.alts.length).filter fun r => m.inProgress r = true).card

/-- How a walk ends: with a left recursion, or with the same rules in progress. -/
def WalkOutcome (G : RuleSet) (m : Marks) (o : Option (Bool × Marks)) : Prop :=
  ∃ b m', o = some (b, m') ∧ m'.Sound G ∧ (b = false → m'.inProgress = m.inProgress) ∧
    (b = true → LeftRecursive G.prods)

variable {m m' : Marks} {r : Nat} {s : Stack}

theorem Marks.depth_congr (h : m'.inProgress = m.inProgress) : m'.depth G = m.depth G := by
  rw [Marks.depth, Marks.depth, h]

theorem Marks.depth_update (hr : r < G.alts.length) (hm : m.inProgress r = false)
    (h : m'.inProgress = update m.inProgress r true) : m'.depth G = m.depth G + 1 := by
  have hins : (Finset.range G.alts.length).filter (fun i => m'.inProgress i = true) =
      insert r ((Finset.range G.alts.length).filter fun i => m.inProgress i = true) := by
    ext i
    simp only [h, Finset.mem_filter, Finset.mem_range, Finset.mem_insert, update_apply]
    by_cases hi : i = r
    · simp [hi, hr]
    · simp [hi]
  rw [Marks.depth, hins, Finset.card_insert_of_notMem (by simp [hm]), Marks.depth]

theorem Marks.Sound.enter {m : Marks} (hm : m.Sound G) {r : Nat} {empty : Bool}
    (hr : empty = true → Nullable G.prods [.nonterminal r]) : (m.enter r empty).Sound G := by
  intro a ha
  cases empty with
  | false => exact hm a ha
  | true =>
    by_cases har : a = r
    · rw [har]
      exact hr rfl
    · simp only [Marks.enter, if_true, update_of_ne har] at ha
      exact hm a ha

theorem Marks.depth_le (m : Marks) : m.depth G ≤ G.alts.length := by
  have := Finset.card_filter_le (Finset.range G.alts.length) fun r => m.inProgress r = true
  rwa [Finset.card_range] at this

theorem hasEmptyAlternate_alt (a : List Sym) (es : List Element) (b : Bool) :
    hasEmptyAlternate b (altElements a ++ es) = hasEmptyAlternate (b && decide (a = [])) es := by
  have hgen : ∀ xs : List Element, (∀ e ∈ xs, e.type ≠ .end_ ∧ e.type ≠ .alt) → ∀ b,
      hasEmptyAlternate b (xs ++ es) = hasEmptyAlternate (b && decide (xs = [])) es := by
    intro xs
    induction xs with
    | nil => simp
    | cons e xs ih =>
      intro hxs b
      have he : isEndOfSequence e = false := by
        rw [← Bool.not_eq_true, isEndOfSequence_iff]
        simp [hxs e mem_cons_self]
      rw [cons_append, hasEmptyAlternate, he]
      simp only [Bool.false_eq_true, if_false]
      rw [ih fun x hx => hxs x (mem_cons_of_mem e hx)]
      simp
  rw [hgen _ fun _ he => altElements_ne_end he]
  congr 2
  cases a with
  | nil => rfl
  | cons s a => simp [altElements, symElements_ne_nil]

/-- The first loop finds an empty alternate. -/
theorem nil_mem_of_hasEmptyAlternate {as : List (List Sym)} (has : as ≠ [])
    (h : hasEmptyAlternate true (ruleElements as) = true) : [] ∈ as := by
  induction as with
  | nil => exact (has rfl).elim
  | cons a as ih =>
    by_cases ha : a = []
    · simp [ha]
    · cases as with
      | nil =>
        rw [ruleElements, hasEmptyAlternate_alt] at h
        simp [ha, hasEmptyAlternate, isEndOfSequence] at h
      | cons b bs =>
        rw [ruleElements, hasEmptyAlternate_alt] at h
        · simp only [ha, decide_false, Bool.and_false, hasEmptyAlternate, isEndOfSequence,
            if_true, Bool.false_eq_true, if_false] at h
          exact mem_cons_of_mem a (ih (by simp) h)
        · simp

/-- Elements that neither refer to a rule nor end a sequence stop the recursion. -/
theorem walkLeft_pass {d : Nat → Marks → Option (Bool × Marks)} {xs es : List Element}
    (hxs : ∀ e ∈ xs, e.type ≠ .ruleRef ∧ isEndOfSequence e = false) (hne : xs ≠ [])
    (recurse : Bool) (m : Marks) : walkLeft d recurse (xs ++ es) m = walkLeft d false es m := by
  induction xs generalizing recurse with
  | nil => exact (hne rfl).elim
  | cons e xs ih =>
    have he := hxs e mem_cons_self
    rw [cons_append, walkLeft, if_neg (by simp [he.1]), if_neg (by simp [he.2])]
    by_cases hx : xs = []
    · rw [hx, nil_append]
    · exact ih (fun x hx => hxs x (mem_cons_of_mem e hx)) hx false

theorem Terminal.elements_pass {t : Terminal} {e : Element} (he : e ∈ t.elements) :
    e.type ≠ .ruleRef ∧ isEndOfSequence e = false := by
  have hend := Terminal.elements_ne_end he
  have htype := Terminal.type_of_mem he
  exact ⟨fun h => by simp [h] at htype,
    by rw [← Bool.not_eq_true, isEndOfSequence_iff]; simp [hend]⟩

section Walk

variable {r fuel : Nat} {d : Nat → Marks → Option (Bool × Marks)}

/-- What a walk over rule `r` needs of the recursive call. -/
def Calls (G : RuleSet) (r fuel : Nat) (d : Nat → Marks → Option (Bool × Marks)) : Prop :=
  ∀ (b : Nat) (m : Marks), LeftStep G.prods r b → m.Sound G →
    (∀ a, m.inProgress a = true → ReflTransGen (LeftStep G.prods) a r) →
    G.alts.length < fuel + m.depth G → WalkOutcome G m (d b m)

/-- The walk over the rest of an alternate either ends or comes to what follows. The flag is
set only behind a nullable part. -/
theorem walkLeft_alt (hd : Calls G r fuel d) (rest done : List Sym)
    (hmem : done ++ rest ∈ G.prods r) (es : List Element) (recurse : Bool) (m : Marks)
    (hnull : recurse = true → Nullable G.prods done) (hm : m.Sound G)
    (hchain : ∀ a, m.inProgress a = true → ReflTransGen (LeftStep G.prods) a r)
    (hdepth : G.alts.length < fuel + m.depth G) :
    (∃ m', walkLeft d recurse (altElements rest ++ es) m = some (true, m') ∧ m'.Sound G ∧
      LeftRecursive G.prods) ∨
    (∃ recurse' m', walkLeft d recurse (altElements rest ++ es) m = walkLeft d recurse' es m' ∧
      m'.Sound G ∧ m'.inProgress = m.inProgress) := by
  induction rest generalizing done recurse m with
  | nil => exact .inr ⟨recurse, m, rfl, hm, rfl⟩
  | cons s rest ih =>
    have hmem' : (done ++ [s]) ++ rest ∈ G.prods r := by simpa using hmem
    rw [altElements, flatMap_cons, append_assoc]
    cases s with
    | terminal t =>
      rw [@walkLeft_pass d (symElements (.terminal t)) _
        (fun e he => Terminal.elements_pass (t := t) he) (symElements_ne_nil (.terminal t))]
      exact ih _ hmem' false m (by simp) hm hchain hdepth
    | nonterminal b =>
      rw [symElements, singleton_append]
      cases recurse with
      | false =>
        rw [walkLeft, if_neg (by simp), if_neg (by simp [isEndOfSequence])]
        exact ih _ hmem' false m (by simp) hm hchain hdepth
      | true =>
        have hdone := hnull rfl
        obtain ⟨c, m1, hcall, hm1, hsame, hrec⟩ := hd b m ⟨done, rest, hmem, hdone⟩ hm hchain hdepth
        rw [walkLeft, if_pos ⟨rfl, rfl⟩]
        simp only [hcall]
        cases c with
        | true => exact .inl ⟨m1, rfl, hm1, hrec rfl⟩
        | false =>
          have hsame := hsame rfl
          have hnext := ih (done ++ [.nonterminal b]) hmem' (m1.mayBeEmpty b) m1
            (fun hb => hdone.append (hm1 b hb)) hm1 (by rw [hsame]; exact hchain)
            (by rw [Marks.depth_congr hsame]; exact hdepth)
          rwa [hsame] at hnext

/-- The walk over all alternates of a rule. -/
theorem walkLeft_rule (hd : Calls G r fuel d) (as : List (List Sym)) (has : as ≠ [])
    (hsub : ∀ a ∈ as, a ∈ G.prods r) (m : Marks) (hm : m.Sound G)
    (hchain : ∀ a, m.inProgress a = true → ReflTransGen (LeftStep G.prods) a r)
    (hdepth : G.alts.length < fuel + m.depth G) :
    WalkOutcome G m (walkLeft d true (ruleElements as) m) := by
  induction as generalizing m with
  | nil => exact (has rfl).elim
  | cons a as ih =>
    have halt := fun es => walkLeft_alt hd a [] (hsub a mem_cons_self) es true m
      (fun _ => ReflTransGen.refl) hm hchain hdepth
    cases as with
    | nil =>
      rw [ruleElements]
      rcases halt [{ type := .end_, value := 0 }] with ⟨m', he, h1, h2⟩ | ⟨rc, m', he, h1, h2⟩
      · exact ⟨true, m', he, h1, by simp, fun _ => h2⟩
      · rw [walkLeft, if_neg (by simp), if_pos (by rfl), walkLeft] at he
        exact ⟨false, m', he, h1, fun _ => h2, by simp⟩
    | cons b bs =>
      rw [ruleElements]
      · rcases halt ({ type := .alt, value := 0 } :: ruleElements (b :: bs)) with
          ⟨m', he, h1, h2⟩ | ⟨rc, m', he, h1, h2⟩
        · exact ⟨true, m', he, h1, by simp, fun _ => h2⟩
        · rw [walkLeft, if_neg (by simp), if_pos (by rfl)] at he
          obtain ⟨c, m2, h3, h4, h5, h6⟩ := ih (by simp)
            (fun x hx => hsub x (mem_cons_of_mem a hx)) m' h1 (by rw [h2]; exact hchain)
            (by rw [Marks.depth_congr h2]; exact hdepth)
          exact ⟨c, m2, he.trans h3, h4, fun hc => (h5 hc).trans h2, h6⟩
      · simp

end Walk

/-- The check ends within the depth allowed, and what it reports is a left recursion. -/
theorem detectLeftRecursion_outcome {fuel : Nat} (hr : r < G.alts.length) (hm : m.Sound G)
    (hchain : ∀ a, m.inProgress a = true → TransGen (LeftStep G.prods) a r)
    (hdepth : G.alts.length < fuel + m.depth G) :
    WalkOutcome G m (detectLeftRecursion G.elements fuel r m) := by
  induction fuel generalizing r m with
  | zero =>
    have := m.depth_le (G := G)
    omega
  | succ fuel ih =>
    rw [detectLeftRecursion]
    by_cases hin : m.inProgress r = true
    · rw [if_pos hin]
      exact ⟨true, m, rfl, hm, by simp, fun _ => ⟨r, hchain r hin⟩⟩
    · rw [if_neg hin]
      simp only [Bool.not_eq_true] at hin
      rw [RuleSet.rule_elements hr]
      generalize hempty : hasEmptyAlternate true (ruleElements (G.prods r)) = empty
      have hprog : (m.enter r empty).inProgress = update m.inProgress r true := rfl
      have hm0 : (m.enter r empty).Sound G := by
        refine hm.enter fun he => ?_
        rw [he] at hempty
        have hnil := nil_mem_of_hasEmptyAlternate (RuleSet.prods_ne_nil hr) hempty
        exact ReflTransGen.single (by simpa using Expand.mk (P := G.prods) [] hnil)
      have hcalls : Calls G r fuel (detectLeftRecursion G.elements fuel) := by
        intro b m1 hstep hm1 hchain1 hdepth1
        exact ih (RuleSet.leftStep_lt hstep) hm1
          (fun a ha => TransGen.tail' (hchain1 a ha) hstep) hdepth1
      obtain ⟨c, m1, h1, h2, h3, h4⟩ := walkLeft_rule hcalls (G.prods r)
        (RuleSet.prods_ne_nil hr) (fun a ha => ha) _ hm0
        (fun a ha => by
          rw [hprog] at ha
          by_cases har : a = r
          · rw [har]
          · rw [update_of_ne har] at ha
            exact (hchain a ha).to_reflTransGen)
        (by rw [Marks.depth_update hr hin hprog]; omega)
      simp only [h1]
      cases c with
      | true => exact ⟨true, m1, rfl, h2, by simp, h4⟩
      | false =>
        refine ⟨false, _, rfl, h2, fun _ => ?_, by simp⟩
        simp only [Marks.leave, h3 rfl, hprog, update_idem]
        rw [← hin, update_eq_self]

theorem checkLeftRecursion_outcome {is : List Nat} (his : ∀ i ∈ is, i < G.alts.length)
    (hm : m.Sound G) (hprog : ∀ a, m.inProgress a = false) :
    ∃ b m', checkLeftRecursion G.elements is m = some (b, m') ∧
      (b = true → LeftRecursive G.prods) := by
  induction is generalizing m with
  | nil => exact ⟨false, m, rfl, by simp⟩
  | cons i is ih =>
    have his' := fun j hj => his j (mem_cons_of_mem i hj)
    rw [checkLeftRecursion]
    by_cases hv : m.visited i = true
    · rw [if_pos hv]
      exact ih his' hm hprog
    · rw [if_neg hv]
      have hlen : G.elements.length = G.alts.length := by simp [RuleSet.elements]
      have hout : WalkOutcome G m (detectLeftRecursion G.elements (G.elements.length + 1) i m) :=
        detectLeftRecursion_outcome (his i mem_cons_self) hm
          (fun a ha => by simp [hprog a] at ha) (by omega)
      obtain ⟨b, m1, h1, h2, h3, h4⟩ := hout
      simp only [h1]
      cases b with
      | true => exact ⟨true, m1, rfl, h4⟩
      | false => exact ih his' h2 fun a => by rw [h3 rfl]; exact hprog a

/-- The loop of `llama_grammar_init_impl` reports no left recursion. -/
def PassesCheck (rules : Rules) : Prop :=
  ∃ m, checkLeftRecursion rules (range rules.length) Marks.empty = some (false, m)

/-- Without left recursion the check passes. -/
theorem passesCheck_of_not_leftRecursive (h : ¬ LeftRecursive G.prods) :
    PassesCheck G.elements := by
  have hlen : G.elements.length = G.alts.length := by simp [RuleSet.elements]
  have hrange : ∀ i ∈ range G.elements.length, i < G.alts.length := fun i hi => by
    rwa [mem_range, hlen] at hi
  have hempty : Marks.empty.Sound G := fun r hr => by simp [Marks.empty] at hr
  obtain ⟨b, m, h1, h2⟩ := checkLeftRecursion_outcome hrange hempty fun a => rfl
  cases b with
  | true => exact (h (h2 rfl)).elim
  | false => exact ⟨m, h1⟩

/-- Stacks that `llama_grammar_advance_stack` is called on for some start rule and some text. -/
inductive Reachable (rules : Rules) : Stack → Prop
  | start {r i : Nat} (hr : r < rules.length) (hi : i ∈ altStarts (rules.rule r)) :
      Reachable rules (rules.push { rule := r, idx := i } [])
  | child {s s' : Stack} (hs : Reachable rules s) (hc : Child rules s s') : Reachable rules s'
  | char {p q : Pos} {st : Stack} {chr : Nat} (hs : Reachable rules (p :: st))
      (hm : matchChar rules p chr = .ok (true, q)) : Reachable rules (rules.push q st)
  | token {p : Pos} {st : Stack} {tok : Nat} (hs : Reachable rules (p :: st))
      (hm : matchToken rules p tok = .ok true) : Reachable rules (rules.push (p.add 1) st)

/-- `llama_grammar_advance_stack` ends, whatever stacks are there. -/
def Terminates (rules : Rules) (s : Stack) : Prop :=
  ∀ acc, ∃ fuel, advanceStack rules fuel s acc ≠ .error .fuel

theorem Represents.terminates_iff {f : List Sym} (hs : Represents G s f) :
    Terminates G.elements s ↔ Halts G.prods f := by
  constructor
  · intro h
    obtain ⟨fuel, hfuel⟩ := h []
    by_contra hn
    exact hfuel (advanceStack_fuel hs (fun hf => hn hf.halts) [])
  · intro h acc
    obtain ⟨fuel, hfuel⟩ := h.exists_haltsIn
    obtain ⟨acc', hok, -⟩ := advanceStack_ok hs hfuel acc
    exact ⟨fuel, by simp [hok]⟩

/-- Every reachable stack stands for a form. -/
theorem Reachable.represents (h : Reachable G.elements s) : ∃ f, Represents G s f := by
  induction h with
  | @start r i hr hi =>
    rw [RuleSet.elements, length_map] at hr
    obtain ⟨a, -, hp⟩ := RuleSet.start_points hr hi
    exact ⟨a, represents_start hp⟩
  | child _ hc ih =>
    obtain ⟨f, hf⟩ := ih
    obtain ⟨g, -, hg⟩ := hc.expand hf
    exact ⟨g, hg⟩
  | @char p q st chr _ hm ih =>
    obtain ⟨f, hf⟩ := ih
    cases hf with
    | @cons _ sy _ f hp hne hst =>
      cases sy with
      | nil => exact absurd rfl hne
      | cons x sy =>
        cases x with
        | nonterminal r => simp [matchChar, isPositiveChar, hp.elem_ref] at hm
        | terminal t =>
          by_cases ht : t.isChar = true
          · rw [matchChar_terminal hp ht] at hm
            simp only [Except.ok.injEq, Prod.mk.injEq] at hm
            rw [← hm.2]
            exact ⟨sy ++ f, hst.push hp.next⟩
          · cases t with
            | token neg id =>
              cases neg <;>
                simp [matchChar, isPositiveChar, hp.elem_terminal, Terminal.greType] at hm
            | _ => exact (ht rfl).elim
  | @token p st tok _ hm ih =>
    obtain ⟨f, hf⟩ := ih
    cases hf with
    | @cons _ sy _ f hp hne hst =>
      cases sy with
      | nil => exact absurd rfl hne
      | cons x sy =>
        cases x with
        | nonterminal r => simp [matchToken, hp.elem_ref] at hm
        | terminal t =>
          cases t with
          | token neg id => exact ⟨sy ++ f, hst.push hp.next⟩
          | any => simp [matchToken, hp.elem_terminal, Terminal.greType] at hm
          | cls neg first rest =>
            cases neg <;> simp [matchToken, hp.elem_terminal, Terminal.greType] at hm

/-- A left recursion makes some start alternate diverge. -/
theorem exists_not_terminates (h : LeftRecursive G.prods) :
    ∃ s, Reachable G.elements s ∧ ¬ Terminates G.elements s := by
  obtain ⟨r, hr⟩ := h
  have hn := not_halts_of_leftRecursive hr []
  have hbad : ∃ a ∈ G.prods r, ¬ Halts G.prods a := by
    by_contra hall
    push Not at hall
    refine hn (Acc.intro _ fun g hg => ?_)
    obtain ⟨a, ha, rfl⟩ := expand_nonterminal.mp hg
    rw [append_nil]
    exact hall a ha
  obtain ⟨a, ha, hna⟩ := hbad
  obtain ⟨i, hi, hp⟩ := RuleSet.exists_start ha
  have hlt : r < G.elements.length := by
    rw [RuleSet.elements, length_map]
    exact RuleSet.lt_of_mem_prods ha
  exact ⟨_, Reachable.start hlt hi, fun ht => hna ((represents_start hp).terminates_iff.mp ht)⟩

/-- For rules that pass the check, advancing ends on all reachable stacks exactly when no rule
reaches itself behind rules that can be empty, be it through other rules. -/
theorem advanceStack_terminates_iff (G : RuleSet) :
    (PassesCheck G.elements → ∀ s, Reachable G.elements s → Terminates G.elements s) ↔
      (PassesCheck G.elements → ¬ LeftRecursive G.prods) := by
  refine forall_congr' fun _ => ⟨fun hall hrec => ?_, fun hn s hs => ?_⟩
  · obtain ⟨s, hs, hn⟩ := exists_not_terminates hrec
    exact hn (hall s hs)
  · obtain ⟨f, hf⟩ := hs.represents
    exact hf.terminates_iff.mpr (RuleSet.halts hn f)

/-- `root ::= a root "x" | "y"`, `a ::= b`, `b ::= | "b"`: rule `a` is empty only through
rule `b`. -/
def hiddenRecursive : RuleSet where
  alts := [[[.nonterminal 1, .nonterminal 0, .terminal (.cls false (.char 120) [])],
      [.terminal (.cls false (.char 121) [])]],
    [[.nonterminal 2]], [[], [.terminal (.cls false (.char 98) [])]]]
  defined := by simp
  closed := by simp

theorem hiddenRecursive_leftRecursive : LeftRecursive hiddenRecursive.prods := by
  have hb : Expand hiddenRecursive.prods [.nonterminal 2] [] :=
    @Expand.mk _ _ _ 2 [] [] (by simp [RuleSet.prods, hiddenRecursive])
  have ha : Expand hiddenRecursive.prods [.nonterminal 1] [.nonterminal 2] :=
    @Expand.mk _ _ _ 1 [.nonterminal 2] [] (by simp [RuleSet.prods, hiddenRecursive])
  exact ⟨0, TransGen.single ⟨[.nonterminal 1], [.terminal (.cls false (.char 120) [])],
    by simp [RuleSet.prods, hiddenRecursive], (ReflTransGen.single ha).tail hb⟩⟩

/-- Rules that pass the check and on which advancing does not end. -/
theorem hiddenRecursive_diverges :
    PassesCheck hiddenRecursive.elements ∧
    ¬ ∀ s, Reachable hiddenRecursive.elements s → Terminates hiddenRecursive.elements s := by
  refine ⟨⟨_, rfl⟩, fun hall => ?_⟩
  obtain ⟨s, hs, hn⟩ := exists_not_terminates hiddenRecursive_leftRecursive
  exact hn (hall s hs)

end Llama.Grammar
