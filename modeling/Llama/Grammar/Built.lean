import Llama.Grammar.Symbols
import Llama.Grammar.Syntax
import Llama.Lib.Wp

/-!
# What the parser has built

Behind the elements that the parser writes stand the alternates of the rules. `Built` ties a
state of the parser to them, and every write of the parser is followed on both sides: a new
name, a new rule, a repetition with the rules that it adds.
-/

namespace Llama.Grammar

open List

/-- The elements of a rule; one that is not defined yet has none. -/
def layout : List (List Sym) → List Element
  | [] => []
  | as => ruleElements as

/-- The elements of the alternates before the last one. -/
def closedElements (as : List (List Sym)) : List Element :=
  as.flatMap fun a => altElements a ++ [{ type := .alt, value := 0 }]

/-- Only rules below `n` are referred to. -/
def RefsBelow (n : Nat) (a : List Sym) : Prop := ∀ r, .nonterminal r ∈ a → r < n

theorem altElements_append (a b : List Sym) :
    altElements (a ++ b) = altElements a ++ altElements b :=
  flatMap_append

theorem altElements_flatten_replicate (n : Nat) (a : List Sym) :
    altElements (replicate n a).flatten = (replicate n (altElements a)).flatten := by
  induction n with
  | zero => rfl
  | succ n ih => simp only [replicate_succ, flatten_cons, altElements_append, ih]

/-- A rule is closed by the element `END`. -/
theorem ruleElements_concat (as : List (List Sym)) (a : List Sym) :
    ruleElements (as ++ [a]) =
      closedElements as ++ altElements a ++ [{ type := .end_, value := 0 }] := by
  induction as with
  | nil => rfl
  | cons b as ih =>
    rw [cons_append, ruleElements, ih]
    · simp [closedElements]
    · simp

theorem closedElements_concat (as : List (List Sym)) (a : List Sym) :
    closedElements (as ++ [a]) =
      closedElements as ++ altElements a ++ [{ type := .alt, value := 0 }] := by
  simp [closedElements]

variable {as : List (List Sym)} {n id base minTimes : Nat} {a item : List Sym}
  {l : List (Text × Nat)} {ruleName : Text}

theorem layout_of_ne_nil (h : as ≠ []) : layout as = ruleElements as := by
  cases as with
  | nil => exact (h rfl).elim
  | cons a as => rfl

theorem ruleElements_ne_nil (as : List (List Sym)) : ruleElements as ≠ [] := by
  match as with
  | [] => simp [ruleElements]
  | [a] => simp [ruleElements]
  | a :: b :: as => simp [ruleElements]

theorem layout_eq_nil : layout as = [] ↔ as = [] := by
  cases as with
  | nil => simp [layout]
  | cons a as => simpa [layout] using ruleElements_ne_nil (a :: as)

theorem RefsBelow.mono {m : Nat} (h : RefsBelow n a) (hle : n ≤ m) :
    RefsBelow m a := fun r hr => lt_of_lt_of_le (h r hr) hle

theorem RefsBelow.append {b : List Sym} (ha : RefsBelow n a) (hb : RefsBelow n b) :
    RefsBelow n (a ++ b) := fun r hr => (mem_append.mp hr).elim (ha r) (hb r)

theorem refsBelow_nil (n : Nat) : RefsBelow n [] := by simp [RefsBelow]

theorem refsBelow_ref {r : Nat} (h : r < n) : RefsBelow n [.nonterminal r] := by
  intro x hx
  obtain rfl : x = r := by simpa using hx
  exact h

theorem RefsBelow.replicate (ha : RefsBelow n a) (k : Nat) :
    RefsBelow n (replicate k a).flatten := by
  intro r hr
  obtain ⟨b, hb, hmem⟩ := mem_flatten.mp hr
  rw [eq_of_mem_replicate hb] at hmem
  exact ha r hmem

/-- The alternates of the synthesized rule `i` of a repetition; the first has number `base`. -/
def recAlternates (item : List Sym) (noMax : Bool) (base i : Nat) : List (List Sym) :=
  [item ++
    (if 0 < i ∨ noMax then [.nonterminal (if noMax then base + i else base + i - 1)] else []),
    []]

/-- The symbols that stand for a repeated item. -/
def replacement (item : List Sym) (minTimes nOpt base : Nat) : List Sym :=
  (replicate minTimes item).flatten ++ (if 0 < nOpt then [.nonterminal (base + nOpt - 1)] else [])

/-- The alternates of the rules that a state of the parser stands for. -/
structure Built (p : Parser) (alts : List (List (List Sym))) : Prop where
  rules_eq : p.rules = alts.map layout
  length_le : alts.length ≤ p.symbolIds.length
  closed : ∀ as ∈ alts, ∀ a ∈ as, RefsBelow p.symbolIds.length a
  numbered : Numbered p.symbolIds

/-- Numbers stay, and so do the rules with made-up names, those of the set. -/
structure Grows (ids : Set Nat) (p p' : Parser) : Prop where
  symbolIds : p.symbolIds <+: p'.symbolIds
  rules : ∀ id ∈ ids, Generated p.symbolIds id → p'.rules.rule id = p.rules.rule id

variable {p p' p'' : Parser} {alts : List (List (List Sym))} {ids ids' : Set Nat}

theorem Grows.refl (ids : Set Nat) (p : Parser) : Grows ids p p := ⟨prefix_rfl, fun _ _ _ => rfl⟩

theorem Grows.length_le (h : Grows ids p p') : p.symbolIds.length ≤ p'.symbolIds.length :=
  h.symbolIds.length_le

/-- Of the rules that stay at first, those that there are stay. -/
theorem Grows.append (h : Grows ids p p') (h' : Grows ids' p' p'')
    (hids : ∀ id ∈ ids, Generated p.symbolIds id → id ∈ ids') : Grows ids p p'' where
  symbolIds := h.symbolIds.trans h'.symbolIds
  rules id hid hg := (h'.rules id (hids id hid hg) (hg.mono h.symbolIds)).trans (h.rules id hid hg)

theorem Grows.mono (h : Grows ids p p') (hids : ids' ⊆ ids) : Grows ids' p p' :=
  ⟨h.symbolIds, fun id hid => h.rules id (hids hid)⟩

theorem Grows.trans (h : Grows ids p p') (h' : Grows Set.univ p' p'') : Grows ids p p'' :=
  h.append h' fun _ _ _ => trivial

theorem built_empty : Built Parser.empty [] where
  rules_eq := rfl
  length_le := le_refl _
  closed := by simp
  numbered := ⟨rfl, by simp [Parser.empty]⟩

theorem Built.number (h : Built p alts) (hl : p.symbolIds <+: l) (hn : Numbered l) :
    Built { p with symbolIds := l } alts where
  rules_eq := h.rules_eq
  length_le := h.length_le.trans hl.length_le
  closed as has a ha := (h.closed as has a ha).mono hl.length_le
  numbered := hn

theorem grows_number (hl : p.symbolIds <+: l) :
    Grows Set.univ p { p with symbolIds := l } := ⟨hl, fun _ _ _ => rfl⟩

theorem map_writeAt {α β : Type} (f : α → β) (pad : α) (id : Nat) (a : α) (l : List α) :
    (writeAt pad id a l).map f = writeAt (f pad) id (f a) (l.map f) := by
  simp [writeAt]

theorem writeAt_length {α : Type} (pad : α) (id : Nat) (a : α) (l : List α) :
    (writeAt pad id a l).length = max l.length (id + 1) := by
  simp only [writeAt, length_set, length_append, length_replicate]
  omega

/-- Another rule stays as it is. -/
theorem rule_addRule (p : Parser) (id : Nat) (rule : List Element) (j : Nat) :
    (p.addRule id rule).rules.rule j = if j = id then rule else p.rules.rule j := by
  simp only [Parser.addRule, Rules.rule, writeAt]
  split
  · rename_i heq
    rw [heq, getElem?_set_self (by rw [length_append, length_replicate]; omega), Option.getD_some]
  · rename_i hne
    rw [getElem?_set_ne (Ne.symm hne), getElem?_append]
    split
    · rfl
    · rename_i hle
      rw [getElem?_eq_none (Nat.not_lt.mp hle), getElem?_replicate]
      split <;> rfl

theorem mem_writeAt {α : Type} {pad : α} {a : α} {l : List α} {x : α} (h : x ∈ writeAt pad id a l) :
    x ∈ l ∨ x = pad ∨ x = a := by
  rcases mem_or_eq_of_mem_set h with h | h
  · rcases mem_append.mp h with h | h
    · exact .inl h
    · exact .inr (.inl (eq_of_mem_replicate h))
  · exact .inr (.inr h)

/-- A rule is defined, or defined anew. -/
theorem Built.addRule (h : Built p alts) (has : as ≠ []) (hid : id < p.symbolIds.length)
    (hrefs : ∀ a ∈ as, RefsBelow p.symbolIds.length a) :
    Built (p.addRule id (ruleElements as)) (writeAt [] id as alts) where
  rules_eq := by
    rw [map_writeAt, ← h.rules_eq, layout_of_ne_nil has]
    rfl
  length_le := by
    rw [writeAt_length]
    exact max_le h.length_le hid
  closed bs hbs a ha := by
    rcases mem_writeAt hbs with hbs | rfl | rfl
    · exact h.closed bs hbs a ha
    · cases ha
    · exact hrefs a ha
  numbered := h.numbered

theorem grows_addRule (id : Nat) (rule : List Element) :
    Grows (fun j => j ≠ id) p (p.addRule id rule) :=
  ⟨prefix_rfl, fun j hj _ => by rw [rule_addRule, if_neg hj]⟩

theorem ruleElements_recAlternates (item : List Sym) (noMax : Bool) (base i : Nat) :
    ruleElements (recAlternates item noMax base i) = altElements item ++
      (if 0 < i ∨ noMax then [refTo (if noMax then base + i else base + i - 1)] else []) ++
        [{ type := .alt, value := 0 }, { type := .end_, value := 0 }] := by
  rw [recAlternates, ruleElements, altElements_append]
  · split <;> simp [ruleElements, altElements, symElements, refTo]
  · simp

theorem lastRecRuleId_range (base n : Nat) (f : Nat → List Element) (hn : 0 < n) :
    lastRecRuleId ((range n).map fun i => (base + i, f i)) = base + n - 1 := by
  obtain ⟨n, rfl⟩ := Nat.exists_eq_succ_of_ne_zero hn.ne'
  rw [Nat.succ_eq_add_one, range_succ]
  simp [lastRecRuleId]

/-- What the loop over the optional rules has done after `n` turns. -/
structure RecRules (p p' : Parser) (item : List Sym) (noMax : Bool) (n : Nat) : Prop where
  symbolIds : p.symbolIds <+: p'.symbolIds
  length_eq : p'.symbolIds.length = p.symbolIds.length + n
  built : ∃ alts, Built p' alts
  /-- The new rules, and the others as they were. -/
  rule_eq : ∀ id, p'.rules.rule id =
    if p.symbolIds.length ≤ id ∧ id < p.symbolIds.length + n then
      ruleElements (recAlternates item noMax p.symbolIds.length (id - p.symbolIds.length))
    else p.rules.rule id
  generated : ∀ i < n, Generated p'.symbolIds (p.symbolIds.length + i)

theorem refsBelow_recAlternates {i : Nat} (noMax : Bool) (hitem : RefsBelow n item)
    (hi : base + i < n) : ∀ a ∈ recAlternates item noMax base i, RefsBelow n a := by
  intro a ha
  simp only [recAlternates, mem_cons, not_mem_nil, or_false] at ha
  rcases ha with rfl | rfl
  · refine hitem.append ?_
    split
    · refine refsBelow_ref ?_
      split <;> omega
    · exact refsBelow_nil n
  · exact refsBelow_nil n

theorem addRecRules_built (h : Built p alts) (hu : byte '_' ∉ ruleName)
    (hitem : RefsBelow p.symbolIds.length item) (noMax : Bool) (n : Nat) :
    RecRules p (addRecRules ruleName (altElements item) noMax n p).1 item noMax n ∧
      (addRecRules ruleName (altElements item) noMax n p).2 = (range n).map fun i =>
        (p.symbolIds.length + i, ruleElements (recAlternates item noMax p.symbolIds.length i)) := by
  induction n with
  | zero =>
    exact ⟨⟨prefix_rfl, rfl, ⟨alts, h⟩, fun id => by rw [if_neg (by omega)]; rfl, by simp⟩, rfl⟩
  | succ n ih =>
    obtain ⟨hr, hrecs⟩ := ih
    obtain ⟨alts', hb⟩ := hr.built
    generalize hp : addRecRules ruleName (altElements item) noMax n p = r at hr hrecs hb
    obtain ⟨q, recs⟩ := r
    dsimp only at hr hrecs hb
    have hlen := hr.length_eq
    have hrule : altElements item ++ (if 0 < n ∨ noMax then [refTo (if noMax then
        q.symbolIds.length else lastRecRuleId recs)] else []) ++
          [{ type := .alt, value := 0 }, { type := .end_, value := 0 }] =
        ruleElements (recAlternates item noMax p.symbolIds.length n) := by
      rw [ruleElements_recAlternates, hlen]
      by_cases hn : 0 < n
      · rw [hrecs, lastRecRuleId_range _ _ _ hn]
      · cases noMax <;> simp [hn]
    have hadd : addRecRules ruleName (altElements item) noMax (n + 1) p =
        (({ q with symbolIds := q.symbolIds ++
            [(generatedName ruleName q.symbolIds.length, q.symbolIds.length)] } : Parser).addRule
          q.symbolIds.length (ruleElements (recAlternates item noMax p.symbolIds.length n)),
          recs ++ [(q.symbolIds.length,
            ruleElements (recAlternates item noMax p.symbolIds.length n))]) := by
      simp only [addRecRules, hp, Parser.generateSymbolId_eq hb.numbered hu, hrule]
    rw [hadd]
    have hlong : q.symbolIds <+: q.symbolIds ++
        [(generatedName ruleName q.symbolIds.length, q.symbolIds.length)] :=
      prefix_append _ _
    have hq := hb.number hlong (hb.numbered.push (.inr ⟨ruleName, hu, rfl⟩))
    refine ⟨⟨hr.symbolIds.trans hlong, by simp [Parser.addRule, hlen]; omega, ⟨_, hq.addRule
      (by simp [recAlternates]) (by simp) (refsBelow_recAlternates noMax (hitem.mono ?_) ?_)⟩,
      fun id => ?_, fun i hi => ?_⟩, ?_⟩
    · simp [hlen]
      omega
    · simp [hlen]
    · rw [rule_addRule]
      dsimp only
      rw [hr.rule_eq, hlen]
      by_cases heq : id = p.symbolIds.length + n
      · rw [if_pos heq, if_pos (by omega), heq, Nat.add_sub_cancel_left]
      · rw [if_neg heq]
        exact if_congr (by omega) rfl rfl
    · rcases Nat.lt_succ_iff_lt_or_eq.mp hi with hlt | rfl
      · exact (hr.generated i hlt).mono hlong
      · exact ⟨ruleName, by simp [Parser.addRule, hlen]⟩
    · rw [hrecs, range_succ, map_append, hlen]
      rfl

open Wp

/-- A call may throw, but it does not run out of turns. -/
def Failed (e : ParseError) (_ : Parser) : Prop := e ≠ .fuel

theorem wp_lift {α : Type} {x : Except ParseError α} {Q : α → Prop} {R : α → Parser → Prop}
    (hx : Reads x Q) (h : ∀ a, Q a → R a p) : wp (ParserM.lift x) R Failed p := by
  cases x with
  | ok a => exact h a hx
  | error e => exact hx

theorem flatten_replicate_pred (h : minTimes ≠ 0) (es : List Element) :
    es ++ (replicate (minTimes - 1) es).flatten = (replicate minTimes es).flatten := by
  obtain ⟨k, rfl⟩ := Nat.exists_eq_succ_of_ne_zero h
  rw [Nat.succ_eq_add_one, Nat.add_sub_cancel, replicate_succ, flatten_cons]

/-- The elements of the rule after a repetition. -/
theorem rule_replaced (front : List Element) (item : List Sym) (minTimes nOpt base : Nat)
    {recs : List (Nat × List Element)} (hrecs : 0 < nOpt → lastRecRuleId recs = base + nOpt - 1) :
    (if 0 < nOpt then
      (if minTimes = 0 then front else front ++ altElements item ++
        (replicate (minTimes - 1) (altElements item)).flatten) ++ [refTo (lastRecRuleId recs)]
    else if minTimes = 0 then front else front ++ altElements item ++
        (replicate (minTimes - 1) (altElements item)).flatten) =
      front ++ altElements (replacement item minTimes nOpt base) := by
  have hcopies : (if minTimes = 0 then front else front ++ altElements item ++
      (replicate (minTimes - 1) (altElements item)).flatten) =
        front ++ altElements (replicate minTimes item).flatten := by
    rw [altElements_flatten_replicate]
    split
    · rename_i hzero
      simp [hzero]
    · rename_i hpos
      rw [append_assoc, flatten_replicate_pred hpos]
  rw [hcopies, replacement, altElements_append]
  by_cases hopt : 0 < nOpt
  · simp [hopt, hrecs hopt, altElements, symElements, refTo]
  · simp [hopt, altElements]

theorem refsBelow_replacement {nOpt : Nat} (hitem : RefsBelow n item) (hn : base + nOpt ≤ n) :
    RefsBelow n (replacement item minTimes nOpt base) := by
  refine (hitem.replicate minTimes).append ?_
  split
  · exact refsBelow_ref (by omega)
  · exact refsBelow_nil n

/-- What a repetition with these bounds does to a built state: its rules are added, and nothing
else changes. -/
structure Repeated (p p' : Parser) (item : List Sym) (minTimes maxTimes : Nat) : Prop where
  bounds : minTimes ≤ maxRepetitionThreshold ∧
    (maxTimes = uint64Max ∨ maxTimes ≤ maxRepetitionThreshold)
  rules : RecRules p p' item (maxTimes = uint64Max) (optionalCount minTimes maxTimes)

/-- The symbols that stand for the item. -/
def emitted (p : Parser) (item : List Sym) (minTimes maxTimes : Nat) : List Sym :=
  replacement item minTimes (optionalCount minTimes maxTimes) p.symbolIds.length

variable {maxTimes : Nat}

theorem Repeated.grows (hb : Built p alts) (h : Repeated p p' item minTimes maxTimes) :
    Grows Set.univ p p' where
  symbolIds := h.rules.symbolIds
  rules id _ hid := by
    obtain ⟨base, hmem⟩ := hid
    have hlt := hb.numbered.lt hmem
    rw [h.rules.rule_eq, if_neg fun hle => absurd hlt (Nat.not_lt.mpr hle.1)]

theorem Repeated.refsBelow (h : Repeated p p' item minTimes maxTimes)
    (hitem : RefsBelow p.symbolIds.length item) :
    RefsBelow p'.symbolIds.length (emitted p item minTimes maxTimes) :=
  refsBelow_replacement (hitem.mono h.rules.symbolIds.length_le) h.rules.length_eq.ge

/-- A repetition puts symbols in place of the item and adds its rules. -/
theorem handleRepetitions_built (h : Built p alts) (pos : Text) (hu : byte '_' ∉ ruleName)
    (front : List Element) (hitem : RefsBelow p.symbolIds.length item)
    (hmin : minTimes ≤ maxRepetitionThreshold)
    (hmax : maxTimes = uint64Max ∨ maxTimes ≤ maxRepetitionThreshold) :
    wp (handleRepetitions pos ruleName (front ++ altElements item) front.length minTimes maxTimes)
      (fun rule p' => rule = front ++ altElements (emitted p item minTimes maxTimes) ∧
        Repeated p p' item minTimes maxTimes) Failed p := by
  by_cases hnil : front.length = (front ++ altElements item).length
  · have hthrow : handleRepetitions pos ruleName (front ++ altElements item) front.length minTimes
        maxTimes p = .error (.expectingPrecedingItem pos) p := by
      rw [handleRepetitions, if_pos hnil]
    exact wp_of_error hthrow (by simp [Failed])
  · obtain ⟨hr, hrecs⟩ := addRecRules_built h hu hitem (maxTimes = uint64Max)
      (optionalCount minTimes maxTimes)
    generalize hadd : addRecRules ruleName (altElements item) (maxTimes = uint64Max)
      (optionalCount minTimes maxTimes) p = r at hr hrecs
    obtain ⟨q, recs⟩ := r
    dsimp only at hr hrecs
    have hlast : 0 < optionalCount minTimes maxTimes → lastRecRuleId recs =
        p.symbolIds.length + optionalCount minTimes maxTimes - 1 := by
      intro hpos
      rw [hrecs, lastRecRuleId_range _ _ _ hpos]
    have hrule := rule_replaced front item minTimes (optionalCount minTimes maxTimes)
      p.symbolIds.length hlast
    have hok : handleRepetitions pos ruleName (front ++ altElements item) front.length minTimes
        maxTimes p = .ok (front ++ altElements (emitted p item minTimes maxTimes)) q := by
      simp only [handleRepetitions, if_neg hnil, drop_left, take_left, hadd, hrule, emitted]
    exact wp_of_ok hok ⟨rfl, ⟨hmin, hmax⟩, hr⟩

end Llama.Grammar
