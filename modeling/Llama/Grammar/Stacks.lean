import Llama.Grammar.Syntax
import Llama.Lib.Loop

/-!
# Stacks and sentential forms

A pointer into a rule stands for the symbols up to the end of its alternate, a stack for the
symbols of its pointers from the top down. Advancing a stack follows the leftmost expansions
of its form.
-/

namespace Llama.Grammar

open Relation Leftmost List

variable {G : RuleSet}

/-- The pointer stands in front of the given symbols and the end of an alternate. -/
structure Points (G : RuleSet) (p : Pos) (sy : List Sym) : Prop where
  layout : ∃ e tl, G.elements.from p = altElements sy ++ e :: tl ∧ isEndOfSequence e = true
  closed : ∀ r, .nonterminal r ∈ sy → r < G.alts.length

/-- The stack stands for the form. -/
inductive Represents (G : RuleSet) : Stack → List Sym → Prop
  | nil : Represents G [] []
  | cons {p : Pos} {sy : List Sym} {st : Stack} {f : List Sym} (hp : Points G p sy)
      (hne : sy ≠ []) (hst : Represents G st f) : Represents G (p :: st) (sy ++ f)

/-- One recursive call of `llama_grammar_advance_stack`. -/
inductive Child (rules : Rules) : Stack → Stack → Prop
  | mk {p : Pos} {st : Stack} {i : Nat} (hp : (rules.elem p).type = .ruleRef)
      (hi : i ∈ altStarts (rules.rule (rules.elem p).value)) :
      Child rules (p :: st)
        (rules.push { rule := (rules.elem p).value, idx := i } (rules.push (p.add 1) st))

/-- No rule is on top. -/
def Rules.Ready (rules : Rules) : Stack → Prop
  | [] => True
  | p :: _ => (rules.elem p).type ≠ .ruleRef

/-- No nonterminal is in front. -/
def FormReady : List Sym → Prop
  | .nonterminal _ :: _ => False
  | _ => True

theorem Rules.from_add (rules : Rules) (p : Pos) (k : Nat) :
    rules.from (p.add k) = (rules.from p).drop k := by
  simp [Rules.from, Pos.add, drop_drop]

variable {p : Pos} {s t : Stack} {sy a f g : List Sym} {r i fuel : Nat} {acc : Stacks}
  {rules : Rules}

theorem Points.next {s : Sym} (h : Points G p (s :: sy)) :
    Points G (p.add (symElements s).length) sy := by
  obtain ⟨⟨e, tl, hfrom, he⟩, hc⟩ := h
  refine ⟨⟨e, tl, ?_, he⟩, fun r hr => hc r (mem_cons_of_mem s hr)⟩
  rw [Rules.from_add, hfrom, altElements, flatMap_cons, append_assoc, drop_left]
  rfl

theorem Points.elem_end (h : Points G p []) : isEndOfSequence (G.elements.elem p) = true := by
  obtain ⟨⟨e, tl, hfrom, he⟩, -⟩ := h
  rw [Rules.elem, hfrom]
  exact he

theorem Points.elem_mem {s : Sym} (h : Points G p (s :: sy)) :
    ∃ es, symElements s = G.elements.elem p :: es := by
  obtain ⟨⟨e, tl, hfrom, -⟩, -⟩ := h
  cases hs : symElements s with
  | nil => exact (symElements_ne_nil s hs).elim
  | cons x es =>
    refine ⟨es, ?_⟩
    rw [Rules.elem, hfrom, altElements, flatMap_cons, hs]
    rfl

theorem Points.not_end {s : Sym} (h : Points G p (s :: sy)) :
    isEndOfSequence (G.elements.elem p) = false := by
  obtain ⟨es, hes⟩ := h.elem_mem
  have := symElements_ne_end (s := s) (e := G.elements.elem p) (by rw [hes]; simp)
  rw [← Bool.not_eq_true, isEndOfSequence_iff]
  simp [this]

theorem Points.elem_ref (h : Points G p (.nonterminal r :: sy)) :
    G.elements.elem p = { type := .ruleRef, value := r } := by
  obtain ⟨es, hes⟩ := h.elem_mem
  simp only [symElements, List.cons.injEq] at hes
  exact hes.1.symm

/-- The type of the first element of a terminal. -/
def Terminal.greType : Terminal → GreType
  | .any => .charAny
  | .cls neg _ _ => if neg then .charNot else .char
  | .token neg _ => if neg then .tokenNot else .token

theorem Points.elem_terminal {t : Terminal} (h : Points G p (.terminal t :: sy)) :
    (G.elements.elem p).type = t.greType := by
  obtain ⟨es, hes⟩ := h.elem_mem
  cases t with
  | any =>
    simp only [symElements, Terminal.elements, List.cons.injEq] at hes
    rw [← hes.1, Terminal.greType]
  | cls neg first rest =>
    cases first <;>
    · simp only [symElements, Terminal.elements, Item.elements, cons_append, List.cons.injEq] at hes
      rw [← hes.1, Terminal.greType]
  | token neg id =>
    simp only [symElements, Terminal.elements, List.cons.injEq] at hes
    rw [← hes.1, Terminal.greType]

/-- A pointer is pushed exactly when symbols follow. -/
theorem Represents.push {p : Pos} {sy : List Sym} {st : Stack} {f : List Sym}
    (hp : Points G p sy) (hst : Represents G st f) :
    Represents G (G.elements.push p st) (sy ++ f) := by
  cases sy with
  | nil =>
    rw [Rules.push, if_pos hp.elem_end]
    exact hst
  | cons s sy =>
    rw [Rules.push, if_neg (by simp [hp.not_end])]
    exact Represents.cons hp (by simp) hst

theorem represents_start (hp : Points G { rule := r, idx := i } a) :
    Represents G (G.elements.push { rule := r, idx := i } []) a := by
  have := (Represents.nil (G := G)).push hp
  rwa [append_nil] at this

theorem Represents.eq_nil_iff (h : Represents G s f) : s = [] ↔ f = [] := by
  cases h with
  | nil => simp
  | cons hp hne _ => simp [hne]

/-- The symbol in front of the form belongs to the pointer on top. -/
theorem Represents.cases_cons {x : Sym} (h : Represents G s (x :: f)) :
    ∃ p st sy g, s = p :: st ∧ f = sy ++ g ∧ Points G p (x :: sy) ∧ Represents G st g := by
  generalize hy : x :: f = y at h
  cases h with
  | nil => cases hy
  | @cons p sy st g hp hne hst =>
    cases sy with
    | nil => exact (hne rfl).elim
    | cons z sy =>
      simp only [cons_append, List.cons.injEq] at hy
      obtain ⟨rfl, rfl⟩ := hy
      exact ⟨p, st, sy, g, rfl, rfl, hp, hst⟩

theorem Represents.ready_iff (h : Represents G s f) : G.elements.Ready s ↔ FormReady f := by
  match f, h with
  | [], h =>
    rw [h.eq_nil_iff.mpr rfl]
    simp [Rules.Ready, FormReady]
  | .nonterminal r :: f, h =>
    obtain ⟨p, st, sy, g, rfl, -, hp, -⟩ := h.cases_cons
    simp [Rules.Ready, FormReady, hp.elem_ref]
  | .terminal t :: f, h =>
    obtain ⟨p, st, sy, g, rfl, -, hp, -⟩ := h.cases_cons
    have := hp.elem_terminal
    cases t with
    | any => simp [Rules.Ready, FormReady, this, Terminal.greType]
    | cls neg first rest => cases neg <;> simp [Rules.Ready, FormReady, this, Terminal.greType]
    | token neg id => cases neg <;> simp [Rules.Ready, FormReady, this, Terminal.greType]

theorem nextStarts_alt (a : List Sym) (es : List Element) (i : Nat) :
    nextStarts (altElements a ++ es) i = nextStarts es (i + (altElements a).length) := by
  have hgen : ∀ (xs : List Element), (∀ e ∈ xs, e.type ≠ .end_ ∧ e.type ≠ .alt) → ∀ i,
      nextStarts (xs ++ es) i = nextStarts es (i + xs.length) := by
    intro xs
    induction xs with
    | nil => simp
    | cons e xs ih =>
      intro hxs i
      have he := hxs e mem_cons_self
      rw [cons_append, nextStarts]
      split
      · rename_i h
        exact (he.2 h).elim
      · rename_i h
        exact (he.1 h).elim
      · rw [ih (fun x hx => hxs x (mem_cons_of_mem e hx))]
        simp only [length_cons]
        congr 1
        omega
  exact hgen _ (fun _ he => altElements_ne_end he) i

/-- The scanned starts are the starts of the alternates, in order. -/
theorem starts_forall₂ {rule : List Element} (as : List (List Sym)) (has : as ≠ []) (i : Nat)
    (hrule : rule.drop i = ruleElements as) :
    Forall₂ (fun j a => ∃ e tl, rule.drop j = altElements a ++ e :: tl ∧
      isEndOfSequence e = true) (i :: nextStarts (ruleElements as) i) as := by
  induction as generalizing i with
  | nil => exact (has rfl).elim
  | cons a as ih =>
    cases as with
    | nil =>
      simp only [ruleElements] at hrule ⊢
      rw [nextStarts_alt]
      exact List.Forall₂.cons ⟨_, _, hrule, rfl⟩ List.Forall₂.nil
    | cons b bs =>
      rw [ruleElements] at hrule ⊢
      · rw [nextStarts_alt]
        refine List.Forall₂.cons ⟨_, _, hrule, rfl⟩ (ih (by simp) _ ?_)
        rw [Nat.add_assoc, ← drop_drop, hrule, ← drop_drop, drop_left]
        rfl
      · simp
      · simp

/-- The layout of the alternates at the scanned starts. -/
theorem RuleSet.starts_layout (hr : r < G.alts.length) :
    Forall₂ (fun i a => ∃ e tl, G.elements.from { rule := r, idx := i } =
      altElements a ++ e :: tl ∧ isEndOfSequence e = true)
      (altStarts (G.elements.rule r)) (G.prods r) := by
  simp only [altStarts, Rules.from, RuleSet.rule_elements hr]
  exact starts_forall₂ (G.prods r) (RuleSet.prods_ne_nil hr) 0 rfl

theorem RuleSet.start_points (hr : r < G.alts.length) (hi : i ∈ altStarts (G.elements.rule r)) :
    ∃ a ∈ G.prods r, Points G { rule := r, idx := i } a := by
  obtain ⟨k, hk, rfl⟩ := getElem_of_mem hi
  have h := RuleSet.starts_layout hr
  have hk' := h.length_eq ▸ hk
  have ha := getElem_mem hk'
  exact ⟨_, ha, h.get hk hk', fun n hn => RuleSet.ref_lt ha hn⟩

theorem RuleSet.exists_start (ha : a ∈ G.prods r) :
    ∃ i ∈ altStarts (G.elements.rule r), Points G { rule := r, idx := i } a := by
  have h := RuleSet.starts_layout (RuleSet.lt_of_mem_prods ha)
  obtain ⟨k, hk, rfl⟩ := getElem_of_mem ha
  have hk' := h.length_eq.symm ▸ hk
  exact ⟨_, getElem_mem hk', h.get hk' hk, fun n hn => RuleSet.ref_lt ha hn⟩

theorem Child.expand {s' : Stack} (h : Child G.elements s s') (hs : Represents G s f) :
    ∃ g, Expand G.prods f g ∧ Represents G s' g := by
  cases h with
  | @mk p st i hp hi =>
    cases hs with
    | @cons _ sy _ f hpt hne hst =>
      match sy, hpt with
      | .terminal t :: sy, hpt =>
        have hready := (Represents.cons hpt hne hst).ready_iff.mpr trivial
        exact (hready hp).elim
      | .nonterminal r :: sy, hpt =>
        rw [hpt.elem_ref] at hi ⊢
        have hr := hpt.closed r mem_cons_self
        obtain ⟨a, ha, hpa⟩ := RuleSet.start_points hr hi
        exact ⟨a ++ (sy ++ f), Expand.mk _ ha, (hst.push hpt.next).push hpa⟩

theorem Represents.child (hs : Represents G s f) (h : Expand G.prods f g) :
    ∃ s', Child G.elements s s' ∧ Represents G s' g := by
  cases h with
  | @mk r a rest ha =>
    obtain ⟨p, st, sy, f, rfl, rfl, hp, hst⟩ := hs.cases_cons
    obtain ⟨i, hi, hpa⟩ := RuleSet.exists_start ha
    have hc := @Child.mk G.elements p st i (by rw [hp.elem_ref]) (by rw [hp.elem_ref]; exact hi)
    rw [hp.elem_ref] at hc
    exact ⟨_, hc, (hst.push hp.next).push hpa⟩

theorem Represents.expands (hs : Represents G s f) (h : ReflTransGen (Child G.elements) s t) :
    ∃ g, ReflTransGen (Expand G.prods) f g ∧ Represents G t g := by
  induction h with
  | refl => exact ⟨f, ReflTransGen.refl, hs⟩
  | tail _ hc ih =>
    obtain ⟨g, hg, ht⟩ := ih
    obtain ⟨g', hg', ht'⟩ := hc.expand ht
    exact ⟨g', hg.tail hg', ht'⟩

theorem Represents.children (hs : Represents G s f) (h : ReflTransGen (Expand G.prods) f g) :
    ∃ t, ReflTransGen (Child G.elements) s t ∧ Represents G t g := by
  induction h with
  | refl => exact ⟨s, ReflTransGen.refl, hs⟩
  | tail _ he ih =>
    obtain ⟨t, ht, hr⟩ := ih
    obtain ⟨t', ht', hr'⟩ := hr.child he
    exact ⟨t', ht.tail ht', hr'⟩

theorem mem_addStack : t ∈ addStack s acc ↔ t ∈ acc ∨ t = s := by
  rw [addStack]
  split
  · constructor
    · exact .inl
    · rintro (h | rfl)
      · exact h
      · assumption
  · simp

/-- A stack that is ready has no recursive call. -/
theorem Rules.Ready.reflTransGen (h : rules.Ready s) : ReflTransGen (Child rules) s t ↔ t = s := by
  constructor
  · intro hr
    rcases hr.cases_head with he | ⟨s', hc, -⟩
    · exact he.symm
    · cases hc with
      | mk hp hi => exact (h hp).elim
  · rintro rfl
    exact ReflTransGen.refl

theorem advanceStack_ready (hs : Represents G s f) (hf : FormReady f) (fuel : Nat) (acc : Stacks) :
    advanceStack G.elements (fuel + 1) s acc = .ok (addStack s acc) := by
  match f, hs with
  | [], hs =>
    rw [hs.eq_nil_iff.mpr rfl]
    rfl
  | .nonterminal r :: f, hs => exact hf.elim
  | .terminal t :: f, hs =>
    obtain ⟨p, st, sy, g, rfl, -, hp, -⟩ := hs.cases_cons
    have htype := hp.elem_terminal
    rw [advanceStack, htype]
    cases t with
    | any => rfl
    | cls neg first rest => cases neg <;> rfl
    | token neg id => cases neg <;> rfl

/-- A rule on top is replaced by its alternates in turn. -/
theorem advanceStack_ref {st : Stack} (hp : Points G p (.nonterminal r :: sy)) (fuel : Nat)
    (acc : Stacks) :
    advanceStack G.elements (fuel + 1) (p :: st) acc =
      (altStarts (G.elements.rule r)).foldlM (fun acc i => advanceStack G.elements fuel
        (G.elements.push { rule := r, idx := i } (G.elements.push (p.add 1) st)) acc) acc := by
  rw [advanceStack, hp.elem_ref]

/-- With enough fuel, advancing adds the stacks that are ready below the given one. -/
theorem advanceStack_ok (hs : Represents G s f) (h : HaltsIn G.prods fuel f) (acc : Stacks) :
    ∃ acc', advanceStack G.elements fuel s acc = .ok acc' ∧ ∀ t, t ∈ acc' ↔
      t ∈ acc ∨ (ReflTransGen (Child G.elements) s t ∧ G.elements.Ready t) := by
  induction fuel generalizing s f acc with
  | zero => exact h.elim
  | succ fuel ih =>
    by_cases hf : FormReady f
    · refine ⟨_, advanceStack_ready hs hf fuel acc, fun t => ?_⟩
      have hready := hs.ready_iff.mpr hf
      rw [mem_addStack, hready.reflTransGen]
      constructor
      · rintro (ht | rfl)
        · exact .inl ht
        · exact .inr ⟨rfl, hready⟩
      · rintro (ht | ⟨rfl, -⟩)
        · exact .inl ht
        · exact .inr rfl
    · match f, hs, hf with
      | [], _, hf => exact (hf trivial).elim
      | .terminal _ :: _, _, hf => exact (hf trivial).elim
      | .nonterminal r :: f, hs, _ =>
        obtain ⟨p, st, sy, g, rfl, rfl, hp, hst⟩ := hs.cases_cons
        have hr := hp.closed r mem_cons_self
        rw [advanceStack_ref hp]
        obtain ⟨acc', hok, hmem⟩ := Loop.foldlM_collect
          (Q := fun i t => ReflTransGen (Child G.elements)
            (G.elements.push { rule := r, idx := i } (G.elements.push (p.add 1) st)) t ∧
              G.elements.Ready t)
          (fun i hi acc => by
            obtain ⟨a, ha, hpa⟩ := RuleSet.start_points hr hi
            exact ih ((hst.push hp.next).push hpa) (h _ (Expand.mk _ ha)) acc) acc
        refine ⟨acc', hok, fun t => ?_⟩
        rw [hmem]
        refine or_congr_right ⟨?_, ?_⟩
        · rintro ⟨i, hi, hgen, hready⟩
          have hc := @Child.mk G.elements p st i (by rw [hp.elem_ref])
            (by rw [hp.elem_ref]; exact hi)
          rw [hp.elem_ref] at hc
          exact ⟨ReflTransGen.head hc hgen, hready⟩
        · rintro ⟨hgen, hready⟩
          rcases hgen.cases_head with rfl | ⟨s', hc, hgen⟩
          · exact (hready (by rw [hp.elem_ref])).elim
          · cases hc with
            | @mk _ _ i hpr hi =>
              rw [hp.elem_ref] at hi hgen
              exact ⟨i, hi, hgen, hready⟩

/-- More fuel does not change a result. -/
theorem advanceStack_mono {fuel' : Nat} (hle : fuel ≤ fuel') {acc' : Stacks}
    (h : advanceStack rules fuel s acc = .ok acc') : advanceStack rules fuel' s acc = .ok acc' := by
  induction fuel generalizing fuel' s acc acc' with
  | zero => cases h
  | succ fuel ih =>
    obtain ⟨k, rfl⟩ : ∃ k, fuel' = k + 1 := ⟨fuel' - 1, by omega⟩
    cases s with
    | nil => exact h
    | cons p st =>
      rw [advanceStack] at h ⊢
      cases ht : (rules.elem p).type with
      | ruleRef =>
        simp only [ht] at h ⊢
        exact Loop.foldlM_mono (fun b i _ b' hb => ih (by omega) hb) h
      | _ =>
        simp only [ht] at h ⊢
        exact h

/-- Without enough fuel the recursion is cut off, and nothing else goes wrong. -/
theorem advanceStack_fuel (hs : Represents G s f) (h : ¬ HaltsIn G.prods fuel f) (acc : Stacks) :
    advanceStack G.elements fuel s acc = .error .fuel := by
  induction fuel generalizing s f acc with
  | zero => rfl
  | succ fuel ih =>
    match f, hs, h with
    | [], _, h => exact (h fun g hg => (not_expand_nil hg).elim).elim
    | .terminal _ :: _, _, h => exact (h fun g hg => (not_expand_terminal hg).elim).elim
    | .nonterminal r :: f, hs, h =>
      obtain ⟨p, st, sy, g, rfl, rfl, hp, hst⟩ := hs.cases_cons
      have hr := hp.closed r mem_cons_self
      rw [advanceStack_ref hp]
      have hbad : ∃ a ∈ G.prods r, ¬ HaltsIn G.prods fuel (a ++ (sy ++ g)) := by
        by_contra hall
        push Not at hall
        refine h fun x hx => ?_
        obtain ⟨a, ha, rfl⟩ := expand_nonterminal.mp hx
        exact hall a ha
      obtain ⟨a, ha, hna⟩ := hbad
      obtain ⟨i, hi, hpa⟩ := RuleSet.exists_start ha
      refine Loop.foldlM_error hi (fun acc => ih ((hst.push hp.next).push hpa) hna acc)
        (fun j hj acc => ?_) acc
      obtain ⟨b, hb, hpb⟩ := RuleSet.start_points hr hj
      by_cases hb' : HaltsIn G.prods fuel (b ++ (sy ++ g))
      · obtain ⟨acc', hok, -⟩ := advanceStack_ok ((hst.push hp.next).push hpb) hb' acc
        exact .inl ⟨acc', hok⟩
      · exact .inr (ih ((hst.push hp.next).push hpb) hb' acc)

end Llama.Grammar
