import Llama.Grammar.TokenRun

/-!
# What the stacks read

For any rules and any bound on the recursion, the stacks after some code points are the union
of what every stack becomes on its own, as long as none of them fails. So it makes no
difference whether the stacks are taken through the code points together or one by one, which
is where `llama_grammar_accept_str` and `llama_grammar_accept_token` differ.
-/

namespace Llama.Grammar

open List

/-- A stop that is not the exception about an empty grammar stack. -/
def Stop.Fatal (e : Stop) : Prop := e ≠ .emptyStack

/-- Reading the code point turns the stack into the other, among others. -/
def ReadsOne (rules : Rules) (fuel c : Nat) (s t : Stack) : Prop :=
  ∃ R, acceptChr rules fuel c [] s = .ok R ∧ t ∈ R

/-- Reading the code point fails. -/
def FailsOne (rules : Rules) (fuel c : Nat) (s : Stack) : Prop :=
  ∃ e, acceptChr rules fuel c [] s = .error e

/-- Reading the code points turns the stack into the other. -/
def ReadsTo (rules : Rules) (fuel : Nat) : List Nat → Stack → Stack → Prop
  | [], s, t => s = t
  | c :: cps, s, t => ∃ m, ReadsOne rules fuel c s m ∧ ReadsTo rules fuel cps m t

/-- Some code point fails. -/
def FailsOn (rules : Rules) (fuel : Nat) : List Nat → Stack → Prop
  | [], _ => False
  | c :: cps, s => FailsOne rules fuel c s ∨ ∃ m, ReadsOne rules fuel c s m ∧
      FailsOn rules fuel cps m

/-- The call fails in the given case, and otherwise ends with the given stacks. -/
def Ends (r : Except Stop Stacks) (fails : Prop) (S : Stack → Prop) : Prop :=
  (fails ∧ ∃ e, e.Fatal ∧ r = .error e) ∨ (¬ fails ∧ ∃ R, r = .ok R ∧ ∀ t, t ∈ R ↔ S t)

variable {rules : Rules} {fuel : Nat}

theorem Ends.congr {r : Except Stop Stacks} {f f' : Prop} {S S' : Stack → Prop} (h : Ends r f S)
    (hf : f ↔ f') (hS : ∀ t, S t ↔ S' t) : Ends r f' S' := by
  obtain rfl := propext hf
  obtain rfl : S = S' := funext fun t => propext (hS t)
  exact h

theorem advanceStack_collects (rules : Rules) (fuel : Nat) (s : Stack) :
    Loop.Collects Stop.Fatal (advanceStack rules fuel s) := by
  have hadd : ∀ st, Loop.Collects Stop.Fatal fun acc => .ok (addStack st acc) := fun st =>
    .inl ⟨[st], fun acc => ⟨_, rfl, fun t => by rw [mem_addStack, mem_singleton]⟩⟩
  induction fuel generalizing s with
  | zero => exact .inr ⟨.fuel, fun h => (by cases h), fun _ => rfl⟩
  | succ fuel ih =>
    cases s with
    | nil => exact hadd []
    | cons p st =>
      cases htype : (rules.elem p).type with
      | ruleRef =>
        have hloop := Loop.collects_foldlM (F := Stop.Fatal)
          (l := altStarts (rules.rule (rules.elem p).value)) fun i _ => ih
            (rules.push { rule := (rules.elem p).value, idx := i } (rules.push (p.add 1) st))
        exact hloop.congr fun acc => by rw [advanceStack, htype]
      | end_ | alt | charRngUpper | charAlt =>
        exact .inr ⟨.abort, fun h => (by cases h), fun acc => by rw [advanceStack, htype]⟩
      | char | charNot | charAny | token | tokenNot =>
        exact (hadd (p :: st)).congr fun acc => by rw [advanceStack, htype]

theorem collects_id : Loop.Collects Stop.Fatal fun acc : Stacks => (.ok acc : Except Stop Stacks) :=
  .inl ⟨[], fun acc => ⟨acc, rfl, by simp⟩⟩

theorem acceptChr_collects (rules : Rules) (fuel c : Nat) (s : Stack) :
    Loop.Collects Stop.Fatal fun acc => acceptChr rules fuel c acc s := by
  cases s with
  | nil => exact collects_id
  | cons p st =>
    simp only [acceptChr]
    split
    · exact collects_id
    · rw [matchChar]
      dsimp only
      split
      · simp only [bind, Except.bind]
        split
        · exact advanceStack_collects rules fuel _
        · exact collects_id
      · exact .inr ⟨.abort, fun h => (by cases h), fun _ => rfl⟩

/-- A stack fails, or it adds the stacks that it becomes. -/
theorem acceptChr_ends (c : Nat) (s : Stack) :
    (FailsOne rules fuel c s ∧ ∃ e, e.Fatal ∧ ∀ acc, acceptChr rules fuel c acc s = .error e) ∨
      (¬ FailsOne rules fuel c s ∧ ∀ acc, ∃ acc', acceptChr rules fuel c acc s = .ok acc' ∧
        ∀ t, t ∈ acc' ↔ t ∈ acc ∨ ReadsOne rules fuel c s t) := by
  rcases acceptChr_collects rules fuel c s with ⟨R, hR⟩ | ⟨e, he, hbad⟩
  · obtain ⟨R0, hok0, hmem0⟩ := hR []
    refine .inr ⟨?_, fun acc => ?_⟩
    · rintro ⟨e, he⟩
      cases he.symm.trans hok0
    · obtain ⟨acc', hok, hmem⟩ := hR acc
      refine ⟨acc', hok, fun t => (hmem t).trans (or_congr_right ?_)⟩
      constructor
      · exact fun ht => ⟨R0, hok0, (hmem0 t).mpr (.inr ht)⟩
      · rintro ⟨R', hok', ht⟩
        obtain rfl := Except.ok.inj (hok0.symm.trans hok')
        exact ((hmem0 t).mp ht).resolve_left (by simp)
  · exact .inl ⟨⟨e, hbad []⟩, e, he, hbad⟩

/-- A loop over stacks that fail or add. -/
theorem foldlM_ends {step : Stacks → Stack → Except Stop Stacks} {fails : Stack → Prop}
    {adds : Stack → Stack → Prop} (sts : Stacks)
    (h : ∀ s ∈ sts, (fails s ∧ ∃ e, e.Fatal ∧ ∀ acc, step acc s = .error e) ∨
      (¬ fails s ∧ ∀ acc, ∃ acc', step acc s = .ok acc' ∧ ∀ t, t ∈ acc' ↔ t ∈ acc ∨ adds s t)) :
    Ends (sts.foldlM step []) (∃ s ∈ sts, fails s) fun t => ∃ s ∈ sts, adds s t := by
  by_cases hfails : ∃ s ∈ sts, fails s
  · obtain ⟨s, hs, hf⟩ := hfails
    refine .inl ⟨⟨s, hs, hf⟩, ?_⟩
    obtain ⟨-, e, he, hbad⟩ := (h s hs).resolve_right fun hn => hn.1 hf
    refine Loop.foldlM_fails hs (fun b => ⟨e, he, hbad b⟩) (fun x hx b => ?_) []
    rcases h x hx with ⟨-, e, he, hbad⟩ | ⟨-, hok⟩
    · exact .inr ⟨e, he, hbad b⟩
    · obtain ⟨b', hb, -⟩ := hok b
      exact .inl ⟨b', hb⟩
  · refine .inr ⟨hfails, ?_⟩
    have hturn : ∀ s ∈ sts, ∀ acc, ∃ acc', step acc s = .ok acc' ∧
        ∀ t, t ∈ acc' ↔ t ∈ acc ∨ adds s t := fun s hs acc =>
      ((h s hs).resolve_left fun hf => hfails ⟨s, hs, hf.1⟩).2 acc
    obtain ⟨R, hok, hmem⟩ := Loop.foldlM_collect hturn []
    exact ⟨R, hok, fun t => by rw [hmem]; simp⟩

theorem accept_ends (rules : Rules) (fuel c : Nat) (sts : Stacks) :
    Ends (accept rules fuel sts c) (∃ s ∈ sts, FailsOne rules fuel c s)
      fun t => ∃ s ∈ sts, ReadsOne rules fuel c s t :=
  foldlM_ends sts fun s _ => acceptChr_ends c s

/-- Code points in turn. -/
theorem word_ends (rules : Rules) (fuel : Nat) (cps : List Nat) (sts : Stacks) :
    Ends (cps.foldlM (accept rules fuel) sts) (∃ s ∈ sts, FailsOn rules fuel cps s)
      fun t => ∃ s ∈ sts, ReadsTo rules fuel cps s t := by
  induction cps generalizing sts with
  | nil =>
    refine .inr ⟨?_, sts, rfl, fun t => ?_⟩
    · rintro ⟨s, -, hf⟩
      exact hf
    · simp [ReadsTo]
  | cons c cps ih =>
    rw [foldlM_cons]
    rcases accept_ends rules fuel c sts with ⟨⟨s, hs, hf⟩, e, he, hbad⟩ | ⟨hnot, R, hok, hmem⟩
    · exact .inl ⟨⟨s, hs, .inl hf⟩, e, he, by rw [hbad]; rfl⟩
    · rw [hok]
      refine (ih R).congr ⟨?_, ?_⟩ fun t => ⟨?_, ?_⟩
      · rintro ⟨m, hm, hf⟩
        obtain ⟨s, hs, hread⟩ := (hmem m).mp hm
        exact ⟨s, hs, .inr ⟨m, hread, hf⟩⟩
      · rintro ⟨s, hs, hf | ⟨m, hread, hf⟩⟩
        · exact (hnot ⟨s, hs, hf⟩).elim
        · exact ⟨m, (hmem m).mpr ⟨s, hs, hread⟩, hf⟩
      · rintro ⟨m, hm, hread⟩
        obtain ⟨s, hs, hfirst⟩ := (hmem m).mp hm
        exact ⟨s, hs, m, hfirst, hread⟩
      · rintro ⟨s, hs, m, hfirst, hread⟩
        exact ⟨m, (hmem m).mpr ⟨s, hs, hfirst⟩, hread⟩

/-- There are no token elements. -/
def Tokenless (rules : Rules) : Prop :=
  ∀ rule ∈ rules, ∀ e ∈ rule, e.type ≠ .token ∧ e.type ≠ .tokenNot

theorem Tokenless.elem (h : Tokenless rules) (p : Pos) :
    ¬ ((rules.elem p).type = .token ∨ (rules.elem p).type = .tokenNot) := by
  cases hfrom : rules.from p with
  | nil => simp [Rules.elem, hfrom]
  | cons e es =>
    have he : e ∈ rules.rule p.rule :=
      mem_of_mem_drop (i := p.idx) (by rw [← Rules.from, hfrom]; exact mem_cons_self)
    have helem : rules.elem p = e := by simp [Rules.elem, hfrom]
    rw [helem]
    rw [Rules.rule] at he
    cases hrule : rules[p.rule]? with
    | none => simp [hrule] at he
    | some rule =>
      rw [hrule] at he
      have := h rule (mem_of_getElem? hrule) e he
      simp [this]

/-- Without token elements, accepting a token takes every stack that is not empty through the
code points. -/
theorem acceptTokenStack_ends (h : Tokenless rules) (fuel token : Nat) (cps : List Nat)
    (sts : Stacks) :
    Ends (sts.foldlM (acceptTokenStack rules fuel token cps) [])
      (∃ s ∈ sts, s ≠ [] ∧ FailsOn rules fuel cps s)
      fun t => ∃ s ∈ sts, s ≠ [] ∧ ReadsTo rules fuel cps s t := by
  refine foldlM_ends sts fun s _ => ?_
  cases s with
  | nil => exact .inr ⟨by simp, fun acc => ⟨acc, rfl, by simp⟩⟩
  | cons p st =>
    have hone := word_ends rules fuel cps [p :: st]
    simp only [mem_singleton, exists_eq_left] at hone
    simp only [acceptTokenStack, if_neg (h.elem p), acceptPiece_eq_foldlM]
    rcases hone with ⟨hf, e, he, hbad⟩ | ⟨hnot, R, hok, hmem⟩
    · exact .inl ⟨⟨by simp, hf⟩, e, he, fun acc => by rw [hbad]; rfl⟩
    · refine .inr
        ⟨fun hf => hnot hf.2, fun acc =>
          ⟨R.foldl (fun acc st => addStack st acc) acc, ?_, fun t => ?_⟩⟩
      · rw [hok]
        rfl
      · rw [mem_foldl_addStack, hmem]
        simp

theorem not_readsOne_nil (c : Nat) (t : Stack) : ¬ ReadsOne rules fuel c [] t := by
  rintro ⟨R, hok, ht⟩
  cases hok
  cases ht

theorem not_failsOne_nil (c : Nat) : ¬ FailsOne rules fuel c [] := by
  rintro ⟨e, he⟩
  cases he

theorem not_failsOn_nil (cps : List Nat) : ¬ FailsOn rules fuel cps [] := by
  cases cps with
  | nil => exact id
  | cons c cps =>
    rintro (hf | ⟨m, hread, -⟩)
    · exact not_failsOne_nil c hf
    · exact not_readsOne_nil c m hread

theorem not_readsTo_nil {cps : List Nat} (h : cps ≠ []) (t : Stack) :
    ¬ ReadsTo rules fuel cps [] t := by
  cases cps with
  | nil => exact (h rfl).elim
  | cons c cps =>
    rintro ⟨m, hread, -⟩
    exact not_readsOne_nil c m hread

variable {u v : List Nat} {s : Stack}

theorem readsTo_append {t : Stack} :
    ReadsTo rules fuel (u ++ v) s t ↔ ∃ m, ReadsTo rules fuel u s m ∧ ReadsTo rules fuel v m t := by
  induction u generalizing s with
  | nil => simp [ReadsTo]
  | cons c u ih =>
    simp only [cons_append, ReadsTo, ih]
    constructor
    · rintro ⟨a, ha, m, hm, hv⟩
      exact ⟨m, ⟨a, ha, hm⟩, hv⟩
    · rintro ⟨m, ⟨a, ha, hm⟩, hv⟩
      exact ⟨a, ha, m, hm, hv⟩

theorem failsOn_append : FailsOn rules fuel (u ++ v) s ↔
    FailsOn rules fuel u s ∨ ∃ m, ReadsTo rules fuel u s m ∧ FailsOn rules fuel v m := by
  induction u generalizing s with
  | nil => simp [ReadsTo, FailsOn]
  | cons c u ih =>
    simp only [cons_append, FailsOn, ReadsTo, ih]
    constructor
    · rintro (hf | ⟨a, ha, hf | ⟨m, hm, hf⟩⟩)
      · exact .inl (.inl hf)
      · exact .inl (.inr ⟨a, ha, hf⟩)
      · exact .inr ⟨m, ⟨a, ha, hm⟩, hf⟩
    · rintro ((hf | ⟨a, ha, hf⟩) | ⟨m, ⟨a, ha, hm⟩, hf⟩)
      · exact .inl hf
      · exact .inr ⟨a, ha, .inl hf⟩
      · exact .inr ⟨a, ha, .inr ⟨m, hm, hf⟩⟩

end Llama.Grammar
