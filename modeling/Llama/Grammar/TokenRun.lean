import Llama.Grammar.Agree

/-!
# Sampling runs

States of a grammar along the tokens it accepts. In every state reached the acceptor takes a
token that the filter keeps, unless the piece holds a code point 0 or meets a matching token
element in its middle.
-/

namespace Llama.Grammar

open Relation Leftmost List

variable {G : RuleSet}

theorem accept_nil (rules : Rules) (fuel chr : Nat) : accept rules fuel [] chr = .ok [] := rfl

/-- Leaving the loop early makes no difference. -/
theorem acceptPiece_eq_foldlM (rules : Rules) (fuel : Nat) (cps : List Nat) (cur : Stacks) :
    acceptPiece rules fuel cps cur = cps.foldlM (accept rules fuel) cur := by
  have hnil : ∀ cps : List Nat, cps.foldlM (accept rules fuel) [] = .ok [] := by
    intro cps
    induction cps with
    | nil => rfl
    | cons c cps ih =>
      rw [foldlM_cons, accept_nil]
      exact ih
  induction cps generalizing cur with
  | nil => rfl
  | cons c cps ih =>
    rw [foldlM_cons, acceptPiece]
    cases hc : accept rules fuel cur c with
    | error e => rfl
    | ok next =>
      by_cases hn : next = []
      · simp only [bind, Except.bind, hn, if_true]
        exact (hnil cps).symm
      · simp only [bind, Except.bind, hn, if_false]
        exact ih next

variable {acc sts : Stacks} {s : Stack} {f : List Sym} {g : State} {fuel : Nat}

theorem mem_foldl_addStack {l : Stacks} {t : Stack} :
    t ∈ l.foldl (fun acc st => addStack st acc) acc ↔ t ∈ acc ∨ t ∈ l := by
  induction l generalizing acc with
  | nil => simp
  | cons s l ih =>
    rw [foldl_cons, ih, mem_addStack, mem_cons]
    tauto

/-- A form that is ready is tracked by its stack alone. -/
theorem Represents.tracks (hs : Represents G s f) (hf : FormReady f) : Tracks G f [] [s] where
  sound t ht := by
    obtain rfl := mem_singleton.mp ht
    exact ⟨f, hs, hf, Run.refl f⟩
  complete g _ hrun := by
    rcases (run_nil_iff.mp hrun).cases_head with rfl | ⟨g', he, -⟩
    · exact ⟨s, mem_singleton_self s, hs⟩
    · match f, hf with
      | [], _ => exact (not_expand_nil he).elim
      | .terminal t :: f, _ => exact (not_expand_terminal he).elim

/-- Some form that is ready is reached by expanding. -/
theorem Represents.exists_ready (hs : Represents G s f) (h : Halts G.prods f) :
    ∃ t, ReflTransGen (Child G.elements) s t ∧ G.elements.Ready t := by
  induction h generalizing s with
  | intro f _ ih =>
    by_cases hf : FormReady f
    · exact ⟨s, ReflTransGen.refl, hs.ready_iff.mpr hf⟩
    · match f, hs, hf with
      | [], _, hf => exact (hf trivial).elim
      | .terminal _ :: _, _, hf => exact (hf trivial).elim
      | .nonterminal r :: f, hs, _ =>
        obtain ⟨p, st, sy, g, rfl, rfl, hp, hst⟩ := hs.cases_cons
        obtain ⟨a, ha⟩ := exists_mem_of_ne_nil _ (RuleSet.prods_ne_nil (hp.closed r mem_cons_self))
        obtain ⟨s', hc, hs'⟩ := hs.child (Expand.mk _ ha)
        obtain ⟨t, ht, hready⟩ := ih _ (Expand.mk _ ha) hs'
        exact ⟨t, ReflTransGen.head hc ht, hready⟩

/-- With enough fuel the loop body adds the stacks of a list. -/
def Adds (G : RuleSet) (token : Nat) (cps : List Nat) (n : Nat) (s : Stack) (add : Stacks) : Prop :=
  ∀ fuel ≥ n, ∀ acc, ∃ acc', acceptTokenStack G.elements fuel token cps acc s = .ok acc' ∧
    ∀ t, t ∈ acc' ↔ t ∈ acc ∨ t ∈ add

/-- The form can take the token: by its identifier, or by reading the piece. -/
def Takes (G : RuleSet) (token : Nat) (cps : List Nat) (f : List Sym) : Prop :=
  (∃ neg x rest, f = .terminal (.token neg x) :: rest ∧ tokenMatches neg x token = true) ∨
    (CharFront f ∧ ∃ g, FormReady g ∧ G.Run f cps g)

theorem Represents.adds (h : ¬ LeftRecursive G.prods) (hs : Represents G s f) (hf : FormReady f)
    (token : Nat) (cps : List Nat) :
    ∃ n add, Adds G token cps n s add ∧ (Takes G token cps f → add ≠ []) := by
  match f, hs with
  | .nonterminal r :: f, _ => exact hf.elim
  | [], hs =>
    obtain rfl := hs.eq_nil_iff.mpr rfl
    refine ⟨0, [], fun fuel _ acc => ⟨acc, rfl, by simp⟩, ?_⟩
    rintro (⟨neg, x, rest, hx, -⟩ | ⟨hx, -⟩)
    · cases hx
    · exact hx.elim
  | .terminal t :: f, hs =>
    have htracks := hs.tracks hf
    obtain ⟨p, st, sy, g, rfl, rfl, hp, hst⟩ := hs.cases_cons
    by_cases ht : t.isChar = true
    · obtain ⟨n, cur, hcur, htr⟩ := htracks.exists_word h cps
      refine ⟨n, cur, fun fuel hfuel acc => ?_, ?_⟩
      · refine ⟨_, ?_, fun t => mem_foldl_addStack⟩
        rw [acceptTokenStack, if_neg (by rw [hp.token_or_char]; simp [ht])]
        simp only [acceptPiece_eq_foldlM, hcur fuel hfuel, bind, Except.bind]
      · rintro (⟨neg, x, rest, hx, -⟩ | ⟨-, g', hready, hrun⟩)
        · cases hx
          cases ht
        · obtain ⟨u, hu, -⟩ := htr.complete g' hready hrun
          exact ne_nil_of_mem hu
    · cases t with
      | token neg x =>
        have hbody : ∀ fuel acc, acceptTokenStack G.elements fuel token cps acc (p :: st) =
            if tokenMatches neg x token = true then
              advanceStack G.elements fuel (G.elements.push (p.add 1) st) acc else .ok acc := by
          intro fuel acc
          rw [acceptTokenStack, if_pos (by rw [hp.token_or_char]; rfl), matchToken_terminal hp]
          rfl
        have hrep := hst.push hp.next
        cases hm : tokenMatches neg x token with
        | false =>
          refine ⟨0, [], fun fuel _ acc => ⟨acc, by simp [hbody, hm], by simp⟩, ?_⟩
          rintro (⟨neg', x', rest, hx, hm'⟩ | ⟨hx, -⟩)
          · cases hx
            simp [hm] at hm'
          · cases hx
        | true =>
          obtain ⟨n, hn⟩ := (RuleSet.halts h (sy ++ g)).exists_haltsIn
          obtain ⟨add, -, hadd⟩ := advanceStack_ok hrep hn []
          refine ⟨n, add, fun fuel hfuel acc => ?_, fun _ => ?_⟩
          · obtain ⟨acc', hok, hmem⟩ := advanceStack_ok hrep (hn.mono hfuel) acc
            refine ⟨acc', by rw [hbody, hm, if_pos rfl]; exact hok, fun t => ?_⟩
            rw [hmem, hadd]
            simp
          · obtain ⟨t, ht, hready⟩ := hrep.exists_ready (RuleSet.halts h _)
            exact ne_nil_of_mem ((hadd t).mpr (.inr ⟨ht, hready⟩))
      | _ => exact (ht rfl).elim

/-- States of a grammar that is started at some rule and accepts tokens. -/
inductive ReachableState (rules : Rules) : State → Prop
  | init {fuel start : Nat} {sts : Stacks} (hs : start < rules.length)
      (h : initialStacks rules fuel start = .ok sts) :
      ReachableState rules { stackSet := sts, partialUtf8 := { value := 0, nRemain := 0 } }
  | token {g g' : State} {fuel token : Nat} {piece : List UInt8} (hg : ReachableState rules g)
      (h : acceptToken rules fuel g token piece = .ok g') : ReachableState rules g'

/-- Every stack stands for a form that is ready. -/
def StacksReady (G : RuleSet) (sts : Stacks) : Prop :=
  ∀ s ∈ sts, ∃ f, Represents G s f ∧ FormReady f

theorem StacksReady.advanceStack {acc' : Stacks} (ha : StacksReady G acc) (hs : Represents G s f)
    (h : advanceStack G.elements fuel s acc = .ok acc') : StacksReady G acc' := by
  intro t ht
  rcases advanceStack_sound hs h ht with ht | ⟨g, -, hrep, hready⟩
  · exact ha t ht
  · exact ⟨g, hrep, hready⟩

theorem StacksReady.acceptChr {acc acc' : Stacks} (ha : StacksReady G acc) {fuel chr : Nat}
    {s : Stack} {f : List Sym} (hs : Represents G s f) (hf : FormReady f)
    (h : acceptChr G.elements fuel chr acc s = .ok acc') : StacksReady G acc' := by
  match f, hs with
  | .nonterminal r :: f, _ => exact hf.elim
  | [], hs =>
    obtain rfl := hs.eq_nil_iff.mpr rfl
    cases h
    exact ha
  | .terminal t :: f, hs =>
    obtain ⟨p, st, sy, g, rfl, rfl, hp, hst⟩ := hs.cases_cons
    rw [Grammar.acceptChr] at h
    split at h
    · cases h
      exact ha
    · rename_i htok
      have ht : t.isChar = true := by
        rw [hp.token_or_char] at htok
        simpa using htok
      rw [matchChar_terminal hp ht] at h
      simp only [bind, Except.bind] at h
      split at h
      · exact ha.advanceStack (hst.push hp.next) h
      · cases h
        exact ha

theorem StacksReady.accept {sts' : Stacks} (hr : StacksReady G sts) {chr : Nat}
    (h : accept G.elements fuel sts chr = .ok sts') : StacksReady G sts' :=
  Loop.foldlM_inv (I := StacksReady G) (by simp [StacksReady])
    (fun _ s hs _ ha hstep => by
      obtain ⟨f, hrep, hf⟩ := hr s hs
      exact ha.acceptChr hrep hf hstep) h

theorem StacksReady.acceptToken {g g' : State} (hr : StacksReady G g.stackSet) {fuel token : Nat}
    {piece : List UInt8} (h : acceptToken G.elements fuel g token piece = .ok g') :
    StacksReady G g'.stackSet := by
  simp only [Grammar.acceptToken, bind, Except.bind] at h
  split at h
  · cases h
  · rename_i sts hsts
    split at h
    · cases h
    · cases h
      refine Loop.foldlM_inv (I := StacksReady G) (by simp [StacksReady])
        (fun acc s hs acc' ha hstep => ?_) hsts
      obtain ⟨f, hrep, hf⟩ := hr s hs
      cases s with
      | nil =>
        cases hstep
        exact ha
      | cons p st =>
        rw [acceptTokenStack] at hstep
        split at hstep
        · rename_i htok
          match f, hrep with
          | .nonterminal r :: f, _ => exact hf.elim
          | [], hrep => cases hrep.eq_nil_iff.mpr rfl
          | .terminal t :: f, hrep =>
            obtain ⟨p', st', sy, f', he, rfl, hp, hst⟩ := hrep.cases_cons
            obtain ⟨rfl, rfl⟩ := List.cons.inj he
            rw [hp.token_or_char] at htok
            cases t with
            | token neg x =>
              rw [matchToken_terminal hp] at hstep
              simp only [bind, Except.bind] at hstep
              split at hstep
              · exact ha.advanceStack (hst.push hp.next) hstep
              · cases hstep
                exact ha
            | _ => cases htok
        · rw [acceptPiece_eq_foldlM] at hstep
          simp only [bind, Except.bind] at hstep
          split at hstep
          · cases hstep
          · rename_i cur hcur
            cases hstep
            have hcur' : StacksReady G cur := by
              refine Loop.foldlM_inv (I := StacksReady G) (fun x hx => ?_)
                (fun b c _ b' hb hc => hb.accept hc) hcur
              obtain rfl := mem_singleton.mp hx
              exact ⟨f, hrep, hf⟩
            intro t ht
            rcases mem_foldl_addStack.mp ht with ht | ht
            · exact ha t ht
            · exact hcur' t ht

theorem ReachableState.stacksReady (h : ReachableState G.elements g) :
    StacksReady G g.stackSet := by
  induction h with
  | @init fuel start sts hs h =>
    rw [RuleSet.elements, length_map] at hs
    refine Loop.foldlM_inv (I := StacksReady G) (by simp [StacksReady])
      (fun acc i hi acc' ha hstep => ?_) h
    obtain ⟨a, -, hp⟩ := RuleSet.start_points hs hi
    exact ha.advanceStack (represents_start hp) hstep
  | token _ h ih => exact ih.acceptToken h

/-- Inside the piece, with code points left, some stack comes to a token element that matches. -/
def MeetsToken (G : RuleSet) (sts : Stacks) (cps : List Nat) (token : Nat) : Prop :=
  ∃ s ∈ sts, ∃ f, Represents G s f ∧ ∃ u v, cps = u ++ v ∧ u ≠ [] ∧ v ≠ [] ∧
    ∃ neg x rest, G.Run f u (.terminal (.token neg x) :: rest) ∧ tokenMatches neg x token = true

/-- A kept candidate was read to its end, or up to a token element that matches. -/
theorem Kept.read {id : Nat} {utf8 : PartialUtf8} {f : List Sym} {cps : List Nat}
    (h : Kept G id utf8 f cps) (hf : FormReady f) :
    (∃ g, FormReady g ∧ G.Run f cps g) ∨ ∃ u v, cps = u ++ v ∧ v ≠ [] ∧
      ∃ neg x rest, G.Run f u (.terminal (.token neg x) :: rest) ∧
        tokenMatches neg x id = true := by
  induction h with
  | stop h => exact .inl ⟨_, hf, Run.refl _⟩
  | token hne hm => exact .inr ⟨[], _, rfl, hne, _, _, _, Run.refl _, hm⟩
  | char hc hg hready _ ih =>
    rcases ih hready with ⟨g', hg', hrun⟩ | ⟨u, v, rfl, hv, neg, x, rest, hrun, hm⟩
    · exact .inl ⟨g', hg', Run.read hc (Run.of_expands hg hrun)⟩
    · exact .inr ⟨_ :: u, v, rfl, hv, neg, x, rest, Run.read hc (Run.of_expands hg hrun), hm⟩

/-- What the filter keeps can be taken. -/
theorem Kept.takes {id : Nat} {utf8 : PartialUtf8} {cps : List Nat} (h : Kept G id utf8 f cps)
    (hs : s ∈ sts) (hrep : Represents G s f) (hf : FormReady f)
    (hnone : cps = [] → utf8.nRemain ≠ 0) (hmid : ¬ MeetsToken G sts cps id) :
    Takes G id cps f := by
  cases h with
  | stop h => exact .inr ⟨h.resolve_left (hnone rfl), f, hf, Run.refl f⟩
  | token hne hm => exact .inl ⟨_, _, _, rfl, hm⟩
  | @char t rest g c cps hc hg hready hk =>
    have hchar : t.isChar = true := by
      cases t with
      | token neg x => simp [Terminal.accepts] at hc
      | _ => rfl
    rcases hk.read hready with ⟨g', hg', hrun⟩ | ⟨u, v, rfl, hv, neg, x, rest', hrun, hm⟩
    · exact .inr ⟨hchar, g', hg', Run.read hc (Run.of_expands hg hrun)⟩
    · exact (hmid ⟨s, hs, _, hrep, c :: u, v, rfl, by simp, hv, neg, x, rest',
        Run.read hc (Run.of_expands hg hrun), hm⟩).elim

/-- Every token has the piece `a`. -/
def letterVocab : Vocab where
  piece _ := [97]
  isEog _ := false

end Llama.Grammar
