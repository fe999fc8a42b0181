import Llama.Grammar.Stacks

/-!
# Accepting code points

The stacks after some code points stand for exactly the forms without a rule in front that the
start rule reaches by a leftmost run reading them.
-/

namespace Llama.Grammar

open Relation Leftmost List

variable {G : RuleSet}

/-- The element can follow a class. -/
def FollowsClass (e : Element) : Prop := e.type ≠ .charRngUpper ∧ e.type ≠ .charAlt

variable {s : Stack} {e : Element} {p : Pos} {t : Terminal} {sy f : List Sym} {chr fuel start : Nat}
  {w : List Nat} {sts : Stacks}

theorem symElements_followsClass {s : Sym} {es : List Element} (h : symElements s = e :: es) :
    FollowsClass e := by
  cases s with
  | nonterminal r =>
    simp only [symElements, List.cons.injEq] at h
    rw [← h.1]
    simp [FollowsClass]
  | terminal t =>
    cases t with
    | any =>
      simp only [symElements, Terminal.elements, List.cons.injEq] at h
      rw [← h.1]
      simp [FollowsClass]
    | cls neg first rest =>
      cases first <;>
      · simp only [symElements, Terminal.elements, Item.elements, cons_append, List.cons.injEq] at h
        rw [← h.1]
        cases neg <;> simp [FollowsClass]
    | token neg id =>
      simp only [symElements, Terminal.elements, List.cons.injEq] at h
      rw [← h.1]
      cases neg <;> simp [FollowsClass]

/-- What follows a symbol of an alternate is not a part of a class. -/
theorem exists_followsClass (sy : List Sym) (he : isEndOfSequence e = true) (tl : List Element) :
    ∃ x xs, altElements sy ++ e :: tl = x :: xs ∧ FollowsClass x := by
  cases sy with
  | nil =>
    refine ⟨e, tl, rfl, ?_⟩
    rcases isEndOfSequence_iff.mp he with h | h <;> simp [FollowsClass, h]
  | cons s sy =>
    cases hs : symElements s with
    | nil => exact (symElements_ne_nil s hs).elim
    | cons x xs =>
      exact ⟨x, xs ++ (altElements sy ++ e :: tl), by simp [altElements, hs],
        symElements_followsClass hs⟩

theorem Item.elements_char (type : GreType) (c : Nat) :
    Item.elements type (.char c) = [{ type := type, value := c }] := rfl

theorem Item.elements_range (type : GreType) (lo hi : Nat) :
    Item.elements type (.range lo hi) =
      [{ type := type, value := lo }, { type := .charRngUpper, value := hi }] := rfl

/-- The loop passes the items of a class. -/
theorem matchLoop_items (chr : Nat) (rest : List Item) (first : Item) {type : GreType}
    (ht : type ≠ .charAny) (found : Bool) {x : Element} {xs : List Element} (hx : FollowsClass x) :
    matchLoop chr found (first.elements type ++ rest.flatMap (Item.elements .charAlt) ++ x :: xs) =
      (found || (first :: rest).any (Item.holds chr),
        (first.elements type ++ rest.flatMap (Item.elements .charAlt)).length) := by
  induction rest generalizing first type found with
  | nil =>
    cases first with
    | char c => simp [Item.elements, matchLoop, hx.1, hx.2, ht, Item.holds]
    | range lo hi => simp [Item.elements, matchLoop, hx.2, Item.holds]
  | cons i rest ih =>
    have hnext : ∃ y ys, (Item.elements .charAlt i ++ rest.flatMap (Item.elements .charAlt) ++
        x :: xs) = y :: ys ∧ y.type = .charAlt := by
      cases i with
      | char c => exact ⟨_, _, rfl, rfl⟩
      | range lo hi => exact ⟨_, _, rfl, rfl⟩
    obtain ⟨y, ys, hy, hyt⟩ := hnext
    have hrec := fun found => @ih i .charAlt (by simp) found
    rw [flatMap_cons, append_assoc, hy]
    rw [hy] at hrec
    cases first with
    | char c =>
      simp only [Item.elements_char, cons_append, nil_append]
      rw [matchLoop, if_neg (by simp [hyt]), if_pos hyt, hrec]
      simp [ht, Item.holds, Bool.or_assoc]
    | range lo hi =>
      simp only [Item.elements_range, cons_append, nil_append]
      rw [matchLoop, if_pos rfl]
      simp only [if_pos hyt, hrec]
      simp [Item.holds, Bool.or_assoc]

theorem Points.from_terminal (h : Points G p (.terminal t :: sy)) :
    ∃ x xs, G.elements.from p = t.elements ++ x :: xs ∧ FollowsClass x := by
  obtain ⟨⟨e, tl, hfrom, he⟩, -⟩ := h
  obtain ⟨x, xs, hx, hfollow⟩ := exists_followsClass sy he tl
  refine ⟨x, xs, ?_, hfollow⟩
  rw [hfrom, altElements, flatMap_cons, append_assoc, ← hx]
  rfl

/-- The terminal is a class of characters. -/
def Terminal.isChar : Terminal → Bool
  | .token _ _ => false
  | _ => true

/-- Matching tests the class and moves behind it. -/
theorem matchChar_terminal (h : Points G p (.terminal t :: sy)) (ht : t.isChar = true) (chr : Nat) :
    matchChar G.elements p chr = .ok (t.accepts chr, p.add t.elements.length) := by
  have htype := h.elem_terminal
  obtain ⟨x, xs, hfrom, hx⟩ := h.from_terminal
  cases t with
  | any =>
    simp only [Terminal.elements, cons_append, nil_append] at hfrom
    simp [matchChar, isPositiveChar, htype, Terminal.greType, hfrom, matchLoop, hx.1, hx.2,
      Terminal.accepts, Terminal.elements]
  | cls neg first rest =>
    have hne : (if neg then GreType.charNot else .char) ≠ .charAny := by cases neg <;> simp
    simp only [matchChar]
    rw [hfrom, Terminal.elements, matchLoop_items chr rest first hne false hx]
    cases neg
    · simp [isPositiveChar, htype, Terminal.greType, Terminal.accepts]
    · have hpos : (GreType.charNot == GreType.char || GreType.charNot == GreType.charAny) = false :=
        rfl
      simp [isPositiveChar, htype, Terminal.greType, Terminal.accepts, hpos]
  | token neg id => cases ht

/-- The stacks added for one stack: behind the terminal on top, when it matches. -/
def Accepts (G : RuleSet) (chr : Nat) (s t : Stack) : Prop :=
  ∃ p st q, s = p :: st ∧ matchChar G.elements p chr = .ok (true, q) ∧
    ReflTransGen (Child G.elements) (G.elements.push q st) t ∧ G.elements.Ready t

/-- What accepting adds, in terms of forms. -/
theorem Represents.accepts {t : Stack} (hs : Represents G s f) (h : Accepts G chr s t)
    (hf : FormReady f) :
    ∃ c rest g, f = .terminal c :: rest ∧ c.accepts chr = true ∧
      ReflTransGen (Expand G.prods) rest g ∧ Represents G t g ∧ FormReady g := by
  obtain ⟨p, st, q, rfl, hm, hgen, hready⟩ := h
  match f, hs with
  | [], hs => cases hs.eq_nil_iff.mpr rfl
  | .nonterminal r :: f, _ => exact hf.elim
  | .terminal c :: f, hs =>
    obtain ⟨p', st', sy, g, he, rfl, hp, hst⟩ := hs.cases_cons
    obtain ⟨rfl, rfl⟩ := List.cons.inj he
    have hc : c.isChar = true := by
      cases c with
      | token neg id =>
        have := hp.elem_terminal
        cases neg <;> simp [matchChar, isPositiveChar, this, Terminal.greType] at hm
      | _ => rfl
    rw [matchChar_terminal hp hc] at hm
    simp only [Except.ok.injEq, Prod.mk.injEq] at hm
    obtain ⟨hacc, rfl⟩ := hm
    obtain ⟨g', hg', ht⟩ := (hst.push hp.next).expands hgen
    exact ⟨c, sy ++ g, g', rfl, hacc, hg', ht, ht.ready_iff.mp hready⟩

theorem Represents.exists_accepts {c : Terminal} {rest g : List Sym}
    (hs : Represents G s (.terminal c :: rest)) (hc : c.accepts chr = true)
    (hg : ReflTransGen (Expand G.prods) rest g) (hready : FormReady g) :
    ∃ t, Accepts G chr s t ∧ Represents G t g := by
  obtain ⟨p, st, sy, f, rfl, rfl, hp, hst⟩ := hs.cases_cons
  obtain ⟨t, ht, hrep⟩ := (hst.push hp.next).children hg
  have hchar : c.isChar = true := by
    cases c with
    | token neg id => simp [Terminal.accepts] at hc
    | _ => rfl
  refine ⟨t, ⟨p, st, _, rfl, ?_, ht, hrep.ready_iff.mpr hready⟩, hrep⟩
  rw [matchChar_terminal hp hchar, hc]
  rfl

/-- The form left after reading a code point halts within the fuel. -/
def FuelFor (G : RuleSet) (fuel : Nat) (f : List Sym) : Prop :=
  ∀ c rest, f = .terminal c :: rest → HaltsIn G.prods fuel rest

theorem acceptChr_ok (hs : Represents G s f) (hf : FormReady f) (hfuel : FuelFor G fuel f)
    (acc : Stacks) :
    ∃ acc', acceptChr G.elements fuel chr acc s = .ok acc' ∧
      ∀ t, t ∈ acc' ↔ t ∈ acc ∨ Accepts G chr s t := by
  cases f with
  | nil =>
    obtain rfl := hs.eq_nil_iff.mpr rfl
    refine ⟨acc, rfl, fun t => ?_⟩
    simp [Accepts]
  | cons c f =>
    cases c with
    | nonterminal r => exact hf.elim
    | terminal c =>
      have hf' := hfuel c f rfl
      obtain ⟨p, st, sy, g, rfl, rfl, hp, hst⟩ := hs.cases_cons
      have htype := hp.elem_terminal
      by_cases hchar : c.isChar = true
      · have hne :
          ¬ ((G.elements.elem p).type = .token ∨ (G.elements.elem p).type = .tokenNot) := by
          rw [htype]
          cases c with
          | any => simp [Terminal.greType]
          | cls neg first rest => cases neg <;> simp [Terminal.greType]
          | token neg id => cases hchar
        have hm := matchChar_terminal hp hchar chr
        simp only [acceptChr, if_neg hne, hm]
        by_cases hacc : c.accepts chr = true
        · obtain ⟨acc', hok, hmem⟩ := advanceStack_ok (hst.push hp.next) hf' acc
          refine ⟨acc', ?_, fun t => ?_⟩
          · simp only [hacc]
            exact hok
          · rw [hmem]
            refine or_congr_right ⟨fun h => ⟨p, st, _, rfl, by rw [hm, hacc]; rfl, h.1, h.2⟩, ?_⟩
            rintro ⟨p', st', q, he, hq, h1, h2⟩
            obtain ⟨rfl, rfl⟩ := List.cons.inj he
            rw [hm] at hq
            simp only [Except.ok.injEq, Prod.mk.injEq] at hq
            obtain ⟨-, rfl⟩ := hq
            exact ⟨h1, h2⟩
        · refine ⟨acc, ?_, fun t => ?_⟩
          · simp only [Bool.not_eq_true] at hacc
            simp only [hacc]
            rfl
          · constructor
            · exact .inl
            · rintro (h | ⟨p', st', q, he, hq, -, -⟩)
              · exact h
              · obtain ⟨rfl, rfl⟩ := List.cons.inj he
                rw [hm] at hq
                simp only [Except.ok.injEq, Prod.mk.injEq] at hq
                exact (hacc hq.1).elim
      · cases c with
        | token neg id =>
          have htok : (G.elements.elem p).type = .token ∨ (G.elements.elem p).type = .tokenNot := by
            rw [htype]
            cases neg <;> simp [Terminal.greType]
          refine ⟨acc, by simp only [acceptChr, if_pos htok], fun t => ?_⟩
          constructor
          · exact .inl
          · rintro (h | ⟨p', st', q, he, hq, -, -⟩)
            · exact h
            · obtain ⟨rfl, rfl⟩ := List.cons.inj he
              rcases htok with h | h <;> simp [matchChar, isPositiveChar, h] at hq
        | _ => exact (hchar rfl).elim

/-- The stacks stand for the forms that runs from `f₀` reading `w` reach. -/
structure Tracks (G : RuleSet) (f₀ : List Sym) (w : List Nat) (sts : Stacks) : Prop where
  sound : ∀ s ∈ sts, ∃ f, Represents G s f ∧ FormReady f ∧ G.Run f₀ w f
  complete : ∀ f, FormReady f → G.Run f₀ w f → ∃ s ∈ sts, Represents G s f

/-- The empty stack is there exactly when the word is derived. -/
theorem Tracks.nil_mem_iff (h : Tracks G [.nonterminal start] w sts) :
    [] ∈ sts ↔ G.Derives start w := by
  rw [RuleSet.derives_iff_run]
  constructor
  · intro hmem
    obtain ⟨f, hf, -, hrun⟩ := h.sound _ hmem
    rwa [hf.eq_nil_iff.mp rfl] at hrun
  · intro hrun
    obtain ⟨s, hs, hrep⟩ := h.complete [] trivial hrun
    rwa [hrep.eq_nil_iff.mpr rfl] at hs

theorem Tracks.accept {f₀ : List Sym} (chr : Nat) (h : Tracks G f₀ w sts)
    (hfuel : ∀ s ∈ sts, ∃ f, Represents G s f ∧ FormReady f ∧ FuelFor G fuel f) :
    ∃ sts', accept G.elements fuel sts chr = .ok sts' ∧
      Tracks G f₀ (w ++ [chr]) sts' := by
  obtain ⟨sts', hok, hmem⟩ := Loop.foldlM_collect (l := sts) (Q := Accepts G chr)
    (fun s hs acc => by
      obtain ⟨f, hf, hready, hfu⟩ := hfuel s hs
      exact acceptChr_ok hf hready hfu acc) []
  refine ⟨sts', hok, fun t ht => ?_, fun g hready hrun => ?_⟩
  · obtain ⟨s, hs, hacc⟩ := ((hmem t).mp ht).resolve_left (by simp)
    obtain ⟨f, hf, hfr, hrun⟩ := h.sound s hs
    obtain ⟨c, rest, g, rfl, hc, hg, ht, hready⟩ := hf.accepts hacc hfr
    exact ⟨g, ht, hready, hrun.concat hc hg⟩
  · obtain ⟨c, rest, hrun, hc, hg⟩ := hrun.concat_inv
    obtain ⟨s, hs, hrep⟩ := h.complete (.terminal c :: rest) trivial hrun
    obtain ⟨t, hacc, ht⟩ := hrep.exists_accepts hc hg hready
    exact ⟨t, (hmem t).mpr (.inr ⟨s, hs, hacc⟩), ht⟩

theorem initialStacks_tracks (hs : start < G.alts.length)
    (hfuel : ∀ a ∈ G.prods start, HaltsIn G.prods fuel a) :
    ∃ sts, initialStacks G.elements fuel start = .ok sts ∧
      Tracks G [.nonterminal start] [] sts := by
  obtain ⟨sts, hok, hmem⟩ := Loop.foldlM_collect
    (l := altStarts (G.elements.rule start))
    (Q := fun i t => ReflTransGen (Child G.elements)
      (G.elements.push { rule := start, idx := i } []) t ∧ G.elements.Ready t)
    (fun i hi acc => by
      obtain ⟨a, ha, hp⟩ := RuleSet.start_points hs hi
      exact advanceStack_ok (represents_start hp) (hfuel a ha) acc) []
  refine ⟨sts, hok, fun t ht => ?_, fun g hready hrun => ?_⟩
  · obtain ⟨i, hi, hgen, hready⟩ := ((hmem t).mp ht).resolve_left (by simp)
    obtain ⟨a, ha, hp⟩ := RuleSet.start_points hs hi
    obtain ⟨g, hg, ht⟩ := (represents_start hp).expands hgen
    refine ⟨g, ht, ht.ready_iff.mp hready, run_nil_iff.mpr (ReflTransGen.head ?_ hg)⟩
    simpa using Expand.mk (P := G.prods) [] ha
  · rcases (run_nil_iff.mp hrun).cases_head with he | ⟨f, he, hg⟩
    · rw [← he] at hready
      exact hready.elim
    · obtain ⟨a, ha, rfl⟩ := expand_nonterminal.mp he
      rw [append_nil] at hg
      obtain ⟨i, hi, hp⟩ := RuleSet.exists_start ha
      obtain ⟨t, ht, hrt⟩ := (represents_start hp).children hg
      exact ⟨t, (hmem t).mpr (.inr ⟨i, hi, ht, hrt.ready_iff.mpr hready⟩), hrt⟩

end Llama.Grammar
