import Llama.Grammar.LeftRecursion

/-!
# The matcher decides the language of the grammar

Without left recursion the matcher ends on every text, and the empty stack is among its stacks
exactly when the start rule derives the text.
-/

namespace Llama.Grammar

open Relation Leftmost List

variable {G : RuleSet}

variable {rules : Rules} {chr fuel fuel' start : Nat} {sts : Stacks} {f₀ : List Sym} {w : List Nat}

theorem acceptChr_mono (hle : fuel ≤ fuel') {s : Stack} {acc acc' : Stacks}
    (h : acceptChr rules fuel chr acc s = .ok acc') :
    acceptChr rules fuel' chr acc s = .ok acc' := by
  cases s with
  | nil => exact h
  | cons p st =>
    simp only [acceptChr] at h ⊢
    split at h
    · rename_i htok
      rw [if_pos htok]
      exact h
    · rename_i htok
      rw [if_neg htok]
      cases hm : matchChar rules p chr with
      | error e =>
        rw [hm] at h
        cases h
      | ok r =>
        obtain ⟨b, q⟩ := r
        rw [hm] at h
        cases b with
        | false => exact h
        | true => exact advanceStack_mono hle h

theorem accept_mono (hle : fuel ≤ fuel') {sts' : Stacks}
    (h : accept rules fuel sts chr = .ok sts') : accept rules fuel' sts chr = .ok sts' :=
  Loop.foldlM_mono (fun _ _ _ _ hb => acceptChr_mono hle hb) h

theorem initialStacks_mono (hle : fuel ≤ fuel') (h : initialStacks rules fuel start = .ok sts) :
    initialStacks rules fuel' start = .ok sts :=
  Loop.foldlM_mono (fun _ _ _ _ hb => advanceStack_mono hle hb) h

/-- A bound for every element of a list gives one for all. -/
theorem exists_common_fuel {α : Type} {Q : Nat → α → Prop}
    (hmono : ∀ k k' a, k ≤ k' → Q k a → Q k' a) (l : List α) (h : ∀ a ∈ l, ∃ k, Q k a) :
    ∃ k, ∀ a ∈ l, Q k a := by
  induction l with
  | nil => exact ⟨0, by simp⟩
  | cons a l ih =>
    obtain ⟨k1, h1⟩ := ih fun x hx => h x (mem_cons_of_mem a hx)
    obtain ⟨k2, h2⟩ := h a mem_cons_self
    refine ⟨max k1 k2, fun x hx => ?_⟩
    rcases mem_cons.mp hx with rfl | hx
    · exact hmono _ _ _ (le_max_right _ _) h2
    · exact hmono _ _ _ (le_max_left _ _) (h1 x hx)

section

variable (h : ¬ LeftRecursive G.prods)
include h

theorem exists_initialStacks (hs : start < G.alts.length) :
    ∃ fuel sts, initialStacks G.elements fuel start = .ok sts ∧
      Tracks G [.nonterminal start] [] sts := by
  obtain ⟨fuel, hfuel⟩ := exists_common_fuel (Q := HaltsIn G.prods)
    (fun _ _ _ hle hk => hk.mono hle) (G.prods start)
    fun a _ => (RuleSet.halts h a).exists_haltsIn
  obtain ⟨sts, hok, htr⟩ := initialStacks_tracks hs hfuel
  exact ⟨fuel, sts, hok, htr⟩

theorem Tracks.exists_accept (chr : Nat) (htr : Tracks G f₀ w sts) :
    ∃ fuel sts', Grammar.accept G.elements fuel sts chr = .ok sts' ∧
      Tracks G f₀ (w ++ [chr]) sts' := by
  obtain ⟨fuel, hfuel⟩ := exists_common_fuel
    (Q := fun k s => ∃ f, Represents G s f ∧ FormReady f ∧ FuelFor G k f)
    (fun k k' s hle ⟨f, h1, h2, h3⟩ => ⟨f, h1, h2, fun c rest hf => (h3 c rest hf).mono hle⟩) sts
    fun s hs => by
      obtain ⟨f, hf, hready, -⟩ := htr.sound s hs
      obtain ⟨k, hk⟩ := (RuleSet.halts h f.tail).exists_haltsIn
      refine ⟨k, f, hf, hready, fun c rest he => ?_⟩
      rwa [he] at hk
  obtain ⟨sts', hok, htr'⟩ := htr.accept chr hfuel
  exact ⟨fuel, sts', hok, htr'⟩

theorem Tracks.exists_word (v : List Nat) (htr : Tracks G f₀ w sts) :
    ∃ n sts', (∀ fuel ≥ n, v.foldlM (Grammar.accept G.elements fuel) sts = .ok sts') ∧
      Tracks G f₀ (w ++ v) sts' := by
  induction v generalizing w sts with
  | nil => exact ⟨0, sts, fun _ _ => rfl, by rwa [append_nil]⟩
  | cons c v ih =>
    obtain ⟨n1, sts1, hok1, htr1⟩ := htr.exists_accept h c
    obtain ⟨n2, sts2, hok2, htr2⟩ := ih htr1
    refine ⟨max n1 n2, sts2, fun fuel hfuel => ?_, by simpa using htr2⟩
    rw [foldlM_cons, accept_mono (le_trans (le_max_left _ _) hfuel) hok1]
    exact hok2 fuel (le_trans (le_max_right _ _) hfuel)

end

/-- For rules without left recursion the matcher ends on every text, and the empty stack is
there afterwards exactly when the start rule derives the text. -/
theorem matchWord_correct (G : RuleSet) (start : Nat) (hs : start < G.alts.length)
    (h : ¬ LeftRecursive G.prods) (w : List Nat) :
    ∃ n, ∀ fuel ≥ n, ∃ sts, matchWord G.elements fuel start w = .ok (some sts) ∧
      ([] ∈ sts ↔ G.Derives start w) := by
  obtain ⟨m, hcheck⟩ := passesCheck_of_not_leftRecursive h
  obtain ⟨n1, sts, hinit, htr⟩ := exists_initialStacks h hs
  obtain ⟨n2, sts', hword, htr'⟩ := htr.exists_word h w
  refine ⟨max n1 n2, fun fuel hfuel => ⟨sts', ?_, htr'.nil_mem_iff⟩⟩
  have hi := initialStacks_mono (le_trans (le_max_left _ _) hfuel) hinit
  have hw := hword fuel (le_trans (le_max_right _ _) hfuel)
  simp only [matchWord, initImpl, RuleSet.map_copyRule, hcheck, hi, bind, Except.bind, hw]

/-- `root ::= [a-c] root | `. -/
def letters : RuleSet where
  alts := [[[.terminal (.cls false (.range 97 99) []), .nonterminal 0], []]]
  defined := by simp
  closed := by simp

theorem letters_not_leftRecursive : ¬ LeftRecursive letters.prods := by
  have hstep : ∀ a b, ¬ LeftStep letters.prods a b := by
    rintro a b ⟨pre, post, hmem, hnull⟩
    have ha := RuleSet.lt_of_mem_prods hmem
    obtain rfl : a = 0 := by simpa [letters] using ha
    simp only [RuleSet.prods, letters, getElem?_cons_zero, Option.getD_some, mem_cons,
      not_mem_nil, or_false, append_eq_nil_iff, reduceCtorEq, and_false] at hmem
    cases pre with
    | nil => simp at hmem
    | cons s pre =>
      simp only [cons_append, List.cons.injEq] at hmem
      rw [hmem.1] at hnull
      rcases hnull.cases_head with he | ⟨g, hg, -⟩
      · cases he
      · exact not_expand_terminal hg
  rintro ⟨a, ha⟩
  obtain ⟨b, hb, -⟩ := TransGen.head'_iff.mp ha
  exact hstep a b hb

theorem matchWord_correct_letters :
    ∃ n, ∀ fuel ≥ n, ∃ sts, matchWord letters.elements fuel 0 [97, 99] = .ok (some sts) ∧
      ([] ∈ sts ↔ letters.Derives 0 [97, 99]) :=
  matchWord_correct letters 0 (by simp [letters]) letters_not_leftRecursive [97, 99]

end Llama.Grammar
