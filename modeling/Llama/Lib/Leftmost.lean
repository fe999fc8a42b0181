import Mathlib.Computability.ContextFreeGrammar
import Mathlib.Data.Fintype.Order
import Mathlib.Order.CompletePartialOrder

/-!
# Leftmost derivations

Productions are a function from nonterminals to the lists of their alternatives. A leftmost
expansion replaces the first symbol of a sentential form; a run also reads letters that the
terminals in front match. Expansion terminates on all forms exactly when no nonterminal reaches
itself behind a nullable part of an alternative.
-/

namespace Llama.Leftmost

open Relation List

variable {T N A : Type}

/-- Replace the nonterminal in front by one of its alternatives. -/
inductive Expand (P : N → List (List (Symbol T N))) :
    List (Symbol T N) → List (Symbol T N) → Prop
  | mk {n : N} {alt : List (Symbol T N)} (rest : List (Symbol T N)) (h : alt ∈ P n) :
      Expand P (.nonterminal n :: rest) (alt ++ rest)

/-- Expansions, and letters read by the terminal in front. -/
inductive Run (P : N → List (List (Symbol T N))) (M : T → A → Prop) :
    List (Symbol T N) → List A → List (Symbol T N) → Prop
  | refl (f : List (Symbol T N)) : Run P M f [] f
  | expand {f g h : List (Symbol T N)} {w : List A} (he : Expand P f g) (hr : Run P M g w h) :
      Run P M f w h
  | read {t : T} {a : A} {f h : List (Symbol T N)} {w : List A} (hm : M t a)
      (hr : Run P M f w h) : Run P M (.terminal t :: f) (a :: w) h

/-- The form expands to nothing. -/
def Nullable (P : N → List (List (Symbol T N))) (f : List (Symbol T N)) : Prop :=
  ReflTransGen (Expand P) f []

/-- `b` occurs in an alternative of `a` behind a nullable part. -/
def LeftStep (P : N → List (List (Symbol T N))) (a b : N) : Prop :=
  ∃ pre post, pre ++ .nonterminal b :: post ∈ P a ∧ Nullable P pre

/-- Some nonterminal reaches itself behind nullable parts. -/
def LeftRecursive (P : N → List (List (Symbol T N))) : Prop := ∃ a, TransGen (LeftStep P) a a

/-- Every chain of expansions from the form ends. -/
def Halts (P : N → List (List (Symbol T N))) (f : List (Symbol T N)) : Prop :=
  Acc (fun g f => Expand P f g) f

/-- Every chain of expansions from the form has fewer than `k` steps. -/
def HaltsIn (P : N → List (List (Symbol T N))) : Nat → List (Symbol T N) → Prop
  | 0, _ => False
  | k + 1, f => ∀ g, Expand P f g → HaltsIn P k g

variable {P : N → List (List (Symbol T N))} {M : T → A → Prop}

variable {f g rest h : List (Symbol T N)} {t : T} {w u v : List A} {a : A} {k : Nat}

theorem Expand.append (h : Expand P f g) (r : List (Symbol T N)) : Expand P (f ++ r) (g ++ r) := by
  cases h with
  | mk rest h =>
    rw [append_assoc, cons_append]
    exact Expand.mk _ h

theorem expand_nonterminal {n : N} :
    Expand P (.nonterminal n :: rest) g ↔ ∃ alt ∈ P n, g = alt ++ rest := by
  constructor
  · intro h
    cases h with
    | mk _ h => exact ⟨_, h, rfl⟩
  · rintro ⟨alt, h, rfl⟩
    exact Expand.mk rest h

theorem not_expand_nil : ¬ Expand P [] g := by
  intro h
  cases h

theorem not_expand_terminal : ¬ Expand P (.terminal t :: rest) g := by
  intro h
  cases h

theorem expands_append (h : ReflTransGen (Expand P) f g) (r : List (Symbol T N)) :
    ReflTransGen (Expand P) (f ++ r) (g ++ r) :=
  h.lift (· ++ r) fun _ _ he => he.append r

theorem Run.of_expands (he : ReflTransGen (Expand P) f g) (hr : Run P M g w h) : Run P M f w h := by
  induction he using ReflTransGen.head_induction_on with
  | refl => exact hr
  | head hstep _ ih => exact Run.expand hstep ih

theorem Run.trans (h1 : Run P M f u g) (h2 : Run P M g v h) : Run P M f (u ++ v) h := by
  induction h1 with
  | refl => exact h2
  | expand he _ ih => exact Run.expand he (ih h2)
  | read hm _ ih => exact Run.read hm (ih h2)

theorem Run.append {f g : List (Symbol T N)} {w : List A} (h : Run P M f w g)
    (r : List (Symbol T N)) : Run P M (f ++ r) w (g ++ r) := by
  induction h with
  | refl f => exact Run.refl _
  | expand he _ ih => exact Run.expand (he.append r) ih
  | read hm _ ih => exact Run.read hm ih

theorem run_nil_iff : Run P M f [] g ↔ ReflTransGen (Expand P) f g := by
  constructor
  · intro h
    generalize hw : ([] : List A) = w at h
    induction h with
    | refl => exact ReflTransGen.refl
    | expand he _ ih => exact ReflTransGen.head he (ih hw)
    | read => cases hw
  · exact fun h => Run.of_expands h (Run.refl g)

/-- The last letter of a run was read by a terminal in front; then only expansions follow. -/
theorem Run.concat_inv (hr : Run P M f (w ++ [a]) h) :
    ∃ t rest, Run P M f w (.terminal t :: rest) ∧ M t a ∧ ReflTransGen (Expand P) rest h := by
  generalize hv : w ++ [a] = v at hr
  induction hr generalizing w with
  | refl => simp at hv
  | expand he _ ih =>
    obtain ⟨t, rest, h1, h2, h3⟩ := ih hv
    exact ⟨t, rest, Run.expand he h1, h2, h3⟩
  | @read t b f h w' hm hr ih =>
    cases w with
    | nil =>
      simp only [nil_append, List.cons.injEq] at hv
      obtain ⟨rfl, rfl⟩ := hv
      exact ⟨t, f, Run.refl _, hm, run_nil_iff.mp hr⟩
    | cons c w =>
      simp only [cons_append, List.cons.injEq] at hv
      obtain ⟨rfl, hv⟩ := hv
      obtain ⟨t', rest, h1, h2, h3⟩ := ih hv
      exact ⟨t', rest, Run.read hm h1, h2, h3⟩

theorem Run.concat (h1 : Run P M f w (.terminal t :: rest)) (hm : M t a)
    (h2 : ReflTransGen (Expand P) rest h) : Run P M f (w ++ [a]) h :=
  h1.trans (Run.read hm (run_nil_iff.mpr h2))

/-- A run that consumes two parts consumes the first before the second. -/
theorem Run.split (h : Run P M (f ++ g) w []) :
    ∃ u v, w = u ++ v ∧ Run P M f u [] ∧ Run P M g v [] := by
  generalize hx : f ++ g = x at h
  generalize hy : ([] : List (Symbol T N)) = y at h
  induction h generalizing f with
  | refl =>
    subst hy
    obtain ⟨rfl, rfl⟩ := append_eq_nil_iff.mp hx
    exact ⟨[], [], rfl, Run.refl _, Run.refl _⟩
  | @expand x x' y w he hr ih =>
    cases f with
    | nil =>
      simp only [nil_append] at hx
      subst hx
      subst hy
      exact ⟨[], w, rfl, Run.refl _, Run.expand he hr⟩
    | cons s f =>
      subst hx
      cases he with
      | @mk n alt _ hmem =>
        obtain ⟨u, v, rfl, h1, h2⟩ := ih (append_assoc alt f g) hy
        exact ⟨u, v, rfl, Run.expand (Expand.mk f hmem) h1, h2⟩
  | @read t a x y w hm hr ih =>
    cases f with
    | nil =>
      simp only [nil_append] at hx
      subst hx
      subst hy
      exact ⟨[], a :: w, rfl, Run.refl _, Run.read hm hr⟩
    | cons s f =>
      simp only [cons_append, List.cons.injEq] at hx
      obtain ⟨rfl, rfl⟩ := hx
      obtain ⟨u, v, rfl, h1, h2⟩ := ih rfl hy
      exact ⟨a :: u, v, rfl, Run.read hm h1, h2⟩

theorem Run.join (h1 : Run P M f u []) (h2 : Run P M g v []) : Run P M (f ++ g) (u ++ v) [] :=
  (h1.append g).trans h2

theorem run_of_forall₂ {cw : List T} (h : Forall₂ M cw w) : Run P M (cw.map .terminal) w [] := by
  induction h with
  | nil => exact Run.refl _
  | cons hm _ ih => exact Run.read hm ih

/-- Rewriting anywhere in a form and leftmost runs give the same words. -/
theorem exists_derives_iff_run {G : ContextFreeGrammar T} {P : G.NT → List (List (Symbol T G.NT))}
    (hG : ∀ r, r ∈ G.rules ↔ r.output ∈ P r.input) {f : List (Symbol T G.NT)} :
    (∃ cw, G.Derives f (cw.map .terminal) ∧ Forall₂ M cw w) ↔ Run P M f w [] := by
  constructor
  · rintro ⟨cw, hd, hm⟩
    induction hd using ReflTransGen.head_induction_on with
    | refl => exact run_of_forall₂ hm
    | head hstep _ ih =>
      obtain ⟨r, hr, hrw⟩ := hstep
      obtain ⟨p, q, rfl, rfl⟩ := hrw.exists_parts
      obtain ⟨u, v, rfl, h1, h2⟩ := Run.split ih
      obtain ⟨u, v', rfl, h0, h1⟩ := Run.split h1
      refine Run.join (Run.join h0 ?_) h2
      have := Expand.mk (P := P) [] ((hG r).mp hr)
      rw [append_nil] at this
      exact Run.expand this h1
  · intro h
    generalize hy : ([] : List (Symbol T G.NT)) = y at h
    induction h with
    | refl =>
      subst hy
      exact ⟨[], ContextFreeGrammar.Derives.refl _, List.Forall₂.nil⟩
    | expand he _ ih =>
      obtain ⟨cw, hd, hm⟩ := ih hy
      cases he with
      | @mk n alt rest hmem =>
        have hstep : G.Produces (.nonterminal n :: rest) (alt ++ rest) :=
          ⟨⟨n, alt⟩, (hG _).mpr hmem, ContextFreeRule.Rewrites.head rest⟩
        exact ⟨cw, hstep.trans_derives hd, hm⟩
    | @read t a f y w hta _ ih =>
      obtain ⟨cw, hd, hm⟩ := ih hy
      exact ⟨t :: cw, hd.append_left [.terminal t], List.Forall₂.cons hta hm⟩

theorem HaltsIn.succ {k : Nat} {f : List (Symbol T N)} (h : HaltsIn P k f) :
    HaltsIn P (k + 1) f := by
  induction k generalizing f with
  | zero => exact h.elim
  | succ k ih => exact fun g hg => ih (h g hg)

theorem HaltsIn.mono {k' : Nat} (h : HaltsIn P k f) (hk : k ≤ k') : HaltsIn P k' f := by
  induction hk with
  | refl => exact h
  | step _ ih => exact ih.succ

theorem HaltsIn.halts (h : HaltsIn P k f) : Halts P f := by
  induction k generalizing f with
  | zero => exact h.elim
  | succ k ih => exact Acc.intro f fun g hg => ih (h g hg)

/-- A form has finitely many expansions, so a chain of bounded length is enough. -/
theorem Halts.exists_haltsIn (h : Halts P f) : ∃ k, HaltsIn P k f := by
  induction h with
  | intro f _ ih =>
    match f, ih with
    | [], _ => exact ⟨1, fun g hg => (not_expand_nil hg).elim⟩
    | .terminal t :: rest, _ => exact ⟨1, fun g hg => (not_expand_terminal hg).elim⟩
    | .nonterminal n :: rest, ih =>
      have halt : ∀ alts : List (List (Symbol T N)), (∀ alt ∈ alts, alt ∈ P n) →
          ∃ k, ∀ alt ∈ alts, HaltsIn P k (alt ++ rest) := by
        intro alts
        induction alts with
        | nil => exact fun _ => ⟨0, by simp⟩
        | cons alt alts iha =>
          intro hmem
          obtain ⟨k1, h1⟩ := iha fun x hx => hmem x (mem_cons_of_mem _ hx)
          obtain ⟨k2, h2⟩ := ih _ (Expand.mk rest (hmem alt mem_cons_self))
          refine ⟨max k1 k2, fun x hx => ?_⟩
          rcases mem_cons.mp hx with rfl | hx
          · exact h2.mono (le_max_right _ _)
          · exact (h1 x hx).mono (le_max_left _ _)
      obtain ⟨k, hk⟩ := halt (P n) fun _ h => h
      refine ⟨k + 1, fun g hg => ?_⟩
      obtain ⟨alt, hmem, rfl⟩ := expand_nonterminal.mp hg
      exact hk alt hmem

theorem halts_nil : Halts P [] := Acc.intro _ fun _ hg => (not_expand_nil hg).elim

theorem Nullable.cons {s : Symbol T N} (h1 : Nullable P [s]) (h2 : Nullable P f) :
    Nullable P (s :: f) :=
  (expands_append h1 f).trans h2

theorem Nullable.append (h1 : Nullable P f) (h2 : Nullable P g) : Nullable P (f ++ g) :=
  (expands_append h1 g).trans h2

/-- Chains in front of `rest` end when the nonterminals behind nullable parts of `f` are
harmless, and `rest` halts if it can come to the front. -/
theorem halts_append (hgood : ∀ pre n post, f = pre ++ .nonterminal n :: post → Nullable P pre →
      ∀ r, (Nullable P [.nonterminal n] → Halts P r) → Halts P (.nonterminal n :: r))
    (hrest : Nullable P f → Halts P rest) : Halts P (f ++ rest) := by
  induction f with
  | nil => exact hrest ReflTransGen.refl
  | cons s f ih =>
    cases s with
    | terminal t => exact Acc.intro _ fun _ hg => (not_expand_terminal hg).elim
    | nonterminal n =>
      refine hgood [] n f rfl ReflTransGen.refl _ fun hn => ih ?_ fun hf => hrest (hn.cons hf)
      rintro pre m post rfl hpre
      exact hgood (.nonterminal n :: pre) m post rfl (hn.cons hpre)

/-- Without infinite chains of left steps every form halts. -/
theorem halts_of_wellFounded (hwf : WellFounded fun b a => LeftStep P a b)
    (f : List (Symbol T N)) : Halts P f := by
  have hgood : ∀ n r, (Nullable P [.nonterminal n] → Halts P r) →
      Halts P (.nonterminal n :: r) := by
    intro n
    induction n using hwf.induction with
    | _ n ih =>
      intro r hr
      refine Acc.intro _ fun g hg => ?_
      obtain ⟨alt, hmem, rfl⟩ := expand_nonterminal.mp hg
      refine halts_append ?_ fun hnull => hr ?_
      · rintro pre m post rfl hpre
        exact ih m ⟨pre, post, hmem, hpre⟩
      · exact ReflTransGen.head (by simpa using Expand.mk (P := P) [] hmem) hnull
  have := @halts_append T N P f [] (fun _ n _ _ _ => hgood n) fun _ => halts_nil
  rwa [append_nil] at this

/-- Left steps among finitely many nonterminals without a cycle are well-founded. -/
theorem wellFounded_leftStep {s : Set N} (hs : s.Finite)
    (hP : ∀ a b, LeftStep P a b → b ∈ s) (h : ¬ LeftRecursive P) :
    WellFounded fun b a => LeftStep P a b := by
  have hfin : Finite s := hs
  have hirr : Std.Irrefl fun b a : s => TransGen (LeftStep P) a b := ⟨fun a ha => h ⟨a, ha⟩⟩
  have htr : IsTrans s fun b a : s => TransGen (LeftStep P) a b := ⟨fun _ _ _ h1 h2 => h2.trans h1⟩
  have hwf := Finite.wellFounded_of_trans_of_irrefl fun b a : s => TransGen (LeftStep P) a b
  have hacc : ∀ a : s, Acc (fun b a => LeftStep P a b) a.1 := by
    intro a
    induction a using hwf.induction with
    | _ a ih => exact Acc.intro _ fun b hb => ih ⟨b, hP _ _ hb⟩ (TransGen.single hb)
  exact ⟨fun a => Acc.intro a fun b hb => hacc ⟨b, hP _ _ hb⟩⟩

theorem LeftStep.expands {a b : N} (h : LeftStep P a b) (rest : List (Symbol T N)) :
    ∃ rest', TransGen (Expand P) (.nonterminal a :: rest) (.nonterminal b :: rest') := by
  obtain ⟨pre, post, hmem, hnull⟩ := h
  refine ⟨post ++ rest, TransGen.head' (Expand.mk rest hmem) ?_⟩
  rw [append_assoc]
  exact expands_append hnull _

/-- A nonterminal that reaches itself behind nullable parts has an endless chain. -/
theorem not_halts_of_leftRecursive {a : N} (h : TransGen (LeftStep P) a a)
    (rest : List (Symbol T N)) : ¬ Halts P (.nonterminal a :: rest) := by
  have hloop : ∀ b, TransGen (LeftStep P) a b → ∀ rest,
      ∃ rest', TransGen (Expand P) (.nonterminal a :: rest) (.nonterminal b :: rest') := by
    intro b hb rest
    induction hb with
    | single hstep => exact hstep.expands rest
    | tail _ hstep ih =>
      obtain ⟨r1, h1⟩ := ih
      obtain ⟨r2, h2⟩ := hstep.expands r1
      exact ⟨r2, h1.trans h2⟩
  intro hacc
  replace hacc := Acc.transGen hacc
  generalize hf : Symbol.nonterminal a :: rest = f at hacc
  induction hacc generalizing rest with
  | intro f _ ih =>
    subst hf
    obtain ⟨rest', hr⟩ := hloop a h rest
    exact ih _ (transGen_swap.mpr hr) rest' rfl

end Llama.Leftmost
