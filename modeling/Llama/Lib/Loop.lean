import Mathlib.Data.List.Basic

/-!
# Rules for counting loops

A loop `for i in 0 .. n` is a left fold over `range n`. The invariant rule has
the number of finished turns in its motive. The second rule is for loops whose turn
`i` rewrites only entry `i` of a table that the state carries.
-/

namespace Llama.Loop

open List

variable {α β γ : Type*}

variable {f : β → Nat → β} {b b' : β} {n : Nat} {I : β → Prop} {l : List α} {a : α}

/-- Invariant rule: the motive speaks about the number of finished turns. -/
theorem foldl_range_induction {motive : Nat → β → Prop} (h0 : motive 0 b)
    (hs : ∀ k < n, ∀ b, motive k b → motive (k + 1) (f b k)) : motive n ((range n).foldl f b) := by
  induction n with
  | zero => exact h0
  | succ n ih =>
    rw [range_succ, foldl_append]
    exact hs n (Nat.lt_succ_self n) _ (ih fun k hk => hs k (Nat.lt_succ_of_lt hk))

/-- Table rule: if turn `i` keeps the invariant `I` and rewrites only entry `i`, by `g`, then
the loop maps `g` over the table `t`. The precondition `p` is needed of the entries at the
start only. -/
theorem foldl_range_table {t : β → Nat → γ} {p : Nat → γ → Prop} {g : Nat → γ → γ} (hb : I b)
    (hp : ∀ i < n, p i (t b i)) (hs : ∀ b, ∀ i < n, I b → p i (t b i) →
      I (f b i) ∧ t (f b i) = Function.update (t b) i (g i (t b i))) :
    I ((range n).foldl f b) ∧
      ∀ j, t ((range n).foldl f b) j = if j < n then g j (t b j) else t b j := by
  apply foldl_range_induction
    (motive := fun k b' => I b' ∧ ∀ j, t b' j = if j < k then g j (t b j) else t b j)
  · exact ⟨hb, fun j => by simp⟩
  · rintro k hk b' ⟨hI, ht⟩
    have hold : t b' k = t b k := by simpa using ht k
    obtain ⟨hI', ht'⟩ := hs b' k hk hI (by rw [hold]; exact hp k hk)
    refine ⟨hI', fun j => ?_⟩
    rw [ht']
    by_cases hj : j = k
    · subst hj
      simp [hold]
    · rw [Function.update_of_ne hj, ht j]
      by_cases hlt : j < k
      · simp [hlt, Nat.lt_succ_of_lt hlt]
      · have : ¬ j < k + 1 := by omega
        simp [hlt, this]

/-- A fold whose step ignores one component of its state. -/
theorem foldl_fst {f : β × γ → α → β × γ} {g : β → α → β} (h : ∀ s a, (f s a).1 = g s.1 a)
    (l : List α) (s : β × γ) : (l.foldl f s).1 = l.foldl g s.1 :=
  (foldl_hom Prod.fst fun s a => (h s a).symm).symm

/-- A step and what follows succeed when both do. -/
theorem bind_ok {ε α β : Type} {x : Except ε α} {f : α → Except ε β} {b : β} :
    (x >>= f) = .ok b ↔ ∃ a, x = .ok a ∧ f a = .ok b := by
  cases x with
  | error e => simp [bind, Except.bind]
  | ok a => simp [bind, Except.bind]

/-- A loop that collects: every turn succeeds and adds the elements that `Q` gives it. -/
theorem foldlM_collect {ε : Type*} {step : List γ → α → Except ε (List γ)} {Q : α → γ → Prop}
    (h : ∀ a ∈ l, ∀ acc, ∃ acc', step acc a = .ok acc' ∧
      ∀ t, t ∈ acc' ↔ t ∈ acc ∨ Q a t) (acc : List γ) :
    ∃ acc', l.foldlM step acc = .ok acc' ∧ ∀ t, t ∈ acc' ↔ t ∈ acc ∨ ∃ a ∈ l, Q a t := by
  induction l generalizing acc with
  | nil => exact ⟨acc, rfl, by simp⟩
  | cons a l ih =>
    obtain ⟨acc1, hok1, hmem1⟩ := h a mem_cons_self acc
    obtain ⟨acc2, hok2, hmem2⟩ := ih (fun b hb => h b (mem_cons_of_mem a hb)) acc1
    refine ⟨acc2, ?_, fun t => ?_⟩
    · rw [foldlM_cons, hok1]
      exact hok2
    · rw [hmem2, hmem1]
      simp only [mem_cons, exists_eq_or_imp, or_assoc]

/-- Invariant rule for a loop that may fail. -/
theorem foldlM_inv {ε : Type*} {step : β → α → Except ε β} (hb : I b)
    (hs : ∀ b, ∀ a ∈ l, ∀ b', I b → step b a = .ok b' → I b') (h : l.foldlM step b = .ok b') :
    I b' := by
  induction l generalizing b with
  | nil =>
    cases h
    exact hb
  | cons a l ih =>
    rw [foldlM_cons] at h
    cases ha : step b a with
    | error e =>
      rw [ha] at h
      cases h
    | ok c =>
      rw [ha] at h
      exact ih (hs b a mem_cons_self c hb ha) (fun b x hx => hs b x (mem_cons_of_mem a hx)) h

/-- A loop whose turns never fail with `e` under an invariant does not. -/
theorem foldlM_ne_error {ε : Type*} {step : β → α → Except ε β} {e : ε} (hb : I b)
    (hs : ∀ b, ∀ a ∈ l, ∀ b', I b → step b a = .ok b' → I b')
    (hne : ∀ b, ∀ a ∈ l, I b → step b a ≠ .error e) : l.foldlM step b ≠ .error e := by
  induction l generalizing b with
  | nil => exact nofun
  | cons a l ih =>
    rw [foldlM_cons]
    cases ha : step b a with
    | error e' =>
      have := hne b a mem_cons_self hb
      rwa [ha] at this
    | ok c =>
      exact ih (hs b a mem_cons_self c hb ha)
        (fun b x hx => hs b x (mem_cons_of_mem a hx))
        fun b x hx => hne b x (mem_cons_of_mem a hx)

/-- A loop that succeeds does so with any step that agrees on success. -/
theorem foldlM_mono {ε : Type*} {step step' : β → α → Except ε β}
    (h : ∀ b, ∀ a ∈ l, ∀ b', step b a = .ok b' → step' b a = .ok b')
    (hl : l.foldlM step b = .ok b') : l.foldlM step' b = .ok b' := by
  induction l generalizing b with
  | nil => exact hl
  | cons a l ih =>
    rw [foldlM_cons] at hl ⊢
    cases ha : step b a with
    | error e =>
      rw [ha] at hl
      cases hl
    | ok c =>
      rw [ha] at hl
      rw [h b a mem_cons_self c ha]
      exact ih (fun b x hx => h b x (mem_cons_of_mem a hx)) hl

/-- A loop with a turn that always fails fails, in a way that the turns fail. -/
theorem foldlM_fails {ε : Type*} {step : β → α → Except ε β} {F : ε → Prop} (ha : a ∈ l)
    (hbad : ∀ b, ∃ e, F e ∧ step b a = .error e)
    (h : ∀ x ∈ l, ∀ b, (∃ b', step b x = .ok b') ∨ ∃ e, F e ∧ step b x = .error e) (b : β) :
    ∃ e, F e ∧ l.foldlM step b = .error e := by
  induction l generalizing b with
  | nil => cases ha
  | cons x l ih =>
    rw [foldlM_cons]
    rcases mem_cons.mp ha with rfl | ha
    · obtain ⟨e, he, hb⟩ := hbad b
      exact ⟨e, he, by rw [hb]; rfl⟩
    · rcases h x mem_cons_self b with ⟨b', hb⟩ | ⟨e, he, hb⟩
      · rw [hb]
        exact ih ha (fun y hy => h y (mem_cons_of_mem x hy)) b'
      · exact ⟨e, he, by rw [hb]; rfl⟩

/-- A loop with a turn that always fails fails the same way if the others succeed or do too. -/
theorem foldlM_error {ε : Type*} {step : β → α → Except ε β} {e : ε} (ha : a ∈ l)
    (hbad : ∀ b, step b a = .error e)
    (h : ∀ x ∈ l, ∀ b, (∃ b', step b x = .ok b') ∨ step b x = .error e) (b : β) :
    l.foldlM step b = .error e := by
  obtain ⟨e', rfl, hloop⟩ := foldlM_fails (F := (· = e)) ha (fun b => ⟨e, rfl, hbad b⟩)
    (fun x hx b => (h x hx b).imp_right fun hb => ⟨e, rfl, hb⟩) b
  exact hloop

/-- A step that adds the same elements whatever was collected before, or always fails the same
way. -/
def Collects {ε : Type*} (F : ε → Prop) (step : List γ → Except ε (List γ)) : Prop :=
  (∃ R : List γ, ∀ acc, ∃ acc', step acc = .ok acc' ∧ ∀ t, t ∈ acc' ↔ t ∈ acc ∨ t ∈ R) ∨
    ∃ e, F e ∧ ∀ acc, step acc = .error e

theorem Collects.congr {ε : Type*} {F : ε → Prop} {step step' : List γ → Except ε (List γ)}
    (h : Collects F step) (heq : ∀ acc, step' acc = step acc) : Collects F step' := by
  rwa [funext heq]

theorem collects_foldlM {ε : Type*} {F : ε → Prop} {step : List γ → α → Except ε (List γ)}
    (h : ∀ a ∈ l, Collects F fun acc => step acc a) :
    Collects F fun acc => l.foldlM step acc := by
  induction l with
  | nil => exact .inl ⟨[], fun acc => ⟨acc, rfl, by simp⟩⟩
  | cons a l ih =>
    have hcons : ∀ acc, (a :: l).foldlM step acc = (step acc a).bind fun b => l.foldlM step b :=
      fun acc => foldlM_cons
    rcases h a mem_cons_self with ⟨R, hR⟩ | ⟨e, he, hbad⟩
    · rcases ih fun b hb => h b (mem_cons_of_mem a hb) with ⟨S, hS⟩ | ⟨e, he, hbad⟩
      · refine .inl ⟨R ++ S, fun acc => ?_⟩
        obtain ⟨acc1, hok1, hmem1⟩ := hR acc
        obtain ⟨acc2, hok2, hmem2⟩ := hS acc1
        dsimp only at hok1 hok2
        refine ⟨acc2, (hcons acc).trans (by rw [hok1]; exact hok2), fun t => ?_⟩
        rw [hmem2, hmem1, mem_append, or_assoc]
      · refine .inr ⟨e, he, fun acc => ?_⟩
        obtain ⟨acc1, hok1, -⟩ := hR acc
        dsimp only at hok1
        exact (hcons acc).trans (by rw [hok1]; exact hbad acc1)
    · refine .inr ⟨e, he, fun acc => ?_⟩
      have hacc := hbad acc
      dsimp only at hacc
      exact (hcons acc).trans (by rw [hacc]; rfl)

section Until

variable {σ τ : Type*} {turn : σ → σ ⊕ τ} {I : σ → Prop} {Q : τ → Prop}

/-- At most `fuel` turns of a loop. A turn goes on with a state, or it leaves with a result. -/
def untilDone (turn : σ → σ ⊕ τ) : Nat → σ → Option τ
  | 0, _ => none
  | fuel + 1, s =>
    match turn s with
    | .inl s' => untilDone turn fuel s'
    | .inr r => some r

variable {fuel : Nat} {s : σ}

/-- Invariant rule: what the loop returns satisfies what the last turn gives. -/
theorem untilDone_invariant (hstep : ∀ s s', I s → turn s = .inl s' → I s')
    (hdone : ∀ s r, I s → turn s = .inr r → Q r) {r : τ} (h : I s)
    (hr : untilDone turn fuel s = some r) : Q r := by
  induction fuel generalizing s with
  | zero => cases hr
  | succ fuel ih =>
    rw [untilDone] at hr
    cases hturn : turn s with
    | inl s' =>
      rw [hturn] at hr
      exact ih (hstep s s' h hturn) hr
    | inr r' =>
      rw [hturn] at hr
      exact Option.some.inj hr ▸ hdone s r' h hturn

/-- Measure rule: a loop whose turns decrease a measure returns. -/
theorem untilDone_total {m : σ → Nat} (hstep : ∀ s s', I s → turn s = .inl s' → I s')
    (hless : ∀ s s', I s → turn s = .inl s' → m s' < m s) (h : I s) (hfuel : m s < fuel) :
    ∃ r, untilDone turn fuel s = some r := by
  induction fuel generalizing s with
  | zero => exact absurd hfuel (Nat.not_lt_zero _)
  | succ fuel ih =>
    rw [untilDone]
    cases hturn : turn s with
    | inl s' => exact ih (hstep s s' h hturn) (by have := hless s s' h hturn; omega)
    | inr r => exact ⟨r, rfl⟩

end Until

end Llama.Loop
