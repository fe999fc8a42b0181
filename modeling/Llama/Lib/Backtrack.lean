import Mathlib.Computability.Language
import Mathlib.Algebra.Order.Ring.Int

/-!
# Backtracking matchers

A matcher gives the texts that can be left of a text behind a match, in the order in which
backtracking finds them. An iteration of a quantifier beyond its minimum may not match nothing,
as in ECMAScript. The language of a matcher says which texts it passes. An eager matcher passes
nothing only where it can pass nothing else; other matchers show a part of their language.
-/

namespace Llama.Backtrack

open Computability List Option Language

variable {α : Type}

/-- The texts left behind the matches at the front of a text, in order of preference. -/
abbrev Matcher (α : Type) := List α → List (List α)

/-- One symbol. -/
def sym (p : α → Bool) : Matcher α
  | [] => []
  | a :: s => if p a then [s] else []

/-- Nothing. -/
def eps : Matcher α := fun s => [s]

/-- One matcher behind the other. -/
def seq (m n : Matcher α) : Matcher α := fun s => (m s).flatMap n

/-- Two matchers, the first one preferred. -/
def alt (m n : Matcher α) : Matcher α := fun s => m s ++ n s

/-- Several matchers, the earlier ones preferred. -/
def oneOf (ms : List (Matcher α)) : Matcher α := ms.foldr alt fun _ => []

/-- A fixed number of times. -/
def times (m : Matcher α) : Nat → Matcher α
  | 0 => eps
  | k + 1 => seq m (times m k)

/-- Up to a number of times, and as often as possible first. -/
def upTo (m : Matcher α) : Nat → Matcher α
  | 0 => eps
  | k + 1 => fun s => ((m s).filter fun t => t.length < s.length).flatMap (upTo m k) ++ [s]

/-- As often as possible first; every iteration shortens the text. -/
def star (m : Matcher α) : Matcher α := fun s => upTo m s.length s

def opt (m : Matcher α) : Matcher α := upTo m 1

def plus (m : Matcher α) : Matcher α := seq m (star m)

/-- `m{min,max}`, or without a maximum. -/
def rep (m : Matcher α) (min : Nat) : Option Nat → Matcher α
  | none => seq (times m min) (star m)
  | some max => seq (times m min) (upTo m (max - min))

/-- Passes nothing where `m` does not match. -/
def notAhead (m : Matcher α) : Matcher α := fun s => if (m s).isEmpty then [s] else []

/-- The leftmost match: what stands in front of it, and what is left behind its first way. -/
def search (m : Matcher α) : List α → Option (List α × List α)
  | [] => (m []).head?.map fun t => ([], t)
  | a :: s =>
    match (m (a :: s)).head? with
    | some t => some ([], t)
    | none => (search m s).map fun r => (a :: r.1, r.2)

/-- The matcher passes the words of the language. -/
def Recognizes (m : Matcher α) (L : Language α) : Prop := ∀ s t, t ∈ m s ↔ ∃ w ∈ L, s = w ++ t

/-- The words of one symbol. -/
def symbols (p : α → Bool) : Language α := {w | ∃ a, p a = true ∧ w = [a]}

theorem recognizes_sym (p : α → Bool) : Recognizes (sym p) (symbols p) := by
  intro s t
  constructor
  · intro h
    cases s with
    | nil => cases h
    | cons a s =>
      rw [sym] at h
      split at h
      next hp =>
        obtain rfl := mem_singleton.mp h
        exact ⟨[a], ⟨a, hp, rfl⟩, rfl⟩
      next => cases h
  · rintro ⟨w, ⟨a, hp, rfl⟩, rfl⟩
    simp [sym, hp]

theorem recognizes_eps : Recognizes (eps : Matcher α) 1 := by
  intro s t
  simp [eps, mem_one, eq_comm]

theorem Recognizes.seq {m n : Matcher α} {L M : Language α} (hm : Recognizes m L)
    (hn : Recognizes n M) : Recognizes (seq m n) (L * M) := by
  intro s t
  rw [Backtrack.seq, mem_flatMap]
  constructor
  · rintro ⟨s', hs', ht⟩
    obtain ⟨u, hu, rfl⟩ := (hm s s').mp hs'
    obtain ⟨v, hv, rfl⟩ := (hn s' t).mp ht
    exact ⟨u ++ v, mem_mul.mpr ⟨u, hu, v, hv, rfl⟩, (append_assoc u v t).symm⟩
  · rintro ⟨w, hw, rfl⟩
    obtain ⟨u, hu, v, hv, rfl⟩ := mem_mul.mp hw
    exact ⟨v ++ t, (hm _ _).mpr ⟨u, hu, append_assoc u v t⟩, (hn _ _).mpr ⟨v, hv, rfl⟩⟩

theorem Recognizes.alt {m n : Matcher α} {L M : Language α} (hm : Recognizes m L)
    (hn : Recognizes n M) : Recognizes (alt m n) (L + M) := by
  intro s t
  rw [Backtrack.alt, mem_append, hm s t, hn s t]
  simp only [mem_add, or_and_right, exists_or]

variable {m : Matcher α} {L : Language α} {k n : Nat} {s t : List α}

theorem Recognizes.times (hm : Recognizes m L) (k : Nat) : Recognizes (times m k) (L ^ k) := by
  induction k with
  | zero =>
    rw [pow_zero]
    exact recognizes_eps
  | succ k ih =>
    rw [pow_succ']
    exact hm.seq ih

theorem mem_upTo_self (m : Matcher α) (k : Nat) (s : List α) : s ∈ upTo m k s := by
  cases k <;> simp [upTo, eps]

/-- Iterations that match nothing can be left out, so that either bound is enough. -/
theorem Recognizes.mem_upTo (hm : Recognizes m L) {w : List α} (hw : w ∈ L ^ k)
    (hn : k ≤ n ∨ w.length ≤ n) (t : List α) : t ∈ upTo m n (w ++ t) := by
  induction k generalizing n w with
  | zero =>
    obtain rfl : w = [] := by simpa using hw
    exact mem_upTo_self m n t
  | succ k ih =>
    rw [pow_succ'] at hw
    obtain ⟨u, hu, v, hv, rfl⟩ := mem_mul.mp hw
    rcases eq_nil_or_concat u with rfl | ⟨u', a, rfl⟩
    · exact ih hv (hn.imp Nat.le_of_succ_le id)
    · simp only [length_append, length_concat] at hn
      cases n with
      | zero => omega
      | succ n =>
        rw [upTo, mem_append, mem_flatMap]
        refine .inl ⟨v ++ t, ?_, ih hv (hn.imp Nat.le_of_succ_le_succ fun _ => by omega)⟩
        rw [mem_filter]
        refine ⟨(hm _ _).mpr ⟨_, hu, append_assoc _ v t⟩, ?_⟩
        simp only [length_append, length_concat, decide_eq_true_eq]
        omega

theorem Recognizes.of_mem_upTo (hm : Recognizes m L) (h : t ∈ upTo m n s) :
    ∃ k ≤ n, ∃ w ∈ L ^ k, s = w ++ t := by
  induction n generalizing s with
  | zero =>
    obtain rfl := mem_singleton.mp h
    exact ⟨0, le_refl 0, [], by simp, rfl⟩
  | succ n ih =>
    rw [upTo, mem_append, mem_flatMap, mem_singleton] at h
    obtain ⟨s', hs', ht⟩ | rfl := h
    · obtain ⟨u, hu, rfl⟩ := (hm _ _).mp (mem_filter.mp hs').1
      obtain ⟨k, hk, v, hv, rfl⟩ := ih ht
      refine ⟨k + 1, Nat.succ_le_succ hk, u ++ v, ?_, (append_assoc u v t).symm⟩
      rw [pow_succ']
      exact mem_mul.mpr ⟨u, hu, v, hv, rfl⟩
    · exact ⟨0, Nat.zero_le _, [], by simp, rfl⟩

theorem Recognizes.star (hm : Recognizes m L) : Recognizes (star m) L∗ := by
  intro s t
  constructor
  · intro h
    obtain ⟨k, -, w, hw, rfl⟩ := hm.of_mem_upTo h
    rw [kstar_eq_iSup_pow]
    exact ⟨w, mem_iSup.mpr ⟨k, hw⟩, rfl⟩
  · rintro ⟨w, hw, rfl⟩
    rw [kstar_eq_iSup_pow] at hw
    obtain ⟨k, hk⟩ := mem_iSup.mp hw
    exact hm.mem_upTo hk (.inr (by simp)) t

theorem Recognizes.mem_upTo_iff (hm : Recognizes m L) (n : Nat) (s t : List α) :
    t ∈ upTo m n s ↔ ∃ k ≤ n, ∃ w ∈ L ^ k, s = w ++ t := by
  refine ⟨hm.of_mem_upTo, ?_⟩
  rintro ⟨k, hk, w, hw, rfl⟩
  exact hm.mem_upTo hw (.inl hk) t

theorem Recognizes.opt {m : Matcher α} {L : Language α} (hm : Recognizes m L) :
    Recognizes (opt m) (1 + L) := by
  intro s t
  rw [Backtrack.opt, hm.mem_upTo_iff]
  constructor
  · rintro ⟨k, hk, w, hw, rfl⟩
    refine ⟨w, ?_, rfl⟩
    rw [mem_add]
    obtain rfl | rfl : k = 0 ∨ k = 1 := by omega
    · exact .inl (by simpa using hw)
    · exact .inr (by simpa using hw)
  · rintro ⟨w, hw, rfl⟩
    rcases (mem_add _ _ _).mp hw with hw | hw
    · exact ⟨0, Nat.zero_le 1, w, by simpa using hw, rfl⟩
    · exact ⟨1, le_refl 1, w, by simpa using hw, rfl⟩

theorem Recognizes.plus (hm : Recognizes m L) : Recognizes (plus m) (L * L∗) := hm.seq hm.star

/-- The words of a bounded repetition. -/
def repWords (L : Language α) (min : Nat) (max : Option Nat) : Language α :=
  {w | ∃ k, min ≤ k ∧ (∀ n ∈ max, k ≤ n) ∧ w ∈ L ^ k}

theorem Recognizes.rep {m : Matcher α} {L : Language α} (hm : Recognizes m L) (min : Nat)
    {max : Option Nat} (hmax : ∀ n ∈ max, min ≤ n) :
    Recognizes (rep m min max) (repWords L min max) := by
  intro s t
  cases max with
  | none =>
    rw [Backtrack.rep, (hm.times min).seq hm.star s t]
    constructor
    · rintro ⟨w, hw, rfl⟩
      obtain ⟨u, hu, v, hv, rfl⟩ := mem_mul.mp hw
      rw [kstar_eq_iSup_pow] at hv
      obtain ⟨k, hk⟩ := mem_iSup.mp hv
      refine ⟨u ++ v, ⟨min + k, Nat.le_add_right min k, by simp, ?_⟩, rfl⟩
      rw [pow_add]
      exact mem_mul.mpr ⟨u, hu, v, hk, rfl⟩
    · rintro ⟨w, ⟨k, hk, -, hw⟩, rfl⟩
      obtain ⟨d, rfl⟩ := Nat.exists_eq_add_of_le hk
      rw [pow_add] at hw
      obtain ⟨u, hu, v, hv, rfl⟩ := mem_mul.mp hw
      refine ⟨u ++ v, mem_mul.mpr ⟨u, hu, v, ?_, rfl⟩, rfl⟩
      rw [kstar_eq_iSup_pow]
      exact mem_iSup.mpr ⟨d, hv⟩
  | some n =>
    have hn : min ≤ n := hmax n rfl
    rw [Backtrack.rep, Backtrack.seq, mem_flatMap]
    constructor
    · rintro ⟨s', hs', ht⟩
      obtain ⟨u, hu, rfl⟩ := (hm.times min _ _).mp hs'
      obtain ⟨k, hk, v, hv, rfl⟩ := hm.of_mem_upTo ht
      refine ⟨u ++ v, ⟨min + k, Nat.le_add_right min k, ?_, ?_⟩, (append_assoc u v t).symm⟩
      · intro n' hn'
        obtain rfl := mem_some_iff.mp hn'
        omega
      · rw [pow_add]
        exact mem_mul.mpr ⟨u, hu, v, hv, rfl⟩
    · rintro ⟨w, ⟨k, hk, hkn, hw⟩, rfl⟩
      obtain ⟨d, rfl⟩ := Nat.exists_eq_add_of_le hk
      have hle := hkn n rfl
      rw [pow_add] at hw
      obtain ⟨u, hu, v, hv, rfl⟩ := mem_mul.mp hw
      exact ⟨v ++ t, (hm.times min _ _).mpr ⟨u, hu, append_assoc u v t⟩,
        hm.mem_upTo hv (.inl (by omega)) t⟩

/-- The first way shortens the text if any way does. -/
def Eager (m : Matcher α) : Prop :=
  ∀ s, (∃ t ∈ m s, t.length < s.length) → ∃ t, (m s).head? = some t ∧ t.length < s.length

/-- What is left is a suffix. -/
def Shrinks (m : Matcher α) : Prop := ∀ s, ∀ t ∈ m s, t <:+ s

/-- Every way shortens the text. -/
def Consumes (m : Matcher α) : Prop := ∀ s, ∀ t ∈ m s, t.length < s.length

/-- There is always a way. -/
def Succeeds (m : Matcher α) : Prop := ∀ s, m s ≠ []

theorem Recognizes.shrinks (hm : Recognizes m L) : Shrinks m := by
  intro s t ht
  obtain ⟨w, -, rfl⟩ := (hm s t).mp ht
  exact suffix_append w t

theorem Recognizes.consumes (hm : Recognizes m L) (h : [] ∉ L) : Consumes m := by
  intro s t ht
  obtain ⟨w, hw, rfl⟩ := (hm s t).mp ht
  have hne : w ≠ [] := by
    rintro rfl
    exact h hw
  have hpos := length_pos_iff.mpr hne
  rw [length_append]
  omega

theorem Recognizes.succeeds (hm : Recognizes m L) (h : [] ∈ L) : Succeeds m := fun s =>
  ne_nil_of_mem ((hm s s).mpr ⟨[], h, rfl⟩)

theorem head_of_mem {l : List (List α)} (ht : t ∈ l) (h : ∀ u ∈ l, u.length < s.length) :
    ∃ u, l.head? = some u ∧ u.length < s.length := by
  cases l with
  | nil => cases ht
  | cons u l => exact ⟨u, rfl, h u mem_cons_self⟩

theorem Consumes.eager (h : Consumes m) : Eager m := by
  rintro s ⟨t, ht, -⟩
  exact head_of_mem ht (h s)

theorem length_le_of_mem_upTo (ht : t ∈ upTo m k s) : t.length ≤ s.length := by
  induction k generalizing s with
  | zero => rw [mem_singleton.mp ht]
  | succ k ih =>
    rw [upTo, mem_append, mem_flatMap, mem_singleton] at ht
    obtain ⟨s', hs', ht⟩ | rfl := ht
    · have hlt : s'.length < s.length := by simpa using (mem_filter.mp hs').2
      exact Nat.le_trans (ih ht) (Nat.le_of_lt hlt)
    · exact Nat.le_refl _

theorem eager_upTo (m : Matcher α) (k : Nat) : Eager (upTo m k) := by
  cases k with
  | zero =>
    rintro s ⟨t, ht, hlt⟩
    rw [mem_singleton.mp ht] at hlt
    exact absurd hlt (Nat.lt_irrefl _)
  | succ k =>
    rintro s ⟨t, ht, hlt⟩
    rw [upTo] at ht ⊢
    rcases mem_append.mp ht with ht | ht
    · obtain ⟨u, hu, hlt'⟩ := head_of_mem (s := s) ht fun u hu => by
        obtain ⟨s', hs', hu⟩ := mem_flatMap.mp hu
        have hlt' : s'.length < s.length := by simpa using (mem_filter.mp hs').2
        exact Nat.lt_of_le_of_lt (length_le_of_mem_upTo hu) hlt'
      exact ⟨u, by rw [head?_append, hu, some_or], hlt'⟩
    · rw [mem_singleton.mp ht] at hlt
      exact absurd hlt (Nat.lt_irrefl _)

theorem eager_star (m : Matcher α) : Eager (star m) := fun s => eager_upTo m s.length s

theorem mem_star_of_mem (ht : t ∈ m s) (hlt : t.length < s.length) : t ∈ star m s := by
  rw [star]
  cases hk : s.length with
  | zero => omega
  | succ k =>
    rw [upTo, mem_append, mem_flatMap]
    exact .inl ⟨t, mem_filter.mpr ⟨ht, by simpa using hlt⟩, mem_upTo_self m k t⟩

theorem exists_head_of_succeeds (h : Succeeds m) (s : List α) : ∃ t, (m s).head? = some t := by
  cases hs : m s with
  | nil => exact absurd hs (h s)
  | cons t l => exact ⟨t, rfl⟩

theorem succeeds_upTo (m : Matcher α) (k : Nat) : Succeeds (upTo m k) := fun s =>
  ne_nil_of_mem (mem_upTo_self m k s)

theorem Shrinks.plus_eager (hm : Shrinks m) : Eager (plus m) := by
  rintro s ⟨t, ht, hlt⟩
  rw [plus, seq] at ht ⊢
  cases h : m s with
  | nil =>
    rw [h] at ht
    cases ht
  | cons u l =>
    have hu : u <:+ s := hm s u (by rw [h]; exact mem_cons_self)
    obtain ⟨v, hv⟩ := exists_head_of_succeeds (succeeds_upTo m u.length) u
    rw [flatMap_cons, head?_append, star, hv, some_or]
    refine ⟨v, rfl, ?_⟩
    rcases Nat.lt_or_ge u.length s.length with hshort | hlong
    · exact Nat.lt_of_le_of_lt (length_le_of_mem_upTo (mem_of_head? hv)) hshort
    · -- the first iteration matches nothing, and the others are greedy
      obtain rfl : u = s := hu.eq_of_length (Nat.le_antisymm hu.length_le hlong)
      have hshort : ∃ t' ∈ star m u, t'.length < u.length := by
        obtain ⟨s', hs', ht'⟩ := mem_flatMap.mp ht
        rcases Nat.lt_or_ge s'.length u.length with hs'' | hs''
        · exact ⟨s', mem_star_of_mem hs' hs'', hs''⟩
        · have hsuffix := hm u s' hs'
          obtain rfl : s' = u := hsuffix.eq_of_length (Nat.le_antisymm hsuffix.length_le hs'')
          exact ⟨t, ht', hlt⟩
      obtain ⟨v', hv', hlt'⟩ := eager_star m u hshort
      rw [star, hv] at hv'
      cases hv'
      exact hlt'

theorem mem_opt : t ∈ opt m s ↔ t ∈ m s ∧ t.length < s.length ∨ t = s := by
  simp [opt, upTo, eps]

/-- The first way shortens the text exactly where a word of the language is at its front. -/
def Shows (m : Matcher α) (V : Language α) : Prop :=
  ∀ s, (∃ t, (m s).head? = some t ∧ t.length < s.length) ↔ ∃ w ∈ V, w ≠ [] ∧ w <+: s

variable {V : Language α}

/-- Only the words that are not empty count. -/
theorem Shows.congr {W : Language α} (hm : Shows m V) (h : ∀ w ≠ [], w ∈ V ↔ w ∈ W) :
    Shows m W := by
  intro s
  rw [hm s]
  constructor
  · rintro ⟨w, hw, hne, hs⟩
    exact ⟨w, (h w hne).mp hw, hne, hs⟩
  · rintro ⟨w, hw, hne, hs⟩
    exact ⟨w, (h w hne).mpr hw, hne, hs⟩

/-- An eager matcher shows all of its words. -/
theorem Recognizes.shows (hm : Recognizes m L) (h : Eager m) : Shows m L := by
  intro s
  constructor
  · rintro ⟨t, ht, hlt⟩
    obtain ⟨w, hw, rfl⟩ := (hm s t).mp (mem_of_head? ht)
    refine ⟨w, hw, ?_, prefix_append w t⟩
    rintro rfl
    exact Nat.lt_irrefl _ hlt
  · rintro ⟨w, hw, hne, t, rfl⟩
    have hpos := length_pos_iff.mpr hne
    exact h _ ⟨t, (hm _ t).mpr ⟨w, hw, rfl⟩, by rw [length_append]; omega⟩

theorem exists_word_add_iff {W : Language α} :
    (∃ w ∈ V + W, w ≠ [] ∧ w <+: s) ↔ (∃ w ∈ V, w ≠ [] ∧ w <+: s) ∨ ∃ w ∈ W, w ≠ [] ∧ w <+: s := by
  simp only [mem_add, or_and_right, exists_or]

/-- Behind an alternative that cannot match nothing, the others are tried. -/
theorem Shows.alt_shows {n : Matcher α} {W : Language α} (hm : Shows m W) (hcons : Consumes m)
    (hn : Shows n V) : Shows (Backtrack.alt m n) (W + V) := by
  intro s
  rw [exists_word_add_iff, ← hm s, ← hn s, Backtrack.alt, head?_append]
  cases h : m s with
  | nil => simp
  | cons t l =>
    have hlt : t.length < s.length := hcons s t (by rw [h]; exact mem_cons_self)
    exact iff_of_true ⟨t, rfl, hlt⟩ (.inl ⟨t, rfl, hlt⟩)

/-- An alternative that can match nothing hides the others. -/
theorem Shows.alt_hides {n : Matcher α} (hm : Shows m V) (h : Succeeds m) :
    Shows (Backtrack.alt m n) V := by
  intro s
  obtain ⟨t, ht⟩ := exists_head_of_succeeds h s
  rw [← hm s, Backtrack.alt, head?_append, ht, some_or]

/-- An optional matcher in front of one that always succeeds. -/
theorem Recognizes.opt_seq_shows {n : Matcher α} (hm : Recognizes m L) (hn : Shows n V)
    (hsucceeds : Succeeds n) (hshrinks : Shrinks n) :
    Shows (Backtrack.seq (Backtrack.opt m) n) (L + V) := by
  intro s
  rw [exists_word_add_iff, ← hn s]
  obtain ⟨u, hu⟩ := exists_head_of_succeeds (succeeds_upTo m 1) s
  obtain ⟨v, hv⟩ := exists_head_of_succeeds hsucceeds u
  have hvu := (hshrinks u v (mem_of_head? hv)).length_le
  have hhead : (Backtrack.seq (Backtrack.opt m) n s).head? = some v := by
    cases h : Backtrack.opt m s with
    | nil =>
      rw [← Backtrack.opt, h] at hu
      cases hu
    | cons u' l =>
      rw [← Backtrack.opt, h] at hu
      obtain rfl : u' = u := some.inj hu
      rw [Backtrack.seq, h, flatMap_cons, head?_append, hv, some_or]
  have hopt := hm.opt.shows (eager_upTo m 1) s
  rw [Backtrack.opt, hu] at hopt
  have hword : (∃ w ∈ 1 + L, w ≠ [] ∧ w <+: s) ↔ ∃ w ∈ L, w ≠ [] ∧ w <+: s := by
    rw [exists_word_add_iff]
    refine or_iff_right ?_
    rintro ⟨w, hw, hne, -⟩
    exact hne hw
  rw [hhead, ← hword, ← hopt]
  rcases mem_opt.mp (mem_of_head? hu) with ⟨-, hlt⟩ | rfl
  · exact iff_of_true ⟨v, rfl, Nat.lt_of_le_of_lt hvu hlt⟩ (.inl ⟨u, rfl, hlt⟩)
  · -- the optional matcher passes nothing
    rw [hv]
    refine (or_iff_right ?_).symm
    rintro ⟨u', hu', hlt⟩
    obtain rfl := some.inj hu'
    exact Nat.lt_irrefl _ hlt

theorem Recognizes.head?_eq_none_iff (hm : Recognizes m L) :
    (m s).head? = none ↔ ¬ ∃ w ∈ L, w <+: s := by
  rw [List.head?_eq_none_iff, eq_nil_iff_forall_not_mem]
  constructor
  · rintro h ⟨w, hw, t, rfl⟩
    exact h t ((hm _ t).mpr ⟨w, hw, rfl⟩)
  · intro h t ht
    obtain ⟨w, hw, rfl⟩ := (hm s t).mp ht
    exact h ⟨w, hw, prefix_append w t⟩

/-- The search fails only where no word stands anywhere. -/
theorem Recognizes.search_eq_none_iff (hm : Recognizes m L) :
    search m s = none ↔ ¬ ∃ w ∈ L, w <:+: s := by
  induction s with
  | nil => simp only [search, map_eq_none_iff, hm.head?_eq_none_iff, prefix_nil, infix_nil]
  | cons a s ih =>
    have hfront := hm.head?_eq_none_iff (s := a :: s)
    simp only [infix_cons_iff, and_or_left, exists_or, not_or, ← hfront, ← ih, search]
    cases (m (a :: s)).head? with
    | some t => simp
    | none => simp

end Llama.Backtrack
