import Llama.Regex.Reading

/-!
# What the reversed pattern matches

A beginning of a word of the pattern, read backwards, is a word of the reversed pattern. The
languages of the elements of an alternative are enough to see it.
-/

namespace Llama.Regex

open Common Backtrack Computability List Function

/-- One word of each language, the last one first. -/
def backwards : List (Language Char) → Language Char
  | [] => 1
  | L :: Ls => backwards Ls * L

/-- The languages behind the first one may be left out. -/
def nested : List (Language Char) → Language Char
  | [] => 1
  | [L] => L
  | L :: L' :: Ls => (1 + nested (L' :: Ls)) * L

/-- Backwards words of some of the languages, the first one among them. -/
def begun (Ls : List (Language Char)) : Language Char :=
  {w | ∃ Ls₁ Ls₂, Ls = Ls₁ ++ Ls₂ ∧ Ls₁ ≠ [] ∧ w ∈ backwards Ls₁}

/-- The words of `L` are words of `M` backwards. -/
def Reverses (L M : Language Char) : Prop := ∀ w ∈ L, w.reverse ∈ M

/-- The beginnings of words of `L` are words of `M` backwards. -/
def ReversesBegun (L M : Language Char) : Prop := ∀ w ∈ L, ∀ u, u <+: w → u ≠ [] → u.reverse ∈ M

section

variable {L M : Language Char} {Ls Ls' : List (Language Char)} {w : Str}

private theorem backwards_append (Ls Ls' : List (Language Char)) :
    backwards (Ls ++ Ls') = backwards Ls' * backwards Ls := by
  induction Ls with
  | nil => rw [nil_append, backwards, mul_one]
  | cons L Ls ih => rw [cons_append, backwards, ih, mul_assoc, backwards]

private theorem backwards_replicate (L : Language Char) (n : Nat) :
    backwards (replicate n L) = L ^ n := by
  induction n with
  | zero => rfl
  | succ n ih => rw [replicate_succ, backwards, ih, pow_succ]

private theorem mem_nested (h : w ∈ backwards Ls) : w ∈ nested Ls := by
  induction Ls generalizing w with
  | nil => exact h
  | cons L Ls ih =>
    cases Ls with
    | nil => simpa [backwards, nested] using h
    | cons L' Ls =>
      obtain ⟨u, hu, v, hv, rfl⟩ := Language.mem_mul.mp h
      exact Language.append_mem_mul ((Language.mem_add _ _ _).mpr (.inr (ih hu))) hv

private theorem mem_nested_of_begun (h : w ∈ begun Ls) : w ∈ nested Ls := by
  obtain ⟨Ls₁, Ls₂, rfl, hne, hw⟩ := h
  induction Ls₁ generalizing w with
  | nil => exact absurd rfl hne
  | cons L Ls₁ ih =>
    obtain ⟨u, hu, v, hv, rfl⟩ := Language.mem_mul.mp hw
    have hrest : u = [] ∨ u ∈ nested (Ls₁ ++ Ls₂) := by
      cases Ls₁ with
      | nil => exact .inl hu
      | cons L' Ls₁ => exact .inr (ih (by simp) hu)
    rw [cons_append]
    cases hLs : Ls₁ ++ Ls₂ with
    | nil =>
      rw [hLs] at hrest
      obtain rfl : u = [] := hrest.elim id id
      exact hv
    | cons L' Ls' =>
      rw [hLs] at hrest
      exact Language.append_mem_mul ((Language.mem_add _ _ _).mpr hrest) hv

private theorem mem_begun_append (h : w ∈ begun Ls) : w ∈ begun (Ls ++ Ls') := by
  obtain ⟨Ls₁, Ls₂, rfl, hne, hw⟩ := h
  exact ⟨Ls₁, Ls₂ ++ Ls', append_assoc _ _ _, hne, hw⟩

variable {u : Str} {k j : Nat} {q : Quantifier}

private theorem prefix_append_cases {a b : Str} (h : u <+: a ++ b) :
    u <+: a ∨ ∃ v, u = a ++ v ∧ v <+: b ∧ v ≠ [] := by
  rcases prefix_or_prefix_of_prefix h (prefix_append a b) with hu | ⟨v, rfl⟩
  · exact .inl hu
  · cases v with
    | nil =>
      rw [append_nil]
      exact .inl (prefix_refl a)
    | cons c v => exact .inr ⟨c :: v, rfl, (prefix_append_right_inj a).mp h, by simp⟩

private theorem Reverses.pow (h : Reverses L M) (k : Nat) : Reverses (L ^ k) (M ^ k) := by
  induction k with
  | zero =>
    rintro w hw
    obtain rfl : w = [] := by simpa using hw
    simp
  | succ k ih =>
    intro w hw
    rw [pow_succ'] at hw
    obtain ⟨a, ha, b, hb, rfl⟩ := Language.mem_mul.mp hw
    rw [reverse_append, pow_succ]
    exact Language.append_mem_mul (ih b hb) (h a ha)

private theorem mem_kstar_of_pow (h : w ∈ L ^ k) : w ∈ L∗ := by
  rw [Language.kstar_eq_iSup_pow]
  exact Language.mem_iSup.mpr ⟨k, h⟩

private theorem exists_pow_of_mem_kstar (h : w ∈ L∗) : ∃ k, w ∈ L ^ k := by
  rw [Language.kstar_eq_iSup_pow] at h
  exact Language.mem_iSup.mp h

/-- A beginning of several words is made of some of them and a beginning of the next one. -/
theorem exists_pow_of_prefix (h : Reverses L M) (hb : ReversesBegun L M) (hw : w ∈ L ^ k)
    (hu : u <+: w) (hne : u ≠ []) : ∃ j < k, u.reverse ∈ M ^ (j + 1) := by
  induction k generalizing w u with
  | zero =>
    obtain rfl : w = [] := by simpa using hw
    exact absurd (prefix_nil.mp hu) hne
  | succ k ih =>
    rw [pow_succ'] at hw
    obtain ⟨a, ha, b, hb', rfl⟩ := Language.mem_mul.mp hw
    rcases prefix_append_cases hu with hu | ⟨v, rfl, hv, hvne⟩
    · exact ⟨0, Nat.succ_pos k, by simpa using hb a ha u hu hne⟩
    · obtain ⟨j, hj, hrev⟩ := ih hb' hv hvne
      refine ⟨j + 1, Nat.succ_lt_succ hj, ?_⟩
      rw [reverse_append, pow_succ]
      exact Language.append_mem_mul hrev (h a ha)

private theorem mem_one_add_pow {d : Nat} (h : w ∈ M ^ j) (hj : j ≤ d) : w ∈ (1 + M) ^ d := by
  induction d generalizing j w with
  | zero =>
    obtain rfl : j = 0 := Nat.le_zero.mp hj
    exact h
  | succ d ih =>
    rw [pow_succ']
    cases j with
    | zero =>
      obtain rfl : w = [] := by simpa using h
      have hnil : [] ∈ (1 + M) ^ d := ih (j := 0) (by simp) (Nat.zero_le d)
      exact Language.append_mem_mul (a := []) (b := []) (.inl rfl) hnil
    | succ j =>
      rw [pow_succ'] at h
      obtain ⟨a, ha, b, hb, rfl⟩ := Language.mem_mul.mp h
      exact Language.append_mem_mul (.inr ha) (ih hb (Nat.le_of_succ_le_succ hj))

/-- The copies of a repetition have its words, backwards. -/
theorem Reverses.quantifier (h : Reverses L M) (hq : q.Valid) :
    Reverses (q.words L) (backwards (q.expand.map (·.words M))) := by
  intro w hw
  cases q with
  | once => simpa [Quantifier.expand, Quantifier.words, backwards] using h w hw
  | star =>
    obtain ⟨k, hk⟩ := exists_pow_of_mem_kstar hw
    simpa [Quantifier.expand, Quantifier.words, backwards] using mem_kstar_of_pow (h.pow k w hk)
  | plus =>
    obtain ⟨a, ha, b, hb, rfl⟩ := Language.mem_mul.mp hw
    obtain ⟨k, hk⟩ := exists_pow_of_mem_kstar hb
    have hrev : (a ++ b).reverse ∈ M∗ * M := by
      rw [reverse_append]
      exact Language.append_mem_mul (mem_kstar_of_pow (h.pow k b hk)) (h a ha)
    rw [Language.mul_self_kstar_comm] at hrev
    simpa [Quantifier.expand, Quantifier.words, backwards] using hrev
  | opt =>
    have hrev : w.reverse ∈ 1 + M := by
      rcases (Language.mem_add _ _ _).mp hw with hw | hw
      · obtain rfl : w = [] := hw
        exact .inl rfl
      · exact .inr (h w hw)
    simpa [Quantifier.expand, Quantifier.words, backwards] using hrev
  | exactly n =>
    rw [Quantifier.expand, map_replicate, backwards_replicate]
    exact h.pow n w hw
  | range min max =>
    obtain ⟨k, hk, hmax, hw⟩ := hw
    obtain ⟨d, rfl⟩ := Nat.exists_eq_add_of_le hk
    rw [pow_add] at hw
    obtain ⟨a, ha, b, hb, rfl⟩ := Language.mem_mul.mp hw
    rw [reverse_append]
    cases max with
    | none =>
      rw [Quantifier.expand, map_append, map_replicate, backwards_append, backwards_replicate]
      refine Language.append_mem_mul ?_ (h.pow min a ha)
      simpa [Quantifier.words, backwards] using mem_kstar_of_pow (h.pow d b hb)
    | some n =>
      rw [Quantifier.expand, map_append, map_replicate, map_replicate,
        backwards_append, backwards_replicate, backwards_replicate]
      have hn := hmax n rfl
      exact Language.append_mem_mul (mem_one_add_pow (h.pow d b hb) (by omega)) (h.pow min a ha)

private theorem mem_begun_replicate {n : Nat} (h : w ∈ M ^ (j + 1)) (hj : j < n) :
    w ∈ begun (replicate n M) := by
  refine ⟨replicate (j + 1) M, replicate (n - (j + 1)) M, ?_, by simp, ?_⟩
  · rw [replicate_append_replicate, Nat.add_sub_cancel' hj]
  · rw [backwards_replicate]
    exact h

/-- A beginning of a word of a repetition is made of its first copies. -/
theorem ReversesBegun.quantifier (h : Reverses L M) (hb : ReversesBegun L M) (hq : q.Valid) :
    ReversesBegun (q.words L) (begun (q.expand.map (·.words M))) := by
  intro w hw u hu hne
  have hsingle : ∀ N : Language Char, u.reverse ∈ N → u.reverse ∈ begun [N] := fun N hN =>
    ⟨[N], [], rfl, by simp, by simpa [backwards] using hN⟩
  cases q with
  | once => exact hsingle _ (hb w hw u hu hne)
  | star =>
    obtain ⟨k, hk⟩ := exists_pow_of_mem_kstar hw
    obtain ⟨j, -, hj⟩ := exists_pow_of_prefix h hb hk hu hne
    exact hsingle _ (mem_kstar_of_pow hj)
  | plus =>
    obtain ⟨a, ha, b, hb', rfl⟩ := Language.mem_mul.mp hw
    obtain ⟨k, hk⟩ := exists_pow_of_mem_kstar hb'
    have hpow : a ++ b ∈ L ^ (k + 1) := by
      rw [pow_succ']
      exact Language.append_mem_mul ha hk
    obtain ⟨j, -, hj⟩ := exists_pow_of_prefix h hb hpow hu hne
    refine hsingle _ ?_
    rw [pow_succ'] at hj
    obtain ⟨a', ha', b', hb'', heq⟩ := Language.mem_mul.mp hj
    rw [← heq]
    exact Language.append_mem_mul ha' (mem_kstar_of_pow hb'')
  | opt =>
    refine hsingle _ ?_
    rcases (Language.mem_add _ _ _).mp hw with hw | hw
    · obtain rfl : w = [] := hw
      exact absurd (prefix_nil.mp hu) hne
    · exact .inr (hb w hw u hu hne)
  | exactly n =>
    obtain ⟨j, hj, hrev⟩ := exists_pow_of_prefix h hb hw hu hne
    rw [Quantifier.expand, map_replicate]
    exact mem_begun_replicate hrev hj
  | range min max =>
    obtain ⟨k, hk, hmax, hw⟩ := hw
    obtain ⟨j, hj, hrev⟩ := exists_pow_of_prefix h hb hw hu hne
    rcases Nat.lt_or_ge j min with hlt | hge
    · have hbegun : u.reverse ∈ begun (replicate min M) := mem_begun_replicate hrev hlt
      cases max <;>
        · rw [Quantifier.expand, map_append, map_replicate]
          exact mem_begun_append hbegun
    · obtain ⟨d, rfl⟩ := Nat.exists_eq_add_of_le hge
      rw [show min + d + 1 = (d + 1) + min by omega, pow_add] at hrev
      obtain ⟨a, ha, b, hb', heq⟩ := Language.mem_mul.mp hrev
      rw [← heq]
      refine ⟨_, [], (append_nil _).symm, ?_, ?_⟩
      · cases max with
        | none => simp [Quantifier.expand]
        | some n =>
          have hn := hmax n rfl
          simp only [Quantifier.expand, map_append, map_replicate]
          rw [Ne, append_eq_nil_iff, not_and_or]
          right
          simp only [replicate_eq_nil_iff]
          omega
      · cases max with
        | none =>
          rw [Quantifier.expand, map_append, map_replicate, backwards_append, backwards_replicate]
          refine Language.append_mem_mul ?_ hb'
          simpa [Quantifier.words, backwards] using mem_kstar_of_pow ha
        | some n =>
          rw [Quantifier.expand, map_append, map_replicate, map_replicate,
            backwards_append, backwards_replicate, backwards_replicate]
          have hn := hmax n rfl
          exact Language.append_mem_mul (mem_one_add_pow ha (by omega)) hb'

end

section

variable {accepts : Atom → Char → Bool}

theorem nodesWords_nest (nodes : List Node) :
    nodesWords accepts (nest nodes) = nested (nodes.map (Node.words accepts)) := by
  induction nodes with
  | nil => rfl
  | cons node nodes ih =>
    cases nodes with
    | nil => simp [nest, nodesWords, nested]
    | cons node' nodes =>
      rw [nest, nodesWords, nodesWords, nodesWords, Node.words, patternWords, patternWords, ih]
      · simp [Quantifier.words, nested]
      · simp

private theorem map_words_atom (a : Atom) (q : Quantifier) :
    (Node.atom a q).reversed.map (Node.words accepts) =
      q.expand.map (·.words (symbols (accepts a))) := by
  rw [Node.reversed, map_map]
  simp only [comp_def, Node.words]

private theorem map_words_group (capturing : Bool) (alternatives : List (List Node))
    (q : Quantifier) :
    (Node.group capturing alternatives q).reversed.map (Node.words accepts) =
      q.expand.map (·.words (patternWords accepts (patternReversed alternatives))) := by
  rw [Node.reversed, map_map]
  simp only [comp_def, Node.words]

private theorem reverses_symbols (p : Char → Bool) : Reverses (symbols p) (symbols p) := by
  rintro w ⟨c, hc, rfl⟩
  exact ⟨c, hc, rfl⟩

private theorem reversesBegun_symbols (p : Char → Bool) :
    ReversesBegun (symbols p) (symbols p) := by
  rintro w ⟨c, hc, rfl⟩ u hu hne
  obtain rfl : u = [c] := by
    obtain ⟨t, ht⟩ := hu
    cases u with
    | nil => exact absurd rfl hne
    | cons d u =>
      obtain ⟨rfl, hnil⟩ := List.cons.inj ht
      rw [(append_eq_nil_iff.mp hnil).1]
  exact ⟨c, hc, rfl⟩

mutual

private theorem Node.reverses : (node : Node) → node.Valid →
    Reverses (node.words accepts) (backwards (node.reversed.map (Node.words accepts)))
  | .atom a q, h => by
    rw [map_words_atom]
    exact (reverses_symbols _).quantifier h.2
  | .group _ alternatives q, h => by
    rw [map_words_group]
    exact (pattern_reverses alternatives h.2.1).quantifier h.2.2

private theorem nodes_reverses : (nodes : List Node) → NodesValid nodes →
    Reverses (nodesWords accepts nodes) (backwards ((elements nodes).map (Node.words accepts)))
  | [], _ => by
    rintro w rfl
    rfl
  | node :: nodes, h => by
    intro w hw
    obtain ⟨u, hu, v, hv, rfl⟩ := Language.mem_mul.mp hw
    rw [elements, map_append, backwards_append, reverse_append]
    exact Language.append_mem_mul (nodes_reverses nodes h.2 v hv) (Node.reverses node h.1 u hu)

/-- The words of a pattern are words of the reversed pattern, backwards. -/
theorem pattern_reverses : (pattern : List (List Node)) → PatternValid pattern →
    Reverses (patternWords accepts pattern) (patternWords accepts (patternReversed pattern))
  | [], _ => fun w hw => absurd hw (Language.notMem_zero w)
  | nodes :: pattern, h => by
    intro w hw
    rw [patternReversed, patternWords, Language.mem_add, nodesWords_nest]
    rcases (Language.mem_add _ _ _).mp hw with hw | hw
    · exact .inl (mem_nested (nodes_reverses nodes h.1 w hw))
    · exact .inr (pattern_reverses pattern h.2 w hw)

end

private theorem mem_begun_append_left {Ls Ls' : List (Language Char)} {u v : Str}
    (hu : u ∈ backwards Ls)
    (hv : v ∈ begun Ls') : v ++ u ∈ begun (Ls ++ Ls') := by
  obtain ⟨Ls₁, Ls₂, rfl, hne, hv⟩ := hv
  refine ⟨Ls ++ Ls₁, Ls₂, (append_assoc _ _ _).symm, ?_, ?_⟩
  · exact fun h => hne (append_eq_nil_iff.mp h).2
  · rw [backwards_append]
    exact Language.append_mem_mul hv hu

mutual

private theorem Node.reversesBegun : (node : Node) → node.Valid →
    ReversesBegun (node.words accepts) (begun (node.reversed.map (Node.words accepts)))
  | .atom a q, h => by
    rw [map_words_atom]
    exact (reversesBegun_symbols _).quantifier (reverses_symbols _) h.2
  | .group _ alternatives q, h => by
    rw [map_words_group]
    exact (pattern_reversesBegun alternatives h.2.1).quantifier
      (pattern_reverses alternatives h.2.1) h.2.2

private theorem nodes_reversesBegun : (nodes : List Node) → NodesValid nodes →
    ReversesBegun (nodesWords accepts nodes) (begun ((elements nodes).map (Node.words accepts)))
  | [], _ => by
    rintro w rfl u hu hne
    exact absurd (prefix_nil.mp hu) hne
  | node :: nodes, h => by
    intro w hw u hu hne
    obtain ⟨a, ha, b, hb, rfl⟩ := Language.mem_mul.mp hw
    rw [elements, map_append]
    rcases prefix_append_cases hu with hu | ⟨v, rfl, hv, hvne⟩
    · exact mem_begun_append (Node.reversesBegun node h.1 a ha u hu hne)
    · rw [reverse_append]
      exact mem_begun_append_left (Node.reverses node h.1 a ha)
        (nodes_reversesBegun nodes h.2 b hb v hv hvne)

/-- The beginnings of words of a pattern are words of the reversed pattern, backwards. -/
theorem pattern_reversesBegun : (pattern : List (List Node)) → PatternValid pattern →
    ReversesBegun (patternWords accepts pattern) (patternWords accepts (patternReversed pattern))
  | [], _ => fun w hw => absurd hw (Language.notMem_zero w)
  | nodes :: pattern, h => by
    intro w hw u hu hne
    rw [patternReversed, patternWords, Language.mem_add, nodesWords_nest]
    rcases (Language.mem_add _ _ _).mp hw with hw | hw
    · exact .inl (mem_nested_of_begun (nodes_reversesBegun nodes h.1 w hw u hu hne))
    · exact .inr (pattern_reversesBegun pattern h.2 w hw u hu hne)

end

end

end Llama.Regex
