import Llama.Regex.Backwards

/-!
# What the reversed pattern shows

Backtracking takes the first way through the reversed pattern, and an alternative that can match
nothing hides the ones behind it. `patternVisible` is the part of the reversed pattern that its
first way can find.
-/

namespace Llama.Regex

open Common Backtrack Computability List Language

/-- The quantifier allows no copy at all. -/
def Quantifier.optional : Quantifier → Bool
  | .star => true
  | .opt => true
  | .range 0 _ => true
  | _ => false

mutual

/-- The first copy of the element can match nothing, when words may stop early. -/
def Node.startsEmpty : Node → Bool
  | .atom _ q => q.optional
  | .group _ alternatives q => q.optional || patternStartsEmpty alternatives

/-- The alternative can start with nothing. -/
def nodesStartEmpty : List Node → Bool
  | [] => false
  | node :: nodes =>
    if node.quantifier.expand = [] then nodesStartEmpty nodes else node.startsEmpty

def patternStartsEmpty : List (List Node) → Bool
  | [] => false
  | nodes :: pattern => nodesStartEmpty nodes || patternStartsEmpty pattern

end

section

variable (accepts : Atom → Char → Bool)

/-- What the first copy of an element shows, when the element stands for `L` and shows `V`.
Quantifiers prefer a match. -/
def Quantifier.visible (q : Quantifier) (L V : Language Char) : Language Char :=
  match q.expand with
  | [] => 0
  | .once :: _ => V
  | q' :: _ => q'.words L

mutual

/-- What the first copy of the element shows, backwards. -/
def Node.visible : Node → Language Char
  | .atom a q => q.visible (symbols (accepts a)) (symbols (accepts a))
  | .group _ alternatives q =>
    q.visible (patternWords accepts (patternReversed alternatives)) (patternVisible alternatives)

/-- What the alternative shows, backwards. Where the first element can match nothing, the others
are found first, and then what that element shows itself. -/
def nodesVisible : List Node → Language Char
  | [] => 0
  | node :: nodes =>
    if node.quantifier.expand = [] then nodesVisible nodes
    else if node.startsEmpty then
      nested ((elements (node :: nodes)).tail.map (Node.words accepts)) + node.visible
    else nested ((elements (node :: nodes)).map (Node.words accepts))

/-- The backwards words that the first way through the reversed pattern finds. An alternative
that can start with nothing hides the ones behind it. -/
def patternVisible : List (List Node) → Language Char
  | [] => 0
  | nodes :: pattern =>
    nodesVisible nodes + if nodesStartEmpty nodes then 0 else patternVisible pattern

end

end

section

variable {accepts : Atom → Char → Bool}

private theorem head_expand {q q' : Quantifier} (hq : q' ∈ q.expand.head?) :
    q' = .once ∧ q.optional = false ∨ (q' = .plus ∧ q = .plus) ∨
      (q' = .star ∨ q' = .opt) ∧ q.optional = true := by
  cases q with
  | once => simp_all [Quantifier.expand, Quantifier.optional]
  | star => simp_all [Quantifier.expand, Quantifier.optional]
  | plus => simp_all [Quantifier.expand, Quantifier.optional]
  | opt => simp_all [Quantifier.expand, Quantifier.optional]
  | exactly n =>
    cases n with
    | zero => cases hq
    | succ n => simp_all [Quantifier.expand, Quantifier.optional, replicate_succ]
  | range min max =>
    cases min with
    | zero =>
      cases max with
      | none => simp_all [Quantifier.expand, Quantifier.optional]
      | some n =>
        cases n <;> simp_all [Quantifier.expand, Quantifier.optional, replicate_succ]
    | succ min =>
      cases max <;> simp_all [Quantifier.expand, Quantifier.optional, replicate_succ]

private theorem nil_mem_mul {L M : Language Char} : [] ∈ L * M ↔ [] ∈ L ∧ [] ∈ M := by
  rw [mem_mul]
  constructor
  · rintro ⟨a, ha, b, hb, hab⟩
    obtain ⟨rfl, rfl⟩ := append_eq_nil_iff.mp hab
    exact ⟨ha, hb⟩
  · rintro ⟨h, h'⟩
    exact ⟨[], h, [], h', rfl⟩

private theorem nil_mem_words_iff {L : Language Char} {q q' : Quantifier}
    (hq : q' ∈ q.expand.head?) :
    [] ∈ q'.words L ↔ q.optional = true ∨ [] ∈ L := by
  obtain ⟨rfl, hopt⟩ | ⟨rfl, rfl⟩ | ⟨rfl | rfl, hopt⟩ := head_expand hq
  · simp [Quantifier.words, hopt]
  · simp [Quantifier.words, nil_mem_mul, nil_mem_kstar, Quantifier.optional]
  · simp [Quantifier.words, hopt, nil_mem_kstar]
  · exact iff_of_true (.inl rfl) (.inl hopt)

private theorem nil_mem_nested {L : Language Char} {Ls : List (Language Char)} :
    [] ∈ nested (L :: Ls) ↔ [] ∈ L := by
  cases Ls with
  | nil => rfl
  | cons L' Ls =>
    rw [nested, nil_mem_mul]
    exact and_iff_right (.inl rfl)

private theorem reversed_head? (node : Node) :
    node.reversed = [] ↔ node.quantifier.expand = [] := by
  cases node with
  | atom a q => rw [Node.reversed, map_eq_nil_iff, Node.quantifier]
  | group capturing alternatives q => rw [Node.reversed, map_eq_nil_iff, Node.quantifier]

private theorem nil_mem_symbols (p : Char → Bool) : [] ∉ symbols p := by
  rintro ⟨c, -, h⟩
  cases h

mutual

theorem Node.nil_mem_iff : (node : Node) → node.Writable → ∀ node' ∈ node.reversed.head?,
    ([] ∈ node'.words accepts ↔ node.startsEmpty = true)
  | .atom a q, _, node', h => by
    rw [Node.reversed, head?_map, Option.mem_def, Option.map_eq_some_iff] at h
    obtain ⟨q', hq', rfl⟩ := h
    rw [Node.words, nil_mem_words_iff hq', Node.startsEmpty]
    exact or_iff_left (nil_mem_symbols _)
  | .group _ alternatives q, hw, node', h => by
    rw [Node.reversed, head?_map, Option.mem_def, Option.map_eq_some_iff] at h
    obtain ⟨q', hq', rfl⟩ := h
    rw [Node.words, nil_mem_words_iff hq', Node.startsEmpty, Bool.or_eq_true,
      pattern_nil_mem_iff alternatives hw]

private theorem nodes_nil_mem_iff :
    (nodes : List Node) → NodesWritable nodes → elements nodes ≠ [] →
    ([] ∈ nested ((elements nodes).map (Node.words accepts)) ↔ nodesStartEmpty nodes = true)
  | [], _, hne => absurd rfl hne
  | node :: nodes, hw, hne => by
    rw [nodesStartEmpty]
    split
    next hexpand =>
      rw [elements, (reversed_head? node).mpr hexpand, nil_append] at hne ⊢
      exact nodes_nil_mem_iff nodes hw.2 hne
    next hexpand =>
      cases hrev : node.reversed with
      | nil => exact absurd ((reversed_head? node).mp hrev) hexpand
      | cons node' nodes' =>
        rw [elements, hrev, cons_append, map_cons, nil_mem_nested]
        exact Node.nil_mem_iff node hw.1 node' (by rw [hrev]; rfl)

private theorem pattern_nil_mem_iff : (pattern : List (List Node)) → PatternWritable pattern →
    ([] ∈ patternWords accepts (patternReversed pattern) ↔ patternStartsEmpty pattern = true)
  | [], _ => by simp [patternReversed, patternWords, patternStartsEmpty]
  | nodes :: pattern, hw => by
    have hne : elements nodes ≠ [] := length_pos_iff.mp hw.1.1
    rw [patternReversed, patternWords, mem_add, nodesWords_nest,
      nodes_nil_mem_iff nodes hw.2.1 hne, pattern_nil_mem_iff pattern hw.2.2, patternStartsEmpty,
      Bool.or_eq_true]

end

private theorem expand_valid {q q' : Quantifier} (h : q' ∈ q.expand) : q'.Valid := by
  have hsimple : q' = .once ∨ q' = .star ∨ q' = .plus ∨ q' = .opt := by
    cases q with
    | range min max =>
      cases max with
      | none =>
        simp only [Quantifier.expand, mem_append, mem_replicate, mem_singleton] at h
        tauto
      | some n =>
        simp only [Quantifier.expand, mem_append, mem_replicate] at h
        tauto
    | exactly n =>
      simp only [Quantifier.expand, mem_replicate] at h
      tauto
    | _ =>
      simp only [Quantifier.expand, mem_singleton] at h
      tauto
  obtain rfl | rfl | rfl | rfl := hsimple <;> trivial

private theorem nodesValid_iff {nodes : List Node} :
    NodesValid nodes ↔ ∀ node ∈ nodes, node.Valid := by
  induction nodes with
  | nil => simp [NodesValid]
  | cons node nodes ih => rw [NodesValid, ih, forall_mem_cons]

private theorem nest_valid {nodes : List Node} (h : NodesValid nodes) :
    NodesValid (nest nodes) := by
  induction nodes with
  | nil => trivial
  | cons node nodes ih =>
    cases nodes with
    | nil => exact h
    | cons node' nodes => exact ⟨⟨by simp, ⟨ih h.2, trivial⟩, trivial⟩, h.1, trivial⟩

mutual

private theorem Node.reversed_valid :
    (node : Node) → node.Valid → ∀ node' ∈ node.reversed, node'.Valid
  | .atom a q, h, node', h' => by
    rw [Node.reversed, mem_map] at h'
    obtain ⟨q', hq', rfl⟩ := h'
    exact ⟨h.1, expand_valid hq'⟩
  | .group _ alternatives q, h, node', h' => by
    rw [Node.reversed, mem_map] at h'
    obtain ⟨q', hq', rfl⟩ := h'
    refine ⟨?_, pattern_reversed_valid alternatives h.2.1, expand_valid hq'⟩
    cases halts : alternatives with
    | nil => exact absurd halts h.1
    | cons nodes pattern => simp [patternReversed]

private theorem elements_valid :
    (nodes : List Node) → NodesValid nodes → NodesValid (elements nodes)
  | [], _ => trivial
  | node :: nodes, h => by
    rw [elements, nodesValid_iff, forall_mem_append]
    exact ⟨Node.reversed_valid node h.1, nodesValid_iff.mp (elements_valid nodes h.2)⟩

private theorem pattern_reversed_valid : (pattern : List (List Node)) → PatternValid pattern →
    PatternValid (patternReversed pattern)
  | [], _ => trivial
  | nodes :: pattern, h =>
    ⟨nest_valid (elements_valid nodes h.1), pattern_reversed_valid pattern h.2⟩

end

private theorem seq_eps (m : Backtrack.Matcher Char) : seq m eps = m := by
  funext s
  exact flatMap_singleton' (m s)

private theorem visible_eq {L V : Language Char} {q q' : Quantifier} (hq : q' ∈ q.expand.head?) :
    q.visible L V = if q' = .once then V else q'.words L := by
  cases hexpand : q.expand with
  | nil =>
    rw [hexpand] at hq
    cases hq
  | cons q'' qs =>
    rw [hexpand] at hq
    cases hq
    rw [Quantifier.visible, hexpand]
    cases q' <;> rfl

private theorem expand_shows {m : Backtrack.Matcher Char} {L V : Language Char}
    (hm : Recognizes m L)
    (hV : Shows m V) {q q' : Quantifier} (hq : q' ∈ q.expand.head?) :
    Shows (q'.matcher m) (q.visible L V) := by
  rw [visible_eq hq]
  obtain ⟨rfl, -⟩ | ⟨rfl, -⟩ | ⟨rfl | rfl, -⟩ := head_expand hq
  · exact hV
  · exact hm.plus.shows hm.shrinks.plus_eager
  · exact hm.star.shows (eager_star m)
  · exact hm.opt.shows (eager_upTo m 1)

private theorem nest_consumes {nodes : List Node} (h : NodesValid nodes) (hw : NodesWritable nodes)
    (hne : elements nodes ≠ []) (hstart : nodesStartEmpty nodes = false) :
    Consumes (nodesMatcher accepts (nest (elements nodes))) := by
  refine (nodesMatcher_recognizes _ (nest_valid (elements_valid nodes h))).consumes ?_
  rw [nodesWords_nest, nodes_nil_mem_iff nodes hw hne, hstart]
  exact Bool.false_ne_true

private theorem nest_recognizes {nodes : List Node} (h : NodesValid nodes) :
    Recognizes (nodesMatcher accepts (nest nodes)) (nested (nodes.map (Node.words accepts))) := by
  rw [← nodesWords_nest]
  exact nodesMatcher_recognizes _ (nest_valid h)

/-- A first element that can match nothing, and the ones nested in front of it. -/
theorem nest_shows {node : Node} {rest : List Node} {V : Language Char}
    (h : NodesValid (node :: rest)) (hnil : [] ∈ node.words accepts)
    (hV : Shows (node.matcher accepts) V) :
    Shows (nodesMatcher accepts (nest (node :: rest)))
      (nested (rest.map (Node.words accepts)) + V) := by
  have hnode : Recognizes (node.matcher accepts) (node.words accepts) := Node.recognizes node h.1
  cases rest with
  | nil =>
    rw [nest, nodesMatcher, nodesMatcher, seq_eps]
    exact hV.congr fun w hne => (or_iff_right hne).symm
  | cons node' rest =>
    have hrest : Recognizes (patternMatcher accepts [nest (node' :: rest)])
        (nested ((node' :: rest).map (Node.words accepts))) := by
      have halt : patternMatcher accepts [nest (node' :: rest)] =
          nodesMatcher accepts (nest (node' :: rest)) := by
        funext s
        simp [patternMatcher, alt]
      rw [halt]
      exact nest_recognizes h.2
    rw [nest, nodesMatcher, nodesMatcher, nodesMatcher, seq_eps, Node.matcher]
    · exact hrest.opt_seq_shows hV (hnode.succeeds hnil) hnode.shrinks
    · simp

mutual

theorem Node.shows : (node : Node) → node.Valid → node.Writable →
    ∀ node' ∈ node.reversed.head?, Shows (node'.matcher accepts) (node.visible accepts)
  | .atom a q, _, _, node', h' => by
    rw [Node.reversed, head?_map, Option.mem_def, Option.map_eq_some_iff] at h'
    obtain ⟨q', hq', rfl⟩ := h'
    rw [Node.matcher, Node.visible]
    have hsym := recognizes_sym (accepts a)
    exact expand_shows hsym (hsym.shows (hsym.consumes (nil_mem_symbols _)).eager) hq'
  | .group _ alternatives q, h, hw, node', h' => by
    rw [Node.reversed, head?_map, Option.mem_def, Option.map_eq_some_iff] at h'
    obtain ⟨q', hq', rfl⟩ := h'
    rw [Node.matcher, Node.visible]
    exact expand_shows (patternMatcher_recognizes _ (pattern_reversed_valid _ h.2.1))
      (pattern_shows alternatives h.2.1 hw) hq'

private theorem nodes_shows : (nodes : List Node) → NodesValid nodes → NodesWritable nodes →
    elements nodes ≠ [] →
      Shows (nodesMatcher accepts (nest (elements nodes))) (nodesVisible accepts nodes)
  | [], _, _, hne => absurd rfl hne
  | node :: nodes, h, hw, hne => by
    have hvalid := elements_valid (node :: nodes) h
    rw [nodesVisible]
    split
    next hexpand =>
      rw [elements, (reversed_head? node).mpr hexpand, nil_append] at hne ⊢
      exact nodes_shows nodes h.2 hw.2 hne
    next hexpand =>
      have hstart : nodesStartEmpty (node :: nodes) = node.startsEmpty := by
        rw [nodesStartEmpty, if_neg hexpand]
      split
      next hempty =>
        have hnil : [] ∈ nested ((elements (node :: nodes)).map (Node.words accepts)) :=
          (nodes_nil_mem_iff _ hw hne).mpr (hstart.trans hempty)
        cases hrev : node.reversed with
        | nil => exact absurd ((reversed_head? node).mp hrev) hexpand
        | cons node' nodes' =>
          rw [elements, hrev, cons_append] at hvalid hnil ⊢
          rw [map_cons, nil_mem_nested] at hnil
          exact nest_shows hvalid hnil (Node.shows node h.1 hw.1 node' (by rw [hrev]; rfl))
      next hempty =>
        rw [Bool.not_eq_true] at hempty
        exact (nest_recognizes hvalid).shows (nest_consumes h hw hne (hstart.trans hempty)).eager

/-- The first way through the reversed pattern passes something exactly where a visible word
stands. -/
theorem pattern_shows : (pattern : List (List Node)) → PatternValid pattern →
    PatternWritable pattern →
      Shows (patternMatcher accepts (patternReversed pattern)) (patternVisible accepts pattern)
  | [], _, _ => by
    intro s
    simp [patternReversed, patternMatcher, patternVisible]
  | nodes :: pattern, h, hw => by
    have hne : elements nodes ≠ [] := length_pos_iff.mp hw.1.1
    have hnodes := nodes_shows nodes h.1 hw.2.1 hne
    have hrec : Recognizes (nodesMatcher accepts (nest (elements nodes)))
        (nested ((elements nodes).map (Node.words accepts))) :=
      nest_recognizes (elements_valid nodes h.1)
    rw [patternReversed, patternMatcher, patternVisible]
    split
    next hempty =>
      rw [add_zero]
      exact hnodes.alt_hides (hrec.succeeds ((nodes_nil_mem_iff nodes hw.2.1 hne).mpr hempty))
    next hempty =>
      rw [Bool.not_eq_true] at hempty
      exact hnodes.alt_shows (nest_consumes h.1 hw.2.1 hne hempty)
        (pattern_shows pattern h.2 hw.2.2)

end

private theorem nodesVisible_eq {nodes : List Node} (hne : elements nodes ≠ [])
    (h : nodesStartEmpty nodes = false) :
    nodesVisible accepts nodes = nested ((elements nodes).map (Node.words accepts)) := by
  induction nodes with
  | nil => exact absurd rfl hne
  | cons node nodes ih =>
    rw [nodesStartEmpty] at h
    rw [nodesVisible]
    split
    next hexpand =>
      rw [if_pos hexpand] at h
      rw [elements, (reversed_head? node).mpr hexpand, nil_append] at hne ⊢
      exact ih hne h
    next hexpand =>
      rw [if_neg hexpand] at h
      exact if_neg (by rw [h]; exact Bool.false_ne_true)

/-- Where every alternative starts with something, nothing is hidden. -/
theorem patternVisible_eq {pattern : List (List Node)} (hw : PatternWritable pattern)
    (h : patternStartsEmpty pattern = false) :
    patternVisible accepts pattern = patternWords accepts (patternReversed pattern) := by
  induction pattern with
  | nil => rfl
  | cons nodes pattern ih =>
    rw [patternStartsEmpty, Bool.or_eq_false_iff] at h
    rw [patternVisible, nodesVisible_eq (length_pos_iff.mp hw.1.1) h.1, h.1,
      if_neg Bool.false_ne_true, ih hw.2.2 h.2, patternReversed, patternWords, nodesWords_nest]

end

end Llama.Regex
