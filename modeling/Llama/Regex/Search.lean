import Llama.Regex.Greedy

/-!
# Searching with partial matches

`common_regex::search` looks for a match, and if there is none it matches the reversed pattern at
the end of the input, read backwards.
-/

namespace Llama.Regex

open Common Backtrack List

/-- What the function uses of `std::regex`: the places and lengths of the groups of the first
match, the whole match first. -/
structure StdRegex where
  /-- The characters that an atom stands for. -/
  accepts : Atom → Char → Bool
  /-- `std::regex_search`. -/
  search : Str → Str → Option (List (Nat × Nat))
  /-- `std::regex_match`. -/
  fullMatch : Str → Str → Option (List (Nat × Nat))
  /-- `std::regex_search` with `match_continuous`. -/
  searchContinuous : Str → Str → Option (List (Nat × Nat))

/-- `common_regex_match_type`. -/
inductive MatchType where
  | none
  | partialMatch
  | full
  deriving DecidableEq, Repr

structure CommonRegexMatch where
  type : MatchType
  groups : List (Nat × Nat)
  deriving DecidableEq, Repr

/-- `common_regex`, with the texts of its expressions. -/
structure CommonRegex where
  pattern : Str
  reversedPartial : Str
  deriving DecidableEq, Repr

/-- The constructor. -/
def CommonRegex.make (pattern : Str) : Except ReverseStop CommonRegex :=
  (regexToReversedPartialRegex pattern).map fun reversed => ⟨pattern, reversed⟩

/-- `common_regex::search`. A group that is not there is empty. -/
def CommonRegex.search (std : StdRegex) (rx : CommonRegex) (input : Str) (pos : Nat)
    (asMatch : Bool) : Except String CommonRegexMatch :=
  if input.length < pos then .error "Position out of bounds"
  else
    let text := input.drop pos
    match if asMatch then std.fullMatch rx.pattern text else std.search rx.pattern text with
    | some groups => .ok ⟨.full, groups.map fun g => (pos + g.1, pos + g.1 + g.2)⟩
    | none =>
      match std.searchContinuous rx.reversedPartial text.reverse with
      | none => .ok ⟨.none, []⟩
      | some groups =>
        let group := groups.getD 1 (0, 0)
        if group.2 = 0 then .ok ⟨.none, []⟩
        else
          let start := input.length - (group.1 + group.2)
          if asMatch = false ∨ start = 0 then .ok ⟨.partialMatch, [(start, input.length)]⟩
          else .ok ⟨.none, []⟩

/-- `regex_search` finds the leftmost match that backtracking finds. -/
structure StdRegex.Searches (std : StdRegex) (pattern : Pattern) : Prop where
  found : ∀ text,
    match Backtrack.search (patternMatcher std.accepts pattern) text with
    | none => std.search (patternText pattern) text = none
    | some (front, rest) => ∃ others, std.search (patternText pattern) text =
        some ((front.length, text.length - front.length - rest.length) :: others)

/-- With `match_continuous`, the expression in a group behind `^` is matched at the front of the
text, the first way that backtracking finds. -/
structure StdRegex.Anchors (std : StdRegex) (pattern : Pattern) : Prop where
  found : ∀ text,
    match (patternMatcher std.accepts pattern text).head? with
    | none => std.searchContinuous (str "^(" ++ patternText pattern ++ str ")") text = none
    | some rest => ∃ others,
        std.searchContinuous (str "^(" ++ patternText pattern ++ str ")") text =
          some ((0, text.length - rest.length) :: (0, text.length - rest.length) :: others)

/-- The engine for the texts of one pattern and of its reversed pattern. -/
def engine (accepts : Atom → Char → Bool) (pattern : Pattern) : StdRegex where
  accepts := accepts
  search t s :=
    if t = patternText pattern then
      (Backtrack.search (patternMatcher accepts pattern) s).map fun r =>
        [(r.1.length, s.length - r.1.length - r.2.length)]
    else none
  fullMatch t s :=
    if t = patternText pattern then
      ((patternMatcher accepts pattern s).find? (·.isEmpty)).map fun _ => [(0, s.length)]
    else none
  searchContinuous t s :=
    if t = str "^(" ++ patternText (patternReversed pattern) ++ str ")" then
      (patternMatcher accepts (patternReversed pattern) s).head?.map fun rest =>
        [(0, s.length - rest.length), (0, s.length - rest.length)]
    else none

private theorem engine_searches (accepts : Atom → Char → Bool) (pattern : Pattern) :
    (engine accepts pattern).Searches pattern := by
  refine ⟨fun text => ?_⟩
  dsimp only [engine]
  rw [if_pos rfl]
  cases Backtrack.search (patternMatcher accepts pattern) text with
  | none => rfl
  | some r => exact ⟨[], rfl⟩

private theorem engine_anchors (accepts : Atom → Char → Bool) (pattern : Pattern) :
    (engine accepts pattern).Anchors (patternReversed pattern) := by
  refine ⟨fun text => ?_⟩
  dsimp only [engine]
  rw [if_pos rfl]
  cases (patternMatcher accepts (patternReversed pattern) text).head? with
  | none => rfl
  | some rest => exact ⟨[], rfl⟩

/-- The input ends in a proper beginning of a word. -/
def EndsBegun (accepts : Atom → Char → Bool) (pattern : Pattern) (input : Str) : Prop :=
  ∃ word ∈ patternWords accepts pattern, ∃ beginning,
    beginning <+: word ∧ beginning ≠ word ∧ beginning ≠ [] ∧ beginning <:+ input

/-- The input has a word, or ends in a visible one. -/
def Seen (accepts : Atom → Char → Bool) (pattern : Pattern) (input : Str) : Prop :=
  (∃ word ∈ patternWords accepts pattern, word <:+: input) ∨
    ∃ word ∈ patternVisible accepts pattern, word ≠ [] ∧ word <+: input.reverse

/-- An object of the pattern is made, and its search finds a match. -/
def Finds (std : StdRegex) (pattern : Pattern) (input : Str) : Prop :=
  ∃ rx, CommonRegex.make (patternText pattern) = .ok rx ∧
    ∃ m, rx.search std input 0 false = .ok m ∧ m.type ≠ .none

section

variable {std : StdRegex} {pattern : Pattern}

/-- A search finds exactly what is seen: the words by the pattern, and what is visible at the end
by the reversed pattern. -/
theorem search_iff (hvalid : PatternValid pattern) (hwritable : PatternWritable pattern)
    (hsearches : std.Searches pattern) (hanchors : std.Anchors (patternReversed pattern))
    (rx : CommonRegex) (hpattern : rx.pattern = patternText pattern)
    (hreversed : rx.reversedPartial = str "^(" ++ patternText (patternReversed pattern) ++ str ")")
    (input : Str) :
    (∃ m, rx.search std input 0 false = .ok m ∧ m.type ≠ .none) ↔
      Seen std.accepts pattern input := by
  rw [CommonRegex.search, if_neg (Nat.not_lt_zero _)]
  dsimp only
  rw [drop_zero, if_neg Bool.false_ne_true, hpattern, hreversed]
  have hrec : Recognizes (patternMatcher std.accepts pattern) (patternWords std.accepts pattern) :=
    patternMatcher_recognizes pattern hvalid
  have hword := hrec.search_eq_none_iff (s := input)
  have hfound := hsearches.found input
  have hnothing : ¬ ∃ m : CommonRegexMatch,
      (.ok ⟨.none, []⟩ : Except String CommonRegexMatch) = .ok m ∧ m.type ≠ .none := by
    rintro ⟨m, hm, htype⟩
    cases hm
    exact htype rfl
  cases hsearch : Backtrack.search (patternMatcher std.accepts pattern) input with
  | some r =>
    rw [hsearch] at hfound hword
    obtain ⟨others, hfound⟩ := hfound
    rw [hfound]
    refine iff_of_true ⟨_, rfl, by simp⟩ (.inl ?_)
    by_contra hnone
    exact absurd (hword.mpr hnone) (by simp)
  | none =>
    rw [hsearch] at hfound
    rw [hfound, Seen, or_iff_right (hword.mp hsearch),
      ← pattern_shows pattern hvalid hwritable input.reverse]
    have hfront := hanchors.found input.reverse
    cases hhead : (patternMatcher std.accepts (patternReversed pattern) input.reverse).head? with
    | none =>
      rw [hhead] at hfront
      dsimp only at hfront
      rw [hfront]
      exact iff_of_false hnothing (fun ⟨t, ht, _⟩ => by cases ht)
    | some rest =>
      rw [hhead] at hfront
      obtain ⟨others, hfront⟩ := hfront
      rw [hfront]
      dsimp only
      rw [getD_cons_succ, getD_cons_zero]
      by_cases hlt : rest.length < input.reverse.length
      · rw [if_neg (by dsimp only; omega), if_pos (.inl rfl)]
        exact iff_of_true ⟨_, rfl, by simp⟩ ⟨rest, rfl, hlt⟩
      · rw [if_pos (by dsimp only; omega)]
        exact iff_of_false hnothing (fun ⟨t, ht, hshort⟩ => hlt (Option.some.inj ht ▸ hshort))

/-- There is an object of a valid pattern only where the pattern is reversible. -/
theorem finds_iff (hne : pattern ≠ []) (hvalid : PatternValid pattern)
    (hsearches : std.Searches pattern) (hanchors : std.Anchors (patternReversed pattern))
    (input : Str) :
    Finds std pattern input ↔ Reversible pattern ∧ Seen std.accepts pattern input := by
  rw [Finds, CommonRegex.make]
  by_cases hr : Reversible pattern
  · have hiff := search_iff hvalid hr.1 hsearches hanchors
      ⟨patternText pattern, str "^(" ++ patternText (patternReversed pattern) ++ str ")"⟩
      rfl rfl input
    rw [reversed_patternText hne hvalid hr, and_iff_right hr, ← hiff]
    exact ⟨fun ⟨_, hrx, hm⟩ => by cases hrx; exact hm, fun hm => ⟨_, rfl, hm⟩⟩
  · obtain ⟨e, he⟩ := reversed_patternText_stops hne hvalid hr
    rw [he]
    exact iff_of_false (fun ⟨_, hrx, _⟩ => by cases hrx) fun h => hr h.1

/-- Where every alternative starts with something, every end that begins a word is seen. -/
theorem seen_of_begun {accepts : Atom → Char → Bool} {input : Str}
    (hvalid : PatternValid pattern) (hwritable : PatternWritable pattern)
    (hstarts : patternStartsEmpty pattern = false) (h : EndsBegun accepts pattern input) :
    Seen accepts pattern input := by
  obtain ⟨word, hword, beginning, hbeginning, -, hne, hsuffix⟩ := h
  have hrev := pattern_reversesBegun pattern hvalid word hword beginning hbeginning hne
  rw [← patternVisible_eq hwritable hstarts] at hrev
  exact .inr ⟨_, hrev, reverse_ne_nil_iff.mpr hne, reverse_prefix.mpr hsuffix⟩

/-- A reversible expression whose alternatives all start with something misses nothing. -/
theorem misses_nothing (hne : pattern ≠ []) (hvalid : PatternValid pattern)
    (hr : Reversible pattern) (hstarts : patternStartsEmpty pattern = false)
    (hsearches : std.Searches pattern) (hanchors : std.Anchors (patternReversed pattern))
    {input : Str} (h : EndsBegun std.accepts pattern input) : Finds std pattern input :=
  (finds_iff hne hvalid hsearches hanchors input).mpr ⟨hr, seen_of_begun hvalid hr.1 hstarts h⟩

/-- A regular expression finds the beginnings of its words at the end of an input exactly where
it is reversible and the input is seen. -/
theorem search_finds_beginnings (std : StdRegex) {pattern : Pattern} (hne : pattern ≠ [])
    (hvalid : PatternValid pattern) (hsearches : std.Searches pattern)
    (hanchors : std.Anchors (patternReversed pattern)) (input : Str) :
    (EndsBegun std.accepts pattern input → Finds std pattern input) ↔
      (EndsBegun std.accepts pattern input →
        Reversible pattern ∧ Seen std.accepts pattern input) := by
  rw [finds_iff hne hvalid hsearches hanchors]

end

/-- The literals stand for themselves. -/
def literalAccepts (a : Atom) (c : Char) : Bool := a = .literal c

/-- The pattern `a(b|c)+d`. -/
def exampleGroup : Pattern :=
  [[.atom (.literal 'a') .once,
    .group true [[.atom (.literal 'b') .once], [.atom (.literal 'c') .once]] .plus,
    .atom (.literal 'd') .once]]

private theorem exampleGroup_valid : PatternValid exampleGroup := by
  simp [exampleGroup, PatternValid, NodesValid, Node.Valid, Atom.Valid, Quantifier.Valid,
    syntaxCharacters, str]

private theorem exampleGroup_reversible : Reversible exampleGroup := by
  refine ⟨?_, ?_⟩
  · simp [exampleGroup, PatternWritable, NodesWritable, Node.Writable, elements, Node.reversed,
      Quantifier.expand, maxSize]
  · rintro ⟨nodes, hnodes, node, hnode, hstar⟩
    cases hnodes
    cases hnode
    cases hstar

/-- `ab` begins `abd`. -/
theorem exampleGroup_begun : EndsBegun literalAccepts exampleGroup (str "xab") := by
  have hrec : Recognizes (patternMatcher literalAccepts exampleGroup)
      (patternWords literalAccepts exampleGroup) :=
    patternMatcher_recognizes exampleGroup exampleGroup_valid
  obtain ⟨w, hw, heq⟩ := (hrec (str "abd") []).mp (by decide)
  rw [append_nil] at heq
  subst heq
  exact ⟨str "abd", hw, str "ab", ⟨str "d", rfl⟩, by decide, by decide, ⟨str "x", rfl⟩⟩

theorem search_finds_beginnings_group :
    EndsBegun literalAccepts exampleGroup (str "xab") ∧
      Finds (engine literalAccepts exampleGroup) exampleGroup (str "xab") := by
  refine ⟨exampleGroup_begun, ?_⟩
  refine (search_finds_beginnings (engine literalAccepts exampleGroup) (cons_ne_nil _ _)
    exampleGroup_valid (engine_searches _ _) (engine_anchors _ _) (str "xab")).mpr ?_
    exampleGroup_begun
  exact fun h => ⟨exampleGroup_reversible,
    seen_of_begun exampleGroup_valid exampleGroup_reversible.1 (by decide) h⟩

/-- The pattern `a?b|cd`. -/
def exampleHidden : Pattern :=
  [[.atom (.literal 'a') .opt, .atom (.literal 'b') .once],
    [.atom (.literal 'c') .once, .atom (.literal 'd') .once]]

/-- The reversed pattern of `a?b|cd` matches nothing before it comes to the second alternative:
`c` begins `cd` and is not found. -/
theorem hidden_alternative_missed :
    ∃ (std : StdRegex) (rx : CommonRegex), std.Searches exampleHidden ∧
      std.Anchors (patternReversed exampleHidden) ∧ PatternValid exampleHidden ∧
      [] ∉ patternWords std.accepts exampleHidden ∧
      patternText exampleHidden = str "a?b|cd" ∧
      CommonRegex.make (patternText exampleHidden) = .ok rx ∧
      str "cd" ∈ patternWords std.accepts exampleHidden ∧
      rx.search std (str "c") 0 false = .ok ⟨.none, []⟩ := by
  have hvalid : PatternValid exampleHidden := by
    simp [exampleHidden, PatternValid, NodesValid, Node.Valid, Atom.Valid, Quantifier.Valid,
      syntaxCharacters, str]
  have hmatcher : Recognizes (patternMatcher literalAccepts exampleHidden)
      (patternWords literalAccepts exampleHidden) := patternMatcher_recognizes exampleHidden hvalid
  refine ⟨engine literalAccepts exampleHidden,
    ⟨str "a?b|cd", str "^((?:b)?a?|(?:d)?c)"⟩, engine_searches _ _, engine_anchors _ _, hvalid,
    fun hnil => ?_, by decide, by decide, ?_, by decide⟩
  · have hempty : [] ∈ patternMatcher literalAccepts exampleHidden [] :=
      (hmatcher [] []).mpr ⟨[], hnil, rfl⟩
    exact absurd hempty (by decide)
  · obtain ⟨w, hw, heq⟩ := (hmatcher (str "cd") []).mp (by decide)
    rw [append_nil] at heq
    rw [heq]
    exact hw

end Llama.Regex
