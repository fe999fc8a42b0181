import Llama.Regex.Total
import Llama.Regex.Syntax

/-!
# Reversing an expression

`regex_to_reversed_partial_regex` on the text of a pattern writes the text of another pattern:
repetitions are written out, groups do not capture, and all elements of an alternative but the
first are nested in optional groups.
-/

namespace Llama.Regex

open Common List Function

/-- The quantifiers of the copies that a repetition becomes. -/
def Quantifier.expand : Quantifier → List Quantifier
  | .exactly n => replicate n .once
  | .range min (some max) => replicate min .once ++ replicate (max - min) .opt
  | .range min none => replicate min .once ++ [.star]
  | q => [q]

/-- All elements but the first are optional behind it, the last one innermost. -/
def nest : List Node → List Node
  | [] => []
  | [node] => [node]
  | node :: nodes => [.group false [nest nodes] .opt, node]

mutual

/-- The elements that an element becomes. -/
def Node.reversed : Node → List Node
  | .atom a q => q.expand.map (.atom a)
  | .group _ alternatives q => q.expand.map (.group false (patternReversed alternatives))

/-- The elements of an alternative, in their order. -/
def elements : List Node → List Node
  | [] => []
  | node :: nodes => node.reversed ++ elements nodes

/-- The pattern that the function writes. -/
def patternReversed : List (List Node) → List (List Node)
  | [] => []
  | nodes :: pattern => nest (elements nodes) :: patternReversed pattern

end

mutual

/-- Every alternative has elements, and not too many to be written. -/
def Node.Writable : Node → Prop
  | .atom _ _ => True
  | .group _ alternatives _ => PatternWritable alternatives

def NodesWritable : List Node → Prop
  | [] => True
  | node :: nodes => node.Writable ∧ NodesWritable nodes

def PatternWritable : List (List Node) → Prop
  | [] => True
  | nodes :: pattern =>
    (0 < (elements nodes).length ∧ 3 * ((elements nodes).length - 1) ≤ maxSize) ∧
      NodesWritable nodes ∧ PatternWritable pattern

end

def Node.quantifier : Node → Quantifier
  | .atom _ q => q
  | .group _ _ q => q

/-- A star is the last character. -/
def EndsInStar (nodes : List Node) : Prop := ∃ node ∈ nodes.getLast?, node.quantifier = .star

/-- `process` with as many turns as there are characters. -/
def process (alternatives : List (List Str)) (sequence : List Str) (rest : Str) :
    Except ReverseStop (Str × Str) :=
  processFrom (rest.length + 1) alternatives sequence rest

section

variable {alternatives alternatives' : List (List Str)} {sequence sequence' : List Str} {c : Char}
  {rest rest' : Str}

private theorem processFrom_enough {n k : Nat} (hn : rest.length < n) (hk : rest.length < k) :
    processFrom n alternatives sequence rest = processFrom k alternatives sequence rest := by
  induction n generalizing alternatives sequence rest k with
  | zero => omega
  | succ n ih =>
    cases k with
    | zero => omega
    | succ k =>
      cases rest with
      | nil => rw [processFrom, processFrom]
      | cons c behind =>
        rw [processFrom, processFrom]
        have hlen : (turn alternatives sequence c behind).left.length ≤ behind.length := turn_length
        rw [length_cons] at hn hk
        cases hturn : turn alternatives sequence c behind with
        | stop e => rfl
        | close => rfl
        | next alternatives' sequence' rest' =>
          rw [hturn] at hlen
          simp only [Turn.left] at hlen
          exact ih (by omega) (by omega)
        | group inner =>
          rw [hturn] at hlen
          simp only [Turn.left] at hlen
          have hinner : processFrom n [] [] inner = processFrom k [] [] inner :=
            ih (by omega) (by omega)
          dsimp only
          rw [hinner]
          cases hsub : processFrom k [] [] inner with
          | error e => rfl
          | ok r =>
            obtain ⟨sub, rest'⟩ := r
            have hle := (processFrom_length hsub).1
            cases rest' with
            | nil => rfl
            | cons d rest' =>
              rw [length_cons] at hle
              dsimp only
              split
              · exact ih (by omega) (by omega)
              · rfl

private theorem process_next
    (h : turn alternatives sequence c rest = .next alternatives' sequence' rest') :
    process alternatives sequence (c :: rest) = process alternatives' sequence' rest' := by
  have hlen : (turn alternatives sequence c rest).left.length ≤ rest.length := turn_length
  rw [h] at hlen
  simp only [Turn.left] at hlen
  rw [process, processFrom, h]
  exact processFrom_enough (by simp only [length_cons]; omega) (Nat.lt_succ_self _)

/-- The turns left are enough for a group. -/
private theorem processFrom_inner {inner : Str}
    (h : turn alternatives sequence c rest = .group inner) :
    inner.length ≤ rest.length ∧
      processFrom (c :: rest).length [] [] inner = process [] [] inner := by
  have hlen : (turn alternatives sequence c rest).left.length ≤ rest.length := turn_length
  rw [h, Turn.left] at hlen
  exact ⟨hlen, processFrom_enough (Nat.lt_succ_of_le hlen) (Nat.lt_succ_self _)⟩

private theorem process_group {inner sub : Str}
    (h : turn alternatives sequence c rest = .group inner)
    (hsub : process [] [] inner = .ok (sub, ')' :: rest')) :
    process alternatives sequence (c :: rest) =
      process alternatives (sequence ++ [groupPart sub]) rest' := by
  obtain ⟨hlen, hinner⟩ := processFrom_inner h
  have hle := (processFrom_length hsub).1
  rw [length_cons] at hle
  rw [process, processFrom, h]
  dsimp only
  rw [hinner, hsub]
  dsimp only
  rw [if_pos rfl]
  exact processFrom_enough (by simp only [length_cons]; omega) (Nat.lt_succ_self _)

private theorem process_group_error {inner : Str} {e : ReverseStop}
    (h : turn alternatives sequence c rest = .group inner) (hsub : process [] [] inner = .error e) :
    process alternatives sequence (c :: rest) = .error e := by
  rw [process, processFrom, h]
  dsimp only
  rw [(processFrom_inner h).2, hsub]

private theorem process_stop {e : ReverseStop} (h : turn alternatives sequence c rest = .stop e) :
    process alternatives sequence (c :: rest) = .error e := by
  rw [process, processFrom, h]

private theorem process_end (h : ∀ c ∈ rest.head?, c = ')') :
    process alternatives sequence rest =
      (alternativesText (alternatives ++ [sequence])).map fun s => (s, rest) := by
  cases rest with
  | nil => rw [process, processFrom]
  | cons c rest =>
    obtain rfl := h c rfl
    rw [process, processFrom, turn_close_iff.mpr rfl]

private theorem not_mem_natText {d : Char} (hd : d.isDigit = false) (n : Nat) : d ∉ natText n := by
  intro h
  rw [isDigit_natText h] at hd
  cases hd

private theorem parseOptInt_natText {n : Nat} (hn : (n : Int) ≤ intMax) (default : Option Int) :
    parseOptInt (natText n) default = .ok (some n) := by
  rw [parseOptInt, if_neg (natText_ne_nil n), stoi_natText hn]

private theorem readRange_exactly {n : Nat} (hn : (n : Int) ≤ intMax) :
    readRange (natText n) = .ok (n, some n) := by
  rw [readRange, splitOn_eq_singleton (not_mem_natText (by decide) n)]
  change (parseOptInt (natText n) (some 0) >>= fun min => checkRange min min) = _
  rw [parseOptInt_natText hn]
  change checkRange (some (n : Int)) (some n) = _
  rw [checkRange, if_neg (Int.lt_irrefl _)]

private theorem readRange_range {min : Nat} {max : Option Nat}
    (hq : (Quantifier.range min max).Valid) :
    readRange (natText min ++ str "," ++ max.elim [] natText) =
      .ok (min, max.map fun n => (n : Int)) := by
  obtain ⟨hmin, hmax⟩ := hq
  have hcomma : ',' ∉ max.elim [] natText := by
    cases max with
    | none => simp
    | some n => exact not_mem_natText (by decide) n
  have hsplit : (natText min ++ str "," ++ max.elim [] natText).splitOn ',' =
      [natText min, max.elim [] natText] := by
    rw [show str "," = [','] from rfl, append_assoc, singleton_append,
      splitOn_append_cons_self_of_not_mem (not_mem_natText (by decide) min),
      splitOn_eq_singleton hcomma]
  rw [readRange, hsplit]
  change (parseOptInt (natText min) (some 0) >>= fun min =>
    parseOptInt (max.elim [] natText) none >>= fun max => checkRange min max) = _
  rw [parseOptInt_natText hmin]
  change (parseOptInt (max.elim [] natText) none >>= fun max =>
    checkRange (some (min : Int)) max) = _
  cases max with
  | none => rfl
  | some n =>
    obtain ⟨hle, hn⟩ := hmax n rfl
    rw [Option.elim_some, parseOptInt_natText hn]
    change checkRange (some (min : Int)) (some (n : Int)) = _
    rw [checkRange, if_neg (by omega)]
    rfl

/-- A quantifier is applied to the part in front of it. -/
theorem process_quantifier {part : Str} {q : Quantifier} (hq : q.Valid)
    (hrest : rest.head? ≠ some '?') (hstar : q = .star → rest ≠ []) :
    process alternatives (sequence ++ [part]) (q.text ++ rest) =
      process alternatives (sequence ++ q.expand.map fun q => part ++ q.text) rest := by
  cases q with
  | once => simp [Quantifier.text, Quantifier.expand]
  | plus => exact process_next (Turns.quantifier (.inr rfl) rfl).eq
  | opt => exact process_next (Turns.quantifier (.inl rfl) rfl).eq
  | star =>
    have hlazy : dropLazy rest = rest := by
      rw [dropLazy, if_neg]
      rintro ⟨t, rfl⟩
      exact hrest rfl
    have hturn : turn alternatives (sequence ++ [part]) '*' rest = _ :=
      (Turns.star rfl (hstar rfl)).eq
    rw [hlazy] at hturn
    exact process_next hturn
  | exactly n =>
    have htext : (Quantifier.exactly n).text ++ rest = '{' :: (natText n ++ '}' :: rest) := by
      simp [Quantifier.text, str]
    rw [htext, process_next
      (Turns.count rfl (not_mem_natText (by decide) n) (readRange_exactly hq)).eq]
    simp [repeatPart, Quantifier.expand, Quantifier.text]
  | range min max =>
    have htext : (Quantifier.range min max).text ++ rest =
        '{' :: ((natText min ++ str "," ++ max.elim [] natText) ++ '}' :: rest) := by
      simp [Quantifier.text, str]
    have hbrace : '}' ∉ natText min ++ str "," ++ max.elim [] natText := by
      have hmin := not_mem_natText (d := '}') (by decide) min
      cases max with
      | none => simp [str, hmin]
      | some n => simp [str, hmin, not_mem_natText (d := '}') (by decide) n]
    rw [htext, process_next ((Turns.count rfl hbrace (readRange_range hq)).eq)]
    cases max with
    | none => simp [repeatPart, Quantifier.expand, Quantifier.text]
    | some n =>
      simp [repeatPart, Quantifier.expand, Quantifier.text]

/-- Behind a star at the end the iterator is dereferenced. -/
theorem process_star_end {part : Str} :
    process alternatives (sequence ++ [part]) (Quantifier.star.text ++ []) = .error .pastEnd := by
  have hturn : turn alternatives (sequence ++ [part]) '*' [] = .stop .pastEnd := by
    rw [turn, if_neg (by decide), if_pos (.inl rfl), quantifierTurn, getLast?_concat]
    rfl
  exact process_stop hturn

private theorem readSet_append {s set rest' : Str} (h : readSet s = .ok (set, rest')) (rest : Str) :
    readSet (s ++ rest) = .ok (set, rest' ++ rest) := by
  obtain ⟨hs, hset⟩ := readSet_self h
  rw [hs, append_assoc]
  exact hset (rest' ++ rest)

private theorem process_atom {a : Atom} (ha : a.Valid) :
    process alternatives sequence (a.text ++ rest) =
      process alternatives (sequence ++ [a.text]) rest := by
  cases a with
  | literal c =>
    have hsub : str "[*?+\x7b()|\\" ⊆ syntaxCharacters := by decide
    exact process_next (Turns.literal (fun h => ha (hsub h)) _).eq
  | dot => exact process_next rfl
  | escape c => exact process_next rfl
  | set body =>
    exact process_next (Turns.set (readSet_append ha rest)).eq

/-- What a text in front of other things begins with. -/
theorem Atom.head_ne {a : Atom} (ha : a.Valid) : (a.text ++ rest).head? ≠ some '?' := by
  cases a with
  | literal c =>
    intro h
    obtain rfl : c = '?' := Option.some.inj h
    exact ha (by decide)
  | dot => exact fun h => by cases h
  | escape c => exact fun h => by cases h
  | set body => exact fun h => by cases h

private theorem Node.head_ne {node : Node} (h : node.Valid) :
    (node.text ++ rest).head? ≠ some '?' := by
  cases node with
  | atom a q =>
    rw [Node.text, append_assoc]
    exact Atom.head_ne h.1
  | group capturing alternatives q =>
    rw [Node.text]
    exact fun h => by cases h

private theorem Node.text_ne_nil {node : Node} : node.text ≠ [] := by
  cases node with
  | atom a q =>
    rw [Node.text]
    cases a <;> simp [Atom.text, str]
  | group capturing alternatives q => simp [Node.text, str]

private theorem nodes_head_ne {nodes : List Node} (h : NodesValid nodes)
    (hrest : rest.head? ≠ some '?') :
    (nodesText nodes ++ rest).head? ≠ some '?' := by
  cases nodes with
  | nil => exact hrest
  | cons node nodes =>
    rw [nodesText, append_assoc]
    exact Node.head_ne h.1

private theorem pattern_head_ne {pattern : List (List Node)} (h : PatternValid pattern)
    (hrest : rest.head? ≠ some '?') : (patternText pattern ++ rest).head? ≠ some '?' := by
  match pattern, h with
  | [], _ => exact hrest
  | [nodes], h => exact nodes_head_ne h.1 hrest
  | nodes :: nodes' :: pattern, h =>
    rw [patternText, append_assoc, append_assoc]
    exact nodes_head_ne h.1 (fun h => by cases h)

private theorem map_text_atom (a : Atom) (q : Quantifier) :
    (Node.atom a q).reversed.map Node.text = q.expand.map fun q => a.text ++ q.text := by
  rw [Node.reversed, map_map]
  simp only [comp_def, Node.text]

private theorem map_text_group (capturing : Bool) (alternatives : List (List Node))
    (q : Quantifier) :
    (Node.group capturing alternatives q).reversed.map Node.text =
      q.expand.map fun q => groupPart (patternText (patternReversed alternatives)) ++ q.text := by
  rw [Node.reversed, map_map]
  simp only [comp_def, Node.text, groupPart]
  simp [str]

/-- The text that the function writes for an alternative is that of its nested elements. -/
theorem partsText_map {nodes : List Node} (h : nodes ≠ []) :
    partsText (nodes.map Node.text) = nodesText (nest nodes) := by
  induction nodes with
  | nil => exact absurd rfl h
  | cons node nodes ih =>
    cases nodes with
    | nil => simp [partsText, groupTurns, stringRepeat, closeParts, nest, nodesText]
    | cons node' nodes =>
      rw [map_cons, partsText_cons _ (by simp), ih (by simp)]
      simp [nest, nodesText, Node.text, patternText, groupPart, Quantifier.text, str]

private theorem stringJoin_partsText {pattern : List (List Node)} (h : PatternWritable pattern) :
    stringJoin (pattern.map fun nodes => partsText ((elements nodes).map Node.text)) (str "|") =
      patternText (patternReversed pattern) := by
  induction pattern with
  | nil => rfl
  | cons nodes pattern ih =>
    have hne : elements nodes ≠ [] := length_pos_iff.mp h.1.1
    cases pattern with
    | nil => simp [stringJoin, patternReversed, patternText, partsText_map hne]
    | cons nodes' pattern =>
      have htail := ih h.2.2
      rw [stringJoin] at htail ⊢
      rw [map_cons, map_cons, intercalate_cons_cons, partsText_map hne]
      rw [map_cons] at htail
      rw [htail]
      simp only [patternReversed, patternText]

/-- The alternatives of a pattern can be written. -/
theorem alternativesText_elements {pattern : List (List Node)} (h : PatternWritable pattern) :
    alternativesText (pattern.map fun nodes => (elements nodes).map Node.text) =
      .ok (patternText (patternReversed pattern)) := by
  have hfits : ∀ parts ∈ pattern.map fun nodes => (elements nodes).map Node.text,
      3 * groupTurns parts.length ≤ maxSize := by
    induction pattern with
    | nil => simp
    | cons nodes pattern ih =>
      rw [map_cons, forall_mem_cons]
      refine ⟨(groupTurns_fits_iff _).mpr ?_, ih h.2.2⟩
      rw [length_map]
      exact h.1
  rw [alternativesText, mapM_alternativeText hfits, map_map]
  change Except.ok _ = _
  rw [← stringJoin_partsText h]
  rfl

private theorem dropMark_of_head_ne (h : rest.head? ≠ some '?') : dropMark rest = rest := by
  rw [dropMark, if_neg]
  rintro ⟨t, rfl⟩
  exact h rfl

private theorem dropMark_group (capturing : Bool) (h : rest.head? ≠ some '?') :
    dropMark ((if capturing then [] else str "?:") ++ rest) = rest := by
  cases capturing with
  | true => exact dropMark_of_head_ne h
  | false =>
    have hmark : str "?:" <+: str "?:" ++ rest := prefix_append _ _
    exact if_pos hmark

private theorem turn_group_text {pattern : List (List Node)} (h : PatternValid pattern)
    (capturing : Bool) :
    turn alternatives sequence '('
        ((if capturing then [] else str "?:") ++ (patternText pattern ++ (')' :: rest))) =
      .group (patternText pattern ++ (')' :: rest)) := by
  have hhead : (patternText pattern ++ (')' :: rest)).head? ≠ some '?' :=
    pattern_head_ne h (by simp)
  exact congrArg Turn.group (dropMark_group capturing hhead)

private theorem group_text (capturing : Bool) (pattern : List (List Node)) (q : Quantifier) :
    (Node.group capturing pattern q).text ++ rest =
      '(' :: ((if capturing then [] else str "?:") ++
        (patternText pattern ++ (')' :: (q.text ++ rest)))) := by
  simp [Node.text, str]

/-- An alternative that cannot be written stops the function at the end of its group. -/
theorem alternativesText_outgrown (nodes : List Node)
    (h : ¬ (0 < (elements nodes).length ∧ 3 * ((elements nodes).length - 1) ≤ maxSize))
    (hmem : (elements nodes).map Node.text ∈ alternatives) :
    alternativesText alternatives = .error .outgrown := by
  rw [alternativesText, mapM_alternativeText_outgrown]
  · rfl
  · intro hall
    have hfits := hall _ hmem
    rw [length_map, groupTurns_fits_iff] at hfits
    exact h hfits

private theorem bar_text (nodes nodes' : List Node) (pattern : List (List Node)) :
    patternText (nodes :: nodes' :: pattern) ++ rest =
      nodesText nodes ++ ('|' :: (patternText (nodes' :: pattern) ++ rest)) := by
  simp [patternText, str]

private theorem process_bar :
    process alternatives sequence ('|' :: rest) = process (alternatives ++ [sequence]) [] rest :=
  process_next rfl

private theorem endsInStar_cons {node node' : Node} {nodes : List Node} :
    EndsInStar (node :: node' :: nodes) ↔ EndsInStar (node' :: nodes) := by
  rw [EndsInStar, getLast?_cons_cons, EndsInStar]

end

mutual

private theorem process_node : (node : Node) → node.Valid → node.Writable →
    ∀ (alternatives : List (List Str)) (sequence : List Str) (rest : Str),
      rest.head? ≠ some '?' → (node.quantifier = .star → rest ≠ []) →
        process alternatives sequence (node.text ++ rest) =
          process alternatives (sequence ++ node.reversed.map Node.text) rest
  | .atom a q, h, _, alternatives, sequence, rest, hrest, hstar => by
    rw [Node.text, append_assoc, process_atom h.1, process_quantifier h.2 hrest hstar,
      map_text_atom]
  | .group capturing pattern q, h, hw, alternatives, sequence, rest, hrest, hstar => by
    have hinner : process [] [] (patternText pattern ++ (')' :: (q.text ++ rest))) =
        .ok (patternText (patternReversed pattern), ')' :: (q.text ++ rest)) := by
      rw [process_pattern pattern h.2.1 hw h.1 [] _ (by simp) (by simp), nil_append,
        alternativesText_elements hw]
      rfl
    rw [group_text, process_group (turn_group_text h.2.1 capturing) hinner,
      process_quantifier h.2.2 hrest hstar, map_text_group]

private theorem process_nodes : (nodes : List Node) → NodesValid nodes → NodesWritable nodes →
    ∀ (alternatives : List (List Str)) (sequence : List Str) (rest : Str),
      rest.head? ≠ some '?' → (EndsInStar nodes → rest ≠ []) →
        process alternatives sequence (nodesText nodes ++ rest) =
          process alternatives (sequence ++ (elements nodes).map Node.text) rest
  | [], _, _, alternatives, sequence, rest, _, _ => by
    simp [nodesText, elements]
  | node :: nodes, h, hw, alternatives, sequence, rest, hrest, hstar => by
    rw [nodesText, append_assoc, process_node node h.1 hw.1 _ _ _ (nodes_head_ne h.2 hrest),
      process_nodes nodes h.2 hw.2 _ _ _ hrest, elements, map_append, append_assoc]
    · intro hends
      refine hstar ?_
      cases nodes with
      | nil =>
        obtain ⟨node', hnode', -⟩ := hends
        cases hnode'
      | cons node' nodes => exact endsInStar_cons.mpr hends
    · intro hq hnil
      cases nodes with
      | nil => exact hstar ⟨node, rfl, hq⟩ hnil
      | cons node' nodes =>
        have hhead : node'.text ≠ [] := Node.text_ne_nil
        rw [nodesText, append_assoc] at hnil
        exact hhead (append_eq_nil_iff.mp hnil).1

private theorem process_pattern : (pattern : List (List Node)) → PatternValid pattern →
    PatternWritable pattern → pattern ≠ [] →
      ∀ (alternatives : List (List Str)) (rest : Str), (∀ c ∈ rest.head?, c = ')') →
        ((∃ nodes ∈ pattern.getLast?, EndsInStar nodes) → rest ≠ []) →
          process alternatives [] (patternText pattern ++ rest) =
            (alternativesText (alternatives ++
              pattern.map fun nodes => (elements nodes).map Node.text)).map fun s => (s, rest)
  | [], _, _, h, _, _, _, _ => absurd rfl h
  | [nodes], h, hw, _, alternatives, rest, hrest, hstar => by
    have hhead : rest.head? ≠ some '?' := fun hmark => absurd (hrest '?' hmark) (by decide)
    rw [patternText, process_nodes nodes h.1 hw.2.1 _ _ _ hhead fun hends =>
      hstar ⟨nodes, rfl, hends⟩,
      process_end hrest]
    rfl
  | nodes :: nodes' :: pattern, h, hw, _, alternatives, rest, hrest, hstar => by
    rw [bar_text, process_nodes nodes h.1 hw.2.1 _ _ _ (by simp) (by simp), process_bar,
      process_pattern (nodes' :: pattern) h.2 hw.2.2 (by simp) _ _ hrest, append_assoc]
    · rfl
    · intro hends
      refine hstar ?_
      rw [getLast?_cons_cons]
      exact hends

end

mutual

private theorem process_node_stops : (node : Node) → node.Valid →
    ∀ (alternatives : List (List Str)) (sequence : List Str) (rest : Str),
      ¬ (node.Writable ∧ (node.quantifier = .star → rest ≠ [])) →
        ∃ e, process alternatives sequence (node.text ++ rest) = .error e
  | .atom a q, h, alternatives, sequence, rest, hstop => by
    obtain ⟨rfl, rfl⟩ : q = .star ∧ rest = [] := by
      simpa [Node.Writable, Node.quantifier] using hstop
    rw [Node.text, append_assoc, process_atom h.1]
    exact ⟨_, process_star_end⟩
  | .group capturing pattern q, h, alternatives, sequence, rest, hstop => by
    rw [group_text]
    by_cases hw : PatternWritable pattern
    · obtain ⟨rfl, rfl⟩ : q = .star ∧ rest = [] := by
        simpa [Node.Writable, Node.quantifier, hw] using hstop
      have hinner : process [] [] (patternText pattern ++ (')' :: (Quantifier.star.text ++ []))) =
          _ := process_pattern pattern h.2.1 hw h.1 [] _ (by simp) (by simp)
      rw [nil_append, alternativesText_elements hw] at hinner
      rw [process_group (turn_group_text h.2.1 capturing) hinner]
      exact ⟨_, process_star_end⟩
    · obtain ⟨e, he⟩ := process_pattern_stops pattern h.2.1 h.1 [] (')' :: (q.text ++ rest))
        (by simp) fun hread => hw hread.1
      exact ⟨e, process_group_error (turn_group_text h.2.1 capturing) he⟩

private theorem process_nodes_stops : (nodes : List Node) → NodesValid nodes →
    ∀ (alternatives : List (List Str)) (sequence : List Str) (rest : Str),
      rest.head? ≠ some '?' → ¬ (NodesWritable nodes ∧ (EndsInStar nodes → rest ≠ [])) →
        ∃ e, process alternatives sequence (nodesText nodes ++ rest) = .error e
  | [], _, _, _, _, _, hstop => by
    refine absurd ⟨trivial, ?_⟩ hstop
    rintro ⟨node, hnode, -⟩
    cases hnode
  | node :: nodes, h, alternatives, sequence, rest, hrest, hstop => by
    rw [nodesText, append_assoc]
    by_cases hnode : node.Writable ∧ (node.quantifier = .star → nodesText nodes ++ rest ≠ [])
    · rw [process_node node h.1 hnode.1 _ _ _ (nodes_head_ne h.2 hrest) hnode.2]
      refine process_nodes_stops nodes h.2 _ _ _ hrest fun hread => hstop ⟨⟨hnode.1, hread.1⟩, ?_⟩
      intro hends
      cases nodes with
      | nil =>
        obtain ⟨node', hnode', hstar⟩ := hends
        obtain rfl := Option.some.inj hnode'
        exact hnode.2 hstar
      | cons node' nodes => exact hread.2 (endsInStar_cons.mp hends)
    · exact process_node_stops node h.1 _ _ _ hnode

/-- The function refuses what `process_pattern` does not read. -/
theorem process_pattern_stops : (pattern : List (List Node)) → PatternValid pattern →
    pattern ≠ [] → ∀ (alternatives : List (List Str)) (rest : Str), (∀ c ∈ rest.head?, c = ')') →
      ¬ (PatternWritable pattern ∧ ((∃ nodes ∈ pattern.getLast?, EndsInStar nodes) → rest ≠ [])) →
        ∃ e, process alternatives [] (patternText pattern ++ rest) = .error e
  | [], _, h, _, _, _, _ => absurd rfl h
  | [nodes], h, _, alternatives, rest, hrest, hstop => by
    have hhead : rest.head? ≠ some '?' := fun hmark => absurd (hrest '?' hmark) (by decide)
    rw [patternText]
    by_cases hnodes : NodesWritable nodes ∧ (EndsInStar nodes → rest ≠ [])
    · rw [process_nodes nodes h.1 hnodes.1 _ _ _ hhead hnodes.2, process_end hrest,
        alternativesText_outgrown nodes _ (by simp)]
      · exact ⟨_, rfl⟩
      · intro hfits
        refine hstop ⟨⟨hfits, hnodes.1, trivial⟩, ?_⟩
        rintro ⟨nodes', hlast, hends⟩
        cases hlast
        exact hnodes.2 hends
    · exact process_nodes_stops nodes h.1 _ _ _ hhead hnodes
  | nodes :: nodes' :: pattern, h, _, alternatives, rest, hrest, hstop => by
    rw [bar_text]
    by_cases hnodes : NodesWritable nodes
    · rw [process_nodes nodes h.1 hnodes _ _ _ (by simp) (by simp), process_bar]
      by_cases hread : PatternWritable (nodes' :: pattern) ∧
          ((∃ nodes ∈ (nodes' :: pattern).getLast?, EndsInStar nodes) → rest ≠ [])
      · rw [process_pattern (nodes' :: pattern) h.2 hread.1 (by simp) _ _ hrest hread.2,
          alternativesText_outgrown nodes _ (by simp)]
        · exact ⟨_, rfl⟩
        · exact fun hfits => hstop ⟨⟨hfits, hnodes, hread.1⟩, hread.2⟩
      · exact process_pattern_stops (nodes' :: pattern) h.2 (by simp) _ _ hrest hread
    · exact process_nodes_stops nodes h.1 _ _ _ (by simp) fun hread => hnodes hread.1

end

/-- The alternatives can be written, and no star is the last character. -/
def Reversible (pattern : Pattern) : Prop :=
  PatternWritable pattern ∧ ¬ ∃ nodes ∈ pattern.getLast?, EndsInStar nodes

/-- The text of a reversible pattern is read to its end. -/
theorem reversed_patternText {pattern : Pattern} (hne : pattern ≠ []) (h : PatternValid pattern)
    (hr : Reversible pattern) :
    regexToReversedPartialRegex (patternText pattern) =
      .ok (str "^(" ++ patternText (patternReversed pattern) ++ str ")") := by
  have hrun : process [] [] (patternText pattern ++ []) =
      .ok (patternText (patternReversed pattern), []) := by
    rw [process_pattern pattern h hr.1 hne [] [] (by simp) fun hends => absurd hends hr.2,
      nil_append, alternativesText_elements hr.1]
    rfl
  rw [append_nil, process] at hrun
  rw [regexToReversedPartialRegex, hrun]

/-- There is no reversed pattern of another one. -/
theorem reversed_patternText_stops {pattern : Pattern} (hne : pattern ≠ [])
    (h : PatternValid pattern) (hr : ¬ Reversible pattern) :
    ∃ e, regexToReversedPartialRegex (patternText pattern) = .error e := by
  obtain ⟨e, hrun⟩ := process_pattern_stops pattern h hne [] [] (by simp) fun hread =>
    hr ⟨hread.1, fun hends => hread.2 hends rfl⟩
  rw [append_nil, process] at hrun
  exact ⟨e, by rw [regexToReversedPartialRegex, hrun]⟩

end Llama.Regex
