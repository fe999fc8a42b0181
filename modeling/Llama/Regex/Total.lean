import Llama.Regex.Reverse

/-!
# When a pattern is reversed

`Handled` is the grammar of the patterns that `regex_to_reversed_partial_regex` reads to the end
or refuses. It counts elements where the function keeps texts.
-/

namespace Llama.Regex

open Common List

/-- A regular expression whose groups and sets are closed. -/
inductive Balanced : Str → Prop where
  | nil : Balanced []
  | char {c : Char} (hc : c ∉ str "()[\\") : Balanced [c]
  | escape (c : Char) : Balanced ['\\', c]
  | set {rest set : Str} (h : readSet rest = .ok (set, [])) : Balanced ('[' :: rest)
  | group {s : Str} : Balanced s → Balanced ('(' :: (s ++ str ")"))
  | append {s t : Str} : Balanced s → Balanced t → Balanced (s ++ t)

/-- The ends without a text that count as thrown. The argument says whether the exception of a
string that outgrows its bound does. -/
def Refused (outgrows : Prop) : ReverseStop → Prop
  | .thrown _ => True
  | .number _ => True
  | .outgrown => outgrows
  | .pastEnd => False
  | .fuel => False

/-- The function comes back with a balanced text, or throws. -/
def ReversedTotal (outgrows : Prop) (pattern : Str) : Prop :=
  match regexToReversedPartialRegex pattern with
  | .ok s => Balanced s
  | .error e => Refused outgrows e

/-- The alternatives of a group, of which `size` counts the elements of the last, can be
written. -/
def Fits (sizes : List Nat) (size : Nat) : Prop := ∀ n ∈ sizes ++ [size], 3 * groupTurns n ≤ maxSize

/-- An alternative can be written if it has an element, unless it has too many. -/
theorem groupTurns_fits_iff (n : Nat) :
    3 * groupTurns n ≤ maxSize ↔ 0 < n ∧ 3 * (n - 1) ≤ maxSize := by
  rw [groupTurns]
  split
  next h =>
    subst h
    exact iff_of_false (by decide) (by simp)
  next h => simp [Nat.pos_of_ne_zero h]

/-- The number of elements that a repetition leaves. -/
def copies (range : Int × Option Int) : Nat :=
  range.1.toNat +
    match range.2 with
    | some max => (max - range.1).toNat
    | none => 1

/-- The text that is left of a pattern is read or refused. `stack` has the sizes of the
alternatives around it, `sizes` those of the finished alternatives of its group and `size` the
number of elements in front of it. -/
inductive Handled (outgrows : Prop) :
    List (List Nat × Nat) → List Nat → Nat → Str → Prop where
  | outgrown {stack : List (List Nat × Nat)} {sizes : List Nat} {size : Nat} {rest : Str}
      (h : outgrows) (hfits : ¬ Fits sizes size) (hend : ∀ c ∈ rest.head?, c = ')') :
      Handled outgrows stack sizes size rest
  | done {sizes : List Nat} {size : Nat} (hfits : Fits sizes size) :
      Handled outgrows [] sizes size []
  | unopened {sizes : List Nat} {size : Nat} (hfits : Fits sizes size) (rest : Str) :
      Handled outgrows [] sizes size (')' :: rest)
  | close {stack : List (List Nat × Nat)} {sizes sizes' : List Nat} {size size' : Nat} {rest : Str}
      (hfits : Fits sizes size) :
      Handled outgrows stack sizes' (size' + 1) rest →
        Handled outgrows ((sizes', size') :: stack) sizes size (')' :: rest)
  | group {stack : List (List Nat × Nat)} {sizes : List Nat} {size : Nat} {rest : Str} :
      Handled outgrows ((sizes, size) :: stack) [] 0 (dropMark rest) →
        Handled outgrows stack sizes size ('(' :: rest)
  | bar {stack : List (List Nat × Nat)} {sizes : List Nat} {size : Nat} {rest : Str} :
      Handled outgrows stack (sizes ++ [size]) 0 rest →
        Handled outgrows stack sizes size ('|' :: rest)
  | set {stack : List (List Nat × Nat)} {sizes : List Nat} {size : Nat} {rest set rest' : Str}
      (h : readSet rest = .ok (set, rest')) :
      Handled outgrows stack sizes (size + 1) rest' →
        Handled outgrows stack sizes size ('[' :: rest)
  | openSet {stack : List (List Nat × Nat)} {sizes : List Nat} {size : Nat} {rest : Str}
      (h : ∀ r, readSet rest ≠ .ok r) (hend : readSet rest ≠ .error .pastEnd) :
      Handled outgrows stack sizes size ('[' :: rest)
  | first {stack : List (List Nat × Nat)} {sizes : List Nat} {c : Char} (hc : c ∈ str "*?+\x7b")
      (rest : Str) : Handled outgrows stack sizes 0 (c :: rest)
  | star {stack : List (List Nat × Nat)} {sizes : List Nat} {size : Nat} {rest : Str}
      (h : rest ≠ []) :
      Handled outgrows stack sizes (size + 1) (dropLazy rest) →
        Handled outgrows stack sizes (size + 1) ('*' :: rest)
  | quantifier {stack : List (List Nat × Nat)} {sizes : List Nat} {size : Nat} {c : Char}
      {rest : Str} (hc : c ∈ str "?+") :
      Handled outgrows stack sizes (size + 1) rest →
        Handled outgrows stack sizes (size + 1) (c :: rest)
  | count {stack : List (List Nat × Nat)} {sizes : List Nat} {size : Nat} {text rest : Str}
      {range : Int × Option Int} (htext : '}' ∉ text) (h : readRange text = .ok range) :
      Handled outgrows stack sizes (size + copies range) rest →
        Handled outgrows stack sizes (size + 1) ('{' :: (text ++ '}' :: rest))
  | badCount {stack : List (List Nat × Nat)} {sizes : List Nat} {size : Nat} {text : Str}
      {e : ReverseStop} (htext : '}' ∉ text) (h : readRange text = .error e) (rest : Str) :
      Handled outgrows stack sizes (size + 1) ('{' :: (text ++ '}' :: rest))
  | openCount {stack : List (List Nat × Nat)} {sizes : List Nat} {size : Nat} {rest : Str}
      (h : '}' ∉ rest) : Handled outgrows stack sizes (size + 1) ('{' :: rest)
  | escape {stack : List (List Nat × Nat)} {sizes : List Nat} {size : Nat} {c : Char} {rest : Str} :
      Handled outgrows stack sizes (size + 1) rest →
        Handled outgrows stack sizes size ('\\' :: c :: rest)
  | backslash {stack : List (List Nat × Nat)} {sizes : List Nat} {size : Nat} :
      Handled outgrows stack sizes size [] → Handled outgrows stack sizes size ['\\']
  | literal {stack : List (List Nat × Nat)} {sizes : List Nat} {size : Nat} {c : Char} {rest : Str}
      (hc : c ∉ str "[*?+\x7b()|\\") :
      Handled outgrows stack sizes (size + 1) rest → Handled outgrows stack sizes size (c :: rest)

/-! ## One turn -/

section

variable {outgrows : Prop} {stack : List (List Nat × Nat)} {alternatives : List (List Str)}
  {sequence : List Str} {c : Char} {rest : Str}

/-- What has to hold after a turn. -/
def Turn.Handled (outgrows : Prop) (stack : List (List Nat × Nat))
    (alternatives : List (List Str)) (sequence : List Str) : Turn → Prop
  | .next alternatives sequence rest =>
    Regex.Handled outgrows stack (alternatives.map List.length) sequence.length rest
  | .group rest =>
    Regex.Handled outgrows ((alternatives.map List.length, sequence.length) :: stack) [] 0 rest
  | .close => True
  | .stop e => Refused outgrows e

private theorem length_repeatPart (part : Str) (range : Int × Option Int) :
    (repeatPart part range).length = copies range := by
  obtain ⟨min, max⟩ := range
  cases max <;> simp [repeatPart, copies]

variable {s text rest' : Str} {e : ReverseStop} {t : Turn} {n : Nat}

private theorem parseOptInt_refused {default : Option Int} (h : parseOptInt s default = .error e) :
    Refused outgrows e := by
  unfold parseOptInt at h
  split at h
  · cases h
  · split at h
    · cases h
    · cases h
      trivial

private theorem checkRange_refused {min max : Option Int} (h : checkRange min max = .error e) :
    Refused outgrows e := by
  unfold checkRange at h
  split at h
  · split at h
    · cases h
      trivial
    · cases h
  · cases h

private theorem readRange_refused (h : readRange text = .error e) : Refused outgrows e := by
  unfold readRange at h
  split at h
  next a _ =>
    cases hmin : parseOptInt a (some 0) with
    | error e' =>
      rw [hmin] at h
      cases h
      exact parseOptInt_refused hmin
    | ok min =>
      rw [hmin] at h
      exact checkRange_refused h
  next a b _ =>
    cases hmin : parseOptInt a (some 0) with
    | error e' =>
      rw [hmin] at h
      cases h
      exact parseOptInt_refused hmin
    | ok min =>
      rw [hmin] at h
      cases hmax : parseOptInt b none with
      | error e' =>
        simp only [hmax] at h
        cases h
        exact parseOptInt_refused hmax
      | ok max =>
        simp only [hmax] at h
        exact checkRange_refused h
  next =>
    cases h
    trivial

private theorem readSet_error (h : readSet rest = .error e) :
    e = .pastEnd ∨ ∃ message, e = .thrown message := by
  fun_induction readSet rest with
  | case1 =>
    cases h
    exact .inr ⟨_, rfl⟩
  | case2 => cases h
  | case3 =>
    cases h
    exact .inl rfl
  | case4 d rest hc ih =>
    cases hr : readSet rest with
    | error e' =>
      rw [hr] at h
      cases h
      exact ih hr
    | ok r =>
      rw [hr] at h
      cases h
  | case5 c rest hc hb ih =>
    cases hr : readSet rest with
    | error e' =>
      rw [hr] at h
      cases h
      exact ih hr
    | ok r =>
      rw [hr] at h
      cases h

private theorem brace_all (h : '}' ∉ text) : ∀ c ∈ text, decide (c ≠ '}') = true := by
  intro c hc
  rw [decide_eq_true_eq]
  rintro rfl
  exact h hc

/-- The text in curly brackets is what stands in front of the first closing one. -/
theorem takeWhile_brace {behind : Str} (h : '}' ∉ text) :
    (text ++ '}' :: behind).takeWhile (· ≠ '}') = text ∧
      (text ++ '}' :: behind).dropWhile (· ≠ '}') = '}' :: behind := by
  constructor
  · rw [takeWhile_append_of_pos (brace_all h)]
    simp
  · rw [dropWhile_append_of_pos (brace_all h)]
    simp

/-- What a turn can do. -/
inductive Turns (alternatives : List (List Str)) (sequence : List Str) :
    Char → Str → Turn → Prop where
  | set {set rest rest' : Str} (h : readSet rest = .ok (set, rest')) :
      Turns alternatives sequence '[' rest (.next alternatives (sequence ++ ['[' :: set]) rest')
  | openSet {rest : Str} {e : ReverseStop} (h : readSet rest = .error e) :
      Turns alternatives sequence '[' rest (.stop e)
  | first {c : Char} {rest : Str} (hc : c ∈ str "*?+\x7b") (h : sequence = []) :
      Turns alternatives sequence c rest (.stop (.thrown (if c = '{' then
        "Repetition without preceding element" else "Quantifier without preceding element")))
  | star {front : List Str} {last rest : Str} (h : sequence = front ++ [last])
      (hrest : rest ≠ []) : Turns alternatives sequence '*' rest
        (.next alternatives (front ++ [last ++ ['*']]) (dropLazy rest))
  | starEnd {front : List Str} {last : Str} (h : sequence = front ++ [last]) :
      Turns alternatives sequence '*' [] (.stop .pastEnd)
  | quantifier {front : List Str} {last rest : Str} {c : Char} (hc : c = '?' ∨ c = '+')
      (h : sequence = front ++ [last]) : Turns alternatives sequence c rest
        (.next alternatives (front ++ [last ++ [c]]) rest)
  | count {front : List Str} {last text rest : Str} {range : Int × Option Int}
      (h : sequence = front ++ [last]) (htext : '}' ∉ text) (hrange : readRange text = .ok range) :
      Turns alternatives sequence '{' (text ++ '}' :: rest)
        (.next alternatives (front ++ repeatPart last range) rest)
  | badCount {front : List Str} {last text rest : Str} {e : ReverseStop}
      (h : sequence = front ++ [last]) (htext : '}' ∉ text) (he : readRange text = .error e) :
      Turns alternatives sequence '{' (text ++ '}' :: rest) (.stop e)
  | openCount {front : List Str} {last rest : Str} (h : sequence = front ++ [last])
      (hrest : '}' ∉ rest) :
      Turns alternatives sequence '{' rest (.stop (.thrown "Unmatched '\x7b' in pattern"))
  | group (rest : Str) : Turns alternatives sequence '(' rest (.group (dropMark rest))
  | close (rest : Str) : Turns alternatives sequence ')' rest .close
  | bar (rest : Str) :
      Turns alternatives sequence '|' rest (.next (alternatives ++ [sequence]) [] rest)
  | escape (d : Char) (rest : Str) : Turns alternatives sequence '\\' (d :: rest)
      (.next alternatives (sequence ++ [['\\', d]]) rest)
  | backslash : Turns alternatives sequence '\\' [] (.next alternatives sequence [])
  | literal {c : Char} (hc : c ∉ str "[*?+\x7b()|\\") (rest : Str) :
      Turns alternatives sequence c rest (.next alternatives (sequence ++ [[c]]) rest)

private theorem countTurn_turns :
    Turns alternatives sequence '{' rest (countTurn alternatives sequence rest) := by
  unfold countTurn
  cases hlast : sequence.getLast? with
  | none => exact .first (by decide) (getLast?_eq_none_iff.mp hlast)
  | some last =>
    obtain ⟨front, rfl⟩ := getLast?_eq_some_iff.mp hlast
    dsimp only
    by_cases hclosed : '}' ∈ rest
    · obtain ⟨text, behind, rfl, htext⟩ := eq_append_cons_of_mem hclosed
      rw [(takeWhile_brace htext).1, (takeWhile_brace htext).2, dropLast_concat]
      dsimp only
      cases hrange : readRange text with
      | error e => exact .badCount rfl htext hrange
      | ok range => exact .count rfl htext hrange
    · rw [dropWhile_eq_nil_iff.mpr (brace_all hclosed)]
      exact .openCount rfl hclosed

private theorem quantifierTurn_turns (hc : c = '*' ∨ c = '?' ∨ c = '+') :
    Turns alternatives sequence c rest (quantifierTurn alternatives sequence c rest) := by
  unfold quantifierTurn
  cases hlast : sequence.getLast? with
  | none =>
    have hnil : sequence = [] := getLast?_eq_none_iff.mp hlast
    rcases hc with rfl | rfl | rfl <;> exact .first (by decide) hnil
  | some last =>
    obtain ⟨front, rfl⟩ := getLast?_eq_some_iff.mp hlast
    rw [dropLast_concat]
    dsimp only
    split
    next hstar =>
      subst hstar
      split
      next hnil =>
        subst hnil
        exact .starEnd rfl
      next hne => exact .star rfl hne
    next hstar => exact .quantifier (hc.resolve_left hstar) rfl

private theorem turn_turns :
    Turns alternatives sequence c rest (turn alternatives sequence c rest) := by
  unfold turn
  split
  next hset =>
    subst hset
    cases hread : readSet rest with
    | error e => exact .openSet hread
    | ok r => exact .set hread
  split
  next _ hquant => exact quantifierTurn_turns hquant
  split
  next hcount =>
    subst hcount
    exact countTurn_turns
  split
  next hgroup =>
    subst hgroup
    exact .group rest
  split
  next hclose =>
    subst hclose
    exact .close rest
  split
  next hbar =>
    subst hbar
    exact .bar rest
  split
  next hescape =>
    subst hescape
    cases rest with
    | nil => exact .backslash
    | cons d rest => exact .escape d rest
  next hset hquant hcount hgroup hclose hbar hescape =>
    refine .literal ?_ rest
    simp only [not_or] at hquant
    simp [str, hset, hquant, hcount, hgroup, hclose, hbar, hescape]

/-- The rules determine the turn. -/
theorem Turns.eq (h : Turns alternatives sequence c rest t) :
    turn alternatives sequence c rest = t := by
  have hcount : ∀ (sequence : List Str) (rest : Str),
      turn alternatives sequence '{' rest = countTurn alternatives sequence rest := fun _ _ => rfl
  cases h with
  | set hread => simp [turn, hread]
  | openSet hread => simp [turn, hread]
  | first hc hnil =>
    subst hnil
    have hc' : c = '*' ∨ c = '?' ∨ c = '+' ∨ c = '{' := by simpa [str] using hc
    rcases hc' with rfl | rfl | rfl | rfl <;> rfl
  | star hlast hrest =>
    subst hlast
    simp [turn, quantifierTurn, hrest]
  | starEnd hlast =>
    subst hlast
    simp [turn, quantifierTurn]
  | quantifier hc hlast =>
    subst hlast
    rcases hc with rfl | rfl <;> simp [turn, quantifierTurn]
  | count hlast htext hrange =>
    rw [hlast, hcount, countTurn, getLast?_concat, dropLast_concat]
    dsimp only
    rw [(takeWhile_brace htext).1, (takeWhile_brace htext).2, hrange]
  | badCount hlast htext he =>
    rw [hlast, hcount, countTurn, getLast?_concat, dropLast_concat]
    dsimp only
    rw [(takeWhile_brace htext).1, (takeWhile_brace htext).2, he]
  | openCount hlast hrest =>
    rw [hlast, hcount, countTurn, getLast?_concat]
    dsimp only
    rw [dropWhile_eq_nil_iff.mpr (brace_all hrest)]
  | literal hc =>
    have hne : ∀ d ∈ str "[*?+\x7b()|\\", c ≠ d := fun d hd heq => hc (heq ▸ hd)
    have hquant : ¬ (c = '*' ∨ c = '?' ∨ c = '+') := by
      rintro (h | h | h) <;> exact hne _ (by decide) h
    unfold turn
    rw [if_neg (hne '[' (by decide)), if_neg hquant, if_neg (hne '\x7b' (by decide)),
      if_neg (hne '(' (by decide)), if_neg (hne ')' (by decide)), if_neg (hne '|' (by decide)),
      if_neg (hne '\\' (by decide))]
  | _ => rfl

/-- What has to hold before a turn holds if it does after it. -/
theorem Turns.handled (hturn : Turns alternatives sequence c rest t) (hc : c ≠ ')')
    (h : t.Handled outgrows stack alternatives sequence) :
    Handled outgrows stack (alternatives.map List.length) sequence.length (c :: rest) := by
  have hlength : ∀ part : Str, (sequence ++ [part]).length = sequence.length + 1 := by simp
  cases hturn with
  | set hread =>
    rw [Turn.Handled, hlength] at h
    exact .set hread h
  | openSet hread =>
    refine .openSet (fun r hr => ?_) fun hend => ?_
    · rw [hread] at hr
      cases hr
    · rw [hread] at hend
      cases hend
      exact h
  | first hc hnil =>
    subst hnil
    exact .first hc _
  | star hlast hrest =>
    subst hlast
    rw [Turn.Handled, length_append] at h
    rw [length_append]
    exact .star hrest h
  | starEnd => exact h.elim
  | quantifier hquant hlast =>
    subst hlast
    rw [Turn.Handled, length_append] at h
    rw [length_append]
    exact .quantifier (by rcases hquant with rfl | rfl <;> decide) h
  | count hlast htext hrange =>
    subst hlast
    rw [Turn.Handled, length_append, length_repeatPart] at h
    rw [length_append]
    exact .count htext hrange h
  | badCount hlast htext he =>
    subst hlast
    rw [length_append]
    exact .badCount htext he _
  | openCount hlast hrest =>
    subst hlast
    rw [length_append]
    exact .openCount hrest
  | group => exact .group h
  | close => exact absurd rfl hc
  | bar =>
    rw [Turn.Handled, map_append] at h
    exact .bar h
  | escape =>
    rw [Turn.Handled, hlength] at h
    exact .escape h
  | backslash => exact .backslash h
  | literal hc =>
    rw [Turn.Handled, hlength] at h
    exact .literal hc h

/-- A turn that does not end a group keeps what has to hold. -/
theorem turn_handled (hc : c ≠ ')') :
    (turn alternatives sequence c rest).Handled outgrows stack alternatives sequence ↔
      Handled outgrows stack (alternatives.map List.length) sequence.length (c :: rest) := by
  refine ⟨turn_turns.handled hc, fun h => ?_⟩
  have hlast : ∀ size, sequence.length = size + 1 → ∃ front last,
      sequence = front ++ [last] ∧ front.length = size := by
    intro size hsize
    obtain ⟨front, last, rfl⟩ :=
      eq_nil_or_concat' sequence |>.resolve_left (by rintro rfl; cases hsize)
    exact ⟨front, last, rfl, by simpa using hsize⟩
  generalize hsize : sequence.length = size at h
  cases h with
  | outgrown _ _ hend => exact absurd (hend _ rfl) hc
  | unopened => exact absurd rfl hc
  | close => exact absurd rfl hc
  | group h => simpa [(Turns.group rest).eq, Turn.Handled, hsize] using h
  | bar h => simpa [(Turns.bar rest).eq, Turn.Handled, hsize] using h
  | set hread h => simpa [(Turns.set hread).eq, Turn.Handled, hsize] using h
  | openSet h hend =>
    cases hread : readSet rest with
    | error e =>
      rw [(Turns.openSet hread).eq]
      obtain rfl | ⟨message, rfl⟩ := readSet_error hread
      · exact absurd hread hend
      · trivial
    | ok r => exact absurd hread (h r)
  | first hc =>
    rw [(Turns.first hc (length_eq_zero_iff.mp hsize)).eq]
    trivial
  | star hrest h =>
    obtain ⟨front, last, rfl, rfl⟩ := hlast _ hsize
    simpa [(Turns.star rfl hrest).eq, Turn.Handled] using h
  | quantifier hc h =>
    obtain ⟨front, last, rfl, rfl⟩ := hlast _ hsize
    have hc' : c = '?' ∨ c = '+' := by simpa [str] using hc
    simpa [(Turns.quantifier hc' rfl).eq, Turn.Handled] using h
  | count htext hrange h =>
    obtain ⟨front, last, rfl, rfl⟩ := hlast _ hsize
    simpa [(Turns.count rfl htext hrange).eq, Turn.Handled, length_repeatPart] using h
  | badCount htext he =>
    obtain ⟨front, last, rfl, rfl⟩ := hlast _ hsize
    simpa [(Turns.badCount rfl htext he).eq, Turn.Handled] using readRange_refused he
  | openCount hrest =>
    obtain ⟨front, last, rfl, rfl⟩ := hlast _ hsize
    rw [(Turns.openCount rfl hrest).eq]
    trivial
  | escape h => simpa [(Turns.escape _ _).eq, Turn.Handled, hsize] using h
  | backslash h => simpa [Turns.backslash.eq, Turn.Handled, hsize] using h
  | literal hc' h => simpa [(Turns.literal hc' rest).eq, Turn.Handled, hsize] using h

/-! ## A whole run -/

theorem mapM_alternativeText (h : ∀ parts ∈ alternatives, 3 * groupTurns parts.length ≤ maxSize) :
    alternatives.mapM alternativeText = .ok (alternatives.map partsText) := by
  induction alternatives with
  | nil => rfl
  | cons parts alternatives ih =>
    rw [forall_mem_cons] at h
    rw [mapM_cons, alternativeText, if_pos h.1, ih h.2]
    rfl

theorem mapM_alternativeText_outgrown
    (h : ¬ ∀ parts ∈ alternatives, 3 * groupTurns parts.length ≤ maxSize) :
    alternatives.mapM alternativeText = .error .outgrown := by
  induction alternatives with
  | nil => exact absurd (by simp) h
  | cons parts alternatives ih =>
    rw [forall_mem_cons, not_and_or] at h
    rw [mapM_cons, alternativeText]
    by_cases hparts : 3 * groupTurns parts.length ≤ maxSize
    · rw [if_pos hparts, ih (h.resolve_left (not_not_intro hparts))]
      rfl
    · rw [if_neg hparts]
      rfl

theorem fits_iff :
    Fits (alternatives.map List.length) sequence.length ↔
      ∀ parts ∈ alternatives ++ [sequence], 3 * groupTurns parts.length ≤ maxSize := by
  simp only [Fits, forall_mem_append, forall_mem_map, forall_mem_singleton]

private theorem alternativesText_of_fits (h : Fits (alternatives.map List.length) sequence.length) :
    alternativesText (alternatives ++ [sequence]) =
      .ok (stringJoin ((alternatives ++ [sequence]).map partsText) (str "|")) := by
  rw [alternativesText, mapM_alternativeText (fits_iff.mp h)]
  rfl

private theorem alternativesText_of_not_fits
    (h : ¬ Fits (alternatives.map List.length) sequence.length) :
    alternativesText (alternatives ++ [sequence]) = .error .outgrown := by
  rw [alternativesText, mapM_alternativeText_outgrown (mt fits_iff.mpr h)]
  rfl

/-- How a run may end in the groups of `stack`. -/
def Outcome (outgrows : Prop) (stack : List (List Nat × Nat)) :
    Except ReverseStop (Str × Str) → Prop
  | .ok (_, rest) =>
    match stack with
    | [] => True
    | (sizes, size) :: stack =>
      ∃ rest', rest = ')' :: rest' ∧ Handled outgrows stack sizes (size + 1) rest'
  | .error e => Refused outgrows e

/-- At the end of a group its alternatives are written. -/
theorem outcome_end (hend : ∀ c ∈ rest.head?, c = ')') :
    Outcome outgrows stack
        ((alternativesText (alternatives ++ [sequence])).map fun s => (s, rest)) ↔
      Handled outgrows stack (alternatives.map List.length) sequence.length rest := by
  by_cases hfits : Fits (alternatives.map List.length) sequence.length
  · rw [alternativesText_of_fits hfits]
    generalize sequence.length = size at hfits ⊢
    cases rest with
    | nil =>
      cases stack with
      | nil => exact iff_of_true trivial (.done hfits)
      | cons frame stack =>
        refine iff_of_false (by rintro ⟨rest', h, -⟩; cases h) fun h => ?_
        cases h with
        | outgrown _ hnot => exact hnot hfits
    | cons c behind =>
      obtain rfl := hend c rfl
      cases stack with
      | nil => exact iff_of_true trivial (.unopened hfits _)
      | cons frame stack =>
        obtain ⟨sizes', size'⟩ := frame
        constructor
        · rintro ⟨rest', h, hrest⟩
          cases h
          exact .close hfits hrest
        · intro h
          cases h with
          | outgrown _ hnot => exact absurd hfits hnot
          | close _ h => exact ⟨_, rfl, h⟩
          | first hc => exact absurd hc (by decide)
          | quantifier hc => exact absurd hc (by decide)
          | literal hc => exact absurd (by decide) hc
  · rw [alternativesText_of_not_fits hfits]
    generalize sequence.length = size at hfits ⊢
    refine ⟨fun h => .outgrown h hfits hend, fun h => ?_⟩
    cases h with
    | outgrown h => exact h
    | done h => exact absurd h hfits
    | unopened h => exact absurd h hfits
    | close h => exact absurd h hfits
    | group => exact absurd (hend _ rfl) (by decide)
    | bar => exact absurd (hend _ rfl) (by decide)
    | set => exact absurd (hend _ rfl) (by decide)
    | openSet => exact absurd (hend _ rfl) (by decide)
    | star => exact absurd (hend _ rfl) (by decide)
    | count => exact absurd (hend _ rfl) (by decide)
    | badCount => exact absurd (hend _ rfl) (by decide)
    | openCount => exact absurd (hend _ rfl) (by decide)
    | escape => exact absurd (hend _ rfl) (by decide)
    | backslash => exact absurd (hend _ rfl) (by decide)
    | first hc =>
      obtain rfl := hend _ rfl
      exact absurd hc (by decide)
    | quantifier hc =>
      obtain rfl := hend _ rfl
      exact absurd hc (by decide)
    | literal hc =>
      obtain rfl := hend _ rfl
      exact absurd (by decide) hc

/-- The text that a turn leaves. -/
def Turn.left : Turn → Str
  | .next _ _ rest => rest
  | .group rest => rest
  | .close => []
  | .stop _ => []

/-- A set is read the same whatever follows. -/
theorem readSet_self {set : Str} (h : readSet rest = .ok (set, rest')) :
    rest = set ++ rest' ∧ ∀ behind, readSet (set ++ behind) = .ok (set, behind) := by
  fun_induction readSet rest generalizing set with
  | case1 => cases h
  | case2 =>
    cases h
    refine ⟨rfl, fun behind => ?_⟩
    rw [cons_append, readSet.eq_def]
    rfl
  | case3 => cases h
  | case4 d rest hc ih =>
    cases hr : readSet rest with
    | error e => rw [hr] at h; cases h
    | ok r =>
      obtain ⟨set', rest₁⟩ := r
      rw [hr] at h
      cases h
      obtain ⟨hrest, hset⟩ := ih hr
      refine ⟨by rw [hrest]; rfl, fun behind => ?_⟩
      rw [cons_append, cons_append, readSet.eq_def]
      dsimp only
      rw [if_neg hc, if_pos rfl, hset]
      rfl
  | case5 c rest hc hb ih =>
    cases hr : readSet rest with
    | error e => rw [hr] at h; cases h
    | ok r =>
      obtain ⟨set', rest₁⟩ := r
      rw [hr] at h
      cases h
      obtain ⟨hrest, hset⟩ := ih hr
      refine ⟨by rw [hrest]; rfl, fun behind => ?_⟩
      rw [cons_append, readSet.eq_def]
      dsimp only
      rw [if_neg hc, if_neg hb, hset]
      rfl

private theorem dropMark_length : (dropMark rest).length ≤ rest.length := by
  unfold dropMark
  split <;> simp

private theorem dropLazy_length : (dropLazy rest).length ≤ rest.length := by
  unfold dropLazy
  split <;> simp

/-- A turn leaves no more than it gets. -/
theorem turn_length : (turn alternatives sequence c rest).left.length ≤ rest.length := by
  have hturn : Turns alternatives sequence c rest _ := turn_turns
  generalize turn alternatives sequence c rest = t at hturn ⊢
  cases hturn with
  | set hread => simp [Turn.left, (readSet_self hread).1]
  | star => exact dropLazy_length
  | count => simp [Turn.left]; omega
  | group => exact dropMark_length
  | _ => simp [Turn.left]

/-- Only `)` closes. -/
theorem turn_close_iff : turn alternatives sequence c rest = .close ↔ c = ')' := by
  constructor
  · intro h
    have hturn : Turns alternatives sequence c rest _ := turn_turns
    rw [h] at hturn
    cases hturn
    rfl
  · rintro rfl
    rfl

private theorem map_pair_ok {x : Except ReverseStop Str}
    (h : (x.map fun s => (s, rest)) = .ok (s, rest')) :
    x = .ok s ∧ rest' = rest := by
  cases x with
  | error e => cases h
  | ok s' =>
    cases h
    exact ⟨rfl, rfl⟩

/-- Induction on a run that returns: it ends with its alternatives, at the end of the text or at the
bracket that closes its group, goes on, or goes on behind a group. -/
theorem processFrom_induction {motive : List (List Str) → List Str → Str → Str → Str → Prop}
    (stop : ∀ {alternatives sequence rest s},
    alternativesText (alternatives ++ [sequence]) = .ok s →
      (∀ c ∈ rest.head?, c = ')') → motive alternatives sequence rest s rest)
    (next : ∀ {alternatives sequence c behind alternatives' sequence' rest s rest'},
      turn alternatives sequence c behind = .next alternatives' sequence' rest →
      motive alternatives' sequence' rest s rest' →
        motive alternatives sequence (c :: behind) s rest')
    (group : ∀ {alternatives sequence c behind inner sub rest s rest'},
      turn alternatives sequence c behind = .group inner → motive [] [] inner sub (')' :: rest) →
      motive alternatives (sequence ++ [groupPart sub]) rest s rest' →
      motive alternatives sequence (c :: behind) s rest')
    (h : processFrom n alternatives sequence rest = .ok (s, rest')) :
    motive alternatives sequence rest s rest' := by
  induction n generalizing alternatives sequence rest s rest' with
  | zero => cases h
  | succ n ih =>
    cases rest with
    | nil =>
      rw [processFrom] at h
      obtain ⟨htext, rfl⟩ := map_pair_ok h
      exact stop htext (by simp)
    | cons c behind =>
      rw [processFrom] at h
      cases hturn : turn alternatives sequence c behind with
      | stop e =>
        rw [hturn] at h
        cases h
      | close =>
        rw [hturn] at h
        obtain ⟨htext, rfl⟩ := map_pair_ok h
        exact stop htext (by simp [turn_close_iff.mp hturn])
      | next alternatives' sequence' rest₁ =>
        rw [hturn] at h
        exact next hturn (ih h)
      | group inner =>
        rw [hturn] at h
        dsimp only at h
        cases hsub : processFrom n [] [] inner with
        | error e => rw [hsub] at h; cases h
        | ok r =>
          obtain ⟨sub, rest₁⟩ := r
          rw [hsub] at h
          cases rest₁ with
          | nil => cases h
          | cons d rest₁ =>
            dsimp only at h
            split at h
            · rename_i hd
              exact group hturn (hd ▸ ih hsub) (ih h)
            · cases h

/-- A run leaves nothing or the bracket that closes its group. -/
theorem processFrom_length (h : processFrom n alternatives sequence rest = .ok (s, rest')) :
    rest'.length ≤ rest.length ∧ ∀ c ∈ rest'.head?, c = ')' := by
  refine processFrom_induction (motive := fun _ _ rest _ rest' =>
    rest'.length ≤ rest.length ∧ ∀ c ∈ rest'.head?, c = ')')
    (fun _ hhead => ⟨Nat.le_refl _, hhead⟩) ?_ ?_ h
  · intro alternatives sequence c behind _ _ _ _ _ hturn ih
    have hlen : (turn alternatives sequence c behind).left.length ≤ behind.length := turn_length
    rw [hturn] at hlen
    exact ⟨ih.1.trans (hlen.trans (Nat.le_succ _)), ih.2⟩
  · intro alternatives sequence c behind inner _ rest _ _ hturn hinner ih
    have hlen : (turn alternatives sequence c behind).left.length ≤ behind.length := turn_length
    have hle := hinner.1
    rw [hturn, Turn.left] at hlen
    rw [length_cons] at hle ⊢
    exact ⟨by omega, ih.2⟩

private theorem alternativesText_ne_fuel :
    ((alternativesText (alternatives ++ [sequence])).map fun s => (s, rest)) ≠ .error .fuel := by
  by_cases hfits : Fits (alternatives.map List.length) sequence.length
  · rw [alternativesText_of_fits hfits]
    exact fun h => by cases h
  · rw [alternativesText_of_not_fits hfits]
    exact fun h => by cases h

/-- A turn stops behind the end or with an exception. -/
theorem turn_stop (h : turn alternatives sequence c rest = .stop e) :
    e = .pastEnd ∨ Refused False e := by
  have hturn : Turns alternatives sequence c rest _ := turn_turns
  rw [h] at hturn
  cases hturn with
  | openSet hread => exact (readSet_error hread).imp_right fun ⟨_, he⟩ => he ▸ trivial
  | first => exact .inr trivial
  | starEnd => exact .inl rfl
  | badCount _ _ he => exact .inr (readRange_refused he)
  | openCount => exact .inr trivial

/-- One turn for each character is enough. -/
theorem processFrom_ne_fuel (hn : rest.length < n) :
    processFrom n alternatives sequence rest ≠ .error .fuel := by
  induction n generalizing alternatives sequence rest with
  | zero => omega
  | succ n ih =>
    cases rest with
    | nil =>
      rw [processFrom]
      exact alternativesText_ne_fuel
    | cons c behind =>
      rw [processFrom]
      have hlen : (turn alternatives sequence c behind).left.length ≤ behind.length := turn_length
      rw [length_cons] at hn
      cases hturn : turn alternatives sequence c behind with
      | stop e =>
        intro h
        cases h
        obtain h | h := turn_stop hturn
        · cases h
        · exact h
      | close => exact alternativesText_ne_fuel
      | next alternatives' sequence' rest' =>
        rw [hturn] at hlen
        exact ih (Nat.lt_of_le_of_lt hlen (by omega))
      | group inner =>
        rw [hturn] at hlen
        have hinner : inner.length < n := Nat.lt_of_le_of_lt hlen (by omega)
        dsimp only
        cases hsub : processFrom n [] [] inner with
        | error e =>
          intro h
          cases h
          exact ih hinner hsub
        | ok r =>
          obtain ⟨sub, rest'⟩ := r
          have hle := (processFrom_length hsub).1
          cases rest' with
          | nil => exact fun h => by cases h
          | cons d rest' =>
            rw [length_cons] at hle
            dsimp only
            split
            · exact ih (by omega)
            · exact fun h => by cases h

/-- A run ends as it may exactly when the text is handled. -/
theorem outcome_processFrom (hn : rest.length < n) :
    Outcome outgrows stack (processFrom n alternatives sequence rest) ↔
      Handled outgrows stack (alternatives.map List.length) sequence.length rest := by
  induction n generalizing stack alternatives sequence rest with
  | zero => omega
  | succ n ih =>
    cases rest with
    | nil =>
      rw [processFrom]
      exact outcome_end (by simp)
    | cons c behind =>
      rw [processFrom]
      by_cases hc : c = ')'
      · rw [turn_close_iff.mpr hc]
        exact outcome_end (by simp [hc])
      · rw [← turn_handled hc]
        have hlen : (turn alternatives sequence c behind).left.length ≤ behind.length := turn_length
        rw [length_cons] at hn
        cases hturn : turn alternatives sequence c behind with
        | stop e => exact Iff.rfl
        | close => exact absurd (turn_close_iff.mp hturn) hc
        | next alternatives' sequence' rest' =>
          rw [hturn] at hlen
          exact ih (Nat.lt_of_le_of_lt hlen (by omega))
        | group inner =>
          rw [hturn] at hlen
          have hinner : inner.length < n := Nat.lt_of_le_of_lt hlen (by omega)
          have hgroup : Outcome outgrows ((alternatives.map List.length, sequence.length) :: stack)
              (processFrom n [] [] inner) ↔ _ := ih hinner
          refine Iff.trans ?_ hgroup
          dsimp only
          cases hsub : processFrom n [] [] inner with
          | error e => exact Iff.rfl
          | ok r =>
            obtain ⟨sub, rest'⟩ := r
            obtain ⟨hle, hhead⟩ := processFrom_length hsub
            cases rest' with
            | nil => exact iff_of_false id (by rintro ⟨rest', h, -⟩; cases h)
            | cons d rest' =>
              obtain rfl := hhead d rfl
              rw [length_cons] at hle
              dsimp only
              rw [if_pos rfl, ih (by omega), length_append, length_singleton]
              refine ⟨fun h => ⟨rest', rfl, h⟩, ?_⟩
              rintro ⟨rest'', h, hrest⟩
              cases h
              exact hrest

end

/-! ## The text is balanced -/

theorem Balanced.suffix {s : Str} {c : Char} (h : Balanced s) (hc : c ∉ str "()[\\") :
    Balanced (s ++ [c]) :=
  h.append (.char hc)

variable {s : Str} {parts : List Str}

theorem Balanced.groupPart (h : Balanced s) : Balanced (groupPart s) := by
  have hmark : Balanced (str "?:" ++ s) :=
    (Balanced.append (.char (c := '?') (by decide)) (.char (c := ':') (by decide))).append h
  exact hmark.group

private theorem closeParts_append (parts : List Str) (part : Str) (h : parts ≠ []) :
    closeParts (parts ++ [part]) = closeParts parts ++ str ")?" ++ part := by
  induction parts with
  | nil => exact absurd rfl h
  | cons p parts ih =>
    cases parts with
    | nil => simp [closeParts]
    | cons q parts =>
      have htail := ih (by simp)
      simp only [cons_append, closeParts] at htail ⊢
      rw [htail]
      simp only [append_assoc]

/-- All parts but the first are an optional group. -/
theorem partsText_cons (part : Str) (h : parts ≠ []) :
    partsText (part :: parts) = groupPart (partsText parts) ++ str "?" ++ part := by
  have hpos : 0 < parts.length := length_pos_iff.mpr h
  have hturns : groupTurns (part :: parts).length = groupTurns parts.length + 1 := by
    rw [groupTurns, groupTurns, if_neg (by simp), if_neg (by omega), length_cons]
    omega
  rw [partsText, hturns, partsText, reverse_cons,
    closeParts_append _ _ (by simpa using h), stringRepeat, stringRepeat, replicate_succ,
    flatten_cons, groupPart]
  simp [str]

private theorem balanced_partsText (hne : parts ≠ []) (h : ∀ part ∈ parts, Balanced part) :
    Balanced (partsText parts) := by
  induction parts with
  | nil => exact absurd rfl hne
  | cons part parts ih =>
    rw [forall_mem_cons] at h
    cases parts with
    | nil => simpa [partsText, groupTurns, stringRepeat, closeParts] using h.1
    | cons q parts =>
      rw [partsText_cons part (by simp)]
      exact ((ih (by simp) h.2).groupPart.suffix (c := '?') (by decide)).append h.1

private theorem balanced_stringJoin {values : List Str} (h : ∀ s ∈ values, Balanced s) :
    Balanced (stringJoin values (str "|")) := by
  rw [stringJoin]
  induction values with
  | nil => exact .nil
  | cons s values ih =>
    rw [forall_mem_cons] at h
    cases values with
    | nil => simpa using h.1
    | cons t values =>
      rw [intercalate_cons_cons]
      exact (h.1.suffix (c := '|') (by decide)).append (ih h.2)

private theorem balanced_alternativesText {alternatives : List (List Str)}
    (h : ∀ parts ∈ alternatives, ∀ part ∈ parts, Balanced part)
    (hs : alternativesText alternatives = .ok s) : Balanced s := by
  by_cases hfits : ∀ parts ∈ alternatives, 3 * groupTurns parts.length ≤ maxSize
  · rw [alternativesText, mapM_alternativeText hfits] at hs
    cases hs
    apply balanced_stringJoin
    intro t ht
    obtain ⟨parts, hparts, rfl⟩ := mem_map.mp ht
    have hlen := ((groupTurns_fits_iff _).mp (hfits parts hparts)).1
    exact balanced_partsText (length_pos_iff.mp hlen) (h parts hparts)
  · rw [alternativesText, mapM_alternativeText_outgrown hfits] at hs
    cases hs

section

variable {alternatives : List (List Str)} {sequence : List Str} {c : Char} {rest : Str}

private theorem balanced_repeatPart {part : Str} (h : Balanced part) (range : Int × Option Int) :
    ∀ p ∈ repeatPart part range, Balanced p := by
  obtain ⟨min, max⟩ := range
  intro p hp
  have hall : p = part ∨ p = part ++ str "?" ∨ p = part ++ str "*" := by
    cases max with
    | none =>
      simp only [repeatPart, mem_append, mem_replicate, mem_singleton] at hp
      tauto
    | some max =>
      simp only [repeatPart, mem_append, mem_replicate] at hp
      tauto
  obtain rfl | rfl | rfl := hall
  · exact h
  · exact h.suffix (c := '?') (by decide)
  · exact h.suffix (c := '*') (by decide)

variable {rest' : Str}

section

variable (h : ∀ parts ∈ alternatives ++ [sequence], ∀ part ∈ parts, Balanced part)
include h

private theorem balanced_turn {alternatives' : List (List Str)} {sequence' : List Str}
    (hturn : turn alternatives sequence c rest = .next alternatives' sequence' rest') :
    ∀ parts ∈ alternatives' ++ [sequence'], ∀ part ∈ parts, Balanced part := by
  simp only [forall_mem_append, forall_mem_singleton] at h ⊢
  obtain ⟨halts, hseq⟩ := h
  have hsnoc : ∀ p, Balanced p → ∀ part ∈ sequence ++ [p], Balanced part := by
    intro p hp
    simpa only [forall_mem_append, forall_mem_singleton] using ⟨hseq, hp⟩
  have hlast : ∀ front last parts, sequence = front ++ [last] →
      (Balanced last → ∀ part ∈ parts, Balanced part) →
        ∀ part ∈ front ++ parts, Balanced part := by
    rintro front last parts rfl hparts
    rw [forall_mem_append, forall_mem_singleton] at hseq
    exact forall_mem_append.mpr ⟨hseq.1, hparts hseq.2⟩
  have hcases : Turns alternatives sequence c rest _ := turn_turns
  rw [hturn] at hcases
  cases hcases with
  | set hread =>
    have hself := (readSet_self hread).2 []
    rw [append_nil] at hself
    exact ⟨halts, hsnoc _ (.set hself)⟩
  | star hl =>
    refine ⟨halts, hlast _ _ _ hl fun hb => ?_⟩
    rw [forall_mem_singleton]
    exact hb.suffix (by decide)
  | quantifier hc hl =>
    refine ⟨halts, hlast _ _ _ hl fun hb => ?_⟩
    rw [forall_mem_singleton]
    exact hb.suffix (by rcases hc with rfl | rfl <;> decide)
  | count hl => exact ⟨halts, hlast _ _ _ hl fun hb => balanced_repeatPart hb _⟩
  | bar =>
    simpa only [forall_mem_append, forall_mem_singleton] using
      ⟨⟨halts, hseq⟩, fun part hpart => by cases hpart⟩
  | escape d => exact ⟨halts, hsnoc _ (.escape d)⟩
  | backslash => exact ⟨halts, hseq⟩
  | literal hc =>
    have hsub : str "()[\\" ⊆ str "[*?+\x7b()|\\" := by decide
    exact ⟨halts, hsnoc _ (.char fun h => hc (hsub h))⟩

/-- What `process` returns is balanced. -/
theorem balanced_processFrom {n : Nat}
    (hs : processFrom n alternatives sequence rest = .ok (s, rest')) : Balanced s := by
  refine processFrom_induction (motive := fun alternatives sequence _ s _ =>
    (∀ l ∈ alternatives ++ [sequence], ∀ p ∈ l, Balanced p) → Balanced s)
    (fun htext _ h => balanced_alternativesText h htext)
    (fun hturn ih h => ih (balanced_turn h hturn)) (fun _ hinner ih h => ih ?_) hs h
  have hpart := hinner (by simp)
  simp only [forall_mem_append, forall_mem_singleton] at h ⊢
  exact ⟨h.1, h.2, hpart.groupPart⟩

end

end

/-- The loops end for every pattern. The function comes back with a balanced text or throws
exactly for the patterns that are handled, whether or not a string that outgrows its bound
counts as a throw. -/
theorem reversedTotal_iff (outgrows : Prop) (pattern : Str) :
    regexToReversedPartialRegex pattern ≠ .error .fuel ∧
      (ReversedTotal outgrows pattern ↔ Handled outgrows [] [] 0 pattern) := by
  constructor
  · have hrun : processFrom (pattern.length + 1) [] [] pattern ≠ .error .fuel :=
      processFrom_ne_fuel (Nat.lt_succ_self _)
    rw [regexToReversedPartialRegex]
    split
    next e hs =>
      rintro ⟨⟩
      exact hrun hs
    next => exact fun h => by cases h
    next => exact fun h => by cases h
  have hrun : Outcome outgrows [] (processFrom (pattern.length + 1) [] [] pattern) ↔
      Handled outgrows [] [] 0 pattern := outcome_processFrom (Nat.lt_succ_self _)
  rw [← hrun, ReversedTotal, regexToReversedPartialRegex]
  cases hs : processFrom (pattern.length + 1) [] [] pattern with
  | error e => exact Iff.rfl
  | ok r =>
    obtain ⟨res, rest⟩ := r
    have hres : Balanced res := balanced_processFrom (by simp) hs
    cases rest with
    | nil => exact iff_of_true (Balanced.append (s := ['^']) (.char (by decide)) hres.group) trivial
    | cons => exact iff_of_true trivial trivial

/-- The star at the end of `a*`, the group that `(a` leaves open and the set in `[\` are looked
at behind the end; the empty pattern and the empty group in `()a` have no element. -/
theorem reversal_not_total :
    regexToReversedPartialRegex (str "a*") = .error .pastEnd ∧
      regexToReversedPartialRegex (str "(a") = .error .pastEnd ∧
      regexToReversedPartialRegex (str "[\\") = .error .pastEnd ∧
      regexToReversedPartialRegex (str "") = .error .outgrown ∧
      regexToReversedPartialRegex (str "()a") = .error .outgrown ∧
      ¬ ReversedTotal True (str "a*") := by
  refine ⟨by decide, by decide, by decide, by decide, by decide, ?_⟩
  have hstar : regexToReversedPartialRegex (str "a*") = .error .pastEnd := by decide
  rw [ReversedTotal, hstar]
  exact id

end Llama.Regex
