import Llama.Vocab.RegexSplitEq

/-!
# The splitters cut where their expressions match

The second splitter, whose digits are cut in one turn, and what both splitters give for the
segments of a text.
-/

namespace Llama.Vocab

open Backtrack List Option

section

variable {flags : Nat → CptFlags} {s : List Nat}

/-- The classes that the hand-written branches of the second splitter take for granted. -/
structure Llama3Ready (flags : Nat → CptFlags) : Prop where
  newline : ∀ c, isNewline c = true → isWhitespace flags c = true
  space : isUnclassed flags (cpt ' ') = false
  apostrophe : isNumber flags (cpt '\'') = false

variable {c count k n : Nat} {rest : List Nat} {tolower : Nat → Nat}

theorem not_letter_of_newline (h : Classified flags) (hready : Llama3Ready flags)
    (hc : isNewline c = true) : isLetter flags c = false ∧ isNumber flags c = false ∧
      isUnclassed flags c = false := by
  have hwhite := hready.newline c hc
  refine ⟨(h.whitespace c hwhite).1, (h.whitespace c hwhite).2, ?_⟩
  have hflag : (flags c).isWhitespace = true := hwhite
  simp [isUnclassed, CptFlags.unclassed, hflag]

/-- The end of the last line break of a run. -/
def lastNewline : List Nat → Nat
  | [] => 0
  | c :: run => if 0 < lastNewline run then lastNewline run + 1 else if isNewline c then 1 else 0

theorem countWhitespaces_run {run : List Nat} (num last : Nat)
    (hrun : ∀ c ∈ run, isWhitespace flags c = true) (hrest : Stops (isWhitespace flags) rest) :
    countWhitespaces flags num last (run ++ rest) =
      (num + run.length, if 0 < lastNewline run then num + lastNewline run else last) := by
  induction run generalizing num last with
  | nil =>
    cases rest with
    | nil => rfl
    | cons c rest =>
      have hc : (flags c).isWhitespace = false := hrest c rfl
      rw [nil_append, countWhitespaces, hc]
      rfl
  | cons c run ih =>
    rw [forall_mem_cons] at hrun
    have hc : (flags c).isWhitespace = true := hrun.1
    rw [cons_append, countWhitespaces, if_pos hc, ih _ _ hrun.2, lastNewline, length_cons]
    congr 1
    · omega
    · by_cases hlast : 0 < lastNewline run
      · rw [if_pos hlast, if_pos hlast, if_pos (Nat.succ_pos _)]
        omega
      · rw [if_neg hlast, if_neg hlast]
        split <;> simp

theorem lastNewline_le (run : List Nat) : lastNewline run ≤ run.length := by
  induction run with
  | nil => exact Nat.le_refl 0
  | cons c run ih =>
    rw [lastNewline, length_cons]
    split
    · omega
    · split <;> omega

/-- Backtracking from the end of a run finds its last line break. -/
theorem first_newlines_run (run : List Nat) (hready : Llama3Ready flags)
    (hrest : Stops (isWhitespace flags) rest) :
    (run.tails.reverse.map (· ++ rest)).findSome? (first (plus (sym isNewline))) =
      if 0 < lastNewline run then some ((run ++ rest).drop (lastNewline run)) else none := by
  have hstops : Stops isNewline rest := by
    intro c hc
    by_contra hnl
    have hwhite := hready.newline c (by simpa using hnl)
    rw [hrest c hc] at hwhite
    cases hwhite
  induction run with
  | nil =>
    have htails : (([] : List Nat).tails.reverse.map (· ++ rest)) = [rest] := rfl
    rw [htails, findSome?_cons, first, plus_of_stops hstops]
    rfl
  | cons c run ih =>
    rw [tails_cons, reverse_cons, map_append, findSome?_append, ih, map_singleton, lastNewline]
    by_cases hlast : 0 < lastNewline run
    · rw [if_pos hlast, if_pos hlast, if_pos (Nat.succ_pos _), some_or]
      rfl
    · rw [if_neg hlast, if_neg hlast, none_or, findSome?_cons, cons_append, first_plus]
      by_cases hc : isNewline c = true
      · have hdrop : (run ++ rest).dropWhile isNewline = run ++ rest := by
          cases run with
          | nil =>
            cases rest with
            | nil => rfl
            | cons d rest => exact dropWhile_cons_of_neg (by simp [hstops d rfl])
          | cons d run =>
            refine dropWhile_cons_of_neg fun hd => hlast ?_
            rw [lastNewline, if_pos hd]
            split <;> omega
        rw [if_pos hc, if_pos hc, hdrop]
        rfl
      · rw [if_neg hc, if_neg hc]
        rfl

theorem first_newlines (hready : Llama3Ready flags) (s : List Nat) :
    first (seq (star (sym (isWhitespace flags))) (plus (sym isNewline))) s =
      if 0 < (countWhitespaces flags 0 0 s).2 then
        some (s.drop (countWhitespaces flags 0 0 s).2) else none := by
  have hall : ∀ a ∈ s.takeWhile (isWhitespace flags), isWhitespace flags a = true :=
    fun a => mem_takeWhile_imp
  have hstops := stops_dropWhile (isWhitespace flags) s
  have hcount := countWhitespaces_run 0 0 hall hstops
  have hstar := star_run hall hstops
  have hnewlines := first_newlines_run (s.takeWhile (isWhitespace flags)) hready hstops
  rw [takeWhile_append_dropWhile] at hcount hstar hnewlines
  rw [first_seq, hstar, hnewlines, hcount]
  by_cases hlast : 0 < lastNewline (s.takeWhile (isWhitespace flags))
  · simp only [if_pos hlast, Nat.zero_add]
  · simp only [if_neg hlast, Nat.lt_irrefl, if_false]

theorem countWhitespaces_fst (s : List Nat) :
    (countWhitespaces flags 0 0 s).1 = (s.takeWhile (isWhitespace flags)).length := by
  have hall : ∀ a ∈ s.takeWhile (isWhitespace flags), isWhitespace flags a = true :=
    fun a => mem_takeWhile_imp
  have hcount := countWhitespaces_run 0 0 hall (stops_dropWhile (isWhitespace flags) s)
  rw [takeWhile_append_dropWhile] at hcount
  rw [hcount, Nat.zero_add]

theorem countWhitespaces_snd_le (s : List Nat) : (countWhitespaces flags 0 0 s).2 ≤ s.length := by
  have hall : ∀ a ∈ s.takeWhile (isWhitespace flags), isWhitespace flags a = true :=
    fun a => mem_takeWhile_imp
  have hcount := countWhitespaces_run 0 0 hall (stops_dropWhile (isWhitespace flags) s)
  rw [takeWhile_append_dropWhile] at hcount
  have hle := lastNewline_le (s.takeWhile (isWhitespace flags))
  have hlen := (takeWhile_sublist (l := s) (isWhitespace flags)).length_le
  rw [hcount]
  dsimp only
  split <;> omega

theorem first_numbers (hc : isNumber flags c = true) (rest : List Nat) :
    first (rep (sym (isNumber flags)) 1 (some 3)) (c :: rest) =
      some ((c :: rest).drop (min 3 ((c :: rest).takeWhile (isNumber flags)).length)) := by
  have hrep : rep (sym (isNumber flags)) 1 (some 3) =
      seq (sym (isNumber flags)) (upTo (sym (isNumber flags)) 2) := by
    funext s
    have heps : (sym (isNumber flags) s).flatMap eps = sym (isNumber flags) s :=
      flatMap_singleton' _
    simp [rep, times, seq, heps]
  rw [hrep, first_seq, sym_cons hc, findSome?_cons, first_upTo,
    takeWhile_cons_of_pos hc, length_cons, Nat.succ_min_succ, drop_succ_cons]

/-- The tokens of the digits begin with the longest one that is allowed. -/
theorem numberTokens_eq (hcount : count < 3) (s : List Nat) :
    numberTokens flags count s =
      addToken (min 3 (count + (s.takeWhile (isNumber flags)).length)) ++
        numberTokens flags 0
          (s.drop (min 3 (count + (s.takeWhile (isNumber flags)).length) - count)) := by
  induction s generalizing count with
  | nil =>
    have hmin : min 3 count = count := by omega
    simp [numberTokens, addToken, hmin]
  | cons c s ih =>
    rw [numberTokens]
    by_cases hc : isNumber flags c = true
    · have hflag : (flags c).isNumber = true := hc
      rw [if_pos hflag, takeWhile_cons_of_pos hc, length_cons]
      split
      next hfull =>
        obtain rfl : count = 2 := by omega
        have hmin : min 3 (2 + ((s.takeWhile (isNumber flags)).length + 1)) = 3 := by omega
        rw [hmin]
        rfl
      next hmore =>
        rw [ih (by omega)]
        generalize (s.takeWhile (isNumber flags)).length = n
        have hassoc : count + 1 + n = count + (n + 1) := by omega
        have hdrop : min 3 (count + (n + 1)) - count =
            min 3 (count + (n + 1)) - (count + 1) + 1 := by omega
        rw [hassoc, hdrop, drop_succ_cons]
    · have hflag : ¬(flags c).isNumber = true := hc
      have hmin : min 3 count = count := by omega
      rw [if_neg hflag, takeWhile_cons_of_neg hc, length_nil, Nat.add_zero, hmin,
        Nat.sub_self, drop_zero, numberTokens, if_neg hflag]
      simp [addToken]

/-- Other code points behind a leading space, and the line breaks behind them. -/
theorem first_others (hready : Llama3Ready flags) (s : List Nat) :
    first (seq (opt (sym fun x => x = cpt ' '))
        (seq (plus (sym (isUnclassed flags))) (star (sym isNewline)))) s =
      if (s.drop (leadingSpace s)).head?.any (isUnclassed flags) then
        some (((s.drop (leadingSpace s)).dropWhile (isUnclassed flags)).dropWhile isNewline)
      else none := by
  have hothers : ∀ u : List Nat,
      first (seq (plus (sym (isUnclassed flags))) (star (sym isNewline))) u =
        if u.head?.any (isUnclassed flags) then
          some ((u.dropWhile (isUnclassed flags)).dropWhile isNewline) else none := by
    intro u
    cases u with
    | nil => rfl
    | cons a u =>
      rw [head?_cons, any_some]
      by_cases ha : isUnclassed flags a = true
      · rw [if_pos ha, first_plus_seq ha ⟨_, first_star _ _⟩, first_star, dropWhile_cons_of_pos ha]
      · rw [if_neg ha, first_seq_plus_of_stops]
        intro b hb
        obtain rfl := some.inj hb
        simpa using ha
  cases s with
  | nil => rfl
  | cons a t =>
    rw [first_opt_seq, hothers, hothers]
    by_cases ha : a = cpt ' '
    · subst ha
      have hlead : leadingSpace (cpt ' ' :: t) = 1 := by simp [leadingSpace]
      rw [hlead, drop_one, tail_cons, if_pos (by simp), head?_cons,
        any_some, hready.space, if_neg Bool.false_ne_true, or_none]
    · have hlead : leadingSpace (a :: t) = 0 := by simp [leadingSpace, ha]
      rw [hlead, drop_zero, if_neg (by simpa using ha)]

theorem flagsAt_isLetter (s : List Nat) :
    (flagsAt flags s).isLetter = s.head?.any (isLetter flags) := by
  cases s <;> rfl

/-- Letters behind one code point that is neither a line break nor a letter nor a number. -/
theorem first_letters (h : Classified flags) (hready : Llama3Ready flags) (c : Nat)
    (rest : List Nat) :
    first (seq (opt (sym fun c => !(isNewline c || (flags c).isLetter || (flags c).isNumber)))
        (plus (sym (isLetter flags)))) (c :: rest) =
      if (!(isNewline c || (flags c).isNumber) &&
          ((flags c).isLetter || (flagsAt flags rest).isLetter)) = true then
        some ((c :: rest).drop (1 + (rest.takeWhile (isLetter flags)).length)) else none := by
  rw [first_opt_seq, Nat.add_comm, drop_succ_cons, ← dropWhile_eq_drop, flagsAt_isLetter,
    first_plus]
  by_cases hc : isLetter flags c = true
  · have hflag : (flags c).isLetter = true := hc
    have hnl : isNewline c = false := by
      by_contra hnl
      have hnot := (not_letter_of_newline h hready (by simpa using hnl)).1
      rw [hc] at hnot
      cases hnot
    simp [hc, hflag, hnl, h.letter c hflag]
  · have hflag : (flags c).isLetter = false := by simpa [isLetter] using hc
    rw [if_neg hc, or_none, hflag, Bool.or_false, Bool.false_or]
    by_cases hfree : (isNewline c || (flags c).isNumber) = true
    · simp [hfree]
    · rw [Bool.not_eq_true] at hfree
      rw [hfree, Bool.not_false, Bool.true_and, if_pos rfl]
      cases rest with
      | nil => rfl
      | cons d rest =>
        rw [first_plus, head?_cons, any_some]
        by_cases hd : isLetter flags d = true
        · rw [if_pos hd, if_pos hd, dropWhile_cons_of_pos hd]
        · rw [if_neg hd, if_neg hd]

theorem first_numbers_none (hc : isNumber flags c = false) (rest : List Nat) :
    first (rep (sym (isNumber flags)) 1 (some 3)) (c :: rest) = none := by
  have hsym : sym (isNumber flags) (c :: rest) = [] := by
    rw [sym, hc]
    rfl
  simp [first, rep, times, seq, hsym]

variable (flags) in
theorem first_llama3Regex (tolower : Nat → Nat) (s : List Nat) :
    first (llama3Regex flags tolower) s =
      ((contraction tolower s).map fun len => s.drop len).or
        ((first (seq (opt (sym fun c => !(isNewline c || (flags c).isLetter ||
            (flags c).isNumber))) (plus (sym (isLetter flags)))) s).or
          ((first (rep (sym (isNumber flags)) 1 (some 3)) s).or
            ((first (seq (opt (sym fun x => x = cpt ' '))
                (seq (plus (sym (isUnclassed flags))) (star (sym isNewline)))) s).or
              ((first (seq (star (sym (isWhitespace flags))) (plus (sym isNewline))) s).or
                (first (whitespaceRegex flags) s))))) := by
  rw [llama3Regex, first_oneOf_cons, first_oneOf_cons, first_oneOf_cons, first_oneOf_cons,
    first_oneOf_cons, first_oneOf_cons, first_oneOf_nil, first_contractions, or_none]

theorem contraction_none_of_number (hready : Llama3Ready flags) {fold : Nat → Nat}
    (hc : isNumber flags c = true) (rest : List Nat) : contraction fold (c :: rest) = none := by
  have hne : c ≠ cpt '\'' := by
    rintro rfl
    rw [hready.apostrophe] at hc
    cases hc
  cases rest with
  | nil => rfl
  | cons d rest => rw [contraction, if_neg hne]

section

variable (h : Classified flags) (hready : Llama3Ready flags) (tolower : Nat → Nat)
include h hready

/-- At a number the next piece is up to three digits. -/
theorem pieceLength_number (hc : isNumber flags c = true) (rest : List Nat) :
    pieceLength (llama3Regex flags tolower) (c :: rest) =
      min 3 ((c :: rest).takeWhile (isNumber flags)).length := by
  have hflag : (flags c).isNumber = true := hc
  have hle := (takeWhile_sublist (l := c :: rest) (isNumber flags)).length_le
  have hpos : 0 < ((c :: rest).takeWhile (isNumber flags)).length := by
    rw [takeWhile_cons_of_pos hc]
    exact Nat.succ_pos _
  have hfirst := first_llama3Regex flags tolower (c :: rest)
  rw [contraction_none_of_number hready hc, map_none, none_or,
    first_letters h hready, if_neg (by simp [hflag]), none_or, first_numbers hc,
    some_or] at hfirst
  exact pieceLength_of_first hfirst (by omega) (by omega)

/-- The tokens of the digits are the pieces there. -/
theorem pieces_numbers (s : List Nat) : pieces (llama3Regex flags tolower) s =
      numberTokens flags 0 s ++
        pieces (llama3Regex flags tolower) (s.drop (numberTokens flags 0 s).sum) := by
  induction hlen : s.length using Nat.strong_induction_on generalizing s with
  | h n ih =>
    cases s with
    | nil => rfl
    | cons c s =>
      by_cases hc : isNumber flags c = true
      · have hpos : 0 < min 3 ((c :: s).takeWhile (isNumber flags)).length := by
          rw [takeWhile_cons_of_pos hc, length_cons]
          omega
        rw [numberTokens_eq (by omega), pieces_cons, pieceLength_number h hready tolower hc,
          Nat.zero_add, Nat.sub_zero]
        generalize min 3 ((c :: s).takeWhile (isNumber flags)).length = k at hpos ⊢
        have hless : ((c :: s).drop k).length < n := by
          rw [length_drop, ← hlen, length_cons]
          omega
        rw [addToken, if_pos hpos,
          ih ((c :: s).drop k).length hless _ rfl,
          singleton_append, cons_append, sum_cons, ← drop_drop]
      · have hflag : ¬(flags c).isNumber = true := hc
        rw [numberTokens, if_neg hflag]
        rfl

end

/-- What the branch for other code points looks at is behind the leading space. -/
theorem others_flags (c : Nat) (rest : List Nat) :
    (if c = cpt ' ' then flagsAt flags rest else flags c) =
      flagsAt flags ((c :: rest).drop (leadingSpace (c :: rest))) := by
  by_cases hc : c = cpt ' '
  · have hlead : leadingSpace (c :: rest) = 1 := by simp [leadingSpace, hc]
    rw [if_pos hc, hlead]
    rfl
  · have hlead : leadingSpace (c :: rest) = 0 := by simp [leadingSpace, hc]
    rw [if_neg hc, hlead]
    rfl

/-- The length of the token of the branch for other code points. -/
def othersLength (flags : Nat → CptFlags) (s : List Nat) : Nat :=
  let others := ((s.drop (leadingSpace s)).takeWhile (isOther flags)).length
  leadingSpace s + others + ((s.drop (leadingSpace s + others)).takeWhile isNewline).length

theorem drop_othersLength (h : Classified flags) (s : List Nat) :
    s.drop (othersLength flags s) =
      ((s.drop (leadingSpace s)).dropWhile (isUnclassed flags)).dropWhile isNewline := by
  rw [othersLength, isOther_eq h]
  rw [dropWhile_eq_drop _ (s.drop (leadingSpace s)), drop_drop, dropWhile_eq_drop isNewline,
    drop_drop]

theorem leadingSpace_le (s : List Nat) : leadingSpace s ≤ s.length := by
  unfold leadingSpace
  cases s with
  | nil => exact Nat.le_refl 0
  | cons c s =>
    rw [length_cons]
    split <;> omega

variable (flags) in
theorem othersLength_le (s : List Nat) : othersLength flags s ≤ s.length := by
  have hlead := leadingSpace_le s
  have hothers := (takeWhile_sublist (l := s.drop (leadingSpace s)) (isOther flags)).length_le
  rw [length_drop] at hothers
  have hnewlines := (takeWhile_sublist (l := s.drop (leadingSpace s +
    ((s.drop (leadingSpace s)).takeWhile (isOther flags)).length)) isNewline).length_le
  rw [length_drop] at hnewlines
  unfold othersLength
  dsimp only
  omega

/-- The branch for other code points is not taken for nothing. -/
theorem othersLength_pos (hcategory : (flags c).asUint ≠ 0)
    (h : (flagsAt flags ((c :: rest).drop (leadingSpace (c :: rest)))).unclassed = true) :
    0 < othersLength flags (c :: rest) := by
  by_cases hc : c = cpt ' '
  · have hlead : leadingSpace (c :: rest) = 1 := by simp [leadingSpace, hc]
    rw [othersLength, hlead]
    omega
  · have hlead : leadingSpace (c :: rest) = 0 := by simp [leadingSpace, hc]
    rw [hlead] at h
    have hother : isOther flags c = true := by
      have hunclassed : (flags c).unclassed = true := h
      simp [isOther, CptFlags.isOther, hunclassed, hcategory]
    rw [othersLength, hlead, drop_zero, takeWhile_cons_of_pos hother]
    rw [length_cons]
    omega

/-- A turn in front of no number has one token. -/
theorem llama3Tokens_of_not_number (hc : isNumber flags c = false) (tolower : Nat → Nat)
    (rest : List Nat) :
    llama3Tokens flags tolower (c :: rest) =
      [((contraction tolower (c :: rest)).getD
        (if (!(isNewline c || (flags c).isNumber) &&
            ((flags c).isLetter || (flagsAt flags rest).isLetter)) = true then
          1 + (rest.takeWhile (isLetter flags)).length
        else if ((flagsAt flags ((c :: rest).drop (leadingSpace (c :: rest)))).unclassed &&
            (flags c).asUint ≠ 0) = true then
          othersLength flags (c :: rest)
        else if 0 < (countWhitespaces flags 0 0 (c :: rest)).2 then
          (countWhitespaces flags 0 0 (c :: rest)).2
        else
          whitespaceToken ((c :: rest).takeWhile (isWhitespace flags)).length (c :: rest)))] := by
  have hflag : ¬(flags c).isNumber = true := by
    rw [show (flags c).isNumber = false from hc]
    exact Bool.false_ne_true
  have hlead : (if c = cpt ' ' then 1 else 0) = leadingSpace (c :: rest) := by
    simp [leadingSpace]
  rw [llama3Tokens]
  dsimp only
  rw [others_flags, hlead, if_neg hflag, countWhitespaces_fst]
  cases contraction tolower (c :: rest) with
  | some len => rfl
  | none =>
    dsimp only
    rw [getD_none]
    split
    next => rfl
    next =>
      split
      next => rfl
      next =>
        split <;> rfl

/-- In front of no number the second splitter takes the word that its expression matches. -/
theorem llama3Tokens_eq (h : Classified flags) (hready : Llama3Ready flags) (tolower : Nat → Nat)
    (hc : isNumber flags c = false) (rest : List Nat) :
    llama3Tokens flags tolower (c :: rest) =
      [pieceLength (llama3Regex flags tolower) (c :: rest)] := by
  have hs : c :: rest ≠ [] := cons_ne_nil c rest
  have hfirst := first_llama3Regex flags tolower (c :: rest)
  rw [first_letters h hready, first_numbers_none hc, none_or] at hfirst
  rw [llama3Tokens_of_not_number hc]
  congr 1
  symm
  cases hcon : contraction tolower (c :: rest) with
  | some len =>
    rw [hcon] at hfirst
    obtain ⟨hpos, hle⟩ := contraction_length hcon
    exact pieceLength_of_first hfirst hpos hle
  | none =>
    rw [hcon, map_none, none_or] at hfirst
    rw [getD_none]
    split
    next hletters =>
      rw [if_pos hletters, some_or] at hfirst
      have hle := (takeWhile_sublist (l := rest) (isLetter flags)).length_le
      exact pieceLength_of_first hfirst (by omega) (by rw [length_cons]; omega)
    next hletters =>
      rw [if_neg hletters, none_or, first_others hready, first_newlines hready,
        first_whitespace] at hfirst
      have hcategory : decide ((flags c).asUint ≠ 0) = true := by
        simpa using h.categorized c
      rw [hcategory, Bool.and_true]
      by_cases hothers : ((c :: rest).drop (leadingSpace (c :: rest))).head?.any
          (isUnclassed flags) = true
      · have hflags : (flagsAt flags
            ((c :: rest).drop (leadingSpace (c :: rest)))).unclassed = true := by
          cases hdrop : (c :: rest).drop (leadingSpace (c :: rest)) with
          | nil => rfl
          | cons b t =>
            rw [hdrop] at hothers
            exact hothers
        rw [if_pos hothers, some_or, ← drop_othersLength h] at hfirst
        rw [if_pos hflags]
        exact pieceLength_of_first hfirst (othersLength_pos (h.categorized c) hflags)
          (othersLength_le flags _)
      · rw [if_neg hothers, none_or] at hfirst
        cases hdrop : (c :: rest).drop (leadingSpace (c :: rest)) with
        | nil =>
          -- a space that ends the segment: the token is what is left
          have hlen := congrArg List.length hdrop
          have hlead : leadingSpace (c :: rest) ≤ 1 := by
            unfold leadingSpace
            split <;> omega
          rw [length_drop, length_cons, length_nil] at hlen
          have hpieces := cuts_pieceLength (llama3Regex flags tolower) (c :: rest) hs
          have hpos : 0 < othersLength flags (c :: rest) :=
            othersLength_pos (h.categorized c) (by rw [hdrop]; rfl)
          have hle := othersLength_le flags (c :: rest)
          rw [length_cons] at hpieces hle
          rw [if_pos (show (flagsAt flags []).unclassed = true from rfl)]
          omega
        | cons b t =>
          rw [hdrop] at hothers
          have hflags : ¬(flagsAt flags (b :: t)).unclassed = true := hothers
          rw [if_neg hflags]
          split
          next hlast =>
            rw [if_pos hlast, some_or] at hfirst
            exact pieceLength_of_first hfirst hlast (countWhitespaces_snd_le _)
          next hlast =>
            rw [if_neg hlast, none_or] at hfirst
            have hle := (takeWhile_sublist (l := c :: rest) (isWhitespace flags)).length_le
            split at hfirst
            next hpos =>
              obtain ⟨hpos', hle'⟩ := whitespaceToken_le hle hs
              exact pieceLength_of_first hfirst hpos' hle'
            next hpos =>
              rw [pieceLength_of_none hfirst, whitespaceToken, if_neg (by omega), if_neg hpos]

/-- At a number the tokens of the turn are those of the digits. -/
theorem llama3Tokens_of_number (hready : Llama3Ready flags) (hc : isNumber flags c = true)
    (rest : List Nat) :
    llama3Tokens flags tolower (c :: rest) = numberTokens flags 0 (c :: rest) := by
  have hflag : (flags c).isNumber = true := hc
  rw [llama3Tokens]
  dsimp only
  rw [contraction_none_of_number hready hc, hflag]
  simp

theorem pos_of_mem_addToken {len : Nat} (h : k ∈ addToken len) : 0 < k := by
  unfold addToken at h
  split at h
  next hpos =>
    obtain rfl := mem_singleton.mp h
    exact hpos
  next => cases h

theorem sum_addToken (len : Nat) : (addToken len).sum = len := by
  unfold addToken
  split
  next => rfl
  next h => exact (Nat.eq_zero_of_not_pos h).symm

theorem pos_of_mem_numberTokens (h : k ∈ numberTokens flags count s) : 0 < k := by
  induction s generalizing count with
  | nil => exact pos_of_mem_addToken h
  | cons c s ih =>
    rw [numberTokens] at h
    split at h
    · split at h
      · rcases mem_append.mp h with h | h
        · exact pos_of_mem_addToken h
        · exact ih h
      · exact ih h
    · exact pos_of_mem_addToken h

theorem sum_numberTokens (count : Nat) (s : List Nat) :
    (numberTokens flags count s).sum = count + (s.takeWhile (isNumber flags)).length := by
  induction s generalizing count with
  | nil => exact sum_addToken count
  | cons c s ih =>
    rw [numberTokens]
    by_cases hc : isNumber flags c = true
    · have hflag : (flags c).isNumber = true := hc
      rw [if_pos hflag, takeWhile_cons_of_pos hc, length_cons]
      split
      · rw [sum_append, sum_addToken, ih]
        omega
      · rw [ih]
        omega
    · have hflag : ¬(flags c).isNumber = true := hc
      rw [if_neg hflag, takeWhile_cons_of_neg hc, sum_addToken]
      rfl

variable (flags) in
/-- The tokens of a turn are not empty, there is one, and they stay in the segment. -/
theorem llama3Tokens_fit (tolower : Nat → Nat) (s : List Nat) (hs : s ≠ []) :
    0 < (llama3Tokens flags tolower s).sum ∧
      (llama3Tokens flags tolower s).sum ≤ s.length ∧
      ∀ k ∈ llama3Tokens flags tolower s, 0 < k := by
  have hone : ∀ k, 0 < k ∧ k ≤ s.length →
      0 < [k].sum ∧ [k].sum ≤ s.length ∧ ∀ j ∈ [k], 0 < j := by
    intro k hk
    simpa using ⟨hk.1, hk.2, hk.1⟩
  cases s with
  | nil => exact absurd rfl hs
  | cons c rest =>
    rw [llama3Tokens]
    dsimp only
    cases hcon : contraction tolower (c :: rest) with
    | some len => exact hone len (contraction_length hcon)
    | none =>
      dsimp only
      have hletters := (takeWhile_sublist (l := rest) (isLetter flags)).length_le
      split
      next => exact hone _ ⟨by omega, by rw [length_cons]; omega⟩
      next =>
        split
        next hn =>
          have hc : isNumber flags c = true := hn
          have hnumbers := (takeWhile_sublist (l := c :: rest) (isNumber flags)).length_le
          have hpos : 0 < ((c :: rest).takeWhile (isNumber flags)).length := by
            rw [takeWhile_cons_of_pos hc]
            exact Nat.succ_pos _
          rw [sum_numberTokens, Nat.zero_add]
          exact ⟨hpos, hnumbers, fun k hk => pos_of_mem_numberTokens hk⟩
        next =>
          rw [others_flags]
          have hlead : (if c = cpt ' ' then 1 else 0) = leadingSpace (c :: rest) := by
            simp [leadingSpace]
          split
          next ho =>
            rw [hlead]
            simp only [Bool.and_eq_true, decide_eq_true_eq] at ho
            exact hone _ ⟨othersLength_pos ho.2 ho.1, othersLength_le flags _⟩
          next =>
            split
            next hlast => exact hone _ ⟨hlast, countWhitespaces_snd_le _⟩
            next =>
              rw [countWhitespaces_fst]
              exact hone _ (whitespaceToken_le
                (takeWhile_sublist (l := c :: rest) (isWhitespace flags)).length_le hs)

theorem sum_llama3From (tolower : Nat → Nat) (hn : s.length ≤ n) :
    (llama3From flags tolower n s).sum = s.length := by
  induction n generalizing s with
  | zero =>
    obtain rfl : s = [] := length_eq_zero_iff.mp (Nat.le_zero.mp hn)
    rfl
  | succ n ih =>
    cases s with
    | nil => rfl
    | cons c s =>
      obtain ⟨hpos, hle, -⟩ := llama3Tokens_fit flags tolower (c :: s) (cons_ne_nil c s)
      rw [length_cons] at hn hle
      rw [llama3From, sum_append,
        ih (by rw [length_drop, length_cons]; omega), length_drop,
        length_cons]
      omega

theorem pos_of_mem_llama3From (h : k ∈ llama3From flags tolower n s) : 0 < k := by
  induction n generalizing s with
  | zero => cases h
  | succ n ih =>
    cases s with
    | nil => cases h
    | cons c s =>
      rw [llama3From, mem_append] at h
      rcases h with h | h
      · exact (llama3Tokens_fit flags tolower (c :: s) (cons_ne_nil c s)).2.2 k h
      · exact ih h

/-- The second splitter takes the words that its expression matches. -/
theorem llama3From_eq (h : Classified flags) (hready : Llama3Ready flags) (tolower : Nat → Nat)
    (hn : s.length ≤ n) : llama3From flags tolower n s = pieces (llama3Regex flags tolower) s := by
  induction n generalizing s with
  | zero =>
    obtain rfl : s = [] := length_eq_zero_iff.mp (Nat.le_zero.mp hn)
    rfl
  | succ n ih =>
    cases s with
    | nil => rfl
    | cons c s =>
      have htokens : pieces (llama3Regex flags tolower) (c :: s) =
          llama3Tokens flags tolower (c :: s) ++ pieces (llama3Regex flags tolower)
            ((c :: s).drop (llama3Tokens flags tolower (c :: s)).sum) := by
        cases hc : isNumber flags c with
        | false =>
          rw [llama3Tokens_eq h hready tolower hc, pieces_cons]
          rfl
        | true =>
          rw [llama3Tokens_of_number hready hc]
          exact pieces_numbers h hready tolower (c :: s)
      have hpos := (llama3Tokens_fit flags tolower (c :: s) (cons_ne_nil c s)).1
      rw [llama3From, ih, htokens]
      rw [length_cons] at hn
      rw [length_drop, length_cons]
      omega

end

theorem gpt2Token_fits (flags : Nat → CptFlags) : Cuts (gpt2Token flags) := by
  intro s hs
  rw [gpt2Token_unfold]
  cases hcon : contraction id s with
  | some len => exact contraction_length hcon
  | none =>
    dsimp only
    split
    next hl =>
      obtain ⟨b, hb, hlb⟩ := head_of_flagsAt (q := CptFlags.isLetter) rfl hl
      exact spacedToken_le (p := isLetter flags) hb hlb
    next =>
      split
      next hn =>
        obtain ⟨b, hb, hnb⟩ := head_of_flagsAt (q := CptFlags.isNumber) rfl hn
        exact spacedToken_le (p := isNumber flags) hb hnb
      next =>
        split
        next ho =>
          obtain ⟨b, hb, hob⟩ := head_of_flagsAt (q := CptFlags.isOther) (by decide) ho
          exact spacedToken_le (p := isOther flags) hb hob
        next =>
          exact whitespaceToken_le (takeWhile_sublist (l := s) (isWhitespace flags)).length_le hs

theorem length_segments {cpts offsets : List Nat} (h : offsets.sum ≤ cpts.length) :
    (segments cpts offsets).map List.length = offsets := by
  induction offsets generalizing cpts with
  | nil => rfl
  | cons offset offsets ih =>
    rw [sum_cons] at h
    have hoffset : (cpts.take offset).length = offset := length_take_of_le (by omega)
    rw [segments, map_cons, hoffset, ih (by rw [length_drop]; omega)]

/-- Both splitters cut every segment where scanning with their expressions cuts it, when the code
points that their branches name are in the classes these branches take for granted. Their pieces
are not empty and make up the segment for any classes. -/
theorem customSplit_exact (flags : Nat → CptFlags) (tolower : Nat → Nat) {cpts offsets : List Nat}
    (hoffsets : offsets.sum ≤ cpts.length) :
    (Classified flags → isLetter flags (cpt ' ') = false → isNumber flags (cpt ' ') = false →
      unicodeRegexSplitCustomGpt2 flags cpts offsets =
        (segments cpts offsets).flatMap (pieces (gpt2Regex flags))) ∧
    (Classified flags → Llama3Ready flags →
      unicodeRegexSplitCustomLlama3 flags tolower cpts offsets =
        (segments cpts offsets).flatMap (pieces (llama3Regex flags tolower))) ∧
    (segments cpts offsets).map List.length = offsets ∧
    ∀ s, ((gpt2Segment flags s).sum = s.length ∧ ∀ k ∈ gpt2Segment flags s, 0 < k) ∧
      (llama3Segment flags tolower s).sum = s.length ∧
        ∀ k ∈ llama3Segment flags tolower s, 0 < k := by
  refine ⟨fun h hletter hnumber => ?_, fun h hready => ?_, length_segments hoffsets, fun s =>
    ⟨⟨(gpt2Token_fits flags).sum_cut (Nat.le_refl _), fun k hk => ?_⟩,
      sum_llama3From tolower (Nat.le_refl _), fun k hk => pos_of_mem_llama3From hk⟩⟩
  · have hsegment : gpt2Segment flags = pieces (gpt2Regex flags) := by
      funext s
      exact cut_congr (fun u hu => gpt2Token_eq h hletter hnumber hu) s.length s
    rw [unicodeRegexSplitCustomGpt2, hsegment]
  · have hsegment : llama3Segment flags tolower = pieces (llama3Regex flags tolower) := by
      funext s
      exact llama3From_eq h hready tolower (Nat.le_refl _)
    rw [unicodeRegexSplitCustomLlama3, hsegment]
  · exact (gpt2Token_fits flags).pos_of_mem_cut hk

/-- Code points of one class each: the letters, the numbers and the white space that are listed,
and punctuation. -/
def listedFlags (letters numbers whitespaces : List Nat) (c : Nat) : CptFlags :=
  if c ∈ letters then { CptFlags.zero with isLetter := true }
  else if c ∈ numbers then { CptFlags.zero with isNumber := true }
  else if c ∈ whitespaces then { CptFlags.zero with isWhitespace := true }
  else { CptFlags.zero with isPunctuation := true }

theorem classified_listedFlags (letters numbers whitespaces : List Nat) :
    Classified (listedFlags letters numbers whitespaces) := by
  refine ⟨fun c => ?_, fun c => ?_, fun c => ?_⟩ <;>
    · unfold listedFlags
      split
      · decide
      · split
        · decide
        · split <;> decide

/-- The code points of a text. -/
def textCpts (text : String) : List Nat := text.toList.map cpt

theorem customSplit_exact_words :
    unicodeRegexSplitCustomGpt2
        (listedFlags (textCpts "itswe") (textCpts "1234") (textCpts " \r\n"))
        (textCpts "it's  we 1234 !!\n\n") [18] = [2, 2, 1, 3, 5, 3, 2] ∧
      unicodeRegexSplitCustomLlama3
        (listedFlags (textCpts "itswe") (textCpts "1234") (textCpts " \r\n")) id
        (textCpts "it's  we 1234 !!\n\n") [18] = [2, 2, 1, 3, 1, 3, 1, 5] := by
  have hsum : [18].sum ≤ (textCpts "it's  we 1234 !!\n\n").length := by decide
  have h := customSplit_exact
    (listedFlags (textCpts "itswe") (textCpts "1234") (textCpts " \r\n")) id hsum
  have hclass := classified_listedFlags (textCpts "itswe") (textCpts "1234") (textCpts " \r\n")
  rw [h.1 hclass (by decide) (by decide), h.2.1 hclass ⟨fun c hc => ?_, by decide, by decide⟩]
  · decide +kernel
  · simp only [isNewline, Bool.or_eq_true, decide_eq_true_eq] at hc
    rcases hc with rfl | rfl
    · decide
    · decide

/-- Where the space is a letter, or a line break is no white space, or the apostrophe is a number,
the splitters cut elsewhere than their expressions. -/
theorem customSplit_not_regex :
    (Classified (listedFlags [cpt ' '] [] []) ∧
      unicodeRegexSplitCustomGpt2 (listedFlags [cpt ' '] [] []) (textCpts " !") [2] = [2] ∧
      (segments (textCpts " !") [2]).flatMap (pieces (gpt2Regex (listedFlags [cpt ' '] [] []))) =
        [1, 1]) ∧
    (Classified (listedFlags [] [] [cpt '\t']) ∧
      unicodeRegexSplitCustomLlama3 (listedFlags [] [] [cpt '\t']) id (textCpts "\t\n") [2] =
        [1, 1] ∧
      (segments (textCpts "\t\n") [2]).flatMap
        (pieces (llama3Regex (listedFlags [] [] [cpt '\t']) id)) = [2]) ∧
    (Classified (listedFlags [cpt 's'] (textCpts "123'") []) ∧
      unicodeRegexSplitCustomLlama3 (listedFlags [cpt 's'] (textCpts "123'") []) id
        (textCpts "123's") [5] = [3, 1, 1] ∧
      (segments (textCpts "123's") [5]).flatMap
        (pieces (llama3Regex (listedFlags [cpt 's'] (textCpts "123'") []) id)) = [3, 2]) := by
  refine ⟨⟨classified_listedFlags _ _ _, by decide +kernel, by decide +kernel⟩,
    ⟨classified_listedFlags _ _ _, by decide +kernel, by decide +kernel⟩,
    ⟨classified_listedFlags _ _ _, by decide +kernel, by decide +kernel⟩⟩

end Llama.Vocab
