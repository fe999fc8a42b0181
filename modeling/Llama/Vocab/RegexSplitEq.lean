import Llama.Vocab.RegexSplit

/-!
# The expressions behind the splitters

The regular expressions that the two splitters cite, as backtracking matches them, and the
segmentation of a text by leftmost matches.
-/

namespace Llama.Vocab

open Backtrack List Option

/-- The letters behind an apostrophe. -/
def contractionWords : List (List Char) :=
  [['s'], ['t'], ['r', 'e'], ['v', 'e'], ['m'], ['l', 'l'], ['d']]

/-- An apostrophe and a word, whose letters are compared by `fold`. -/
def contractionRegex (fold : Nat → Nat) (word : List Char) : Backtrack.Matcher Nat :=
  seq (sym fun x => x = cpt '\'') (word.foldr (fun c m => seq (sym fun x => fold x = cpt c) m) eps)

section

variable (flags : Nat → CptFlags)

/-- ` ?`, in front of one or more of a class. -/
def spacedRegex (p : Nat → Bool) : Backtrack.Matcher Nat :=
  seq (opt (sym fun x => x = cpt ' ')) (plus (sym p))

/-- `\s+(?!\S)|\s+`. -/
def whitespaceRegex : Backtrack.Matcher Nat :=
  oneOf [seq (plus (sym (isWhitespace flags))) (notAhead (sym fun c => !isWhitespace flags c)),
    plus (sym (isWhitespace flags))]

/-- `'s|'t|'re|'ve|'m|'ll|'d| ?\p{L}+| ?\p{N}+| ?[^\s\p{L}\p{N}]+|\s+(?!\S)|\s+`. -/
def gpt2Regex : Backtrack.Matcher Nat :=
  oneOf [oneOf (contractionWords.map (contractionRegex id)),
    spacedRegex (isLetter flags),
    spacedRegex (isNumber flags),
    spacedRegex (isUnclassed flags),
    whitespaceRegex flags]

/-- `(?i:'s|'t|'re|'ve|'m|'ll|'d)|[^\r\n\p{L}\p{N}]?\p{L}+|\p{N}{1,3}|` and
` ?[^\s\p{L}\p{N}]+[\r\n]*|\s*[\r\n]+|\s+(?!\S)|\s+`. -/
def llama3Regex (tolower : Nat → Nat) : Backtrack.Matcher Nat :=
  oneOf [oneOf (contractionWords.map (contractionRegex tolower)),
    seq (opt (sym fun c => !(isNewline c || (flags c).isLetter || (flags c).isNumber)))
      (plus (sym (isLetter flags))),
    rep (sym (isNumber flags)) 1 (some 3),
    seq (opt (sym fun x => x = cpt ' '))
      (seq (plus (sym (isUnclassed flags))) (star (sym isNewline))),
    seq (star (sym (isWhitespace flags))) (plus (sym isNewline)),
    whitespaceRegex flags]

end

/-- Every code point has a category and is in at most one of the three classes. -/
structure Classified (flags : Nat → CptFlags) : Prop where
  categorized : ∀ c, (flags c).asUint ≠ 0
  letter : ∀ c, (flags c).isLetter = true → (flags c).isNumber = false
  whitespace : ∀ c, (flags c).isWhitespace = true →
    (flags c).isLetter = false ∧ (flags c).isNumber = false

section

variable {flags : Nat → CptFlags} {s : List Nat}

/-- A word in front of a text, compared by `fold`. -/
def matchWord (fold : Nat → Nat) : List Char → List Nat → Option (List Nat)
  | [], s => some s
  | _ :: _, [] => none
  | c :: word, x :: s => if fold x = cpt c then matchWord fold word s else none

section

variable (fold : Nat → Nat)

theorem first_word (word : List Char) (s : List Nat) :
    first (word.foldr (fun c m => seq (sym fun x => fold x = cpt c) m) eps) s =
      matchWord fold word s := by
  induction word generalizing s with
  | nil => rfl
  | cons c word ih =>
    rw [foldr_cons, first_seq]
    cases s with
    | nil => rfl
    | cons x s =>
      rw [sym, matchWord]
      by_cases h : fold x = cpt c
      · simp [h, ih]
      · simp [h]

theorem first_contractionRegex (word : List Char) (c : Nat) (s : List Nat) :
    first (contractionRegex fold word) (c :: s) =
      if c = cpt '\'' then matchWord fold word s else none := by
  rw [contractionRegex, first_seq, sym]
  by_cases h : c = cpt '\''
  · simp [h, first_word]
  · simp [h]

theorem matchWord_contractions (s : List Nat) :
    contractionWords.findSome? (fun word => matchWord fold word s) =
      (contraction fold (cpt '\'' :: s)).map fun len => (cpt '\'' :: s).drop len := by
  cases s with
  | nil => rfl
  | cons x s =>
    simp only [contractionWords, findSome?_cons, findSome?_nil, contraction, if_pos]
    by_cases hone : fold x = cpt 's' ∨ fold x = cpt 't' ∨ fold x = cpt 'm' ∨ fold x = cpt 'd'
    · rw [if_pos hone]
      rcases hone with h | h | h | h <;> simp [matchWord, h, cpt]
    · rw [if_neg hone]
      simp only [not_or] at hone
      cases s with
      | nil => simp [matchWord, hone]
      | cons y s =>
        dsimp only
        by_cases htwo : (fold x = cpt 'r' ∧ fold y = cpt 'e') ∨
            (fold x = cpt 'v' ∧ fold y = cpt 'e') ∨ (fold x = cpt 'l' ∧ fold y = cpt 'l')
        · rw [if_pos htwo]
          rcases htwo with ⟨h, h'⟩ | ⟨h, h'⟩ | ⟨h, h'⟩ <;> simp [matchWord, h, h', cpt]
        · rw [if_neg htwo]
          simp only [not_or, not_and] at htwo
          obtain ⟨hre, hve, hll⟩ := htwo
          have hr : (if fold x = cpt 'r' then if fold y = cpt 'e' then some s else none
              else none) = none := by
            split
            next h => rw [if_neg (hre h)]
            next => rfl
          have hv : (if fold x = cpt 'v' then if fold y = cpt 'e' then some s else none
              else none) = none := by
            split
            next h => rw [if_neg (hve h)]
            next => rfl
          have hl : (if fold x = cpt 'l' then if fold y = cpt 'l' then some s else none
              else none) = none := by
            split
            next h => rw [if_neg (hll h)]
            next => rfl
          simp [matchWord, hone, hr, hv, hl]

/-- The contractions are those of the first branch. -/
theorem first_contractions (s : List Nat) :
    first (oneOf (contractionWords.map (contractionRegex fold))) s =
      (contraction fold s).map fun len => s.drop len := by
  have honeOf : ∀ (words : List (List Char)), first (oneOf (words.map (contractionRegex fold))) s =
      words.findSome? fun word => first (contractionRegex fold word) s := by
    intro words
    induction words with
    | nil => rfl
    | cons word words ih =>
      rw [map_cons, first_oneOf_cons, ih, findSome?_cons]
      cases first (contractionRegex fold word) s <;> rfl
  rw [honeOf]
  cases s with
  | nil => rfl
  | cons c s =>
    simp only [first_contractionRegex]
    by_cases hc : c = cpt '\''
    · subst hc
      simp only [if_true]
      exact matchWord_contractions fold s
    · simp only [if_neg hc]
      cases s with
      | nil => rfl
      | cons x s => simp [contraction, hc, contractionWords]

end

theorem contraction_length {fold : Nat → Nat} {len : Nat} (h : contraction fold s = some len) :
    0 < len ∧ len ≤ s.length := by
  unfold contraction at h
  split at h
  next c next rest =>
    split at h
    · dsimp only at h
      split at h
      · cases h
        simp
      · split at h
        · cases h
        · split at h
          · cases h
            simp
          · cases h
    · cases h
  next => cases h

theorem isOther_eq (h : Classified flags) : isOther flags = isUnclassed flags := by
  funext c
  simp [isOther, CptFlags.isOther, isUnclassed, h.categorized c]

/-- White space at the front of a text. -/
theorem first_whitespace (s : List Nat) :
    first (whitespaceRegex flags) s =
      if 0 < (s.takeWhile (isWhitespace flags)).length then
        some (s.drop (whitespaceToken (s.takeWhile (isWhitespace flags)).length s))
      else none := by
  rw [whitespaceRegex, first_oneOf_cons, first_oneOf_cons, first_oneOf_nil, or_none]
  have hall : ∀ a ∈ s.takeWhile (isWhitespace flags), isWhitespace flags a = true :=
    fun a => mem_takeWhile_imp
  have hstops := stops_dropWhile (isWhitespace flags) s
  have hs : s.takeWhile (isWhitespace flags) ++ s.dropWhile (isWhitespace flags) = s :=
    takeWhile_append_dropWhile
  revert hall hstops hs
  generalize s.takeWhile (isWhitespace flags) = run
  generalize s.dropWhile (isWhitespace flags) = rest
  rintro hall hstops rfl
  cases run with
  | nil =>
    rw [nil_append, first_seq_plus_of_stops hstops, first, plus_of_stops hstops]
    rfl
  | cons c run =>
    rw [forall_mem_cons] at hall
    have hplus : first (plus (sym (isWhitespace flags))) (c :: run ++ rest) = some rest := by
      rw [first, plus_run hall.1 hall.2 hstops, head?_map, head_tails_reverse]
      rfl
    have hpos : 0 < (c :: run).length := Nat.succ_pos _
    rw [first_run_notAhead (fun _ => rfl) hall.1 hall.2 hstops, hplus, if_pos hpos,
      whitespaceToken, drop_left]
    cases rest with
    | nil => simp
    | cons b rest =>
      rcases eq_nil_or_concat run with rfl | ⟨front, a, rfl⟩
      · simp
      · simp [concat_eq_append]

/-- The number of leading spaces that a token takes. -/
def leadingSpace (s : List Nat) : Nat := if s.head? = some (cpt ' ') then 1 else 0

theorem dropWhile_eq_drop (p : Nat → Bool) (s : List Nat) :
    s.dropWhile p = s.drop (s.takeWhile p).length := by
  have h := congrArg (List.drop (s.takeWhile p).length)
    (takeWhile_append_dropWhile (p := p) (l := s))
  rwa [drop_left] at h

variable {p : Nat → Bool} {b : Nat} {m : Backtrack.Matcher Nat} {q : CptFlags → Bool}

theorem first_spaced_of_head (h : b ∈ (s.drop (leadingSpace s)).head?) (hb : p b = true) :
    first (spacedRegex p) s =
      some (s.drop (leadingSpace s + ((s.drop (leadingSpace s)).takeWhile p).length)) := by
  rw [← drop_drop, ← dropWhile_eq_drop]
  cases s with
  | nil => cases h
  | cons a t =>
    rw [spacedRegex, first_opt_seq]
    by_cases ha : a = cpt ' '
    · have hlead : leadingSpace (a :: t) = 1 := by simp [leadingSpace, ha]
      rw [hlead, drop_one, tail_cons] at h ⊢
      cases t with
      | nil => cases h
      | cons c t =>
        obtain rfl := some.inj h
        rw [if_pos (by simpa using ha), first_plus, if_pos hb, some_or, dropWhile_cons_of_pos hb]
    · have hlead : leadingSpace (a :: t) = 0 := by simp [leadingSpace, ha]
      rw [hlead, drop_zero] at h ⊢
      obtain rfl := some.inj h
      rw [if_neg (by simpa using ha), first_plus, if_pos hb, dropWhile_cons_of_pos hb]

theorem first_spaced_of_stops (h : Stops p (s.drop (leadingSpace s))) :
    first (spacedRegex p) s =
      if s.head? = some (cpt ' ') ∧ p (cpt ' ') = true then some (s.drop 1) else none := by
  cases s with
  | nil => rfl
  | cons a t =>
    rw [spacedRegex, first_opt_seq]
    have hplus : ∀ u, Stops p u → first (plus (sym p)) u = none := fun u hu => by
      rw [first, plus_of_stops hu]
      rfl
    by_cases ha : a = cpt ' '
    · subst ha
      have hlead : leadingSpace (cpt ' ' :: t) = 1 := by simp [leadingSpace]
      rw [hlead, drop_one, tail_cons] at h
      rw [if_pos (by simp), hplus t h, none_or, first_plus]
      by_cases hp : p (cpt ' ') = true
      · have hdrop : t.dropWhile p = t := by
          cases t with
          | nil => rfl
          | cons c t => rw [dropWhile_cons_of_neg (by simp [h c rfl])]
        simp [hp, hdrop]
      · simp [hp]
    · have hlead : leadingSpace (a :: t) = 0 := by simp [leadingSpace, ha]
      rw [hlead, drop_zero] at h
      rw [if_neg (by simpa using ha), hplus _ h]
      simp [ha]

theorem pieceLength_of_first {k : Nat} (h : first m s = some (s.drop k)) (hk : 0 < k)
    (hle : k ≤ s.length) : pieceLength m s = k := by
  rw [pieceLength, h]
  dsimp only
  rw [length_drop, if_pos (by omega)]
  omega

theorem pieceLength_of_none (h : first m s = none) : pieceLength m s = 1 := by
  rw [pieceLength, h]

theorem head_of_flagsAt (hq : q .zero = false) (h : q (flagsAt flags s) = true) :
    ∃ b ∈ s.head?, q (flags b) = true := by
  cases s with
  | nil => exact absurd h (by simp [flagsAt, hq])
  | cons b s => exact ⟨b, rfl, h⟩

theorem stops_of_flagsAt (h : q (flagsAt flags s) = false) : Stops (fun c => q (flags c)) s := by
  cases s with
  | nil => exact fun b hb => by cases hb
  | cons b s =>
    intro c hc
    obtain rfl := some.inj hc
    exact h

theorem whitespaceToken_le {n : Nat} (hn : n ≤ s.length) (hs : s ≠ []) :
    0 < whitespaceToken n s ∧ whitespaceToken n s ≤ s.length := by
  have hpos := length_pos_iff.mpr hs
  unfold whitespaceToken
  split
  · omega
  · split <;> omega

/-- A token of one class behind a leading space is the match of its expression. -/
theorem spacedToken_le (h : b ∈ (s.drop (leadingSpace s)).head?) (hb : p b = true) :
    0 < leadingSpace s + ((s.drop (leadingSpace s)).takeWhile p).length ∧
      leadingSpace s + ((s.drop (leadingSpace s)).takeWhile p).length ≤ s.length := by
  have hle := (takeWhile_sublist (l := s.drop (leadingSpace s)) p).length_le
  have hlen : (s.drop (leadingSpace s)).length ≠ 0 := by
    intro h0
    rw [length_eq_zero_iff.mp h0] at h
    cases h
  have hpos : 0 < ((s.drop (leadingSpace s)).takeWhile p).length := by
    cases hdrop : s.drop (leadingSpace s) with
    | nil =>
      rw [hdrop] at h
      cases h
    | cons c t =>
      rw [hdrop] at h
      obtain rfl := some.inj h
      rw [takeWhile_cons_of_pos hb]
      exact Nat.succ_pos _
  rw [length_drop] at hle hlen
  omega

/-- The turn, with the leading space named. -/
theorem gpt2Token_unfold (flags : Nat → CptFlags) (s : List Nat) :
    gpt2Token flags s =
      match contraction id s with
      | some len => len
      | none =>
        if (flagsAt flags (s.drop (leadingSpace s))).isLetter then
          leadingSpace s + ((s.drop (leadingSpace s)).takeWhile (isLetter flags)).length
        else if (flagsAt flags (s.drop (leadingSpace s))).isNumber then
          leadingSpace s + ((s.drop (leadingSpace s)).takeWhile (isNumber flags)).length
        else if (flagsAt flags (s.drop (leadingSpace s))).isOther then
          leadingSpace s + ((s.drop (leadingSpace s)).takeWhile (isOther flags)).length
        else whitespaceToken (s.takeWhile (isWhitespace flags)).length s :=
  rfl

/-- The first splitter takes the words that its expression matches. -/
theorem gpt2Token_eq (h : Classified flags) (hletter : isLetter flags (cpt ' ') = false)
    (hnumber : isNumber flags (cpt ' ') = false) (hs : s ≠ []) :
    gpt2Token flags s = pieceLength (gpt2Regex flags) s := by
  have hfirst : first (gpt2Regex flags) s =
      ((contraction id s).map fun len => s.drop len).or
        ((first (spacedRegex (isLetter flags)) s).or
          ((first (spacedRegex (isNumber flags)) s).or
            ((first (spacedRegex (isUnclassed flags)) s).or
              ((first (whitespaceRegex flags) s).or none)))) := by
    rw [gpt2Regex, first_oneOf_cons, first_oneOf_cons, first_oneOf_cons, first_oneOf_cons,
      first_oneOf_cons, first_oneOf_nil, first_contractions]
  rw [gpt2Token_unfold]
  symm
  cases hc : contraction id s with
  | some len =>
    rw [hc] at hfirst
    obtain ⟨hpos, hle⟩ := contraction_length hc
    exact pieceLength_of_first hfirst hpos hle
  | none =>
    rw [hc, map_none, none_or] at hfirst
    dsimp only
    split
    next hl =>
      obtain ⟨b, hb, hlb⟩ := head_of_flagsAt (q := CptFlags.isLetter) rfl hl
      have hclass : isLetter flags b = true := hlb
      rw [first_spaced_of_head hb hclass, some_or] at hfirst
      obtain ⟨hpos, hle⟩ := spacedToken_le hb hclass
      exact pieceLength_of_first hfirst hpos hle
    next hl =>
      have hstops : Stops (isLetter flags) (s.drop (leadingSpace s)) :=
        stops_of_flagsAt (q := CptFlags.isLetter) (by simpa using hl)
      rw [first_spaced_of_stops hstops, if_neg (by simp [hletter]), none_or] at hfirst
      split
      next hn =>
        obtain ⟨b, hb, hnb⟩ := head_of_flagsAt (q := CptFlags.isNumber) rfl hn
        have hclass : isNumber flags b = true := hnb
        rw [first_spaced_of_head hb hclass, some_or] at hfirst
        obtain ⟨hpos, hle⟩ := spacedToken_le hb hclass
        exact pieceLength_of_first hfirst hpos hle
      next hn =>
        have hstops : Stops (isNumber flags) (s.drop (leadingSpace s)) :=
          stops_of_flagsAt (q := CptFlags.isNumber) (by simpa using hn)
        rw [first_spaced_of_stops hstops, if_neg (by simp [hnumber]), none_or] at hfirst
        split
        next ho =>
          obtain ⟨b, hb, hob⟩ := head_of_flagsAt (q := CptFlags.isOther) (by decide) ho
          have hclass : isUnclassed flags b = true := by
            rw [← isOther_eq h]
            exact hob
          rw [first_spaced_of_head hb hclass, some_or] at hfirst
          obtain ⟨hpos, hle⟩ := spacedToken_le hb hclass
          rw [isOther_eq h]
          exact pieceLength_of_first hfirst hpos hle
        next ho =>
          have hstops : Stops (isUnclassed flags) (s.drop (leadingSpace s)) := by
            rw [← isOther_eq h]
            exact stops_of_flagsAt (q := CptFlags.isOther) (by simpa using ho)
          rw [first_spaced_of_stops hstops] at hfirst
          split at hfirst
          next hspace =>
            -- a space of no class is a word of its own
            rw [some_or] at hfirst
            cases s with
            | nil => exact absurd rfl hs
            | cons c t =>
              obtain rfl := some.inj hspace.1
              have hwhite : isWhitespace flags (cpt ' ') = false := by
                have := hspace.2
                simp only [isUnclassed, CptFlags.unclassed, Bool.not_eq_true',
                  Bool.or_eq_false_iff] at this
                exact this.1.1
              rw [takeWhile_cons_of_neg (by simp [hwhite]), length_nil,
                pieceLength_of_first hfirst Nat.one_pos (by simp)]
              rfl
          next =>
            rw [none_or, or_none, first_whitespace] at hfirst
            have hle := (takeWhile_sublist (l := s) (isWhitespace flags)).length_le
            split at hfirst
            next hpos =>
              obtain ⟨hpos', hle'⟩ := whitespaceToken_le hle hs
              exact pieceLength_of_first hfirst hpos' hle'
            next hpos =>
              rw [pieceLength_of_none hfirst, whitespaceToken, if_neg (by omega), if_neg hpos]

end

end Llama.Vocab
