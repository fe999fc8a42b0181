import Llama.Lib.Backtrack
import Mathlib.Data.List.TakeWhile

/-!
# Scanning a text

The ways of matchers of single symbols over a run of them, and the segmentation of a text by the
matches found from left to right.
-/

namespace Llama.Backtrack

open List Option Language

variable {α : Type}

/-- The text does not begin with a symbol of the class. -/
def Stops (p : α → Bool) (s : List α) : Prop := ∀ a ∈ s.head?, p a = false

variable {p : α → Bool} {s rest run w : List α} {a : α} {n k : Nat} {m : Matcher α}
  {len : List α → Nat}

theorem sym_of_stops (h : Stops p s) : sym p s = [] := by
  cases s with
  | nil => rfl
  | cons a s => rw [sym, h a rfl, if_neg Bool.false_ne_true]

theorem sym_cons (h : p a = true) (s : List α) : sym p (a :: s) = [s] := by
  rw [sym, if_pos h]

theorem stops_dropWhile (p : α → Bool) (s : List α) : Stops p (s.dropWhile p) := by
  intro a ha
  have hhead := head?_dropWhile_not p s
  rw [mem_def.mp ha] at hhead
  exact hhead

/-- Over a run the ways of a repetition are its ends, the longest one first. -/
theorem upTo_run (hrun : ∀ a ∈ run, p a = true) (hrest : Stops p rest) (hn : run.length ≤ n) :
    upTo (sym p) n (run ++ rest) = run.tails.reverse.map (· ++ rest) := by
  induction run generalizing n with
  | nil =>
    cases n with
    | zero => rfl
    | succ n => simp [upTo, sym_of_stops hrest]
  | cons a run ih =>
    cases n with
    | zero => simp at hn
    | succ n =>
      rw [forall_mem_cons] at hrun
      rw [cons_append, upTo]
      dsimp only
      rw [sym_cons hrun.1, filter_cons_of_pos (by simp),
        filter_nil, flatMap_singleton, ih hrun.2 (Nat.le_of_succ_le_succ hn)]
      simp

theorem star_run (hrun : ∀ a ∈ run, p a = true) (hrest : Stops p rest) :
    star (sym p) (run ++ rest) = run.tails.reverse.map (· ++ rest) :=
  upTo_run hrun hrest (by simp)

theorem plus_run (ha : p a = true) (hrun : ∀ a ∈ run, p a = true) (hrest : Stops p rest) :
    plus (sym p) (a :: run ++ rest) = run.tails.reverse.map (· ++ rest) := by
  rw [plus, seq, cons_append, sym_cons ha, flatMap_singleton, star_run hrun hrest]

theorem plus_of_stops (h : Stops p s) : plus (sym p) s = [] := by
  rw [plus, seq, sym_of_stops h, flatMap_nil]

/-- What the first way leaves. -/
def first (m : Matcher α) (s : List α) : Option (List α) := (m s).head?

theorem first_alt (m n : Matcher α) (s : List α) :
    first (alt m n) s = (first m s).or (first n s) := by
  rw [first, alt, head?_append, first, first]

theorem first_oneOf_nil (s : List α) : first (oneOf []) s = none := rfl

theorem first_oneOf_cons (m : Matcher α) (ms : List (Matcher α)) (s : List α) :
    first (oneOf (m :: ms)) s = (first m s).or (first (oneOf ms) s) :=
  first_alt m (oneOf ms) s

theorem first_seq (m n : Matcher α) (s : List α) :
    first (seq m n) s = (m s).findSome? (first n) := by
  rw [first, seq, head?_flatMap]
  rfl

theorem head_tails_reverse (s : List α) : s.tails.reverse.head? = some [] := by
  induction s with
  | nil => rfl
  | cons a s ih => rw [tails_cons, reverse_cons, head?_append, ih, some_or]

theorem exists_tails_reverse (s : List α) : ∃ l, s.tails.reverse = [] :: l := by
  cases h : s.tails.reverse with
  | nil =>
    have hhead := head_tails_reverse s
    rw [h] at hhead
    cases hhead
  | cons t l =>
    have hhead := head_tails_reverse s
    rw [h] at hhead
    obtain rfl := some.inj hhead
    exact ⟨l, rfl⟩

section

variable (p : α → Bool)

theorem first_star (s : List α) : first (star (sym p)) s = some (s.dropWhile p) := by
  have hall : ∀ a ∈ s.takeWhile p, p a = true := fun a => mem_takeWhile_imp
  have hrun := star_run hall (stops_dropWhile p s)
  rw [takeWhile_append_dropWhile] at hrun
  rw [first, hrun, head?_map, head_tails_reverse]
  rfl

/-- A bounded repetition takes what the bound allows. -/
theorem first_upTo (n : Nat) (s : List α) :
    first (upTo (sym p) n) s = some (s.drop (min n (s.takeWhile p).length)) := by
  induction n generalizing s with
  | zero =>
    rw [Nat.zero_min, drop_zero]
    rfl
  | succ n ih =>
    rw [first, upTo]
    dsimp only
    cases s with
    | nil => rfl
    | cons a s =>
      by_cases ha : p a = true
      · rw [sym_cons ha, filter_cons_of_pos (by simp), filter_nil,
          flatMap_singleton, head?_append, ← first, ih, some_or,
          takeWhile_cons_of_pos ha, length_cons, Nat.succ_min_succ, drop_succ_cons]
      · rw [sym, if_neg ha, takeWhile_cons_of_neg ha]
        rfl

theorem first_plus (a : α) (s : List α) :
    first (plus (sym p)) (a :: s) = if p a then some (s.dropWhile p) else none := by
  rw [plus, first_seq]
  split
  next h => rw [sym_cons h, findSome?_cons, first_star, findSome?_nil]
  next h =>
    rw [sym_of_stops, findSome?_nil]
    rintro b ⟨⟩
    simpa using h

theorem opt_sym_cons (a : α) (s : List α) :
    opt (sym p) (a :: s) = if p a then [s, a :: s] else [a :: s] := by
  rw [opt, upTo]
  dsimp only
  rw [sym]
  split <;> simp [upTo, eps]

theorem first_opt_seq (m : Matcher α) (a : α) (s : List α) : first (seq (opt (sym p)) m) (a :: s) =
      if p a then (first m s).or (first m (a :: s)) else first m (a :: s) := by
  rw [first_seq, opt_sym_cons]
  split
  next =>
    rw [findSome?_cons, findSome?_cons]
    cases first m s <;> cases first m (a :: s) <;> rfl
  next =>
    rw [findSome?_cons]
    cases first m (a :: s) <;> rfl

end

/-- Behind a run a matcher that always has a way is not tried on a shorter run. -/
theorem first_plus_seq (ha : p a = true) (h : ∃ t, first m (s.dropWhile p) = some t) :
    first (seq (plus (sym p)) m) (a :: s) = first m (s.dropWhile p) := by
  have hall : ∀ b ∈ s.takeWhile p, p b = true := fun b => mem_takeWhile_imp
  have hrun := plus_run ha hall (stops_dropWhile p s)
  rw [cons_append, takeWhile_append_dropWhile] at hrun
  obtain ⟨t, ht⟩ := h
  obtain ⟨l, hl⟩ := exists_tails_reverse (s.takeWhile p)
  rw [first_seq, hrun, hl, map_cons, findSome?_cons, nil_append, ht]

theorem first_seq_plus_of_stops (h : Stops p s) : first (seq (plus (sym p)) m) s = none := by
  rw [first_seq, plus_of_stops h, findSome?_nil]

theorem first_notAhead_of_stops (h : Stops p s) : first (notAhead (sym p)) s = some s := by
  rw [first, notAhead, sym_of_stops h]
  rfl

theorem first_notAhead_cons (h : p a = true) (s : List α) :
    first (notAhead (sym p)) (a :: s) = none := by
  rw [first, notAhead, sym_cons h]
  rfl

/-- A run that nothing else may follow is cut in front of its last symbol, unless it ends the
text. -/
theorem first_run_notAhead {q : α → Bool} (hq : ∀ b, q b = !p b) (ha : p a = true)
    (hrun : ∀ b ∈ run, p b = true) (hrest : Stops p rest) :
    first (seq (plus (sym p)) (notAhead (sym q))) (a :: run ++ rest) =
      if rest = [] then some [] else run.getLast?.map fun b => b :: rest := by
  rw [first_seq, plus_run ha hrun hrest]
  cases rest with
  | nil =>
    obtain ⟨l, hl⟩ := exists_tails_reverse run
    rw [hl, if_pos rfl, map_cons, findSome?_cons, append_nil,
      first_notAhead_of_stops fun b hb => by cases hb]
  | cons c rest =>
    have hc : q c = true := by
      rw [hq, hrest c rfl]
      rfl
    rw [if_neg (cons_ne_nil c rest)]
    rcases eq_nil_or_concat run with rfl | ⟨front, b, rfl⟩
    · simp [first_notAhead_cons hc]
    · have hstops : Stops q (b :: c :: rest) := by
        intro d hd
        obtain rfl := some.inj hd
        rw [hq, hrun b (by simp)]
        rfl
      have htails : (front.concat b).tails.reverse =
          [] :: front.tails.reverse.map (· ++ [b]) := by
        simp [concat_eq_append, tails_append]
      obtain ⟨l, hl⟩ := exists_tails_reverse front
      rw [htails, hl, map_cons, findSome?_cons, nil_append,
        first_notAhead_cons hc, map_cons, map_cons, findSome?_cons,
        nil_append, singleton_append, first_notAhead_of_stops hstops]
      simp

/-- The text is cut into pieces of the lengths that `len` gives. The first argument bounds the
number of pieces. -/
def cut (len : List α → Nat) : Nat → List α → List Nat
  | 0, _ => []
  | _ + 1, [] => []
  | n + 1, a :: s => len (a :: s) :: cut len n ((a :: s).drop (len (a :: s)))

/-- The length of a match at the front of the text; what is not matched is one symbol. -/
def pieceLength (m : Matcher α) (s : List α) : Nat :=
  match first m s with
  | some rest => if rest.length < s.length then s.length - rest.length else 1
  | none => 1

/-- The lengths of the pieces that scanning from left to right gives. -/
def pieces (m : Matcher α) (s : List α) : List Nat := cut (pieceLength m) s.length s

/-- The lengths make sense. -/
def Cuts (len : List α → Nat) : Prop := ∀ s, s ≠ [] → 0 < len s ∧ len s ≤ s.length

theorem cuts_pieceLength (m : Matcher α) : Cuts (pieceLength m) := by
  intro s hs
  have hpos := length_pos_iff.mpr hs
  unfold pieceLength
  cases first m s with
  | none => exact ⟨Nat.one_pos, hpos⟩
  | some rest =>
    dsimp only
    split <;> omega

theorem cut_congr {len' : List α → Nat} (h : ∀ s, s ≠ [] → len s = len' s) (n : Nat) (s : List α) :
    cut len n s = cut len' n s := by
  induction n generalizing s with
  | zero => rfl
  | succ n ih =>
    cases s with
    | nil => rfl
    | cons a s => rw [cut, cut, h _ (by simp), ih]

/-- More pieces than symbols are never needed. -/
theorem Cuts.cut_enough (h : Cuts len) (hn : s.length ≤ n) (hk : s.length ≤ k) :
    cut len n s = cut len k s := by
  induction n generalizing s k with
  | zero =>
    obtain rfl : s = [] := length_eq_zero_iff.mp (Nat.le_zero.mp hn)
    cases k <;> rfl
  | succ n ih =>
    cases s with
    | nil => cases k <;> rfl
    | cons a s =>
      cases k with
      | zero => simp at hk
      | succ k =>
        have hpos := (h (a :: s) (by simp)).1
        rw [length_cons] at hn hk
        rw [cut, cut]
        congr 1
        apply ih <;>
          · rw [length_drop, length_cons]
            omega

/-- The first piece, and the pieces of what is behind it. -/
theorem pieces_cons (m : Matcher α) (a : α) (s : List α) :
    pieces m (a :: s) =
      pieceLength m (a :: s) :: pieces m ((a :: s).drop (pieceLength m (a :: s))) := by
  have hpos := (cuts_pieceLength m (a :: s) (cons_ne_nil a s)).1
  rw [pieces, length_cons, cut, pieces]
  congr 1
  apply (cuts_pieceLength m).cut_enough
  · rw [length_drop, length_cons]
    omega
  · exact Nat.le_refl _

theorem Cuts.sum_cut (h : Cuts len) (hn : s.length ≤ n) : (cut len n s).sum = s.length := by
  induction n generalizing s with
  | zero =>
    obtain rfl : s = [] := length_eq_zero_iff.mp (Nat.le_zero.mp hn)
    rfl
  | succ n ih =>
    cases s with
    | nil => rfl
    | cons a s =>
      obtain ⟨hpos, hle⟩ := h (a :: s) (by simp)
      rw [length_cons] at hn hle
      rw [cut, sum_cons, ih (by rw [length_drop, length_cons]; omega), length_drop, length_cons]
      omega

theorem Cuts.pos_of_mem_cut (h : Cuts len) (hk : k ∈ cut len n s) : 0 < k := by
  induction n generalizing s with
  | zero => cases hk
  | succ n ih =>
    cases s with
    | nil => cases hk
    | cons a s =>
      rw [cut, mem_cons] at hk
      rcases hk with rfl | hk
      · exact (h _ (by simp)).1
      · exact ih hk

theorem mem_symbols_mul {L : Language α} :
    w ∈ symbols p * L ↔ ∃ a s, w = a :: s ∧ p a = true ∧ s ∈ L := by
  constructor
  · intro h
    obtain ⟨u, ⟨a, ha, rfl⟩, s, hs, rfl⟩ := mem_mul.mp h
    exact ⟨a, s, rfl, ha, hs⟩
  · rintro ⟨a, s, rfl, ha, hs⟩
    exact mem_mul.mpr ⟨[a], ⟨a, ha, rfl⟩, s, hs, rfl⟩

theorem mem_symbols_pow : w ∈ symbols p ^ k ↔ w.length = k ∧ ∀ a ∈ w, p a = true := by
  induction k generalizing w with
  | zero =>
    rw [pow_zero, mem_one, length_eq_zero_iff]
    constructor
    · rintro rfl
      simp
    · exact fun h => h.1
  | succ k ih =>
    rw [pow_succ', mem_symbols_mul]
    constructor
    · rintro ⟨a, s, rfl, ha, hs⟩
      obtain ⟨hlen, hall⟩ := ih.mp hs
      exact ⟨by rw [length_cons, hlen], forall_mem_cons.mpr ⟨ha, hall⟩⟩
    · rintro ⟨hlen, hall⟩
      cases w with
      | nil => cases hlen
      | cons a s =>
        rw [forall_mem_cons] at hall
        exact ⟨a, s, rfl, hall.1, ih.mpr ⟨Nat.succ.inj hlen, hall.2⟩⟩

/-- A bounded repetition of single symbols. -/
theorem mem_repWords_symbols {m : Nat} :
    w ∈ repWords (symbols p) m (some n) ↔ (m ≤ w.length ∧ w.length ≤ n) ∧ ∀ a ∈ w, p a = true := by
  constructor
  · rintro ⟨k, hmin, hmax, hw⟩
    obtain ⟨rfl, hall⟩ := mem_symbols_pow.mp hw
    exact ⟨⟨hmin, hmax n rfl⟩, hall⟩
  · rintro ⟨⟨hmin, hmax⟩, hall⟩
    exact ⟨w.length, hmin, fun k hk => some.inj hk ▸ hmax, mem_symbols_pow.mpr ⟨rfl, hall⟩⟩

end Llama.Backtrack
