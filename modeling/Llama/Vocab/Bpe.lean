import Llama.Vocab.Slice
import Llama.Vocab.Unicode

/-!
# The BPE tokenizer

The symbols of a word are entries of a vector that are linked by index; a merged symbol stays
behind with length zero. Bigrams wait in a priority queue and may be outdated when their turn
comes, which only their text tells. The reference merges the leftmost adjacent pair of lowest
rank until no pair has a rank.
-/

namespace Llama.Vocab

open List

open Peg (encode encode_nil encode_cons)

/-- `llm_symbol`: the index `-1` is none, and the text is an offset in the word. -/
structure Symbol where
  prev : Option Nat
  next : Option Nat
  text : Nat
  n : Nat
  deriving DecidableEq, Repr

/-- `std::string(sym.text, sym.n)`. -/
def Symbol.token (word : List UInt8) (sym : Symbol) : List UInt8 := slice word sym.text sym.n

/-- `llm_bigram_bpe`. -/
structure Bigram where
  left : Nat
  right : Nat
  text : List UInt8
  rank : Nat
  size : Nat
  deriving DecidableEq, Repr

/-- `llm_bigram_bpe::comparator`, the other way round: `l` is to be merged before `r`. -/
def Bigram.before (l r : Bigram) : Prop := l.rank < r.rank ∨ (l.rank = r.rank ∧ l.left < r.left)

instance (l r : Bigram) : Decidable (l.before r) :=
  inferInstanceAs (Decidable (l.rank < r.rank ∨ (l.rank = r.rank ∧ l.left < r.left)))

/-- `std::priority_queue`: `pop_move` takes out a bigram that no other one is before. Among
equals it may be any. -/
structure PriorityQueue where
  pop : List Bigram → Option (Bigram × List Bigram)
  pop_nil : pop [] = none
  pop_cons : ∀ q, q ≠ [] → ∃ b rest, pop q = some (b, rest) ∧ q.Perm (b :: rest) ∧
    ∀ x ∈ q, ¬ x.before b

/-- Take out a bigram that no other one is before. -/
def takeFirst (b : Bigram) : List Bigram → Bigram × List Bigram
  | [] => (b, [])
  | x :: q =>
    if x.before b then ((takeFirst x q).1, b :: (takeFirst x q).2)
    else ((takeFirst b q).1, x :: (takeFirst b q).2)

theorem takeFirst_spec (b : Bigram) (q : List Bigram) :
    (b :: q).Perm ((takeFirst b q).1 :: (takeFirst b q).2) ∧
      ∀ x ∈ b :: q, ¬ x.before (takeFirst b q).1 := by
  have htrans : ∀ {x y z : Bigram}, ¬ x.before y → ¬ y.before z → ¬ x.before z := by
    unfold Bigram.before
    omega
  induction q generalizing b with
  | nil =>
    refine ⟨.refl _, fun x hx => ?_⟩
    rw [mem_singleton.mp hx]
    exact not_or.mpr ⟨Nat.lt_irrefl _, fun h => Nat.lt_irrefl _ h.2⟩
  | cons y q ih =>
    rw [takeFirst]
    split
    · rename_i hy
      obtain ⟨hperm, hmin⟩ := ih y
      refine ⟨(hperm.cons b).trans (.swap _ _ _), forall_mem_cons.mpr ⟨?_, hmin⟩⟩
      refine htrans (fun hb => ?_) (hmin y mem_cons_self)
      rw [Bigram.before] at hy hb
      omega
    · rename_i hy
      obtain ⟨hperm, hmin⟩ := ih b
      refine ⟨(List.Perm.swap _ _ _).trans ((hperm.cons y).trans (.swap _ _ _)), ?_⟩
      simp only [forall_mem_cons] at hmin ⊢
      exact ⟨hmin.1, htrans hy hmin.1, hmin.2⟩

/-- The queue that looks at every bigram. -/
def PriorityQueue.scan : PriorityQueue where
  pop
    | [] => none
    | b :: q => some (takeFirst b q)
  pop_nil := rfl
  pop_cons
    | b :: q, _ => ⟨_, _, rfl, takeFirst_spec b q⟩

/-- `bpe_ranks`: the ranks of the merges. -/
abbrev Ranks := List UInt8 → List UInt8 → Option Nat

/-- A token that `find_bpe_rank` accepts: no space and no newline. -/
def plainToken (token : List UInt8) : Bool := token.all fun b => b != 0x20 && b != 0x0A

/-- `llama_vocab::find_bpe_rank`; `none` is a failed assertion and `some none` is `-1`. -/
def findBpeRank (ranks : Ranks) (left right : List UInt8) : Option (Option Nat) :=
  if plainToken left && plainToken right then some (ranks left right) else none

/-- What the session works on. -/
structure BpeSession where
  symbols : List Symbol
  workQueue : List Bigram

def addNewBigram (ranks : Ranks) (word : List UInt8) (s : BpeSession) :
    Option Nat → Option Nat → Option BpeSession
  | some left, some right =>
    match s.symbols[left]?, s.symbols[right]? with
    | some l, some r => do
      let rankFound ← findBpeRank ranks (l.token word) (r.token word)
      match rankFound with
      | none => pure s
      | some rank =>
        let bigram : Bigram :=
          { left := left, right := right, text := l.token word ++ r.token word, rank := rank
            size := (l.token word).length + (r.token word).length }
        pure { s with workQueue := bigram :: s.workQueue }
    | _, _ => none
  | _, _ => some s

/-- The symbols of a word, from an offset on: one for each UTF-8 character. -/
def splitSymbols (word : List UInt8) : Nat → Nat → Nat → List Symbol
  | 0, _, _ => []
  | turns + 1, index, offset =>
    match word.drop offset with
    | [] => []
    | b :: _ =>
      let charLen := min (word.length - offset) (lenUtf8 b)
      { prev := if index = 0 then none else some (index - 1)
        next := if offset + charLen = word.length then none else some (index + 1)
        text := offset, n := charLen } :: splitSymbols word turns (index + 1) (offset + charLen)

/-- The symbols before merging. `whole`: merges are ignored and the word is a token. -/
def initialSymbols (word : List UInt8) (whole : Bool) : List Symbol :=
  if whole then [{ prev := none, next := none, text := 0, n := word.length }]
  else splitSymbols word word.length 0 0

/-- The symbol on the right joins the one on the left and leaves the chain. -/
def mergeSymbols (symbols : List Symbol) (b : Bigram) (left right : Symbol) : List Symbol :=
  let symbols := (symbols.set b.left { left with n := left.n + right.n, next := right.next }).set
    b.right { right with n := 0 }
  match right.next with
  | some k => symbols.modify k fun sym => { sym with prev := some b.left }
  | none => symbols

/-- Loop body for a bigram from the queue. -/
def processBigram (ranks : Ranks) (word : List UInt8) (s : BpeSession) (b : Bigram) :
    Option BpeSession :=
  match s.symbols[b.left]?, s.symbols[b.right]? with
  | some left, some right =>
    if left.n = 0 ∨ right.n = 0 then some s
    else if left.token word ++ right.token word ≠ b.text then some s
    else do
      let s := { s with symbols := mergeSymbols s.symbols b left right }
      let s ← addNewBigram ranks word s left.prev (some b.left)
      addNewBigram ranks word s (some b.left) right.next
  | _, _ => none

/-- The loop over the queue, for a number of turns. -/
def buildLoop (pq : PriorityQueue) (ranks : Ranks) (word : List UInt8) :
    Nat → BpeSession → Option (List Symbol)
  | 0, s => if s.workQueue.isEmpty then some s.symbols else none
  | turns + 1, s =>
    match pq.pop s.workQueue with
    | none => some s.symbols
    | some (b, rest) => do
      let s ← processBigram ranks word { s with workQueue := rest } b
      buildLoop pq ranks word turns s

/-- The bigrams of neighbours before merging. -/
def initialBigrams (ranks : Ranks) (word : List UInt8) (symbols : List Symbol) :
    Option BpeSession :=
  (range' 1 (symbols.length - 1)).foldlM
    (fun s i => addNewBigram ranks word s (some (i - 1)) (some i))
    { symbols := symbols, workQueue := [] }

/-- What `llm_tokenizer_bpe_session::tokenize` makes of one word: the texts of the symbols that
are left. -/
def bpeWord (pq : PriorityQueue) (ranks : Ranks) (whole : Bool) (word : List UInt8) :
    Option (List (List UInt8)) := do
  let symbols := initialSymbols word whole
  let s ← initialBigrams ranks word symbols
  let symbols ← buildLoop pq ranks word (3 * symbols.length) s
  pure ((symbols.filter fun sym => 0 < sym.n).map (·.token word))

/-- The characters of a word, by their lead bytes. -/
def splitUtf8 : List UInt8 → List (List UInt8)
  | [] => []
  | b :: rest =>
    (b :: rest.take (lenUtf8 b - 1)) :: splitUtf8 (rest.drop (lenUtf8 b - 1))
termination_by word => word.length
decreasing_by simp only [length_cons, length_drop]; omega

/-- The lowest rank of an adjacent pair. -/
def lowestRank (ranks : Ranks) : List (List UInt8) → Option Nat
  | x :: y :: ts =>
    match ranks x y, lowestRank ranks (y :: ts) with
    | some r, some r' => some (min r r')
    | some r, none => some r
    | none, o => o
  | _ => none

/-- Merge the leftmost adjacent pair of a rank. -/
def mergeFirst (ranks : Ranks) (rank : Nat) : List (List UInt8) → List (List UInt8)
  | x :: y :: ts =>
    if ranks x y = some rank then (x ++ y) :: ts else x :: mergeFirst ranks rank (y :: ts)
  | ts => ts

/-- Merge the leftmost adjacent pair of lowest rank, if any pair has a rank. -/
def naiveStep (ranks : Ranks) (ts : List (List UInt8)) : Option (List (List UInt8)) :=
  (lowestRank ranks ts).map fun rank => mergeFirst ranks rank ts

/-- Merge so, at most a number of times. -/
def naiveMerge (ranks : Ranks) : Nat → List (List UInt8) → List (List UInt8)
  | 0, ts => ts
  | turns + 1, ts =>
    match naiveStep ranks ts with
    | none => ts
    | some ts' => naiveMerge ranks turns ts'

/-- The reference: merge while any adjacent pair has a rank. -/
def naiveBpe (ranks : Ranks) (ts : List (List UInt8)) : List (List UInt8) :=
  naiveMerge ranks ts.length ts

variable {ranks : Ranks} {x y : List UInt8} {P Q ts ts' : List (List UInt8)} {r : Nat}

/-- A pair with a rank bounds the lowest rank. -/
theorem lowestRank_le (hr : ranks x y = some r) :
    ∃ m, lowestRank ranks (P ++ x :: y :: Q) = some m ∧ m ≤ r := by
  induction P with
  | nil =>
    rw [nil_append, lowestRank, hr]
    cases lowestRank ranks (y :: Q) with
    | none => exact ⟨r, rfl, le_rfl⟩
    | some r' => exact ⟨min r r', rfl, min_le_left _ _⟩
  | cons p P ih =>
    obtain ⟨m, hm, hle⟩ := ih
    obtain ⟨q, ts, hts⟩ : ∃ q ts, P ++ x :: y :: Q = q :: ts := by cases P <;> simp
    rw [hts] at hm
    rw [cons_append, hts, lowestRank, hm]
    cases ranks p q with
    | none => exact ⟨m, rfl, hle⟩
    | some r' => exact ⟨min r' m, rfl, (min_le_right _ _).trans hle⟩

/-- The lowest rank is the rank of a pair. -/
theorem lowestRank_mem {m : Nat} (h : lowestRank ranks ts = some m) :
    ∃ P x y Q, ts = P ++ x :: y :: Q ∧ ranks x y = some m := by
  fun_induction lowestRank ranks ts with
  | case1 x y ts r r' hlow hr ih =>
    rcases Nat.le_total r r' with hle | hle
    · rw [min_eq_left hle] at h
      exact ⟨[], x, y, ts, rfl, hr.trans h⟩
    · rw [min_eq_right hle] at h
      obtain ⟨P, a, b, Q, hts, hab⟩ := ih (hlow.trans h)
      exact ⟨x :: P, a, b, Q, by rw [hts]; rfl, hab⟩
  | case2 x y ts r hlow hr ih => exact ⟨[], x, y, ts, rfl, hr.trans h⟩
  | case3 x y ts hr ih =>
    obtain ⟨P, a, b, Q, hts, hab⟩ := ih h
    exact ⟨x :: P, a, b, Q, by rw [hts]; rfl, hab⟩
  | case4 => cases h

theorem mergeFirst_eq (hr : ranks x y = some r)
    (hP : ∀ A a b B, P ++ [x] = A ++ a :: b :: B → ranks a b ≠ some r) :
    mergeFirst ranks r (P ++ x :: y :: Q) = P ++ (x ++ y) :: Q := by
  induction P with
  | nil => rw [nil_append, mergeFirst, if_pos hr, nil_append]
  | cons p P ih =>
    obtain ⟨q, ts, hts, ht⟩ : ∃ q ts, P ++ x :: y :: Q = q :: ts ∧ ∃ B, P ++ [x] = q :: B := by
      cases P <;> simp
    obtain ⟨B, hB⟩ := ht
    have hne : ranks p q ≠ some r := hP [] p q B (by rw [cons_append, hB]; rfl)
    rw [cons_append, hts, mergeFirst, if_neg hne, ← hts, ih ?_]
    · rfl
    · intro A a b B' he
      exact hP (p :: A) a b B' (by rw [cons_append, he]; rfl)

/-- The step of the reference, at a pair that is leftmost among those of lowest rank. -/
theorem naiveStep_eq (hr : ranks x y = some r)
    (hall : ∀ A a b B r', P ++ x :: y :: Q = A ++ a :: b :: B → ranks a b = some r' → r ≤ r')
    (hP : ∀ A a b B, P ++ [x] = A ++ a :: b :: B → ranks a b ≠ some r) :
    naiveStep ranks (P ++ x :: y :: Q) = some (P ++ (x ++ y) :: Q) := by
  obtain ⟨m, hm, hle⟩ := @lowestRank_le ranks x y P Q r hr
  obtain ⟨A, a, b, B, he, hab⟩ := lowestRank_mem hm
  obtain rfl : m = r := Nat.le_antisymm hle (hall A a b B m he hab)
  rw [naiveStep, hm, Option.map_some, mergeFirst_eq hr hP]

/-- Without a pair that has a rank the reference stops. -/
theorem naiveStep_eq_none (h : ∀ A a b B, ts = A ++ a :: b :: B → ranks a b = none) :
    naiveStep ranks ts = none := by
  rw [naiveStep, Option.map_eq_none_iff]
  cases hl : lowestRank ranks ts with
  | none => rfl
  | some m =>
    obtain ⟨A, a, b, B, he, hab⟩ := lowestRank_mem hl
    rw [h A a b B he] at hab
    cases hab

theorem mergeFirst_length (h : lowestRank ranks ts = some r) :
    (mergeFirst ranks r ts).length + 1 = ts.length := by
  have hex := lowestRank_mem h
  clear h
  fun_induction mergeFirst ranks r ts with
  | case1 x y ts hr => simp
  | case2 x y ts hr ih =>
    obtain ⟨A, a, b, B, he, hab⟩ := hex
    cases A with
    | nil =>
      cases he
      exact absurd hab hr
    | cons a' A =>
      obtain ⟨-, he⟩ := List.cons.inj he
      rw [length_cons, ih ⟨A, a, b, B, he, hab⟩]
      rfl
  | case3 ts hts =>
    obtain ⟨A, a, b, B, rfl, -⟩ := hex
    cases A with
    | nil => exact absurd rfl (hts _ _ _)
    | cons a' A =>
      exfalso
      cases A with
      | nil => exact hts _ _ _ rfl
      | cons a'' A => exact hts _ _ _ rfl

theorem naiveStep_length (h : naiveStep ranks ts = some ts') : ts'.length + 1 = ts.length := by
  rw [naiveStep, Option.map_eq_some_iff] at h
  obtain ⟨r, hr, rfl⟩ := h
  exact mergeFirst_length hr

/-- One step does not change where the reference ends. -/
theorem naiveBpe_step (h : naiveStep ranks ts = some ts') :
    naiveBpe ranks ts = naiveBpe ranks ts' := by
  rw [naiveBpe, ← naiveStep_length h, naiveMerge, h]
  rfl

theorem mergeFirst_flatten (ranks : Ranks) (r : Nat) (ts : List (List UInt8)) :
    (mergeFirst ranks r ts).flatten = ts.flatten := by
  fun_induction mergeFirst ranks r ts with
  | case1 x y ts hr => simp
  | case2 x y ts hr ih => rw [flatten_cons, ih, ← flatten_cons]
  | case3 ts hts => rfl

theorem naiveBpe_flatten (ranks : Ranks) (ts : List (List UInt8)) :
    (naiveBpe ranks ts).flatten = ts.flatten := by
  rw [naiveBpe]
  generalize ts.length = turns
  induction turns generalizing ts with
  | zero => rfl
  | succ turns ih =>
    rw [naiveMerge]
    cases hstep : naiveStep ranks ts with
    | none => rfl
    | some ts' =>
      obtain ⟨r, -, rfl⟩ := Option.map_eq_some_iff.mp hstep
      exact (ih _).trans (mergeFirst_flatten ranks r ts)

theorem splitUtf8_flatten (word : List UInt8) : (splitUtf8 word).flatten = word := by
  fun_induction splitUtf8 word with
  | case1 => rfl
  | case2 b rest ih => rw [flatten_cons, ih, cons_append, take_append_drop]

/-- A text of characters is divided into them. -/
theorem splitUtf8_encode (cs : List Char) :
    splitUtf8 (encode cs) = cs.map String.utf8EncodeChar := by
  induction cs with
  | nil => rw [encode_nil, splitUtf8, map_nil]
  | cons c cs ih =>
    obtain ⟨b, t, hc, hlen⟩ := lenUtf8_encodeChar c
    rw [hc, length_cons] at hlen
    rw [encode_cons, hc, cons_append, splitUtf8, hlen, Nat.add_sub_cancel, take_left,
      drop_left, ih, map_cons, hc]

theorem naiveBpe_stop (h : naiveStep ranks ts = none) : naiveBpe ranks ts = ts := by
  rw [naiveBpe]
  cases ts.length with
  | zero => rfl
  | succ n => rw [naiveMerge, h]

end Llama.Vocab
