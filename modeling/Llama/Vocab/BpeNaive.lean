import Llama.Vocab.BpeQueue

/-!
# The queue merges as the reference does

A bigram from the queue is outdated, and nothing happens, or the session merges the pair that
the reference merges. So the loop ends at what the reference ends at.
-/

namespace Llama.Vocab

open List

open Peg (encode)

variable {pq : PriorityQueue} {ranks : Ranks} {word : List UInt8} {s : BpeSession}
  {L : List Nat} {rest : List Bigram} {b : Bigram} {turns : Nat}

/-- The bigrams that wait and the merges that are left, which bound the turns of the loop. -/
def BpeSession.work (s : BpeSession) (L : List Nat) : Nat := s.workQueue.length + 2 * L.length

/-- What the loop keeps: the reference ends at the same tokens. -/
structure LoopInv (ranks : Ranks) (word : List UInt8) (target : List (List UInt8))
    (s : BpeSession) (L : List Nat) : Prop where
  session : SessionInv ranks word s L
  target : naiveBpe ranks (tokens word s.symbols L) = target

variable {target : List (List UInt8)}

section

variable (h : LoopInv ranks word target s L)
include h

/-- The loop body keeps the invariant, and less work is left. -/
theorem processBigram_asserts (hperm : s.workQueue.Perm (b :: rest))
    (hmin : ∀ b' ∈ s.workQueue, ¬ b'.before b) :
    Asserts word (processBigram ranks word { s with workQueue := rest } b) fun s' =>
      ∃ L', LoopInv ranks word target s' L' ∧ s'.work L' < s.work L := by
  have hlen := hperm.length_eq
  rw [length_cons] at hlen
  obtain ⟨l, r, n, m, hl, hr, -⟩ := h.session.made b (hperm.mem_iff.mpr mem_cons_self)
  have hskip : (∀ l' r', s.symbols[b.left]? = some l' → s.symbols[b.right]? = some r' →
      l'.n ≠ 0 → r'.n ≠ 0 → l'.token word ++ r'.token word ≠ b.text) →
      Asserts word (some { s with workQueue := rest }) fun s' =>
        ∃ L', LoopInv ranks word target s' L' ∧ s'.work L' < s.work L := fun hstale =>
    .some ⟨L, ⟨h.session.skip hperm hstale, h.target⟩, by simp only [BpeSession.work]; omega⟩
  simp only [processBigram, hl, hr]
  split_ifs with hdead htext
  · refine hskip fun l' r' hl' hr' hln hrn => ?_
    rw [hl] at hl'
    rw [hr] at hr'
    cases hl'
    cases hr'
    exact absurd hdead (by omega)
  · refine hskip fun l' r' hl' hr' _ _ => ?_
    rw [hl] at hl'
    rw [hr] at hr'
    cases hl'
    cases hr'
    exact htext
  · have hmade := h.session.made b (hperm.mem_iff.mpr mem_cons_self)
    obtain ⟨⟨P, Q, rfl⟩, hrank⟩ := hmade.pair h.session.chain hl hr (by omega) (by omega)
      (not_not.mp htext)
    obtain ⟨hprev, hnext⟩ := h.session.chain.merge_neighbours hl hr
    have hstep := h.session.naiveStep hmin (by rw [tokenAt_eq hl, tokenAt_eq hr, hrank])
    refine (addNewBigram_asserts fun i hi j hj => ?_).bind fun s₁ h₁ =>
      (addNewBigram_asserts fun i hi j hj => ?_).mono fun s₂ h₂ =>
        ⟨P ++ b.left :: Q, ⟨h.session.merge hperm hl hr h₁ h₂, ?_⟩, ?_⟩
    · cases hj
      exact hprev i hi
    · cases hi
      rw [h₁.symbols]
      exact hnext j hj
    · rw [h₂.symbols, h₁.symbols, h.session.chain.merge_tokens hl hr, ← h.target,
        naiveBpe_step hstep, tokenAt_eq hl, tokenAt_eq hr]
    · have hlen₁ := h₁.length
      have hlen₂ := h₂.length
      simp only [BpeSession.work, length_append, length_cons] at hlen₁ ⊢
      omega

/-- When no bigram waits, the reference stops too. -/
theorem LoopInv.done (hq : s.workQueue = []) :
    (s.symbols.filter fun sym => 0 < sym.n).map (·.token word) = target := by
  rw [h.session.chain.filter, ← h.target, naiveBpe_stop]
  refine naiveStep_eq_none fun A x y B hL => ?_
  obtain ⟨A', i, j, B', hij, rfl, rfl⟩ := tokens_pair hL
  cases hr : ranks (tokenAt word s.symbols i) (tokenAt word s.symbols j) with
  | none => rfl
  | some rank =>
    obtain ⟨b, hb, -⟩ := h.session.queued A' i j B' hij rank hr
    rw [hq] at hb
    cases hb

/-- The loop ends where the reference does. -/
theorem buildLoop_asserts (hturns : s.work L ≤ turns) :
    Asserts word (buildLoop pq ranks word turns s) fun symbols =>
      (symbols.filter fun sym => 0 < sym.n).map (·.token word) = target := by
  induction turns generalizing s L with
  | zero =>
    have hq : s.workQueue = [] := length_eq_zero_iff.mp (by
      rw [BpeSession.work] at hturns
      omega)
    rw [buildLoop, hq]
    exact .some (h.done hq)
  | succ turns ih =>
    rw [buildLoop]
    by_cases hq : s.workQueue = []
    · rw [hq, pq.pop_nil]
      exact .some (h.done hq)
    · obtain ⟨b, rest, hpop, hperm, hmin⟩ := pq.pop_cons s.workQueue hq
      rw [hpop]
      refine (processBigram_asserts h hperm hmin).bind fun s' ⟨L', h', hlt⟩ => ih h' ?_
      omega

end

theorem lenUtf8_pos (b : UInt8) : 0 < lenUtf8 b := by
  rw [lenUtf8]
  split_ifs <;> omega

/-- The first character of a text, as a part of it. -/
theorem splitUtf8_drop {offset : Nat} {c : UInt8} {cs : List UInt8}
    (h : word.drop offset = c :: cs) :
    splitUtf8 (word.drop offset) =
      slice word offset (min (word.length - offset) (lenUtf8 c)) ::
        splitUtf8 (word.drop (offset + min (word.length - offset) (lenUtf8 c))) := by
  have hpos := lenUtf8_pos c
  obtain ⟨n, hn⟩ : ∃ n, lenUtf8 c = n + 1 := ⟨lenUtf8 c - 1, by omega⟩
  have hlen : word.length - offset = cs.length + 1 := by
    rw [← length_drop, h, length_cons]
  rw [slice, ← drop_drop, h, splitUtf8, hn, hlen, Nat.add_min_add_right,
    Nat.add_sub_cancel, take_succ_cons, drop_succ_cons]
  rcases Nat.le_total cs.length n with hle | hle
  · rw [min_eq_left hle, take_of_length_le hle, drop_of_length_le hle, take_length, drop_length]
  · rw [min_eq_right hle]

theorem splitSymbols_eq_nil {index offset : Nat} (hturns : word.length - offset ≤ turns) :
    splitSymbols word turns index offset = [] ↔ word.length ≤ offset := by
  cases turns with
  | zero => exact iff_of_true rfl (by omega)
  | succ turns =>
    rw [splitSymbols]
    cases hdrop : word.drop offset with
    | nil => exact iff_of_true rfl (drop_eq_nil_iff.mp hdrop)
    | cons c cs =>
      refine iff_of_false (cons_ne_nil _ _) fun hle => ?_
      rw [drop_eq_nil_iff.mpr hle] at hdrop
      cases hdrop

/-- The symbols of the characters are linked, in front of nothing and behind any others. -/
theorem splitSymbols_linked {offset : Nat} (pre : List Symbol) (h : offset ≤ word.length)
    (hturns : word.length - offset ≤ turns) :
    Linked word (pre ++ splitSymbols word turns pre.length offset)
      (if pre.length = 0 then none else some (pre.length - 1)) offset
      (range' pre.length (splitSymbols word turns pre.length offset).length) ∧
    tokens word (pre ++ splitSymbols word turns pre.length offset)
      (range' pre.length (splitSymbols word turns pre.length offset).length) =
      splitUtf8 (word.drop offset) := by
  induction turns generalizing pre offset with
  | zero =>
    obtain rfl : offset = word.length := by omega
    simp [splitSymbols, splitUtf8, Linked]
  | succ turns ih =>
    cases hdrop : word.drop offset with
    | nil =>
      have hle := drop_eq_nil_iff.mp hdrop
      obtain rfl : offset = word.length := by omega
      simp [splitSymbols, splitUtf8, Linked]
    | cons c cs =>
      have hpos := lenUtf8_pos c
      have hlen := congrArg List.length hdrop
      rw [length_drop, length_cons] at hlen
      rw [← hdrop, splitUtf8_drop hdrop]
      simp only [splitSymbols, hdrop]
      obtain ⟨n, hn⟩ : ∃ n, n = min (word.length - offset) (lenUtf8 c) := ⟨_, rfl⟩
      rw [← hn]
      obtain ⟨sym, hsym⟩ : ∃ sym : Symbol, sym =
        { prev := if pre.length = 0 then none else some (pre.length - 1)
          next := if offset + n = word.length then none else some (pre.length + 1)
          text := offset, n := n } := ⟨_, rfl⟩
      rw [← hsym]
      have hih := @ih (offset + n) (pre ++ [sym]) (by omega) (by omega)
      rw [length_append, length_singleton, append_assoc,
        singleton_append, if_neg (Nat.succ_ne_zero _), Nat.add_sub_cancel] at hih
      have hnil := @splitSymbols_eq_nil word turns (pre.length + 1) (offset + n) (by omega)
      generalize splitSymbols word turns (pre.length + 1) (offset + n) = rest at hih hnil
      have hat : (pre ++ sym :: rest)[pre.length]? = some sym := by simp
      have hnext : sym.next = (range' (pre.length + 1) rest.length).head? := by
        rw [hsym]
        cases rest with
        | nil =>
          have := hnil.mp rfl
          exact if_pos (by omega)
        | cons sym' rest =>
          refine if_neg fun he => ?_
          exact absurd (hnil.mpr (by omega)) (cons_ne_nil _ _)
      have htoken : tokenAt word (pre ++ sym :: rest) pre.length = slice word offset n := by
        rw [tokenAt_eq hat, Symbol.token, hsym]
      rw [length_cons, range'_succ, tokens, map_cons, htoken]
      refine ⟨⟨sym, hat, ?_, hnext, ?_, ?_, ?_⟩, congrArg (slice word offset n :: ·) hih.2⟩
      · rw [hsym]
      · rw [hsym]
      · rw [hsym]
        exact Nat.lt_of_lt_of_le (by omega) (le_of_eq hn.symm)
      · rw [show offset + sym.n = offset + n by rw [hsym]]
        exact hih.1

/-- The bigrams of the neighbours among the first symbols are in the queue. -/
theorem initialBigrams_asserts {symbols : List Symbol}
    (h : Chain word symbols (range' 0 symbols.length)) :
    Asserts word (initialBigrams ranks word symbols) fun s =>
      s.symbols = symbols ∧ SessionInv ranks word s (range' 0 symbols.length) ∧
      s.workQueue.length ≤ symbols.length := by
  have hnei : ∀ i, i + 1 < symbols.length → Neighbours word symbols i (i + 1) := fun i hi => by
    obtain ⟨m, hm⟩ : ∃ m, symbols.length = i + (m + 2) := ⟨symbols.length - i - 2, by omega⟩
    have hlink := h.linked
    rw [hm, ← range'_append_1, Nat.zero_add, range'_succ, range'_succ] at hlink
    exact hlink.neighbours
  have hrun : ∀ n, n ≤ symbols.length - 1 →
      Asserts word ((range' 1 n).foldlM
        (fun s i => addNewBigram ranks word s (some (i - 1)) (some i))
        { symbols := symbols, workQueue := [] }) fun s =>
        s.symbols = symbols ∧ (∀ b ∈ s.workQueue, b.Made ranks word symbols) ∧
        s.workQueue.length ≤ n ∧
        ∀ i, i < n → Queued ranks word symbols s.workQueue i (i + 1) := by
    intro n hn
    induction n with
    | zero => exact .some ⟨rfl, nofun, le_rfl, nofun⟩
    | succ n ih =>
      rw [range'_1_concat, foldlM_append]
      refine (ih (by omega)).bind fun s ⟨hsym, hmade, hlen, hqueued⟩ => ?_
      rw [foldlM_cons, Nat.add_sub_cancel_left, Nat.add_comm 1 n]
      refine (addNewBigram_asserts fun i hi j hj => ?_).bind fun s' h' => .some ⟨?_, ?_, ?_, ?_⟩
      · cases hi
        cases hj
        rw [hsym]
        exact hnei n (by omega)
      · exact h'.symbols.trans hsym
      · intro b hb
        rcases h'.new b hb with hb | hb
        · exact hmade b hb
        · rwa [hsym] at hb
      · have := h'.length
        omega
      · intro i hi
        rcases Nat.lt_or_eq_of_le (Nat.le_of_lt_succ hi) with hi | rfl
        · exact (hqueued i hi).mono h'.old
        · have := h'.queued i rfl (i + 1) rfl
          rwa [hsym] at this
  refine (hrun (symbols.length - 1) le_rfl).mono fun s ⟨hsym, hmade, hlen, hqueued⟩ => ?_
  refine ⟨hsym, ⟨hsym ▸ h, hsym ▸ hmade, ?_⟩, by omega⟩
  intro A i j B hL
  have hlen := congrArg List.length hL
  simp only [length_range', length_append, length_cons] at hlen
  have hi : (range' 0 symbols.length)[A.length]? = some i := by rw [hL]; simp
  have hj : (range' 0 symbols.length)[A.length + 1]? = some j := by rw [hL]; simp
  rw [getElem?_range' (by omega), Option.some_inj] at hi hj
  obtain rfl : j = i + 1 := by omega
  rw [hsym]
  exact hqueued i (by omega)

/-- The symbols of the characters are a chain. -/
theorem initialSymbols_chain (word : List UInt8) :
    Chain word (initialSymbols word false) (range' 0 (initialSymbols word false).length) ∧
    tokens word (initialSymbols word false)
      (range' 0 (initialSymbols word false).length) = splitUtf8 word := by
  obtain ⟨hlinked, htokens⟩ := @splitSymbols_linked word word.length 0 [] (Nat.zero_le _) le_rfl
  refine ⟨⟨hlinked, pairwise_lt_range', fun i sym hs hi => absurd ?_ hi⟩, htokens⟩
  have := (List.getElem?_eq_some_iff.mp hs).1
  exact mem_range'_1.mpr ⟨Nat.zero_le i, by omega⟩

/-- The queue leaves the symbols that the reference leaves, and they spell the word; the
reference starts from the characters. -/
theorem bpeWord_eq_naiveBpe (pq : PriorityQueue) (ranks : Ranks) (word : List UInt8) :
    (bpeWord pq ranks false word = some (naiveBpe ranks (splitUtf8 word)) ∨
      (bpeWord pq ranks false word = none ∧ plainToken word = false)) ∧
    (naiveBpe ranks (splitUtf8 word)).flatten = word ∧
    ∀ cs : List Char, word = encode cs → splitUtf8 word = cs.map String.utf8EncodeChar := by
  refine ⟨?_, (naiveBpe_flatten ranks _).trans (splitUtf8_flatten word), ?_⟩
  · obtain ⟨hchain, htokens⟩ := initialSymbols_chain word
    have hrun : Asserts word (bpeWord pq ranks false word)
        (· = naiveBpe ranks (splitUtf8 word)) := by
      refine (initialBigrams_asserts hchain).bind fun s ⟨hsym, hinv, hlen⟩ => ?_
      have hloop : LoopInv ranks word (naiveBpe ranks (splitUtf8 word)) s _ :=
        ⟨hinv, by rw [hsym, htokens]⟩
      refine (buildLoop_asserts hloop ?_).bind fun symbols hs => .some hs
      rw [BpeSession.work, length_range']
      omega
    exact hrun.imp (fun ⟨a, ho, ha⟩ => ha ▸ ho) id
  · rintro cs rfl
    exact splitUtf8_encode cs

/-- `b c` is merged first, so that `a b` is outdated and `a bc` takes its place. -/
example : bpeWord .scan (fun l r => if (l, r) = ([97], [98]) then some 1
    else if (l, r) = ([98], [99]) then some 0
    else if (l, r) = ([97], [98, 99]) then some 5 else none) false [97, 98, 99, 98] =
    some [[97, 98, 99], [98]] := by decide

end Llama.Vocab
