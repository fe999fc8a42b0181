import Llama.Vocab.BpeChain

/-!
# The queue of bigrams

Every bigram of the queue says where its two tokens were when it was made, and every pair of
the chain that has a rank has its bigram in the queue. Since a symbol only grows or dies, the
bigram on top whose text is still there is a pair of the chain, and the one that the reference
merges.
-/

namespace Llama.Vocab

open List

variable {α β : Type} {ranks : Ranks} {word : List UInt8} {syms : List Symbol} {s s' : BpeSession}
  {L P Q : List Nat} {q q' rest : List Bigram} {left right : Option Nat} {i j k : Nat} {b : Bigram}

/-- The result is as said, unless the assertions of `find_bpe_rank` do not hold for the word. -/
def Asserts (word : List UInt8) (o : Option α) (R : α → Prop) : Prop :=
  (∃ a, o = some a ∧ R a) ∨ (o = none ∧ plainToken word = false)

variable {R : α → Prop} {o : Option α} {l r : Symbol}

theorem Asserts.some {a : α} (h : R a) : Asserts word (some a) R := .inl ⟨a, rfl, h⟩

theorem Asserts.bind {f : α → Option β} {R' : β → Prop} (h : Asserts word o R)
    (hf : ∀ a, R a → Asserts word (f a) R') : Asserts word (o >>= f) R' := by
  obtain ⟨a, rfl, ha⟩ | ⟨rfl, hw⟩ := h
  · exact hf a ha
  · exact .inr ⟨rfl, hw⟩

theorem Asserts.mono {R' : α → Prop} (h : Asserts word o R) (hR : ∀ a, R a → R' a) :
    Asserts word o R' :=
  h.imp (fun ⟨a, ho, ha⟩ => ⟨a, ho, hR a ha⟩) id

theorem plainToken_slice (h : plainToken word = true) (offset length : Nat) :
    plainToken (slice word offset length) = true := by
  rw [plainToken, all_eq_true] at h ⊢
  exact fun c hc => h c (mem_of_mem_drop (mem_of_mem_take hc))

theorem findBpeRank_asserts (l r : Symbol) :
    Asserts word (findBpeRank ranks (l.token word) (r.token word))
      (· = ranks (l.token word) (r.token word)) := by
  rw [findBpeRank]
  split
  · exact .some rfl
  · refine .inr ⟨rfl, Bool.eq_false_iff.mpr fun hw => ?_⟩
    rw [Symbol.token, Symbol.token, plainToken_slice hw, plainToken_slice hw] at *
    contradiction

/-- The bigram was made for two neighbours that the symbols still tell: their texts start where
they started, and the left one has not shrunk unless it is gone. -/
def Bigram.Made (ranks : Ranks) (word : List UInt8) (syms : List Symbol) (b : Bigram) : Prop :=
  ∃ l r n m, syms[b.left]? = some l ∧ syms[b.right]? = some r ∧ 0 < n ∧ (l.n = 0 ∨ n ≤ l.n) ∧
    l.text + n = r.text ∧ r.text + m ≤ word.length ∧ b.text = slice word l.text (n + m) ∧
    ranks (slice word l.text n) (slice word r.text m) = some b.rank

/-- A pair with a rank has its bigram in the queue. -/
def Queued (ranks : Ranks) (word : List UInt8) (syms : List Symbol) (q : List Bigram)
    (i j : Nat) : Prop :=
  ∀ rank, ranks (tokenAt word syms i) (tokenAt word syms j) = some rank →
    ∃ b ∈ q, b.left = i ∧ b.right = j ∧ b.text = tokenAt word syms i ++ tokenAt word syms j ∧
      b.rank = rank

theorem Queued.mono (h : Queued ranks word syms q i j) (hq : ∀ b ∈ q, b ∈ q') :
    Queued ranks word syms q' i j := fun rank hr =>
  let ⟨b, hb, h⟩ := h rank hr
  ⟨b, hq b hb, h⟩

/-- What `add_new_bigram` does for two neighbours. -/
structure Added (ranks : Ranks) (word : List UInt8) (s : BpeSession) (left right : Option Nat)
    (s' : BpeSession) : Prop where
  symbols : s'.symbols = s.symbols
  old : ∀ b ∈ s.workQueue, b ∈ s'.workQueue
  new : ∀ b ∈ s'.workQueue, b ∈ s.workQueue ∨ b.Made ranks word s.symbols
  length : s'.workQueue.length ≤ s.workQueue.length + 1
  queued : ∀ i ∈ left, ∀ j ∈ right, Queued ranks word s.symbols s'.workQueue i j

theorem addNewBigram_asserts (h : ∀ i ∈ left, ∀ j ∈ right, Neighbours word s.symbols i j) :
    Asserts word (addNewBigram ranks word s left right) (Added ranks word s left right) := by
  cases left with
  | none =>
    exact .some ⟨rfl, fun _ hb => hb, fun _ hb => .inl hb, Nat.le_succ _, nofun⟩
  | some i =>
    cases right with
    | none =>
      exact .some ⟨rfl, fun _ hb => hb, fun _ hb => .inl hb, Nat.le_succ _, fun _ _ => nofun⟩
    | some j =>
      obtain ⟨l, r, hl, hr, hln, hrn, hlr, hle⟩ := h i rfl j rfl
      have htext : l.token word ++ r.token word = slice word l.text (l.n + r.n) := by
        rw [slice_split word l.text (Nat.le_add_right l.n r.n), Nat.add_sub_cancel_left, hlr]
        rfl
      simp only [addNewBigram, hl, hr]
      refine (findBpeRank_asserts l r).bind fun found hfound => ?_
      subst hfound
      cases hrank : ranks (l.token word) (r.token word) with
      | none =>
        refine .some ⟨rfl, fun _ hb => hb, fun _ hb => .inl hb, Nat.le_succ _, ?_⟩
        rintro _ ⟨rfl⟩ _ ⟨rfl⟩ rank hr'
        rw [tokenAt_eq hl, tokenAt_eq hr, hrank] at hr'
        cases hr'
      | some rank =>
        refine .some ⟨rfl, fun _ hb => mem_cons_of_mem _ hb, ?_, le_rfl, ?_⟩
        · intro b hb
          rcases mem_cons.mp hb with rfl | hb
          · exact .inr ⟨l, r, l.n, r.n, hl, hr, hln, .inr le_rfl, hlr, hle, htext, hrank⟩
          · exact .inl hb
        · rintro _ ⟨rfl⟩ _ ⟨rfl⟩ rank' hr'
          rw [tokenAt_eq hl, tokenAt_eq hr] at hr' ⊢
          refine ⟨_, mem_cons_self, rfl, rfl, rfl, ?_⟩
          rw [hrank] at hr'
          exact Option.some.inj hr'

/-- What holds of the session between two bigrams from the queue. -/
structure SessionInv (ranks : Ranks) (word : List UInt8) (s : BpeSession) (L : List Nat) :
    Prop where
  chain : Chain word s.symbols L
  made : ∀ b ∈ s.workQueue, b.Made ranks word s.symbols
  queued : ∀ A i j B, L = A ++ i :: j :: B → Queued ranks word s.symbols s.workQueue i j

/-- The tokens of the chain. -/
abbrev tokens (word : List UInt8) (syms : List Symbol) (L : List Nat) : List (List UInt8) :=
  L.map (tokenAt word syms)

/-- A later symbol of the chain starts behind an earlier one. -/
theorem Linked.order {prev : Option Nat} {pos : Nat} (h : Linked word syms prev pos (P ++ i :: Q))
    (hj : j ∈ Q) (hl : syms[i]? = some l) (hr : syms[j]? = some r) : l.text + l.n ≤ r.text := by
  obtain ⟨pos', -, l', hl', -, -, rfl, -, h⟩ := h.drop
  obtain ⟨r', hr', hle, -⟩ := h.mem hj
  rw [hl] at hl'
  rw [hr] at hr'
  cases hl'
  cases hr'
  exact hle

/-- A bigram whose text is still there is a pair of the chain. -/
theorem Bigram.Made.pair (hb : b.Made ranks word syms) (h : Chain word syms L)
    (hl : syms[b.left]? = some l) (hr : syms[b.right]? = some r) (hln : l.n ≠ 0) (hrn : r.n ≠ 0)
    (htext : l.token word ++ r.token word = b.text) :
    (∃ P Q, L = P ++ b.left :: b.right :: Q) ∧
      ranks (l.token word) (r.token word) = some b.rank := by
  obtain ⟨l', r', n, m, hl', hr', hn, hgrown, hlr, hle, hbt, hrank⟩ := hb
  rw [hl] at hl'
  rw [hr] at hr'
  cases hl'
  cases hr'
  have hleft : b.left ∈ L := by
    by_contra hni
    exact hln (h.dead _ _ hl hni)
  have hright : b.right ∈ L := by
    by_contra hni
    exact hrn (h.dead _ _ hr hni)
  obtain ⟨P, R, rfl⟩ := append_of_mem hleft
  have hR : b.right ∈ R := by
    rcases mem_append.mp hright with hP | hR
    · obtain ⟨P1, P2, rfl⟩ := append_of_mem hP
      rw [append_assoc, cons_append] at h
      have := h.linked.order (mem_append_right P2 mem_cons_self) hr hl
      omega
    · rcases mem_cons.mp hR with he | hR
      · rw [he, hl] at hr
        cases hr
        omega
      · exact hR
  cases R with
  | nil => cases hR
  | cons k R =>
    obtain ⟨l', k', hl', hk, -, hkn, hlk, hkw⟩ := h.linked.neighbours
    rw [hl] at hl'
    cases hl'
    -- the symbol behind the left one is the right one, since the left one has not shrunk
    have hk' : b.right = k := by
      rcases mem_cons.mp hR with he | hR
      · exact he
      · rw [← singleton_append, ← append_assoc] at h
        have := h.linked.order hR hk hr
        omega
    subst hk'
    rw [hr] at hk
    cases hk
    have hnl : n = l.n := by omega
    subst hnl
    have hlen := congrArg List.length htext
    rw [hbt, length_append, Symbol.token, Symbol.token, slice_length (by omega),
      slice_length hkw, slice_length (by omega)] at hlen
    have hmr : m = r.n := by omega
    subst hmr
    exact ⟨⟨P, R, rfl⟩, hrank⟩

theorem Chain.alive (h : Chain word syms L) (hi : i ∈ L) : ∃ sym, syms[i]? = some sym ∧ sym.n ≠ 0 :=
  let ⟨sym, hs, _, hn, _⟩ := h.linked.mem hi
  ⟨sym, hs, Nat.ne_of_gt hn⟩

/-- A bigram that is outdated can be left out. -/
theorem SessionInv.skip (h : SessionInv ranks word s L) (hperm : s.workQueue.Perm (b :: rest))
    (hskip : ∀ l r, s.symbols[b.left]? = some l → s.symbols[b.right]? = some r →
      l.n ≠ 0 → r.n ≠ 0 → l.token word ++ r.token word ≠ b.text) :
    SessionInv ranks word { s with workQueue := rest } L where
  chain := h.chain
  made := fun b' hb' => h.made b' (hperm.mem_iff.mpr (mem_cons_of_mem _ hb'))
  queued := by
    intro A i j B hL rank hr
    obtain ⟨b', hb', hleft, hright, htext, hrank⟩ := h.queued A i j B hL rank hr
    refine ⟨b', ?_, hleft, hright, htext, hrank⟩
    rcases mem_cons.mp (hperm.mem_iff.mp hb') with rfl | hb'
    · obtain ⟨l, hl, hln⟩ := h.chain.alive (i := i) (by rw [hL]; simp)
      obtain ⟨r, hr', hrn⟩ := h.chain.alive (i := j) (by rw [hL]; simp)
      rw [tokenAt_eq hl, tokenAt_eq hr'] at htext
      exact absurd htext.symm
        (hskip l r (by rw [hleft]; exact hl) (by rw [hright]; exact hr') hln hrn)
    · exact hb'

section
variable {l r : Symbol}

/-- A symbol keeps its start; merging lets it grow, or it is gone. -/
theorem Chain.merge_grows (h : Chain word syms (P ++ b.left :: b.right :: Q))
    (hl : syms[b.left]? = some l) (hr : syms[b.right]? = some r) {sym : Symbol}
    (hs : syms[k]? = some sym) :
    ∃ sym', (mergeSymbols syms b l r)[k]? = some sym' ∧ sym'.text = sym.text ∧
      (sym'.n = 0 ∨ (0 < sym.n ∧ sym.n ≤ sym'.n)) := by
  obtain ⟨-, hml, hmr, hmn, hmo⟩ := h.linked.mergeSymbols_at h.nodup hl hr
  by_cases hkl : k = b.left
  · subst hkl
    rw [hl] at hs
    cases hs
    obtain ⟨l', hl', hn⟩ := h.alive (i := b.left) (by simp)
    rw [hl] at hl'
    cases hl'
    exact ⟨_, hml, rfl, .inr ⟨Nat.pos_of_ne_zero hn, Nat.le_add_right _ _⟩⟩
  by_cases hkr : k = b.right
  · subst hkr
    rw [hr] at hs
    cases hs
    exact ⟨_, hmr, rfl, .inl rfl⟩
  have hn : sym.n = 0 ∨ (0 < sym.n ∧ sym.n ≤ sym.n) := by omega
  by_cases hkq : Q.head? = some k
  · exact ⟨_, hmn k sym hkq hs, rfl, hn⟩
  · exact ⟨sym, (hmo k hkl hkr hkq).trans hs, rfl, hn⟩

/-- Merging keeps what the bigrams say. -/
theorem Bigram.Made.merge {b' : Bigram} (hb' : b'.Made ranks word syms)
    (h : Chain word syms (P ++ b.left :: b.right :: Q)) (hl : syms[b.left]? = some l)
    (hr : syms[b.right]? = some r) : b'.Made ranks word (mergeSymbols syms b l r) := by
  obtain ⟨l', r', n, m, hl', hr', hn, hgrown, hlr, hle, hbt, hrank⟩ := hb'
  obtain ⟨l'', hl'', htl, hnl⟩ := h.merge_grows hl hr hl'
  obtain ⟨r'', hr'', htr, -⟩ := h.merge_grows hl hr hr'
  refine ⟨l'', r'', n, m, hl'', hr'', hn, by omega, ?_, ?_, ?_, ?_⟩
  · rw [htl, htr, hlr]
  · rw [htr]
    exact hle
  · rw [htl, hbt]
  · rw [htl, htr, hrank]

section

variable (h : Chain word syms (P ++ b.left :: b.right :: Q)) (hl : syms[b.left]? = some l)
  (hr : syms[b.right]? = some r)
include h hl hr

/-- Merging joins the two tokens and changes no other one. -/
theorem Chain.merge_tokenAt :
    tokenAt word (mergeSymbols syms b l r) b.left = l.token word ++ r.token word ∧
    ∀ i ∈ P ++ Q, tokenAt word (mergeSymbols syms b l r) i = tokenAt word syms i := by
  obtain ⟨-, hml, hmr, hmn, hmo⟩ := h.linked.mergeSymbols_at h.nodup hl hr
  constructor
  · obtain ⟨l', r', hl', hr', -, -, hlr, -⟩ := h.linked.neighbours
    rw [hl] at hl'
    rw [hr] at hr'
    cases hl'
    cases hr'
    rw [tokenAt_eq hml, Symbol.token, slice_split word _ (Nat.le_add_right l.n r.n),
      Nat.add_sub_cancel_left, hlr]
    rfl
  · intro i hi
    have hnd := h.nodup
    have hne : i ≠ b.left ∧ i ≠ b.right := by
      constructor <;> rintro rfl <;> simp [nodup_append, nodup_cons] at hnd hi <;> grind
    by_cases hiq : Q.head? = some i
    · obtain ⟨sym, hs, -⟩ := h.alive (i := i) (by
        have := mem_of_mem_head? hiq
        simp [this])
      rw [tokenAt_eq (hmn i sym hiq hs), tokenAt_eq hs]
      rfl
    · rw [tokenAt, tokenAt, hmo i hne.1 hne.2 hiq]

theorem Chain.merge_tokens : tokens word (mergeSymbols syms b l r) (P ++ b.left :: Q) =
      tokens word syms P ++ (l.token word ++ r.token word) :: tokens word syms Q := by
  obtain ⟨hleft, hsame⟩ := h.merge_tokenAt hl hr
  rw [tokens, map_append, map_cons, hleft,
    map_congr_left fun i hi => hsame i (mem_append_left Q hi),
    map_congr_left fun i hi => hsame i (mem_append_right P hi)]

end

/-- A pair of the chain after merging has the merged symbol in it, or was a pair before. -/
theorem pair_of_merged {x y : Nat} {A B : List Nat} (h : P ++ i :: Q = A ++ x :: y :: B) :
    x = i ∨ y = i ∨ ∃ A' B', P ++ i :: j :: Q = A' ++ x :: y :: B' ∧ x ∈ P ++ Q ∧ y ∈ P ++ Q := by
  obtain ⟨C, rfl, hC⟩ | ⟨C, rfl, hC⟩ := append_eq_append_iff.mp h
  · cases C with
    | nil =>
      cases hC
      exact .inl rfl
    | cons c C =>
      cases hC
      exact .inr (.inr ⟨P ++ i :: j :: C, B, by simp⟩)
  · match C with
    | [] =>
      cases hC
      exact .inl rfl
    | [_] =>
      cases hC
      exact .inr (.inl rfl)
    | _ :: _ :: C =>
      cases hC
      exact .inr (.inr ⟨A, C ++ i :: j :: Q, by simp⟩)

theorem Chain.links (h : Chain word syms (P ++ i :: j :: Q)) :
    (∃ l, syms[i]? = some l ∧ l.next = some j) ∧ ∃ r, syms[j]? = some r ∧ r.prev = some i := by
  obtain ⟨pos', -, l, hl, -, hn, -, -, r, hr, hp, -⟩ := h.linked.drop
  exact ⟨⟨l, hl, hn⟩, r, hr, hp⟩

/-- The neighbours of the merged symbol. -/
theorem Chain.merge_neighbours (h : Chain word syms (P ++ b.left :: b.right :: Q))
    (hl : syms[b.left]? = some l) (hr : syms[b.right]? = some r) :
    (∀ i ∈ l.prev, Neighbours word (mergeSymbols syms b l r) i b.left) ∧
    ∀ j ∈ r.next, Neighbours word (mergeSymbols syms b l r) b.left j := by
  have hm := h.merge hl hr
  obtain ⟨hnext, -⟩ := h.linked.mergeSymbols_at h.nodup hl hr
  constructor
  · intro i hi
    obtain ⟨pos', -, l', hl', hprev, -⟩ := h.linked.drop
    rw [hl] at hl'
    cases hl'
    rw [hprev, Option.or_none] at hi
    obtain ⟨P', rfl⟩ := mem_getLast?_eq_getLast hi |> fun ⟨hne, he⟩ =>
      (⟨P.dropLast, by rw [he]; exact (dropLast_append_getLast hne).symm⟩ :
        ∃ P', P = P' ++ [i])
    rw [append_assoc] at hm
    exact hm.linked.neighbours
  · intro j hj
    rw [hnext] at hj
    cases Q with
    | nil => cases hj
    | cons q Q =>
      cases hj
      exact hm.linked.neighbours

/-- Merging a pair and queueing its two new pairs keeps the invariant. -/
theorem SessionInv.merge (h : SessionInv ranks word s (P ++ b.left :: b.right :: Q))
    (hperm : s.workQueue.Perm (b :: rest)) (hl : s.symbols[b.left]? = some l)
    (hr : s.symbols[b.right]? = some r) {s₁ s₂ : BpeSession}
    (h₁ : Added ranks word { symbols := mergeSymbols s.symbols b l r, workQueue := rest }
      l.prev (some b.left) s₁)
    (h₂ : Added ranks word s₁ (some b.left) r.next s₂) :
    SessionInv ranks word s₂ (P ++ b.left :: Q) := by
  have hsym : s₂.symbols = mergeSymbols s.symbols b l r := h₂.symbols.trans h₁.symbols
  have hm := h.chain.merge hl hr
  obtain ⟨hnext, hml, -⟩ := h.chain.linked.mergeSymbols_at h.chain.nodup hl hr
  refine ⟨by rw [hsym]; exact hm, ?_, ?_⟩
  · intro b' hb'
    rw [hsym]
    rcases h₂.new b' hb' with hb' | hb'
    · rcases h₁.new b' hb' with hb' | hb'
      · exact (h.made b' (hperm.mem_iff.mpr (mem_cons_of_mem _ hb'))).merge h.chain hl hr
      · exact hb'
    · rw [h₁.symbols] at hb'
      exact hb'
  · intro A i j B hL
    rw [hsym]
    have hlinks := hm
    rw [hL] at hlinks
    obtain ⟨⟨x, hx, hxn⟩, y, hy, hyp⟩ := hlinks.links
    rcases pair_of_merged (j := b.right) hL with rfl | rfl | ⟨A', B', hL', hi, hj⟩
    · rw [hml] at hx
      cases hx
      have := h₂.queued b.left rfl j hxn
      rwa [h₁.symbols] at this
    · rw [hml] at hy
      cases hy
      exact (h₁.queued i hyp b.left rfl).mono h₂.old
    · obtain ⟨-, hsame⟩ := h.chain.merge_tokenAt hl hr
      intro rank hrank
      rw [hsame i hi, hsame j hj] at hrank ⊢
      obtain ⟨b', hb', hleft, h'⟩ := h.queued A' i j B' hL' rank hrank
      refine ⟨b', h₂.old b' (h₁.old b' ?_), hleft, h'⟩
      rcases mem_cons.mp (hperm.mem_iff.mp hb') with rfl | hb'
      · exfalso
        have hnd := h.chain.nodup
        simp [nodup_append, nodup_cons] at hnd hi
        grind
      · exact hb'

/-- Neighbours among the tokens are neighbours of the chain. -/
theorem tokens_pair {x y : List UInt8} {A B : List (List UInt8)}
    (h : tokens word syms L = A ++ x :: y :: B) :
    ∃ A' i j B', L = A' ++ i :: j :: B' ∧ tokenAt word syms i = x ∧ tokenAt word syms j = y := by
  obtain ⟨A', R, rfl, -, hR⟩ := map_eq_append_iff.mp h
  obtain ⟨i, R, rfl, hi, hR⟩ := map_eq_cons_iff.mp hR
  obtain ⟨j, B', rfl, hj, -⟩ := map_eq_cons_iff.mp hR
  exact ⟨A', i, j, B', rfl, hi, hj⟩

/-- The pair of the bigram on top is the one that the reference merges. -/
theorem SessionInv.naiveStep (h : SessionInv ranks word s (P ++ b.left :: b.right :: Q))
    (hmin : ∀ b' ∈ s.workQueue, ¬ b'.before b)
    (hrank : ranks (tokenAt word s.symbols b.left) (tokenAt word s.symbols b.right) = some b.rank) :
    naiveStep ranks (tokens word s.symbols (P ++ b.left :: b.right :: Q)) =
      some (tokens word s.symbols P ++ (tokenAt word s.symbols b.left ++
        tokenAt word s.symbols b.right) :: tokens word s.symbols Q) := by
  rw [tokens, map_append, map_cons, map_cons]
  refine naiveStep_eq hrank ?_ ?_
  · intro A x y B r' hL hr'
    rw [← map_cons, ← map_cons, ← map_append] at hL
    obtain ⟨A', i, j, B', hij, rfl, rfl⟩ := tokens_pair hL
    obtain ⟨b', hb', -, -, -, rfl⟩ := h.queued A' i j B' hij r' hr'
    have := hmin b' hb'
    rw [Bigram.before] at this
    omega
  · intro A x y B hL hr'
    rw [← map_singleton, ← map_append] at hL
    obtain ⟨A', i, j, B', hij, rfl, rfl⟩ := tokens_pair hL
    have hL' : P ++ b.left :: b.right :: Q = A' ++ i :: j :: (B' ++ b.right :: Q) := by
      rw [← singleton_append, ← append_assoc, hij]
      simp
    obtain ⟨b', hb', hleft, -, -, hb''⟩ := h.queued A' i j _ hL' _ hr'
    -- the pair ends at the left symbol or before it, so it is further left
    have hlt : i < b.left := by
      have hsorted : (P ++ [b.left]).Pairwise (· < ·) :=
        h.chain.sorted.sublist (List.Sublist.append_left (by simp) P)
      have hi : i ∈ P := by
        rcases eq_nil_or_concat B' with rfl | ⟨B', c, rfl⟩
        · have := congrArg List.dropLast hij
          simp at this
          simp [this]
        · have := congrArg List.dropLast hij
          simp at this
          simp [this]
      exact (pairwise_append.mp hsorted).2.2 i hi b.left (by simp)
    have := hmin b' hb'
    rw [Bigram.before] at this
    omega

end

end Llama.Vocab
