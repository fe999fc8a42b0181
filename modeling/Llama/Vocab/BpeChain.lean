import Llama.Vocab.Bpe

/-!
# The chain of symbols

The symbols that are left are linked in the order of the word and cover it. A bigram of the
queue remembers where its two tokens were; it is outdated exactly when one of them is gone or
the right one has grown. Merging a pair keeps the chain.
-/

namespace Llama.Vocab

open List

variable {word : List UInt8} {syms syms' : List Symbol} {L P Q : List Nat} {prev : Option Nat}
  {pos i j k : Nat} {b : Bigram}

/-- The symbols with these indices are linked and cover the word from a position on. -/
def Linked (word : List UInt8) (syms : List Symbol) : Option Nat → Nat → List Nat → Prop
  | _, pos, [] => pos = word.length
  | prev, pos, i :: rest => ∃ sym, syms[i]? = some sym ∧ sym.prev = prev ∧
      sym.next = rest.head? ∧ sym.text = pos ∧ 0 < sym.n ∧
      Linked word syms (some i) (pos + sym.n) rest

def tokenAt (word : List UInt8) (syms : List Symbol) (i : Nat) : List UInt8 :=
  match syms[i]? with
  | some sym => sym.token word
  | none => []

theorem tokenAt_eq {sym : Symbol} (h : syms[i]? = some sym) :
    tokenAt word syms i = sym.token word := by
  simp only [tokenAt, h]

theorem Linked.le (h : Linked word syms prev pos L) : pos ≤ word.length := by
  induction L generalizing prev pos with
  | nil => exact le_of_eq h
  | cons i L ih =>
    obtain ⟨sym, -, -, -, -, -, h⟩ := h
    have := ih h
    omega

/-- The symbols behind some of the chain are a chain. -/
theorem Linked.drop (h : Linked word syms prev pos (P ++ Q)) :
    ∃ pos', pos ≤ pos' ∧ Linked word syms (P.getLast?.or prev) pos' Q := by
  induction P generalizing prev pos with
  | nil => exact ⟨pos, le_rfl, h⟩
  | cons i P ih =>
    obtain ⟨sym, -, -, -, -, -, h⟩ := h
    obtain ⟨pos', hle, h'⟩ := ih h
    refine ⟨pos', by omega, ?_⟩
    cases P with
    | nil => exact h'
    | cons j P => simpa [getLast?_cons] using h'

/-- Every symbol of the chain lies behind its start and is not empty. -/
theorem Linked.mem (h : Linked word syms prev pos L) (hi : i ∈ L) :
    ∃ sym, syms[i]? = some sym ∧ pos ≤ sym.text ∧ 0 < sym.n ∧
      sym.text + sym.n ≤ word.length := by
  obtain ⟨P, Q, rfl⟩ := append_of_mem hi
  obtain ⟨pos', hle, sym, hs, -, -, rfl, hn, h⟩ := h.drop
  exact ⟨sym, hs, hle, hn, h.le⟩

/-- The chain only looks at its own symbols. -/
theorem Linked.congr (h : Linked word syms prev pos L)
    (hsame : ∀ i ∈ L, syms'[i]? = syms[i]?) : Linked word syms' prev pos L := by
  induction L generalizing prev pos with
  | nil => exact h
  | cons i L ih =>
    obtain ⟨sym, hs, hp, hn, ht, h0, h⟩ := h
    rw [forall_mem_cons] at hsame
    exact ⟨sym, hsame.1.trans hs, hp, hn, ht, h0, ih h hsame.2⟩

/-- Two symbols that follow each other in the word. -/
def Neighbours (word : List UInt8) (syms : List Symbol) (i j : Nat) : Prop :=
  ∃ l r, syms[i]? = some l ∧ syms[j]? = some r ∧ 0 < l.n ∧ 0 < r.n ∧ l.text + l.n = r.text ∧
    r.text + r.n ≤ word.length

theorem Linked.neighbours (h : Linked word syms prev pos (P ++ i :: j :: Q)) :
    Neighbours word syms i j := by
  obtain ⟨pos', -, l, hl, -, -, rfl, hln, r, hr, -, -, hrt, hrn, h⟩ := h.drop
  exact ⟨l, r, hl, hr, hln, hrn, hrt.symm, by have := h.le; omega⟩

/-- The chain of all symbols that are left. -/
structure Chain (word : List UInt8) (syms : List Symbol) (L : List Nat) : Prop where
  linked : Linked word syms none 0 L
  sorted : L.Pairwise (· < ·)
  dead : ∀ i sym, syms[i]? = some sym → i ∉ L → sym.n = 0

theorem Chain.nodup (h : Chain word syms L) : L.Nodup := h.sorted.imp fun hlt => Nat.ne_of_lt hlt

/-- The indices of the symbols that are not empty. -/
def nonempty (syms : List Symbol) : List Nat :=
  (range syms.length).filter fun i =>
    match syms[i]? with
    | some sym => 0 < sym.n
    | none => false

theorem mem_nonempty : i ∈ nonempty syms ↔ ∃ sym, syms[i]? = some sym ∧ 0 < sym.n := by
  rw [nonempty, mem_filter, mem_range]
  constructor
  · rintro ⟨hi, hpos⟩
    refine ⟨_, getElem?_eq_getElem hi, ?_⟩
    simpa [getElem?_eq_getElem hi] using hpos
  · rintro ⟨sym, hs, hpos⟩
    exact ⟨(List.getElem?_eq_some_iff.mp hs).1, by simpa [hs] using hpos⟩

/-- Going over the vector and going over these indices is the same. -/
theorem map_nonempty (word : List UInt8) (syms : List Symbol) :
    (nonempty syms).map (tokenAt word syms) =
      (syms.filter fun sym => 0 < sym.n).map (·.token word) := by
  induction syms using List.reverseRecOn with
  | nil => rfl
  | append_singleton syms sym ih =>
    have hlt : ∀ i ∈ range syms.length, (syms ++ [sym])[i]? = syms[i]? := fun i hi =>
      getElem?_append_left (mem_range.mp hi)
    have hold : ((range syms.length).filter fun i =>
        match (syms ++ [sym])[i]? with
        | some sym => decide (0 < sym.n)
        | none => false) = nonempty syms :=
      filter_congr fun i hi => by rw [hlt i hi]
    have hmap : (nonempty syms).map (tokenAt word (syms ++ [sym])) =
        (nonempty syms).map (tokenAt word syms) :=
      map_congr_left fun i hi => by
        simp only [tokenAt, hlt i (mem_of_mem_filter hi)]
    have hlast : (syms ++ [sym])[syms.length]? = some sym := by simp
    rw [nonempty, length_append, length_singleton, range_succ, filter_append,
      hold, map_append, hmap, ih, filter_append, map_append]
    congr 1
    by_cases hn : 0 < sym.n
    · simp [hn, tokenAt]
    · simp [hn]

/-- The symbols that are not empty are the chain. -/
theorem Chain.filter (h : Chain word syms L) :
    (syms.filter fun sym => 0 < sym.n).map (·.token word) = L.map (tokenAt word syms) := by
  have hL : nonempty syms = L := by
    refine List.Perm.eq_of_pairwise (fun a b _ _ hab hba => absurd hab (Nat.lt_asymm hba))
      (pairwise_lt_range.filter _) h.sorted ?_
    refine (perm_ext_iff_of_nodup (nodup_range.filter _) h.nodup).mpr fun i => ?_
    rw [← nonempty, mem_nonempty]
    constructor
    · rintro ⟨sym, hsym, hpos⟩
      by_contra hni
      have := h.dead i sym hsym hni
      omega
    · intro hi
      obtain ⟨sym, hsym, -, hn, -⟩ := h.linked.mem hi
      exact ⟨sym, hsym, hn⟩
  rw [← map_nonempty, hL]

variable {l r : Symbol}

/-- What merging does to the vector, at the two symbols, at the one that follows them, and
everywhere else. -/
theorem mergeSymbols_spec (hl : syms[b.left]? = some l) (hr : syms[b.right]? = some r)
    (hne : b.left ≠ b.right) (hnl : r.next ≠ some b.left) (hnr : r.next ≠ some b.right) :
    (mergeSymbols syms b l r)[b.left]? = some { l with n := l.n + r.n, next := r.next } ∧
    (mergeSymbols syms b l r)[b.right]? = some { r with n := 0 } ∧
    (∀ k sym, r.next = some k → syms[k]? = some sym →
      (mergeSymbols syms b l r)[k]? = some { sym with prev := some b.left }) ∧
    ∀ k, k ≠ b.left → k ≠ b.right → r.next ≠ some k →
      (mergeSymbols syms b l r)[k]? = syms[k]? := by
  have hlt := (List.getElem?_eq_some_iff.mp hl).1
  have hrt := (List.getElem?_eq_some_iff.mp hr).1
  have hset : ∀ k, k ≠ b.left → k ≠ b.right →
      ((syms.set b.left { l with n := l.n + r.n, next := r.next }).set b.right
        { r with n := 0 })[k]? = syms[k]? := fun k h1 h2 => by
    rw [getElem?_set_ne (Ne.symm h2), getElem?_set_ne (Ne.symm h1)]
  have hsl : ((syms.set b.left { l with n := l.n + r.n, next := r.next }).set b.right
      { r with n := 0 })[b.left]? = some { l with n := l.n + r.n, next := r.next } := by
    rw [getElem?_set_ne (Ne.symm hne), getElem?_set_self hlt]
  have hsr : ((syms.set b.left { l with n := l.n + r.n, next := r.next }).set b.right
      { r with n := 0 })[b.right]? = some { r with n := 0 } :=
    getElem?_set_self (by simpa using hrt)
  unfold mergeSymbols
  cases hnext : r.next with
  | none =>
    rw [hnext] at hset hsl hsr
    exact ⟨hsl, hsr, nofun, fun k h1 h2 _ => hset k h1 h2⟩
  | some k =>
    rw [hnext] at hset hsl hsr hnl hnr
    have hkl : k ≠ b.left := fun h => hnl (by rw [h])
    have hkr : k ≠ b.right := fun h => hnr (by rw [h])
    simp only [getElem?_modify]
    refine ⟨?_, ?_, ?_, ?_⟩
    · rw [hsl]
      simp [hkl]
    · rw [hsr]
      simp [hkr]
    · rintro k' sym he hsym
      cases he
      rw [hset k hkl hkr, hsym]
      simp
    · intro k' h1 h2 h3
      have hkk : k ≠ k' := fun h => h3 (by rw [h])
      rw [hset k' h1 h2]
      simp [hkk]

section

variable (h : Linked word syms prev pos (P ++ b.left :: b.right :: Q))
  (hnd : (P ++ b.left :: b.right :: Q).Nodup) (hl : syms[b.left]? = some l)
  (hr : syms[b.right]? = some r)
include h hnd hl hr

/-- What merging a pair of the chain does: the symbol that follows the pair is the next of the
chain, so that only the pair and that symbol change. -/
theorem Linked.mergeSymbols_at : r.next = Q.head? ∧
    (mergeSymbols syms b l r)[b.left]? = some { l with n := l.n + r.n, next := r.next } ∧
    (mergeSymbols syms b l r)[b.right]? = some { r with n := 0 } ∧
    (∀ k sym, Q.head? = some k → syms[k]? = some sym →
      (mergeSymbols syms b l r)[k]? = some { sym with prev := some b.left }) ∧
    ∀ k, k ≠ b.left → k ≠ b.right → Q.head? ≠ some k →
      (mergeSymbols syms b l r)[k]? = syms[k]? := by
  have hQ : r.next = Q.head? := by
    obtain ⟨pos', -, l', -, -, -, -, -, r', hr', -, hn, -⟩ := h.drop
    rw [hr] at hr'
    cases hr'
    exact hn
  have hmem : ∀ k, r.next = some k → k ∈ Q := fun k hk => mem_of_mem_head? (by
    rw [← hQ, hk]
    rfl)
  obtain ⟨hleft, hright⟩ := nodup_cons.mp (nodup_append.mp hnd).2.1
  obtain ⟨hright, -⟩ := nodup_cons.mp hright
  rw [mem_cons, not_or] at hleft
  have hspec := mergeSymbols_spec hl hr hleft.1 (fun he => hleft.2 (hmem _ he))
    (fun he => hright (hmem _ he))
  rw [← hQ]
  exact ⟨rfl, hspec⟩

/-- Merging two symbols that follow each other keeps the links. -/
theorem Linked.merge : Linked word (mergeSymbols syms b l r) prev pos (P ++ b.left :: Q) := by
  obtain ⟨hQ, hml, hmr, hmn, hmo⟩ := h.mergeSymbols_at hnd hl hr
  induction P generalizing prev pos with
  | nil =>
    obtain ⟨l', hl', hp, -, ht, h0, r', hr', -, hn, hrt, hr0, h⟩ := h
    rw [hl] at hl'
    rw [hr] at hr'
    cases hl'
    cases hr'
    refine ⟨_, hml, hp, hQ, ht, Nat.add_pos_left h0 _, ?_⟩
    rw [← Nat.add_assoc]
    obtain ⟨hleft, hnd⟩ := nodup_cons.mp hnd
    obtain ⟨hright, hnd⟩ := nodup_cons.mp hnd
    cases Q with
    | nil => exact h
    | cons q Q =>
      obtain ⟨s, hs, -, hsn, hst, hs0, h⟩ := h
      refine ⟨_, hmn q s rfl hs, rfl, hsn, hst, hs0, h.congr fun k hk => hmo k ?_ ?_ ?_⟩
      · rintro rfl
        exact hleft (mem_cons_of_mem _ (mem_cons_of_mem _ hk))
      · rintro rfl
        exact hright (mem_cons_of_mem _ hk)
      · rintro he
        cases he
        exact (nodup_cons.mp hnd).1 hk
  | cons i P ih =>
    obtain ⟨s, hs, hp, hn, ht, h0, h⟩ := h
    rw [cons_append, nodup_cons] at hnd
    obtain ⟨hiP, hnd⟩ := hnd
    simp only [mem_append, mem_cons, not_or] at hiP
    refine ⟨s, ?_, hp, ?_, ht, h0, ih h hnd⟩
    · rw [hmo i hiP.2.1 hiP.2.2.1 fun he => hiP.2.2.2 (mem_of_mem_head? he), hs]
    · rw [hn]
      cases P <;> rfl

end

theorem Chain.merge (h : Chain word syms (P ++ b.left :: b.right :: Q))
    (hl : syms[b.left]? = some l) (hr : syms[b.right]? = some r) :
    Chain word (mergeSymbols syms b l r) (P ++ b.left :: Q) where
  linked := h.linked.merge h.nodup hl hr
  sorted := h.sorted.sublist (by simp)
  dead := by
    intro i sym hs hi
    obtain ⟨-, -, hmr, -, hmo⟩ := h.linked.mergeSymbols_at h.nodup hl hr
    simp only [mem_append, mem_cons, not_or] at hi
    by_cases hir : i = b.right
    · subst hir
      rw [hmr] at hs
      cases hs
      rfl
    · rw [hmo i hi.2.1 hir fun he => hi.2.2 (mem_of_mem_head? he)] at hs
      refine h.dead i sym hs ?_
      simp only [mem_append, mem_cons, not_or]
      exact ⟨hi.1, hi.2.1, hir, hi.2.2⟩

end Llama.Vocab
