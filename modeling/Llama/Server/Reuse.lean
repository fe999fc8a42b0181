import Llama.Kv.History
import Llama.Server.ServerTokens

/-!
# Reuse of cached chunks

When a prompt is set up the tokens that it has in common with the cached ones are kept. With
`n_cache_reuse` the rest of the cached list is searched for chunks of the prompt, which are moved
to their new positions, in the memory and in the token list alike. Two heads walk over the cached
list and over the prompt, and the list is overwritten behind the first one.
-/

namespace Llama.Server

open List

open Kv (SeqId)

/-- The slot while chunks are reused. -/
structure Reuse where
  /-- `slot.prompt.tokens`. -/
  tokens : ServerTokens
  mem : Kv.Cache
  nPast : Nat
  headC : Nat
  headP : Nat

/-- `set_token`, which is only called for lists without media. -/
def ServerTokens.setToken (s : ServerTokens) (pos : Nat) (id : LlamaToken) : ServerTokens :=
  { s with tokens := s.tokens.set pos id }

/-- The loop that overwrites the cached tokens with those of the chunk. -/
def copyTokens (s : ServerTokens) (headC headP : Nat) : Nat → ServerTokens
  | 0 => s
  | n + 1 =>
    let s' := copyTokens s headC headP n
    s'.setToken (headP + n) (s'.tokens.getD (headC + n) 0)

/-- Reuse a chunk of `n` tokens. -/
def reuseChunk (q : SeqId) (n : Nat) (r : Reuse) : Reuse where
  tokens := copyTokens r.tokens r.headC r.headP n
  mem := (r.mem.seqRm (some q) r.headP r.headC).seqAdd q r.headC ((r.headC + n : Nat) : Int)
    ((r.headP : Int) - r.headC)
  nPast := r.nPast + n
  headC := r.headC + n
  headP := r.headP + n

/-- The loop over the two heads. -/
def reuseLoop (q : SeqId) (nCacheReuse : Nat)
    (prompt : List LlamaToken) : Nat → Reuse → Option Reuse
  | 0, _ => none
  | fuel + 1, r =>
    if r.headC < r.tokens.tokens.length ∧ r.headP < prompt.length then
      let nMatch := ServerTokens.commonTokens (r.tokens.tokens.drop r.headC) (prompt.drop r.headP)
      if nCacheReuse ≤ nMatch then reuseLoop q nCacheReuse prompt fuel (reuseChunk q nMatch r)
      else reuseLoop q nCacheReuse prompt fuel { r with headC := r.headC + 1 }
    else some r

/-- The common prefix that is kept, which ends before the invocation of an adapter. -/
def keptPrefix (aloraInvocationStart : Int) (n : Nat) : Nat :=
  if 0 < aloraInvocationStart then min n (aloraInvocationStart - 1).toNat else n

/-- How many of the cached tokens `update_slots` reuses for a prompt, and what becomes of the
cached tokens and of the memory. The loop is given a turn for every cached token. -/
def reusePrompt (q : SeqId) (canShift : Bool) (nCacheReuse aloraInvocationStart : Int)
    (prompt cached : ServerTokens) (mem : Kv.Cache) : Except TokensError (Option Reuse) := do
  let common ← cached.getCommonPrefix prompt
  let nPast := keptPrefix aloraInvocationStart common
  let r : Reuse := ⟨cached, mem, nPast, nPast, nPast⟩
  if canShift ∧ cached.hasMtmd = false ∧ 0 < nCacheReuse then
    pure (reuseLoop q nCacheReuse.toNat prompt.tokens (cached.tokens.length + 1) r)
  else pure (some r)

section Common

variable {a b : List LlamaToken}

theorem commonTokens_le : ∀ a b : List LlamaToken,
    ServerTokens.commonTokens a b ≤ a.length ∧ ServerTokens.commonTokens a b ≤ b.length
  | [], b => by simp [ServerTokens.commonTokens]
  | _ :: _, [] => by simp [ServerTokens.commonTokens]
  | x :: as, y :: bs => by
    have ih := commonTokens_le as bs
    rw [ServerTokens.commonTokens]
    simp only [length_cons]
    split <;> omega

theorem commonTokens_eq {k : Nat} (hk : k < ServerTokens.commonTokens a b) : a[k]? = b[k]? := by
  induction a generalizing b k with
  | nil => simp [ServerTokens.commonTokens] at hk
  | cons x as ih =>
    cases b with
    | nil => simp [ServerTokens.commonTokens] at hk
    | cons y bs =>
      rw [ServerTokens.commonTokens] at hk
      split_ifs at hk with hxy
      · subst hxy
        cases k with
        | zero => rfl
        | succ k =>
          rw [getElem?_cons_succ, getElem?_cons_succ]
          exact ih (by omega)
      · omega

end Common

section Turn

variable {q : SeqId} {tag : Nat → LlamaToken} {cached prompt : List LlamaToken} {r : Reuse}
  {n fuel nCacheReuse : Nat}

@[simp] theorem copyTokens_hasMtmd (s : ServerTokens) (c p : Nat) :
    (copyTokens s c p n).hasMtmd = s.hasMtmd := by
  induction n with
  | zero => rfl
  | succ n ih => exact ih

@[simp] theorem copyTokens_length (s : ServerTokens) (c p : Nat) :
    (copyTokens s c p n).tokens.length = s.tokens.length := by
  induction n with
  | zero => rfl
  | succ n ih => rw [copyTokens, ServerTokens.setToken, length_set, ih]

variable {c p : Nat}

/-- A chunk is copied to the left, and is read before it is overwritten. -/
theorem copyTokens_getElem? {s : ServerTokens} (hpc : p ≤ c) (hn : c + n ≤ s.tokens.length)
    (k : Nat) :
    (copyTokens s c p n).tokens[k]? =
      if p ≤ k ∧ k < p + n then s.tokens[k + (c - p)]? else s.tokens[k]? := by
  induction n generalizing k with
  | zero => rw [copyTokens, if_neg (by omega)]
  | succ n ih =>
    have hread : (copyTokens s c p n).tokens.getD (c + n) 0 = s.tokens[c + n] := by
      rw [getD_eq_getElem?_getD, ih (by omega), if_neg (by omega),
        getElem?_eq_getElem (by omega), Option.getD_some]
    simp only [copyTokens, ServerTokens.setToken]
    rw [hread, getElem?_set, copyTokens_length]
    by_cases hk : p + n = k
    · subst hk
      rw [if_pos rfl, if_pos (by omega), if_pos (by omega), getElem?_eq_getElem (by omega)]
      congr 2
      omega
    · rw [if_neg hk, ih (by omega)]
      by_cases hin : p ≤ k ∧ k < p + n
      · rw [if_pos hin, if_pos (by omega)]
      · rw [if_neg hin, if_neg (by omega)]

/-- Between two turns: in front of the second head the list has the tokens of the prompt, and
behind it the cached ones. -/
structure Walking (cached prompt : List LlamaToken) (r : Reuse) : Prop where
  text : r.tokens.hasMtmd = false
  length : r.tokens.tokens.length = cached.length
  past : r.nPast = r.headP
  heads : r.headP ≤ r.headC
  inCache : r.headC ≤ cached.length
  inPrompt : r.headP ≤ prompt.length
  tokens : ∀ k, r.tokens.tokens[k]? = if k < r.headP then prompt[k]? else cached[k]?

/-- The memory has the tokens of the prompt in front of the second head, and the cached ones
behind the last chunk that was moved. -/
structure Reusing (q : SeqId) (tag : Nat → LlamaToken) (cached prompt : List LlamaToken)
    (r : Reuse) : Prop extends Walking cached prompt r where
  mem : ∃ lo, r.headP ≤ lo ∧ lo ≤ r.headC ∧ r.mem.Remembers q tag fun k =>
    if k < r.headP then prompt[k]? else if lo ≤ k then cached[k]? else none

theorem Walking.skip (h : Walking cached prompt r) (hlt : r.headC < cached.length) :
    Walking cached prompt { r with headC := r.headC + 1 } where
  text := h.text
  length := h.length
  past := h.past
  heads := Nat.le_succ_of_le h.heads
  inCache := hlt
  inPrompt := h.inPrompt
  tokens := h.tokens

theorem Reusing.skip (h : Reusing q tag cached prompt r) (hlt : r.headC < cached.length) :
    Reusing q tag cached prompt { r with headC := r.headC + 1 } where
  toWalking := h.toWalking.skip hlt
  mem := by
    obtain ⟨lo, hlo, hle, hmem⟩ := h.mem
    exact ⟨lo, hlo, Nat.le_succ_of_le hle, hmem⟩

/-- What the loop compares is the rest of the cached list with the rest of the prompt. -/
theorem Walking.drop_eq (h : Walking cached prompt r) :
    r.tokens.tokens.drop r.headC = cached.drop r.headC := by
  have := h.heads
  apply ext_getElem?
  intro k
  rw [getElem?_drop, getElem?_drop, h.tokens, if_neg (by omega)]

/-- Both lists have the chunk. -/
structure Chunk (cached prompt : List LlamaToken) (c p n : Nat) : Prop where
  inCache : c + n ≤ cached.length
  inPrompt : p + n ≤ prompt.length
  same : ∀ k < n, cached[c + k]? = prompt[p + k]?

theorem chunk_commonTokens (hc : c ≤ cached.length) (hp : p ≤ prompt.length) :
    Chunk cached prompt c p (ServerTokens.commonTokens (cached.drop c) (prompt.drop p)) := by
  obtain ⟨hlec, hlep⟩ := commonTokens_le (cached.drop c) (prompt.drop p)
  rw [length_drop] at hlec hlep
  refine ⟨by omega, by omega, fun k hk => ?_⟩
  have := commonTokens_eq hk
  rwa [getElem?_drop, getElem?_drop] at this

/-- The token that a place in front of the second head gets. -/
theorem Chunk.moved {k : Nat} (h : Chunk cached prompt c p n) (hpc : p ≤ c) (hk : p ≤ k)
    (hlt : k < p + n) : cached[k + (c - p)]? = prompt[k]? := by
  have := h.same (k - p) (by omega)
  rw [show k + (c - p) = c + (k - p) by omega, this]
  congr 1
  omega

theorem Walking.chunk (h : Walking cached prompt r)
    (hchunk : Chunk cached prompt r.headC r.headP n) :
    Walking cached prompt (reuseChunk q n r) := by
  have hheads := h.heads
  have hc := hchunk.inCache
  constructor
  · exact (copyTokens_hasMtmd _ _ _).trans h.text
  · exact (copyTokens_length _ _ _).trans h.length
  · change r.nPast + n = r.headP + n
    rw [h.past]
  · change r.headP + n ≤ r.headC + n
    omega
  · exact hc
  · exact hchunk.inPrompt
  · intro k
    change (copyTokens r.tokens r.headC r.headP n).tokens[k]? =
      if k < r.headP + n then prompt[k]? else cached[k]?
    rw [copyTokens_getElem? hheads (by rw [h.length]; exact hc)]
    by_cases hin : r.headP ≤ k ∧ k < r.headP + n
    · rw [if_pos hin, if_pos hin.2, h.tokens, if_neg (by omega), hchunk.moved hheads hin.1 hin.2]
    · rw [if_neg hin, h.tokens]
      by_cases hk : k < r.headP
      · rw [if_pos hk, if_pos (by omega)]
      · rw [if_neg hk, if_neg (by omega)]

/-- A chunk is moved in the memory too. -/
theorem Reusing.chunk (h : Reusing q tag cached prompt r)
    (hchunk : Chunk cached prompt r.headC r.headP n) :
    Reusing q tag cached prompt (reuseChunk q n r) where
  toWalking := h.toWalking.chunk hchunk
  mem := by
    have hheads := h.heads
    obtain ⟨lo, hlo, hle, hmem⟩ := h.mem
    refine ⟨r.headC + n, Nat.add_le_add_right hheads n, le_rfl, ?_⟩
    have hrm := hmem.seqRm (r.headP : Int) (r.headC : Int)
    have hlow : Kv.Cache.lower (r.headP : Int) = r.headP := by simp [Kv.Cache.lower]
    have hup : Kv.Cache.upper (r.headC : Int) = r.headC := by simp [Kv.Cache.upper]
    simp only [hlow, hup, Nat.cast_le, Nat.cast_lt] at hrm
    have hadd := hrm.seqAdd (a := r.headC) (b := r.headC + n) (m := r.headC - r.headP) (by omega)
      (by omega) (fun k h1 h2 => if_pos ⟨by omega, h2⟩)
    have hshift : -((r.headC - r.headP : Nat) : Int) = (r.headP : Int) - r.headC := by omega
    rw [hshift] at hadd
    refine hadd.congr fun k => ?_
    change _ = if k < r.headP + n then prompt[k]? else if r.headC + n ≤ k then cached[k]? else none
    by_cases hin : r.headP ≤ k ∧ k < r.headP + n
    · rw [if_pos (by omega), if_neg (by omega), if_neg (by omega), if_pos (by omega), if_pos hin.2,
        hchunk.moved hheads hin.1 hin.2]
    · rw [if_neg (by omega)]
      by_cases hsrc : r.headC ≤ k ∧ k < r.headC + n
      · rw [if_pos hsrc, if_neg (by omega), if_neg (by omega)]
      · rw [if_neg hsrc]
        by_cases hk : k < r.headP
        · rw [if_neg (by omega), if_pos hk, if_pos (by omega)]
        · by_cases hgap : k < r.headC
          · rw [if_pos (by omega), if_neg (by omega), if_neg (by omega)]
          · rw [if_neg (by omega), if_neg hk, if_pos (by omega), if_neg (by omega),
              if_pos (by omega)]

/-- The loop ends, and keeps what every turn keeps. -/
theorem reuseLoop_keeps {I : Reuse → Prop} (hwalk : ∀ r, I r → Walking cached prompt r)
    (hskip : ∀ r, I r → r.headC < cached.length → I { r with headC := r.headC + 1 })
    (hchunk : ∀ r n, I r → Chunk cached prompt r.headC r.headP n → I (reuseChunk q n r))
    (hpos : 0 < nCacheReuse) (h : I r) (hfuel : cached.length < fuel + r.headC) :
    ∃ r', reuseLoop q nCacheReuse prompt fuel r = some r' ∧ I r' := by
  induction fuel generalizing r with
  | zero =>
    have := (hwalk r h).inCache
    omega
  | succ fuel ih =>
    have hw := hwalk r h
    rw [reuseLoop, hw.length]
    by_cases hin : r.headC < cached.length ∧ r.headP < prompt.length
    · rw [if_pos hin]
      dsimp only
      rw [hw.drop_eq]
      by_cases hreuse : nCacheReuse ≤ ServerTokens.commonTokens (cached.drop r.headC)
          (prompt.drop r.headP)
      · rw [if_pos hreuse]
        refine ih (hchunk r _ h (chunk_commonTokens hw.inCache hw.inPrompt)) ?_
        change cached.length < fuel + (r.headC + _)
        omega
      · rw [if_neg hreuse]
        exact ih (hskip r h hin.1) (by change cached.length < fuel + (r.headC + 1); omega)
    · rw [if_neg hin]
      exact ⟨r, rfl, h⟩

end Turn

section Prompt

variable {q : SeqId} {tag : Nat → LlamaToken} {prompt cached : ServerTokens} {mem : Kv.Cache}
  {canShift : Bool} {nCacheReuse aloraInvocationStart : Int} {r : Reuse}

/-- The state in front of the loop. -/
def Reuse.start (cached : ServerTokens) (mem : Kv.Cache) (n : Nat) : Reuse := ⟨cached, mem, n, n, n⟩

theorem keptPrefix_le (a : Int) (n : Nat) : keptPrefix a n ≤ n := by
  rw [keptPrefix]
  split <;> omega

variable {n : Nat}

section

variable (htext : cached.hasMtmd = false)
include htext

theorem walking_start (hn : n ≤ ServerTokens.commonTokens cached.tokens prompt.tokens) :
    Walking cached.tokens prompt.tokens (.start cached mem n) := by
  obtain ⟨hlec, hlep⟩ := commonTokens_le cached.tokens prompt.tokens
  constructor
  · exact htext
  · rfl
  · rfl
  · exact le_rfl
  · exact hn.trans hlec
  · exact hn.trans hlep
  · intro k
    change cached.tokens[k]? = if k < n then prompt.tokens[k]? else cached.tokens[k]?
    split_ifs with hk
    · exact commonTokens_eq (by omega)
    · rfl

theorem reusing_start (hmem : mem.Computed q tag cached.tokens)
    (hn : n ≤ ServerTokens.commonTokens cached.tokens prompt.tokens) :
    Reusing q tag cached.tokens prompt.tokens (.start cached mem n) where
  toWalking := walking_start htext hn
  mem := by
    refine ⟨n, le_rfl, le_rfl, hmem.congr fun k => ?_⟩
    change cached.tokens[k]? = if k < n then prompt.tokens[k]? else
      if n ≤ k then cached.tokens[k]? else none
    by_cases hk : k < n
    · rw [if_pos hk]
      exact commonTokens_eq (by omega)
    · rw [if_neg hk, if_pos (by omega)]

theorem reusePrompt_text :
    reusePrompt q canShift nCacheReuse aloraInvocationStart prompt cached mem =
      if canShift ∧ 0 < nCacheReuse then
        .ok (reuseLoop q nCacheReuse.toNat prompt.tokens (cached.tokens.length + 1)
          (.start cached mem (keptPrefix aloraInvocationStart
            (ServerTokens.commonTokens cached.tokens prompt.tokens))))
      else .ok (some (.start cached mem (keptPrefix aloraInvocationStart
        (ServerTokens.commonTokens cached.tokens prompt.tokens)))) := by
  simp only [reusePrompt, ServerTokens.getCommonPrefix, htext, Bool.false_eq_true, if_false, bind,
    Except.bind, pure, Except.pure, true_and, Reuse.start]

end

/-- The setup of a text prompt ends between two turns of the loop. -/
theorem reusePrompt_reusing (canShift : Bool) (nCacheReuse aloraInvocationStart : Int)
    (prompt : ServerTokens) (htext : cached.hasMtmd = false)
    (hmem : mem.Computed q tag cached.tokens) :
    ∃ r, reusePrompt q canShift nCacheReuse aloraInvocationStart prompt cached mem =
      .ok (some r) ∧ Reusing q tag cached.tokens prompt.tokens r := by
  have hstart : Reusing q tag cached.tokens prompt.tokens _ :=
    reusing_start htext hmem (keptPrefix_le aloraInvocationStart _)
  rw [reusePrompt_text htext]
  by_cases hreuse : canShift ∧ 0 < nCacheReuse
  · rw [if_pos hreuse]
    have hpos : 0 < nCacheReuse.toNat := by omega
    have hfuel : ∀ n, cached.tokens.length < cached.tokens.length + 1 + n := fun n => by omega
    obtain ⟨r, hr, hinv⟩ := reuseLoop_keeps (I := Reusing q tag cached.tokens prompt.tokens)
      (fun r h => h.toWalking) (fun r h => h.skip) (fun r n h => h.chunk) hpos hstart (hfuel _)
    exact ⟨r, by rw [hr], hinv⟩
  · rw [if_neg hreuse]
    exact ⟨_, rfl, hstart⟩

/-- What `keep_first` and `seq_rm` leave of the slot. -/
theorem Reusing.truncate (h : Reusing q tag cached.tokens prompt.tokens r)
    (hlen : cached.tokens.length ≤ 2147483647) :
    (r.tokens.keepFirst r.nPast).2 = none ∧
      (r.tokens.keepFirst r.nPast).1.tokens = prompt.tokens.take r.nPast ∧
      (r.mem.seqRm (some q) r.nPast (-1)).Computed q tag (prompt.tokens.take r.nPast) := by
  have hheads := h.heads
  have hcache := h.inCache
  have hlength := h.length
  rw [h.past]
  have hkeep : r.tokens.keepFirst r.headP =
      ({ r.tokens with tokens := r.tokens.tokens.take r.headP }, none) := by
    rw [ServerTokens.keepFirst, if_neg (by omega), if_neg (by simp [h.text])]
  rw [hkeep]
  refine ⟨rfl, ?_, ?_⟩
  · apply ext_getElem?
    intro k
    simp only [getElem?_take]
    split_ifs with hk
    · rw [h.tokens, if_pos hk]
    · rfl
  · obtain ⟨lo, hlo, -, hmem⟩ := h.mem
    refine (hmem.seqRm (r.headP : Int) (-1)).congr fun k => ?_
    have hlow : Kv.Cache.lower (r.headP : Int) = r.headP := by simp [Kv.Cache.lower]
    have hup : Kv.Cache.upper (-1) = 2147483647 := rfl
    simp only [hlow, hup, getElem?_take]
    by_cases hk : k < r.headP
    · rw [if_neg (by omega), if_pos hk, if_pos hk]
    · rw [if_neg hk, if_neg hk]
      split_ifs with h1 h2
      · rfl
      · exact getElem?_eq_none (by omega)
      · rfl

/-- The reuse of chunks ends, and is sound: what is kept of the token list are the first tokens of
the prompt, and the sequence has one cell for each of them, which was computed for it. -/
theorem reusePrompt_sound (q : SeqId) (canShift : Bool) (nCacheReuse aloraInvocationStart : Int)
    (prompt : ServerTokens) (htext : cached.hasMtmd = false)
    (hlen : cached.tokens.length ≤ 2147483647) (hmem : mem.Computed q tag cached.tokens) :
    ∃ r, reusePrompt q canShift nCacheReuse aloraInvocationStart prompt cached mem = .ok (some r) ∧
      r.nPast ≤ prompt.tokens.length ∧
      (r.tokens.keepFirst r.nPast).2 = none ∧
      (r.tokens.keepFirst r.nPast).1.tokens = prompt.tokens.take r.nPast ∧
      (r.mem.seqRm (some q) r.nPast (-1)).Computed q tag (prompt.tokens.take r.nPast) := by
  obtain ⟨r, hr, hinv⟩ := reusePrompt_reusing canShift nCacheReuse aloraInvocationStart prompt
    htext hmem
  exact ⟨r, hr, hinv.past ▸ hinv.inPrompt, hinv.truncate hlen⟩

/-- The second cached token starts the prompt. -/
theorem reusePrompt_sound_moved :
    ∃ r, reusePrompt 0 true 1 (-1) ⟨false, fun _ => none, [8, 3]⟩ ⟨false, fun _ => none, [5, 8]⟩
        (.inOrder 2) = .ok (some r) ∧
      r.nPast ≤ [8, 3].length ∧
      (r.tokens.keepFirst r.nPast).2 = none ∧
      (r.tokens.keepFirst r.nPast).1.tokens = [8, 3].take r.nPast ∧
      (r.mem.seqRm (some 0) r.nPast (-1)).Computed 0
        (fun i => ([5, 8] : List LlamaToken).getD i 0) ([8, 3].take r.nPast) :=
  reusePrompt_sound 0 true 1 (-1) ⟨false, fun _ => none, [8, 3]⟩ rfl (by decide)
    (Kv.Cache.computed_inOrder [5, 8] 0)

end Prompt

section Invocation

variable {cached prompt : List LlamaToken} {nCacheReuse limit c p : Nat} {r : Reuse}

/-- From the two places on the lists have so many tokens in common. -/
def chunkAt (cached prompt : List LlamaToken) (c p : Nat) : Nat :=
  ServerTokens.commonTokens (cached.drop c) (prompt.drop p)

/-- Each chunk of the prompt that is found in the rest of the cached tokens, the first one from
the two places on and each further one from the end of the one before, ends by the limit. -/
inductive ChunksEndBy (nCacheReuse limit : Nat) (cached prompt : List LlamaToken) :
    Nat → Nat → Prop where
  | none {c p : Nat} (h : ∀ d, c ≤ d → chunkAt cached prompt d p < nCacheReuse) :
    ChunksEndBy nCacheReuse limit cached prompt c p
  | chunk {c d p : Nat} (hcd : c ≤ d)
    (hfirst : ∀ e, c ≤ e → e < d → chunkAt cached prompt e p < nCacheReuse)
    (hchunk : nCacheReuse ≤ chunkAt cached prompt d p)
    (hend : p + chunkAt cached prompt d p ≤ limit)
    (hrest : ChunksEndBy nCacheReuse limit cached prompt (d + chunkAt cached prompt d p)
      (p + chunkAt cached prompt d p)) :
    ChunksEndBy nCacheReuse limit cached prompt c p

theorem chunkAt_le : chunkAt cached prompt c p ≤ cached.length - c ∧
    chunkAt cached prompt c p ≤ prompt.length - p := by
  have := commonTokens_le (cached.drop c) (prompt.drop p)
  rwa [length_drop, length_drop] at this

/-- Where no chunk starts the search goes on behind. -/
theorem chunksEndBy_skip (h : chunkAt cached prompt c p < nCacheReuse) :
    ChunksEndBy nCacheReuse limit cached prompt c p ↔
      ChunksEndBy nCacheReuse limit cached prompt (c + 1) p := by
  constructor
  · intro hends
    cases hends with
    | none hno => exact .none fun d hd => hno d (by omega)
    | @chunk _ d _ hcd hfirst hchunk hend hrest =>
      have hne : c ≠ d := by
        rintro rfl
        omega
      exact .chunk (by omega) (fun e he hlt => hfirst e (by omega) hlt) hchunk hend hrest
  · have hstep : ∀ d, c ≤ d → c = d ∨ c + 1 ≤ d := fun d hd => by omega
    intro hends
    cases hends with
    | none hno =>
      refine .none fun d hd => ?_
      rcases hstep d hd with rfl | hd
      · exact h
      · exact hno d hd
    | chunk hcd hfirst hchunk hend hrest =>
      refine .chunk (by omega) (fun e he hlt => ?_) hchunk hend hrest
      rcases hstep e he with rfl | he
      · exact h
      · exact hfirst e he hlt

/-- A chunk that starts there has to end by the limit, and so has the rest. -/
theorem chunksEndBy_chunk (h : nCacheReuse ≤ chunkAt cached prompt c p) :
    ChunksEndBy nCacheReuse limit cached prompt c p ↔
      p + chunkAt cached prompt c p ≤ limit ∧
        ChunksEndBy nCacheReuse limit cached prompt (c + chunkAt cached prompt c p)
          (p + chunkAt cached prompt c p) := by
  constructor
  · intro hends
    cases hends with
    | none hno =>
      have := hno c le_rfl
      omega
    | @chunk _ d _ hcd hfirst hchunk hend hrest =>
      obtain rfl : c = d := by
        by_contra hne
        have := hfirst c le_rfl (by omega)
        omega
      exact ⟨hend, hrest⟩
  · rintro ⟨hend, hrest⟩
    exact .chunk le_rfl (fun e he hlt => by omega) h hend hrest

/-- At the end of one of the lists there is no chunk left. -/
theorem chunksEndBy_end (hpos : 0 < nCacheReuse) (h : ¬(c < cached.length ∧ p < prompt.length)) :
    ChunksEndBy nCacheReuse limit cached prompt c p := by
  refine .none fun d hd => ?_
  have hle : chunkAt cached prompt d p ≤ cached.length - d ∧
    chunkAt cached prompt d p ≤ prompt.length - p := chunkAt_le
  omega

variable {q : SeqId} {fuel : Nat} {r' : Reuse}

theorem reuseLoop_headP_le (h : reuseLoop q nCacheReuse prompt fuel r = some r') :
    r.headP ≤ r'.headP := by
  induction fuel generalizing r with
  | zero => cases h
  | succ fuel ih =>
    rw [reuseLoop] at h
    split_ifs at h with hin
    · dsimp only at h
      split_ifs at h with hreuse
      · exact le_trans (Nat.le_add_right _ _) (ih h)
      · exact ih (r := { r with headC := r.headC + 1 }) h
    · exact (Option.some.inj h) ▸ le_rfl

/-- The loop keeps below a limit just if its chunks do. -/
theorem Walking.loop_le_iff (h : Walking cached prompt r) (hpos : 0 < nCacheReuse)
    (hlimit : r.headP ≤ limit) (hloop : reuseLoop q nCacheReuse prompt fuel r = some r') :
    r'.headP ≤ limit ↔ ChunksEndBy nCacheReuse limit cached prompt r.headC r.headP := by
  induction fuel generalizing r with
  | zero => cases hloop
  | succ fuel ih =>
    rw [reuseLoop, h.length] at hloop
    by_cases hin : r.headC < cached.length ∧ r.headP < prompt.length
    · rw [if_pos hin] at hloop
      dsimp only at hloop
      rw [h.drop_eq] at hloop
      change (if nCacheReuse ≤ chunkAt cached prompt r.headC r.headP then
        reuseLoop q nCacheReuse prompt fuel (reuseChunk q (chunkAt cached prompt r.headC r.headP) r)
        else reuseLoop q nCacheReuse prompt fuel { r with headC := r.headC + 1 }) = some r' at hloop
      by_cases hreuse : nCacheReuse ≤ chunkAt cached prompt r.headC r.headP
      · rw [if_pos hreuse] at hloop
        rw [chunksEndBy_chunk hreuse]
        have hnext := h.chunk (q := q) (chunk_commonTokens h.inCache h.inPrompt)
        by_cases hend : r.headP + chunkAt cached prompt r.headC r.headP ≤ limit
        · rw [ih hnext hend hloop]
          exact (and_iff_right hend).symm
        · have hle := reuseLoop_headP_le hloop
          change r.headP + chunkAt cached prompt r.headC r.headP ≤ r'.headP at hle
          exact iff_of_false (by omega) fun hboth => hend hboth.1
      · rw [if_neg hreuse] at hloop
        rw [ih (h.skip hin.1) hlimit hloop]
        exact (chunksEndBy_skip (not_le.mp hreuse)).symm
    · rw [if_neg hin] at hloop
      obtain rfl := Option.some.inj hloop
      exact iff_of_true hlimit (chunksEndBy_end hpos hin)

/-- The tokens that are kept for a prompt with an adapter invoked at `a` end before the invocation
just if no chunk reaches past it. Where chunks are not reused they always do. -/
theorem reusePrompt_alora_exact_iff (q : SeqId) (canShift : Bool) (nCacheReuse : Int)
    (prompt cached : ServerTokens) (mem : Kv.Cache) {a : Int} (ha : 0 < a) :
    (∀ r, reusePrompt q canShift nCacheReuse a prompt cached mem = .ok (some r) →
      (r.nPast : Int) ≤ a - 1) ↔
    (canShift = true → cached.hasMtmd = false → 0 < nCacheReuse →
      ChunksEndBy nCacheReuse.toNat (a - 1).toNat cached.tokens prompt.tokens
        (min (chunkAt cached.tokens prompt.tokens 0 0) (a - 1).toNat)
        (min (chunkAt cached.tokens prompt.tokens 0 0) (a - 1).toNat)) := by
  have hkept : ∀ n, keptPrefix a n = min n (a - 1).toNat := fun n => by rw [keptPrefix, if_pos ha]
  by_cases hreuse : canShift = true ∧ cached.hasMtmd = false ∧ 0 < nCacheReuse
  · obtain ⟨hshift, htext, hpos⟩ := hreuse
    rw [reusePrompt_text htext, if_pos ⟨hshift, hpos⟩, hkept]
    have hstart : Walking cached.tokens prompt.tokens (.start cached mem _) :=
      walking_start htext
        (min_le_left (ServerTokens.commonTokens cached.tokens prompt.tokens) (a - 1).toNat)
    have hpos' : 0 < nCacheReuse.toNat := by omega
    have hfuel : ∀ n, cached.tokens.length < cached.tokens.length + 1 + n := fun n => by omega
    obtain ⟨r, hr, hwalk⟩ := reuseLoop_keeps (I := Walking cached.tokens prompt.tokens) (q := q)
      (fun r h => h) (fun r h => h.skip) (fun r n h => h.chunk) hpos' hstart (hfuel _)
    have hiff := hstart.loop_le_iff hpos' (min_le_right _ (a - 1).toNat) hr
    rw [hr]
    simp only [hshift, htext, hpos, forall_const, Except.ok.injEq, Option.some.injEq,
      forall_eq', hwalk.past]
    rw [show ((r.headP : Int) ≤ a - 1) ↔ r.headP ≤ (a - 1).toNat by omega, hiff]
    rfl
  · refine iff_of_true (fun r hr => ?_) fun h1 h2 h3 => absurd ⟨h1, h2, h3⟩ hreuse
    rw [reusePrompt] at hr
    cases hcommon : cached.getCommonPrefix prompt with
    | error e => simp [hcommon, bind, Except.bind] at hr
    | ok n =>
      simp only [hcommon, bind, Except.bind, if_neg hreuse, pure, Except.pure, Except.ok.injEq,
        Option.some.injEq] at hr
      have hle := min_le_right n (a - 1).toNat
      rw [← hr]
      change ((keptPrefix a n : Nat) : Int) ≤ a - 1
      rw [hkept]
      omega

/-- An adapter that is invoked at token 2. -/
theorem reusePrompt_alora_exact_iff_third :
    (∀ r, reusePrompt 0 true 2 2 ⟨false, fun _ => none, [5, 7, 8]⟩ ⟨false, fun _ => none, [5, 8]⟩
        (.inOrder 2) = .ok (some r) → (r.nPast : Int) ≤ 2 - 1) ↔
    (true = true → false = false → (0 : Int) < 2 →
      ChunksEndBy (2 : Int).toNat (2 - 1 : Int).toNat [5, 8] [5, 7, 8]
        (min (chunkAt [5, 8] [5, 7, 8] 0 0) (2 - 1 : Int).toNat)
        (min (chunkAt [5, 8] [5, 7, 8] 0 0) (2 - 1 : Int).toNat)) :=
  reusePrompt_alora_exact_iff 0 true 2 ⟨false, fun _ => none, [5, 7, 8]⟩
    ⟨false, fun _ => none, [5, 8]⟩ (.inOrder 2) (by decide)

/-- The common prefix is cut at the token in front of the invocation, and the chunk that begins
there is reused. -/
theorem reusePrompt_past_invocation :
    ∃ r, reusePrompt 0 true 1 2 ⟨false, fun _ => none, [1, 2, 3, 4, 6]⟩
        ⟨false, fun _ => none, [1, 2, 3, 4, 5]⟩ (.inOrder 5) = .ok (some r) ∧
      r.nPast = 4 ∧ ¬(r.nPast : Int) ≤ 2 - 1 :=
  ⟨_, rfl, rfl, by decide⟩

end Invocation

end Llama.Server
