import Llama.Kv.History
import Llama.Server.ServerTokens

/-!
# The context shift

When the context of a generating slot is full, `update_slots` discards tokens behind the first
`n_keep` ones, from the memory and from the token list. Both numbers come from the request. The
arithmetic is that of `int`, mixed with that of `size_t` where the token list is concerned.
-/

namespace Llama.Server

open List

open Kv (SeqId)

/-- What the shift may run into. -/
inductive ShiftError where
  /-- An `int` operation overflows. -/
  | overflow
  /-- A token is written behind the end of the list. -/
  | outOfBounds
  /-- `resize` throws. -/
  | lengthError
deriving DecidableEq

/-- The result of an `int` operation. -/
def int32 (x : Int) : Except ShiftError Int :=
  if -2147483648 ≤ x ∧ x ≤ 2147483647 then .ok x else .error .overflow

/-- Conversion to `size_t`. -/
def toSize (x : Int) : Nat := (x % 18446744073709551616).toNat

/-- What the shift reads of the slot, of its task and of the server. -/
structure ShiftRequest where
  nCtx : Int
  addBosToken : Bool
  /-- `slot.task->n_tokens()`. -/
  taskTokens : Int
  nKeep : Int
  nDiscard : Int

/-- The number of tokens at the beginning that are kept. -/
def shiftKeep (rq : ShiftRequest) : Except ShiftError Int := do
  let nKeep := if rq.nKeep < 0 then rq.taskTokens else rq.nKeep
  let nKeep ← if rq.addBosToken then int32 (nKeep + 1) else pure nKeep
  let most ← int32 (rq.nCtx - 4)
  pure (min most nKeep)

/-- `new_tokens[i - n_discard] = new_tokens[i]`. -/
def moveToken (nDiscard : Int) (toks : List LlamaToken) (i : Nat) :
    Except ShiftError (List LlamaToken) :=
  if toSize (i - nDiscard) < toks.length then
    .ok (toks.set (toSize (i - nDiscard)) (toks.getD i 0))
  else .error .outOfBounds

/-- The loop over the tokens from an index on. -/
def moveTokens (nDiscard : Int) (toks : List LlamaToken) (start : Nat) :
    Nat → Except ShiftError (List LlamaToken)
  | 0 => .ok toks
  | n + 1 => do
    let toks ← moveTokens nDiscard toks start n
    moveToken nDiscard toks (start + n)

/-- `resize` of a vector of tokens. -/
def resizeTokens (toks : List LlamaToken) (n : Nat) : Except ShiftError (List LlamaToken) :=
  if 2305843009213693951 < n then .error .lengthError
  else .ok (toks.take n ++ replicate (n - toks.length) 0)

/-- The shift of the memory and of the token list. -/
def shiftContext (q : SeqId) (rq : ShiftRequest) (s : ServerTokens) (mem : Kv.Cache) :
    Except ShiftError (ServerTokens × Kv.Cache) := do
  let nTokens : Int := s.tokens.length
  let nKeep ← shiftKeep rq
  let nLeft ← int32 (nTokens - nKeep)
  let nDiscard := if rq.nDiscard ≠ 0 then rq.nDiscard else nLeft.tdiv 2
  let to_ ← int32 (nKeep + nDiscard)
  let shift ← int32 (-nDiscard)
  let mem := (mem.seqRm (some q) nKeep to_).seqAdd q to_ nTokens shift
  let toks ← moveTokens nDiscard s.tokens (toSize to_) (s.tokens.length - toSize to_)
  let toks ← resizeTokens toks (toSize (nTokens - nDiscard))
  pure ({ s.clear with tokens := toks }, mem)

variable {x : Int} {toks : List LlamaToken} {d k : Nat} {tag : Nat → LlamaToken}

theorem int32_eq_ok {y : Int} : int32 x = .ok y ↔ y = x ∧ -2147483648 ≤ x ∧ x ≤ 2147483647 := by
  rw [int32]
  split_ifs with hx
  · simp [hx, eq_comm]
  · simp [hx]

theorem int32_of_range (hlow : -2147483648 ≤ x) (hhigh : x ≤ 2147483647) : int32 x = .ok x :=
  int32_eq_ok.mpr ⟨rfl, hlow, hhigh⟩

theorem toSize_natCast {n : Nat} (h : n < 18446744073709551616) : toSize n = n := by
  rw [toSize]
  omega

/-- The number of tokens that are kept, when nothing overflows. -/
def ShiftRequest.keep (rq : ShiftRequest) : Int :=
  min (rq.nCtx - 4)
    ((if rq.nKeep < 0 then rq.taskTokens else rq.nKeep) + if rq.addBosToken then 1 else 0)

/-- What is known of a full slot of `n` tokens: the fields are of type `int`, and the prompt of
its task fits into the context. -/
structure ShiftRequest.Full (rq : ShiftRequest) (n : Nat) : Prop where
  ctx : 8 ≤ rq.nCtx ∧ rq.nCtx ≤ 2147483647
  full : rq.nCtx ≤ n + 1
  tokens : n < 2147483647
  task : 0 ≤ rq.taskTokens ∧ rq.taskTokens < rq.nCtx
  nKeep : -2147483648 ≤ rq.nKeep ∧ rq.nKeep ≤ 2147483647
  nDiscard : -2147483648 ≤ rq.nDiscard ∧ rq.nDiscard ≤ 2147483647

variable {q : SeqId} {rq : ShiftRequest} {s : ServerTokens} {mem : Kv.Cache} {n : Nat}

theorem ShiftRequest.Full.keep_range (h : rq.Full n) : 0 ≤ rq.keep ∧ rq.keep + 3 ≤ n := by
  have h1 := h.ctx
  have h2 := h.full
  have h3 := h.task
  rw [keep]
  refine ⟨le_min (by omega) ?_, (add_le_add_left (min_le_left _ _) 3).trans (by omega)⟩
  split_ifs <;> omega

/-- Adding one to the greatest number of tokens overflows. -/
theorem shiftKeep_eq (h : rq.Full n) :
    shiftKeep rq = if rq.addBosToken = true ∧ rq.nKeep = 2147483647 then .error .overflow
      else .ok rq.keep := by
  have h1 := h.ctx
  have h3 := h.task
  have h4 := h.nKeep
  have hmost : int32 (rq.nCtx - 4) = .ok (rq.nCtx - 4) := int32_of_range (by omega) (by omega)
  rw [shiftKeep, ShiftRequest.keep]
  cases hbos : rq.addBosToken with
  | false =>
    simp only [Bool.false_eq_true, if_false, false_and, add_zero, bind, Except.bind, pure,
      Except.pure, hmost]
  | true =>
    simp only [if_true, true_and]
    by_cases hmax : rq.nKeep = 2147483647
    · rw [if_pos hmax, if_neg (by omega), hmax]
      rfl
    · have hone : int32 ((if rq.nKeep < 0 then rq.taskTokens else rq.nKeep) + 1) =
          .ok ((if rq.nKeep < 0 then rq.taskTokens else rq.nKeep) + 1) := by
        apply int32_of_range <;> split_ifs <;> omega
      rw [if_neg hmax, hone]
      simp only [bind, Except.bind, pure, Except.pure, hmost]

theorem moveTokens_spec {D start count : Nat} (hD : D ≤ start) (hin : start + count ≤ toks.length)
    (hsize : toks.length < 2147483647) :
    ∃ toks', moveTokens D toks start count = .ok toks' ∧ toks'.length = toks.length ∧
      ∀ k, toks'[k]? =
        if start - D ≤ k ∧ k < start - D + count then toks[k + D]? else toks[k]? := by
  induction count with
  | zero => exact ⟨toks, rfl, rfl, fun k => by rw [if_neg (by omega)]⟩
  | succ count ih =>
    obtain ⟨toks', hrun, hlen, hget⟩ := ih (by omega)
    have hto : toSize (((start + count : Nat) : Int) - (D : Int)) = start - D + count := by
      rw [show ((start + count : Nat) : Int) - (D : Int) = ((start - D + count : Nat) : Int) by
        omega]
      exact toSize_natCast (by omega)
    have hread : toks'.getD (start + count) 0 = toks[start + count] := by
      rw [getD_eq_getElem?_getD, hget]
      by_cases hzero : D = 0
      · subst hzero
        rw [if_neg (by omega), getElem?_eq_getElem (by omega), Option.getD_some]
      · rw [if_neg (by omega), getElem?_eq_getElem (by omega), Option.getD_some]
    refine ⟨toks'.set (start - D + count) toks[start + count], ?_, by rw [length_set, hlen],
      fun k => ?_⟩
    · rw [moveTokens, hrun]
      simp only [bind, Except.bind, moveToken, hto, hread]
      rw [if_pos (by omega)]
    · rw [getElem?_set, hlen]
      by_cases hk : start - D + count = k
      · subst hk
        rw [if_pos rfl, if_pos (by omega), if_pos (by omega), getElem?_eq_getElem (by omega)]
        congr 2
        omega
      · rw [if_neg hk, hget]
        by_cases hin' : start - D ≤ k ∧ k < start - D + count
        · rw [if_pos hin', if_pos (by omega)]
        · rw [if_neg hin', if_neg (by omega)]

theorem resizeTokens_length {toks' : List LlamaToken} (h : resizeTokens toks n = .ok toks') :
    n ≤ 2305843009213693951 ∧ toks'.length = n := by
  rw [resizeTokens] at h
  split_ifs at h with hn
  obtain rfl := Except.ok.inj h
  refine ⟨by omega, ?_⟩
  rw [length_append, length_take, length_replicate]
  omega

/-- The tokens without a range. -/
def without (toks : List LlamaToken) (k d : Nat) : List LlamaToken :=
  toks.take k ++ toks.drop (k + d)

theorem without_getElem? (hk : k ≤ toks.length) (j : Nat) :
    (without toks k d)[j]? = if j < k then toks[j]? else toks[j + d]? := by
  rw [without]
  split_ifs with hj
  · rw [getElem?_append_left (by rw [length_take]; omega), getElem?_take_of_lt hj]
  · rw [getElem?_append_right (by rw [length_take]; omega), length_take, getElem?_drop]
    congr 1
    omega

theorem length_without (h : k + d ≤ toks.length) : (without toks k d).length = toks.length - d := by
  rw [without, length_append, length_take, length_drop]
  omega

/-- The loop and `resize` leave the tokens without the range. -/
theorem moveTokens_resize (h : k + d ≤ toks.length) (hsize : toks.length < 2147483647) :
    (moveTokens d toks (k + d) (toks.length - (k + d)) >>= fun toks' =>
      resizeTokens toks' (toks.length - d)) = .ok (without toks k d) := by
  have hend : k + d + (toks.length - (k + d)) ≤ toks.length := by omega
  obtain ⟨toks', hrun, hlen, hget⟩ := moveTokens_spec (Nat.le_add_left d k) hend hsize
  rw [hrun]
  simp only [bind, Except.bind, resizeTokens]
  have hnone : toks.length - d - toks'.length = 0 := by omega
  rw [if_neg (by omega), hnone, replicate_zero, append_nil]
  congr 1
  apply ext_getElem?
  intro j
  rw [getElem?_take, without_getElem? (by omega)]
  by_cases hj : j < toks.length - d
  · rw [if_pos hj, hget]
    by_cases hjk : j < k
    · rw [if_neg (by omega), if_pos hjk]
    · rw [if_pos (by omega), if_neg hjk]
  · rw [if_neg hj, if_neg (by omega), getElem?_eq_none (by omega)]

/-- The memory loses the positions of the range and moves the later ones down. -/
theorem computed_without (hmem : mem.Computed q tag toks) (h : k + d ≤ toks.length) :
    ((mem.seqRm (some q) k ((k + d : Nat) : Int)).seqAdd q ((k + d : Nat) : Int) toks.length
      (-d)).Computed q tag (without toks k d) := by
  have hlow : Kv.Cache.lower (k : Int) = k := by simp [Kv.Cache.lower]
  have hup : Kv.Cache.upper ((k + d : Nat) : Int) = (k + d : Nat) := by
    rw [Kv.Cache.upper, if_neg (by omega)]
  have hrm := Kv.Cache.Remembers.seqRm hmem (k : Int) ((k + d : Nat) : Int)
  simp only [hlow, hup, Nat.cast_le, Nat.cast_lt] at hrm
  refine (hrm.seqAdd (a := k + d) (b := toks.length) (m := d) (by omega) h
    (fun j h1 h2 => if_pos ⟨by omega, h2⟩)).congr fun j => ?_
  rw [without_getElem? (by omega)]
  by_cases hin : k + d - d ≤ j ∧ j < toks.length - d
  · rw [if_pos hin, if_neg (by omega), if_neg (by omega)]
  · rw [if_neg hin]
    by_cases hsrc : k + d ≤ j ∧ j < toks.length
    · rw [if_pos hsrc, if_neg (by omega), getElem?_eq_none (by omega)]
    · rw [if_neg hsrc]
      by_cases hj : j < k
      · rw [if_neg (by omega), if_pos hj]
      · rw [if_neg hj, getElem?_eq_none (l := toks) (i := j + d) (by omega)]
        split_ifs
        · rfl
        · exact getElem?_eq_none (by omega)

/-- The token list is its first `n_keep` tokens and the tokens behind a range of at most `n_left`
ones, and the cells of the sequence were computed for it. -/
def ShiftsRight (q : SeqId) (tag : Nat → LlamaToken) (rq : ShiftRequest) (s : ServerTokens)
    (mem : Kv.Cache) : Prop :=
  ∃ s' mem' k d, shiftContext q rq s mem = .ok (s', mem') ∧
    shiftKeep rq = .ok ((k : Nat) : Int) ∧ 0 < d ∧ k + d ≤ s.tokens.length ∧
    s'.tokens = s.tokens.take k ++ s.tokens.drop (k + d) ∧ mem'.Computed q tag s'.tokens

/-- The number of tokens that a shift discards. -/
def ShiftRequest.discard (rq : ShiftRequest) (n : Nat) : Int :=
  if rq.nDiscard ≠ 0 then rq.nDiscard else ((n : Int) - rq.keep).tdiv 2

section

variable (h : rq.Full s.tokens.length)
include h

/-- The steps of a shift that does not overflow in `n_keep`. -/
theorem shiftContext_eq (hkeep : ¬(rq.addBosToken = true ∧ rq.nKeep = 2147483647)) :
    shiftContext q rq s mem = (do
      let to_ ← int32 (rq.keep + rq.discard s.tokens.length)
      let shift ← int32 (-rq.discard s.tokens.length)
      let toks ← moveTokens (rq.discard s.tokens.length) s.tokens (toSize to_)
        (s.tokens.length - toSize to_)
      let toks ← resizeTokens toks
        (toSize ((s.tokens.length : Int) - rq.discard s.tokens.length))
      pure ({ s.clear with tokens := toks },
        (mem.seqRm (some q) rq.keep to_).seqAdd q to_ s.tokens.length shift)) := by
  obtain ⟨hlow, hhigh⟩ := h.keep_range
  have htok := h.tokens
  have hleft : int32 ((s.tokens.length : Int) - rq.keep) =
      .ok ((s.tokens.length : Int) - rq.keep) :=
    int32_of_range (by omega) (by omega)
  rw [shiftContext, shiftKeep_eq h, if_neg hkeep]
  simp only [bind, Except.bind, hleft, ShiftRequest.discard]

/-- A shift that discards some of the tokens behind the kept ones keeps the slot aligned. -/
theorem shiftsRight_of_discard (hmem : mem.Computed q tag s.tokens)
    (hkeep : ¬(rq.addBosToken = true ∧ rq.nKeep = 2147483647))
    (hpos : 0 < rq.discard s.tokens.length)
    (hle : rq.discard s.tokens.length ≤ s.tokens.length - rq.keep) :
    ShiftsRight q tag rq s mem := by
  obtain ⟨hlow, hhigh⟩ := h.keep_range
  have htok := h.tokens
  obtain ⟨k, hk⟩ := Int.eq_ofNat_of_zero_le hlow
  obtain ⟨d, hd⟩ := Int.eq_ofNat_of_zero_le hpos.le
  rw [hd] at hpos hle
  rw [hk] at hle hhigh
  have hto : int32 ((k : Int) + d) = .ok ((k + d : Nat) : Int) :=
    int32_of_range (by omega) (by omega)
  have hshift : int32 (-(d : Int)) = .ok (-(d : Int)) := int32_of_range (by omega) (by omega)
  have hsize : toSize ((k + d : Nat) : Int) = k + d := toSize_natCast (by omega)
  have hsub : toSize ((s.tokens.length : Int) - d) = s.tokens.length - d := by
    rw [show (s.tokens.length : Int) - d = ((s.tokens.length - d : Nat) : Int) by omega]
    exact toSize_natCast (by omega)
  have hrange : k + d ≤ s.tokens.length := by omega
  have hlist := moveTokens_resize hrange htok
  refine ⟨{ s.clear with tokens := without s.tokens k d },
    (mem.seqRm (some q) k ((k + d : Nat) : Int)).seqAdd q ((k + d : Nat) : Int) s.tokens.length
      (-d), k, d, ?_, ?_, by omega, hrange, rfl, computed_without hmem hrange⟩
  · rw [shiftContext_eq h hkeep, hd, hk, hto]
    simp only [bind, Except.bind, hshift, hsize, hsub] at hlist ⊢
    cases hrun : moveTokens d s.tokens (k + d) (s.tokens.length - (k + d)) with
    | error e => simp [hrun] at hlist
    | ok toks =>
      simp only [hrun] at hlist ⊢
      rw [hlist]
      rfl
  · rw [shiftKeep_eq h, if_neg hkeep, hk]

/-- The length of the new token list tells how many tokens were discarded. -/
theorem shiftContext_length {s' : ServerTokens} {mem' : Kv.Cache}
    (hkeep : ¬(rq.addBosToken = true ∧ rq.nKeep = 2147483647))
    (hrun : shiftContext q rq s mem = .ok (s', mem')) :
    s'.tokens.length = toSize ((s.tokens.length : Int) - rq.discard s.tokens.length) ∧
      s'.tokens.length ≤ 2305843009213693951 := by
  rw [shiftContext_eq h hkeep] at hrun
  obtain ⟨to_, -, hrun⟩ := Loop.bind_ok.mp hrun
  obtain ⟨shift, -, hrun⟩ := Loop.bind_ok.mp hrun
  obtain ⟨moved, -, hrun⟩ := Loop.bind_ok.mp hrun
  obtain ⟨toks, hresize, hrun⟩ := Loop.bind_ok.mp hrun
  obtain ⟨rfl, -⟩ := Prod.mk.inj (Except.ok.inj hrun)
  obtain ⟨hmax, hlen⟩ := resizeTokens_length hresize
  exact ⟨hlen, hlen.trans_le hmax⟩

end

/-- A request for zero discarded tokens discards half of those that are left. -/
theorem ShiftRequest.Full.discard_range (h : rq.Full n) :
    -2147483648 ≤ rq.discard n ∧ rq.discard n ≤ 2147483647 ∧
      (0 < rq.discard n ∧ rq.discard n ≤ n - rq.keep ↔
        rq.nDiscard = 0 ∨ 0 < rq.nDiscard ∧ rq.nDiscard ≤ n - rq.keep) := by
  obtain ⟨hlow, hhigh⟩ := h.keep_range
  have hint := h.nDiscard
  have htok := h.tokens
  rw [discard]
  by_cases hzero : rq.nDiscard = 0
  · have hhalf : ((n : Int) - rq.keep).tdiv 2 = ((n : Int) - rq.keep) / 2 :=
      Int.tdiv_eq_ediv_of_nonneg (by omega)
    rw [if_neg (not_not.mpr hzero), hhalf]
    omega
  · rw [if_pos hzero]
    omega

/-- The shift keeps the token list and the memory aligned just if one more token to keep is not
one too many for an `int`, and the request discards no more tokens than are left. -/
theorem shiftContext_exact_iff {tag : Nat → LlamaToken} (h : rq.Full s.tokens.length)
    (hmem : mem.Computed q tag s.tokens) :
    ShiftsRight q tag rq s mem ↔
      ¬(rq.addBosToken = true ∧ rq.nKeep = 2147483647) ∧
        (rq.nDiscard = 0 ∨
          0 < rq.nDiscard ∧ rq.nDiscard ≤ s.tokens.length - rq.keep) := by
  obtain ⟨hmin, hmax, hdiscard⟩ := h.discard_range
  rw [← hdiscard]
  constructor
  · rintro ⟨s', mem', k, d, hrun, hk, hpos, hle, htoks, -⟩
    have hkeep : ¬(rq.addBosToken = true ∧ rq.nKeep = 2147483647) := by
      intro hover
      rw [shiftKeep_eq h, if_pos hover] at hk
      cases hk
    refine ⟨hkeep, ?_⟩
    rw [shiftKeep_eq h, if_neg hkeep] at hk
    have hk' := Except.ok.inj hk
    obtain ⟨hlen, hbound⟩ := shiftContext_length h hkeep hrun
    have hnew : s'.tokens.length = s.tokens.length - d := by
      rw [htoks]
      exact length_without hle
    rw [hnew, toSize] at hlen
    rw [hnew] at hbound
    have htok := h.tokens
    omega
  · rintro ⟨hkeep, hpos, hle⟩
    exact shiftsRight_of_discard h hmem hkeep hpos hle

/-- A context of eight tokens. -/
theorem shiftContext_exact_iff_eight :
    ShiftsRight 0 (fun i => ([1, 2, 3, 4, 5, 6, 7] : List LlamaToken).getD i 0)
        ⟨8, true, 2, 1, 2⟩ ⟨false, fun _ => none, [1, 2, 3, 4, 5, 6, 7]⟩ (.inOrder 7) ↔
      ¬(true = true ∧ (1 : Int) = 2147483647) ∧
        ((2 : Int) = 0 ∨ (0 : Int) < 2 ∧
          (2 : Int) ≤ ([1, 2, 3, 4, 5, 6, 7] : List LlamaToken).length -
            ShiftRequest.keep ⟨8, true, 2, 1, 2⟩) :=
  @shiftContext_exact_iff 0 ⟨8, true, 2, 1, 2⟩ ⟨false, fun _ => none, [1, 2, 3, 4, 5, 6, 7]⟩
    (.inOrder 7) (fun i => ([1, 2, 3, 4, 5, 6, 7] : List LlamaToken).getD i 0)
    ⟨by decide, by decide, by decide, by decide, by decide, by decide⟩
    (Kv.Cache.computed_inOrder [1, 2, 3, 4, 5, 6, 7] 0)

/-- With more tokens to discard than are left, two of four tokens to keep stay in the list. -/
theorem shiftContext_discards_kept :
    (∃ mem', shiftContext 0 ⟨8, false, 2, 4, 5⟩ ⟨false, fun _ => none, [1, 2, 3, 4, 5, 6, 7]⟩
      (.inOrder 7) = .ok (⟨false, fun _ => none, [1, 2]⟩, mem')) ∧
    ¬ShiftsRight 0 (fun i => ([1, 2, 3, 4, 5, 6, 7] : List LlamaToken).getD i 0)
      ⟨8, false, 2, 4, 5⟩ ⟨false, fun _ => none, [1, 2, 3, 4, 5, 6, 7]⟩ (.inOrder 7) := by
  have hrun : ∃ mem', shiftContext 0 ⟨8, false, 2, 4, 5⟩
      ⟨false, fun _ => none, [1, 2, 3, 4, 5, 6, 7]⟩ (.inOrder 7) =
        .ok (⟨false, fun _ => none, [1, 2]⟩, mem') := ⟨_, rfl⟩
  refine ⟨hrun, ?_⟩
  rintro ⟨s', mem'', k, d, hrun', hk, -, hle, htoks, -⟩
  obtain ⟨mem', hrun⟩ := hrun
  obtain ⟨rfl, -⟩ := Prod.mk.inj (Except.ok.inj (hrun.symm.trans hrun'))
  have hfour : (4 : Int) = k := Except.ok.inj hk
  have hlen := congrArg List.length htoks
  simp only [length_append, length_take, length_drop, length_cons, length_nil] at hlen hle
  omega

end Llama.Server
