import Llama.Server.Budget

/-!
# Speculative decoding

The generation of one slot from the end of its prompt on, as `update_slots` runs it. An update
without a draft decodes the last sampled token and hands the next one to `process_token`. An
update with a draft decodes the draft as well, samples until a token differs from it, moves the
counters past all the accepted tokens, and hands these over one by one.
-/

namespace Llama.Server

open List

/-- A target model whose next token is a function of the tokens accepted so far. -/
structure Target where
  next : List Nat → Nat
  piece : Nat → Bytes
  /-- `llama_vocab_is_eog`. -/
  eog : Nat → Bool

/-- What the generation of a slot depends on, of its request and of the server. -/
structure SlotParams extends GenParams where
  /-- `speculative.n_max` -/
  nMax : Int := 16
  /-- `speculative.n_min` -/
  nMin : Int := 0
  nKeep : Int := 0
  /-- A negative `n_discard` makes the context shift write outside the token list. -/
  nDiscard : Nat := 0
  addBosToken : Bool := false
  /-- The task shares its prompt: `is_parent` or `is_child`. -/
  shared : Bool := false
  /-- `task->n_tokens()` -/
  taskTokens : Nat := 0

/-- A slot that generates. -/
structure Generation where
  /-- `slot.prompt.tokens`, which holds the sampled tokens but the last. -/
  prompt : List Nat
  sampled : Nat := 0
  /-- The tokens handed to `process_token`. -/
  handed : List Nat := []
  nDecoded : Nat := 0
  gen : Gen := {}
  /-- The slot was released with an error. -/
  failed : Bool := false
deriving DecidableEq

/-- The slot has not been released. -/
def Generation.running (s : Generation) : Bool := s.gen.hasNext && !s.failed

section Update

variable (p : SlotParams) (m : Target)

/-- The arguments of `process_token` for a token. -/
def Generation.sampledToken (s : Generation) (id : Nat) : Sampled where
  piece := m.piece id
  eog := m.eog id
  nDecoded := s.nDecoded
  nTokens := s.prompt.length

def Generation.hand (s : Generation) (id : Nat) : Generation :=
  { s with
    sampled := id
    handed := s.handed ++ [id]
    gen := processToken p.toGenParams s.gen (s.sampledToken m id) }

/-- Hands over the accepted tokens until one of them stops the generation. -/
def Generation.handAll (s : Generation) : List Nat → Generation
  | [] => s
  | id :: ids => if (s.hand p m id).gen.hasNext then (s.hand p m id).handAll ids else s.hand p m id

/-- The tokens that a context shift leaves. -/
def shiftTokens (tokens : List Nat) (nKeep nDiscard : Nat) : List Nat :=
  (tokens.take nKeep ++ tokens.drop (nKeep + nDiscard)).take (tokens.length - nDiscard)

def Generation.contextShift (s : Generation) : Generation :=
  if p.nCtx ≤ s.prompt.length + 1 then
    if !p.ctxShift || p.shared then { s with failed := true }
    else
      let nKeep := if p.nKeep < 0 then (p.taskTokens : Int) else p.nKeep
      let nKeep := if p.addBosToken then nKeep + 1 else nKeep
      let nKeep := min (p.nCtx - 4) nKeep
      let nLeft := s.prompt.length - nKeep
      let nDiscard := if p.nDiscard ≠ 0 then p.nDiscard else (nLeft.tdiv 2).toNat
      { s with
        prompt := shiftTokens s.prompt nKeep.toNat nDiscard
        gen := { s.gen with truncated := true } }
  else s

/-- `get_n_draft_max` of a slot that can speculate. -/
def Generation.nDraftMax (s : Generation) : Int :=
  let n := min p.nMax (p.nCtx - s.prompt.length - 2)
  let n := if 0 < s.gen.nRemaining then min n (s.gen.nRemaining - 1) else n
  if n < p.nMin then 0 else n

/-- `common_sampler_sample_and_accept_n` -/
def sampleAndAcceptN (next : List Nat → Nat) (history : List Nat) : List Nat → List Nat
  | [] => [next history]
  | d :: ds =>
    if d = next history then
      next history :: sampleAndAcceptN next (history ++ [next history]) ds
    else [next history]

def Generation.pushSampled (s : Generation) : Generation :=
  { s with prompt := s.prompt ++ [s.sampled] }

/-- Samples one token after the batch is decoded. -/
def Generation.decode (s : Generation) : Generation :=
  { s with nDecoded := s.nDecoded + 1 }.hand p m (m.next s.handed)

/-- Samples and accepts after the batch with the draft is decoded. -/
def Generation.verify (s : Generation) (draft : List Nat) : Generation :=
  let ids := sampleAndAcceptN m.next s.handed draft
  let prompt := s.prompt ++ draft
  { s with
    nDecoded := s.nDecoded + ids.length
    prompt := prompt.take (prompt.length - draft.length) ++ ids.dropLast
    sampled := ids.getLastD 0 }.handAll p m ids

/-- The part of `update_slots` after the context shift. -/
def Generation.advance (speculate : Bool) (draft : List Nat) (s : Generation) : Generation :=
  let nDraftMax := if speculate then s.nDraftMax p else 0
  if 0 < nDraftMax then
    let draft := draft.take nDraftMax.toNat
    if (draft.length : Int) < p.nMin then s.pushSampled.decode p m
    else s.pushSampled.verify p m draft
  else s.pushSampled.decode p m

/-- One `update_slots`, for which the draft model proposes `draft`. -/
def Generation.update (speculate : Bool) (draft : List Nat) (s : Generation) : Generation :=
  if s.running then
    if (s.contextShift p).failed then s.contextShift p
    else (s.contextShift p).advance p m speculate draft
  else s

/-- The slot after `n` updates; the first token is sampled when the prompt is done. -/
def Generation.run (speculate : Bool) (prompt : List Nat) (drafts : Nat → List Nat) :
    Nat → Generation
  | 0 => ({ prompt := prompt } : Generation).decode p m
  | n + 1 => (run speculate prompt drafts n).update p m speculate (drafts n)

end Update

/-- Each token is the one that the target gives after those before it. -/
def Generated (next : List Nat → Nat) (history : List Nat) : List Nat → Prop
  | [] => True
  | id :: ids => id = next history ∧ Generated next (history ++ [id]) ids

theorem generated_sampleAndAcceptN (next : List Nat → Nat) (draft : List Nat) :
    ∀ history, Generated next history (sampleAndAcceptN next history draft) := by
  induction draft with
  | nil => exact fun history => ⟨rfl, trivial⟩
  | cons d ds ih =>
    intro history
    rw [sampleAndAcceptN]
    split
    · exact ⟨rfl, ih _⟩
    · exact ⟨rfl, trivial⟩

theorem sampleAndAcceptN_ne_nil (next : List Nat → Nat) (history draft : List Nat) :
    sampleAndAcceptN next history draft ≠ [] := by
  cases draft with
  | nil => exact cons_ne_nil _ _
  | cons d ds =>
    rw [sampleAndAcceptN]
    split <;> exact cons_ne_nil _ _

theorem length_sampleAndAcceptN_le (next : List Nat → Nat) (draft : List Nat) :
    ∀ history, (sampleAndAcceptN next history draft).length ≤ draft.length + 1 := by
  induction draft with
  | nil => exact fun history => Nat.le_refl _
  | cons d ds ih =>
    intro history
    rw [sampleAndAcceptN]
    split
    · exact Nat.succ_le_succ (ih _)
    · simp

section Accepted

variable (p : SlotParams) (m : Target)

/-- The tokens that an update accepts, in a slot that needs no context shift. -/
def Generation.accepted (s : Generation) (draft : List Nat) : List Nat :=
  if 0 < s.nDraftMax p ∧ p.nMin ≤ (draft.take (s.nDraftMax p).toNat).length then
    sampleAndAcceptN m.next s.handed (draft.take (s.nDraftMax p).toNat)
  else [m.next s.handed]

/-- The counters moved past the accepted tokens. -/
def Generation.moved (s : Generation) (ids : List Nat) : Generation :=
  { s with nDecoded := s.nDecoded + ids.length, prompt := s.prompt ++ s.sampled :: ids.dropLast }

section

variable (s : Generation)

theorem generated_accepted (draft : List Nat) :
    Generated m.next s.handed (s.accepted p m draft) := by
  rw [Generation.accepted]
  split
  · exact generated_sampleAndAcceptN _ _ _
  · exact ⟨rfl, trivial⟩

theorem accepted_ne_nil (draft : List Nat) : s.accepted p m draft ≠ [] := by
  rw [Generation.accepted]
  split
  · exact sampleAndAcceptN_ne_nil _ _ _
  · exact cons_ne_nil _ _

/-- More than one token is accepted only from a draft that was cut to fit. -/
theorem length_accepted_le (draft : List Nat) (h : 2 ≤ (s.accepted p m draft).length) :
    ((s.accepted p m draft).length : Int) ≤ s.nDraftMax p + 1 := by
  rw [Generation.accepted] at h ⊢
  split at h
  · next hv =>
    rw [if_pos hv]
    have hlen := length_sampleAndAcceptN_le m.next (draft.take (s.nDraftMax p).toNat) s.handed
    rw [length_take] at hlen
    omega
  · simp at h

theorem hand_sampled (x id : Nat) :
    ({ s with sampled := x } : Generation).hand p m id = s.hand p m id := rfl

theorem handAll_sampled (x : Nat) {ids : List Nat} (h : ids ≠ []) :
    ({ s with sampled := x } : Generation).handAll p m ids = s.handAll p m ids := by
  cases ids with
  | nil => exact absurd rfl h
  | cons id ids => rw [Generation.handAll, Generation.handAll, hand_sampled]

theorem decode_eq_handAll :
    s.pushSampled.decode p m = (s.moved [m.next s.handed]).handAll p m [m.next s.handed] := by
  rw [Generation.handAll, Generation.handAll]
  split <;> rfl

theorem verify_eq_handAll (draft : List Nat) :
    s.pushSampled.verify p m draft = (s.moved (sampleAndAcceptN m.next s.handed draft)).handAll p m
      (sampleAndAcceptN m.next s.handed draft) := by
  have hprompt : ((s.prompt ++ [s.sampled]) ++ draft).take
      (((s.prompt ++ [s.sampled]) ++ draft).length - draft.length) = s.prompt ++ [s.sampled] := by
    rw [length_append, Nat.add_sub_cancel, take_left]
  rw [← handAll_sampled p m (s.moved _) ((sampleAndAcceptN m.next s.handed draft).getLastD 0)
    (sampleAndAcceptN_ne_nil m.next s.handed draft)]
  simp only [Generation.verify, Generation.pushSampled, hprompt]
  simp only [Generation.moved, append_assoc, singleton_append]

/-- Both kinds of update move the counters and then hand over the accepted tokens. -/
theorem advance_true (draft : List Nat) : s.advance p m true draft =
      (s.moved (s.accepted p m draft)).handAll p m (s.accepted p m draft) := by
  simp only [Generation.advance, Generation.accepted, if_true]
  by_cases h0 : 0 < s.nDraftMax p
  · by_cases hmin : p.nMin ≤ (draft.take (s.nDraftMax p).toNat).length
    · rw [if_pos h0, if_neg (by omega), if_pos ⟨h0, hmin⟩, verify_eq_handAll]
    · rw [if_pos h0, if_pos (by omega), if_neg (fun h => hmin h.2), decode_eq_handAll]
  · rw [if_neg h0, if_neg (fun h => h0 h.1), decode_eq_handAll]

theorem advance_false (draft : List Nat) : s.advance p m false draft =
      (s.moved [m.next s.handed]).handAll p m [m.next s.handed] := by
  simp only [Generation.advance, Bool.false_eq_true, if_false, Int.lt_irrefl, decode_eq_handAll]

end

end Accepted

end Llama.Server
