import Llama.Server.Token
import Mathlib.Data.Bool.Basic

/-!
# Streamed and unstreamed text

The generation of one slot is a sequence of calls of `process_token` that ends with the first one
that leaves no next token. A streaming client has received the partial responses and an empty
final one, any other client the whole text. The two agree unless the last call held its text back
because it ended in the beginning of a stop word.
-/

namespace Llama.Server

open List

/-- The calls of `process_token` until one of them stops the generation. -/
def generate (p : GenParams) (g : Gen) : List Sampled → Gen
  | [] => g
  | t :: ts =>
    if (processToken p g t).hasNext then generate p (processToken p g t) ts
    else processToken p g t

/-- The contents of the partial responses, and of the final one. -/
def received (p : GenParams) (g : Gen) : Bytes := g.chunks.flatten ++ finalContent p g

/-- The text that the call searches for stop words. -/
def searched (g : Gen) (t : Sampled) : Bytes :=
  (g.text ++ t.piece).drop (min g.nSent (g.text ++ t.piece).length)

/-- The token completes no stop word, but the text ends in the beginning of one. -/
def holdsBack (p : GenParams) (g : Gen) (t : Sampled) : Bool :=
  !t.eog && (findStoppingStrings p.antiprompt (searched g t) t.piece.length true).isNone &&
    (findStoppingStrings p.antiprompt (searched g t) t.piece.length false).isSome

/-- The call that stops the generation holds its text back. -/
def stopsHolding (p : GenParams) (g : Gen) : List Sampled → Bool
  | [] => false
  | t :: ts =>
    if (processToken p g t).hasNext then stopsHolding p (processToken p g t) ts
    else holdsBack p g t

/-- The request with or without streaming. -/
def GenParams.withStream (p : GenParams) (b : Bool) : GenParams := { p with stream := b }

section Call

variable {p : GenParams} {g : Gen} {t : Sampled}

theorem processToken_text (h : p.nIndent = 0) :
    (processToken p g t).text = (sendText p g t).1.text := by
  simp [processToken, checkIndent_of_nIndent _ _ h]

theorem processToken_nSent (h : p.nIndent = 0) :
    (processToken p g t).nSent = (sendText p g t).1.nSent := by
  simp [processToken, checkIndent_of_nIndent _ _ h]

/-- The four outcomes of `sendText`, by what becomes of the text that was not sent yet. -/
theorem sendText_cases (hn : g.nSent ≤ g.text.length) :
    (validateUtf8 (g.text ++ t.piece) < (g.text ++ t.piece).length ∧
      (sendText p g t).1.text = g.text ++ t.piece ∧
      (sendText p g t).1.nSent = g.nSent ∧ (sendText p g t).1.chunks = g.chunks) ∨
    (holdsBack p g t = true ∧ (sendText p g t).1.text = g.text ++ t.piece ∧
      (sendText p g t).1.nSent = g.nSent ∧
      (sendText p g t).1.chunks = if p.stream then g.chunks ++ [[]] else g.chunks) ∨
    (holdsBack p g t = false ∧ ∃ k, g.nSent ≤ k ∧
      (sendText p g t).1.text = (g.text ++ t.piece).take k ∧
      (sendText p g t).1.nSent = ((g.text ++ t.piece).take k).length ∧
      (sendText p g t).1.chunks = if p.stream then
        g.chunks ++ [((g.text ++ t.piece).take k).drop g.nSent] else g.chunks) := by
  have hlen : g.nSent ≤ (g.text ++ t.piece).length := by
    simp only [length_append]
    omega
  by_cases hu : validateUtf8 (g.text ++ t.piece) < (g.text ++ t.piece).length
  · left
    exact ⟨hu, by simp only [sendText, if_pos hu, and_self]⟩
  right
  have hs : searched g t = (g.text ++ t.piece).drop g.nSent := by
    rw [searched, Nat.min_eq_left hlen]
  cases hf : findStoppingStrings p.antiprompt (searched g t) t.piece.length true with
  | some w =>
    right
    obtain ⟨stop, word⟩ := w
    refine ⟨by simp [holdsBack, hf], g.nSent + stop, Nat.le_add_right _ _, ?_⟩
    rw [hs] at hf
    have htake : g.nSent ≤ ((g.text ++ t.piece).take (g.nSent + stop)).length := by
      rw [length_take]
      omega
    have hlast : g.nSent + (((g.text ++ t.piece).take (g.nSent + stop)).drop g.nSent).length =
        ((g.text ++ t.piece).take (g.nSent + stop)).length := by
      rw [length_drop]
      omega
    simp only [sendText, if_neg hu, Nat.min_eq_left hlen, hf, Nat.min_eq_left htake, hlast,
      and_self]
  | none =>
    have hold : holdsBack p g t = (!t.eog &&
        (findStoppingStrings p.antiprompt (searched g t) t.piece.length false).isSome) := by
      simp [holdsBack, hf]
    rw [hs] at hf hold
    cases hh : holdsBack p g t with
    | true =>
      left
      rw [hh] at hold
      refine ⟨rfl, ?_⟩
      simp only [sendText, if_neg hu, Nat.min_eq_left hlen, hf, ← hold, if_true, length_nil,
        Nat.add_zero, and_self]
    | false =>
      right
      rw [hh] at hold
      refine ⟨rfl, (g.text ++ t.piece).length, hlen, ?_⟩
      have hlast : g.nSent + ((g.text ++ t.piece).drop g.nSent).length =
          (g.text ++ t.piece).length := by
        rw [length_drop]
        omega
      simp only [sendText, if_neg hu, Nat.min_eq_left hlen, hf, ← hold, Bool.false_eq_true,
        if_false, take_length, hlast, and_self]

/-- The partial responses make up the text that is marked as sent. -/
structure Gen.Sent (g : Gen) : Prop where
  nSent_le : g.nSent ≤ g.text.length
  flatten_chunks : g.chunks.flatten = g.text.take g.nSent

theorem sent_processToken (hi : p.nIndent = 0) (hp : p.stream = true) (h : g.Sent) :
    (processToken p g t).Sent := by
  have htake : (g.text ++ t.piece).take g.nSent = g.text.take g.nSent :=
    take_append_of_le_length h.nSent_le
  have hle : g.nSent ≤ (g.text ++ t.piece).length := Nat.le_trans h.nSent_le (by simp)
  constructor
  · rw [processToken_nSent hi, processToken_text hi]
    rcases sendText_cases (p := p) (t := t) h.nSent_le with
      ⟨-, ht, hn, -⟩ | ⟨-, ht, hn, -⟩ | ⟨-, k, -, ht, hn, -⟩
    · rw [ht, hn]
      exact hle
    · rw [ht, hn]
      exact hle
    · exact Nat.le_of_eq (by rw [ht, hn])
  · rw [processToken_nSent hi, processToken_text hi, processToken_chunks]
    rcases sendText_cases (p := p) (t := t) h.nSent_le with
      ⟨-, ht, hn, hc⟩ | ⟨-, ht, hn, hc⟩ | ⟨-, k, hk, ht, hn, hc⟩
    · rw [ht, hn, hc, htake, h.flatten_chunks]
    · rw [ht, hn, hc, htake, if_pos hp, flatten_append, h.flatten_chunks]
      simp
    · rw [ht, hn, hc, if_pos hp, take_length, flatten_append, h.flatten_chunks, ← htake,
        flatten_singleton]
      calc (g.text ++ t.piece).take g.nSent ++ ((g.text ++ t.piece).take k).drop g.nSent
          = ((g.text ++ t.piece).take k).take g.nSent ++
              ((g.text ++ t.piece).take k).drop g.nSent := by
            rw [take_take, Nat.min_eq_left hk]
        _ = (g.text ++ t.piece).take k := take_append_drop _ _

/-- The beginning of a stop word at the end of a text needs a text. -/
theorem findStoppingStrings_nil (words : List Bytes) (n : Nat) :
    findStoppingStrings words [] n false = none := by
  unfold findStoppingStrings
  induction words with
  | nil => rfl
  | cons w ws ih => simp [stopPos, findPartialStop]

theorem searched_ne_nil (h : holdsBack p g t = true) : searched g t ≠ [] := by
  intro hnil
  simp [holdsBack, hnil, findStoppingStrings_nil] at h

/-- After a call that leaves a complete text, all of it is sent unless the call held it back. -/
theorem nSent_processToken_iff (hi : p.nIndent = 0) (hn : g.nSent ≤ g.text.length)
    (hu : validateUtf8 (processToken p g t).text = (processToken p g t).text.length) :
    (processToken p g t).nSent = (processToken p g t).text.length ↔ holdsBack p g t = false := by
  rw [processToken_text hi] at hu ⊢
  rw [processToken_nSent hi]
  rcases sendText_cases (p := p) (t := t) hn with
    ⟨hlt, ht, -, -⟩ | ⟨hh, ht, hs, -⟩ | ⟨hh, k, -, ht, hs, -⟩
  · rw [ht] at hu
    omega
  · have hne := searched_ne_nil hh
    have hlt : g.nSent < (g.text ++ t.piece).length := by
      by_contra hge
      apply hne
      rw [searched, drop_eq_nil_iff]
      omega
    rw [ht, hs, hh]
    simp only [Bool.true_eq_false, iff_false]
    omega
  · rw [ht, hs, hh]
    simp

end Call

section Whole

variable {p : GenParams}

theorem sent_generate (hi : p.nIndent = 0) (hp : p.stream = true) :
    ∀ (ts : List Sampled) {g : Gen}, g.Sent → (generate p g ts).Sent
  | [], g, h => h
  | t :: ts, g, h => by
    rw [generate]
    split
    · exact sent_generate hi hp ts (sent_processToken hi hp h)
    · exact sent_processToken hi hp h

theorem nSent_generate_iff (hi : p.nIndent = 0) (hp : p.stream = true) :
    ∀ (ts : List Sampled) {g : Gen}, g.Sent → g.hasNext = true →
      (generate p g ts).hasNext = false →
      validateUtf8 (generate p g ts).text = (generate p g ts).text.length →
      ((generate p g ts).nSent = (generate p g ts).text.length ↔ stopsHolding p g ts = false)
  | [], g, h, hnext, hstop, hu => by
    rw [generate, hnext] at hstop
    cases hstop
  | t :: ts, g, h, hnext, hstop, hu => by
    rw [generate] at hstop hu ⊢
    rw [stopsHolding]
    split at hstop
    · next hc =>
      rw [if_pos hc] at hu ⊢
      rw [if_pos hc]
      exact nSent_generate_iff hi hp ts (sent_processToken hi hp h) hc hstop hu
    · next hc =>
      rw [if_neg hc] at hu ⊢
      rw [if_neg hc]
      exact nSent_processToken_iff hi h.nSent_le hu

/-- Streaming does not change the generation, only what is sent of it. -/
theorem processToken_unstreamed (g : Gen) (cs : List Bytes) (t : Sampled) :
    processToken (p.withStream false) { g with chunks := cs } t =
      { processToken p g t with chunks := cs } := by
  have hsend : sendText (p.withStream false) { g with chunks := cs } t =
      ({ (sendText p g t).1 with chunks := cs }, (sendText p g t).2) := by
    simp only [sendText, GenParams.withStream]
    split
    · rfl
    · split <;> rfl
  have hlimits : ∀ g' : Gen, checkLimits (p.withStream false) { g' with chunks := cs } t =
      { checkLimits p g' t with chunks := cs } := by
    intro g'
    simp only [checkLimits, hasBudget, GenParams.withStream]
    grind
  have hindent : ∀ g' : Gen, checkIndent (p.withStream false) { g' with chunks := cs } =
      { checkIndent p g' with chunks := cs } := by
    intro g'
    simp only [checkIndent, cutLine, nextLine, GenParams.withStream]
    grind
  have hline : ∀ (g' : Gen) (send : Bytes), checkNewLine { g' with chunks := cs } t send =
      { checkNewLine g' t send with chunks := cs } := by
    intro g' send
    simp only [checkNewLine]
    grind
  have heog : ∀ g' : Gen, checkEog { g' with chunks := cs } t =
      { checkEog g' t with chunks := cs } := by
    intro g'
    simp only [checkEog]
    grind
  simp only [processToken, hsend, hlimits, hindent, hline, heog]

theorem generate_unstreamed (cs : List Bytes) :
    ∀ (ts : List Sampled) (g : Gen), generate (p.withStream false) { g with chunks := cs } ts =
      { generate p g ts with chunks := cs }
  | [], g => rfl
  | t :: ts, g => by
    simp only [generate, processToken_unstreamed]
    split
    · exact generate_unstreamed cs ts (processToken p g t)
    · rfl

end Whole

/-- A streaming client receives the text that any other client receives, exactly unless the call
that stopped the generation held its text back. -/
theorem received_streamed_iff (p : GenParams) (ts : List Sampled) (hi : p.nIndent = 0)
    (hstop : (generate (p.withStream true) {} ts).hasNext = false)
    (hu : validateUtf8 (generate (p.withStream true) {} ts).text =
      (generate (p.withStream true) {} ts).text.length) :
    received (p.withStream true) (generate (p.withStream true) {} ts) =
        received (p.withStream false) (generate (p.withStream false) {} ts) ↔
      stopsHolding (p.withStream true) {} ts = false := by
  have hinit : ({} : Gen).Sent := ⟨Nat.le_refl _, rfl⟩
  have hsent := sent_generate (p := p.withStream true) hi rfl ts hinit
  have hiff := nSent_generate_iff (p := p.withStream true) hi rfl ts hinit rfl hstop hu
  have hplain : generate (p.withStream false) {} ts =
      { generate (p.withStream true) {} ts with chunks := [] } :=
    generate_unstreamed (p := p.withStream true) [] ts {}
  rw [← hiff, hplain]
  simp only [received, finalContent, GenParams.withStream, if_true, Bool.false_eq_true, if_false,
    append_nil, flatten_nil, nil_append] at hsent ⊢
  rw [hsent.flatten_chunks]
  constructor
  · intro h
    have hlen := congrArg List.length h
    rw [length_take, Nat.min_eq_left hsent.nSent_le] at hlen
    exact hlen
  · intro h
    rw [h, take_length]

/-- A request with the stop word `ab` and at most `n` tokens. -/
def stopAb (n : Int) : GenParams := { antiprompt := [[0x61, 0x62]], nPredict := n, nCtx := 64 }

/-- The tokens `a`, `b`: the first is held back and the second completes the stop word. -/
def tokensAb : List Sampled := [⟨[0x61], false, 1, 1, false⟩, ⟨[0x62], false, 2, 2, false⟩]

theorem received_streamed_iff_stopAb :
    received ((stopAb 8).withStream true) (generate ((stopAb 8).withStream true) {} tokensAb) =
        received ((stopAb 8).withStream false)
          (generate ((stopAb 8).withStream false) {} tokensAb) ↔
      stopsHolding ((stopAb 8).withStream true) {} tokensAb = false :=
  received_streamed_iff (stopAb 8) tokensAb rfl (by decide) (by decide)

/-- With one token to predict, the token `a` is never sent to a streaming client. -/
theorem held_text_is_lost :
    ¬ ∀ (p : GenParams) (ts : List Sampled), (∀ w ∈ p.antiprompt, w ≠ []) → p.nIndent = 0 →
      (generate (p.withStream true) {} ts).hasNext = false →
      validateUtf8 (generate (p.withStream true) {} ts).text =
        (generate (p.withStream true) {} ts).text.length →
      received (p.withStream true) (generate (p.withStream true) {} ts) =
        received (p.withStream false) (generate (p.withStream false) {} ts) := by
  intro h
  have hlost := h (stopAb 1) (tokensAb.take 1) (by decide) rfl (by decide) (by decide)
  exact absurd hlost (by decide)

end Llama.Server
