import Llama.Server.Stream
import Llama.Server.StopSearch

/-!
# Where a stop word is cut

A stop word is searched in the text that was not sent yet, in a window that is as long as the word
and the piece of the last token, and only when the text does not end inside a character. The
tokens whose text ended inside a character are not searched again: a stop word that ends in one of
them is in front of the window.
-/

namespace Llama.Server

open List

open Llama.Peg (encode)

section Token

variable {p : GenParams} {g : Gen} {t : Sampled}

theorem sendText_incomplete (h : validateUtf8 (g.text ++ t.piece) ≠ (g.text ++ t.piece).length) :
    (sendText p g t).1 = { g with text := g.text ++ t.piece, hasNext := true } := by
  have hle : validateUtf8 (g.text ++ t.piece) ≤ (g.text ++ t.piece).length := by
    unfold validateUtf8
    split
    · exact Nat.sub_le ..
    · exact Nat.le_refl _
  have hlt : validateUtf8 (g.text ++ t.piece) < (g.text ++ t.piece).length := by omega
  simp only [sendText, if_pos hlt]

section

variable (hsent : g.nSent ≤ g.text.length)
  (h : validateUtf8 (g.text ++ t.piece) = (g.text ++ t.piece).length)
include hsent h

/-- A complete text that holds no stop word in the window. -/
theorem sendText_none
    (hfind : findStoppingStrings p.antiprompt ((g.text ++ t.piece).drop g.nSent) t.piece.length
      true = none) :
    (sendText p g t).1.text = g.text ++ t.piece ∧ (sendText p g t).1.hasNext = true ∧
      ((sendText p g t).1.nSent = g.nSent ∨
        (sendText p g t).1.nSent = (g.text ++ t.piece).length ∧
          (t.eog = true ∨ findStoppingStrings p.antiprompt ((g.text ++ t.piece).drop g.nSent)
            t.piece.length false = none)) := by
  have hle : g.nSent ≤ (g.text ++ t.piece).length := by
    rw [length_append]
    omega
  have hlast : g.nSent + ((g.text ++ t.piece).drop g.nSent).length =
      (g.text ++ t.piece).length := by
    rw [length_drop]
    omega
  have hnot : ¬ validateUtf8 (g.text ++ t.piece) < (g.text ++ t.piece).length := by omega
  simp only [sendText, if_neg hnot, Nat.min_eq_left hle, hfind]
  refine ⟨trivial, trivial, ?_⟩
  cases t.eog with
  | true => exact .inr ⟨hlast, .inl rfl⟩
  | false =>
    cases hhold : findStoppingStrings p.antiprompt ((g.text ++ t.piece).drop g.nSent)
        t.piece.length false with
    | none => exact .inr ⟨hlast, .inr rfl⟩
    | some best => exact .inl rfl

theorem sendText_some {stop : Nat} {w : Bytes}
    (hfind : findStoppingStrings p.antiprompt ((g.text ++ t.piece).drop g.nSent) t.piece.length
      true = some (stop, w)) : (sendText p g t).1.text = (g.text ++ t.piece).take (g.nSent + stop) ∧
      (sendText p g t).1.hasNext = false := by
  have hle : g.nSent ≤ (g.text ++ t.piece).length := by
    rw [length_append]
    omega
  have hnot : ¬ validateUtf8 (g.text ++ t.piece) < (g.text ++ t.piece).length := by omega
  simp only [sendText, if_neg hnot, Nat.min_eq_left hle, hfind, and_self]

end

/-- The indentation check looks at fields that the token leaves as they are. -/
theorem sendText_lines : (sendText p g t).1.hasNewLine = g.hasNewLine ∧
    (sendText p g t).1.lastNlPos = g.lastNlPos := by
  simp only [sendText]
  split
  · exact ⟨rfl, rfl⟩
  · split <;> exact ⟨rfl, rfl⟩

theorem checkLimits_frame : (checkLimits p g t).hasNewLine = g.hasNewLine ∧
    (checkLimits p g t).lastNlPos = g.lastNlPos ∧
    ((checkLimits p g t).hasNext = true → g.hasNext = true) := by
  unfold checkLimits
  grind

theorem checkNewLine_hasNext {send : Bytes} :
    (checkNewLine g t send).hasNext = true → g.hasNext = true := by
  unfold checkNewLine
  grind

theorem checkEog_hasNext : (checkEog g t).hasNext = true → g.hasNext = true ∧ t.eog = false := by
  unfold checkEog
  grind

/-- Where the indentation check would cut the text. -/
def indentCut (p : GenParams) (g : Gen) (text : Bytes) : Option Nat :=
  if g.hasNewLine = true ∧ 0 < p.nIndent ∧ 0 < g.lastNlPos ∧
      (indentAt text g.lastNlPos : Int) < p.nIndent then
    some (g.lastNlPos + indentAt text g.lastNlPos)
  else none

theorem cutLine_nSent : (cutLine p g).nSent = g.nSent := by
  unfold cutLine
  grind

theorem checkIndent_nSent : (checkIndent p g).nSent = g.nSent := by
  unfold checkIndent
  split
  · unfold nextLine
    split <;> exact cutLine_nSent
  · rfl

theorem nextLine_frame : (nextLine g).text = g.text ∧ (nextLine g).hasNext = g.hasNext := by
  unfold nextLine
  split <;> exact ⟨rfl, rfl⟩

variable {c : Nat}

theorem checkIndent_cut (h : indentCut p g g.text = some c) (hlt : c < g.text.length) :
    (checkIndent p g).text = g.text.take c ∧ (checkIndent p g).hasNext = false := by
  unfold indentCut at h
  split at h
  · next hcond =>
    obtain ⟨hline, hindent, hpos, hless⟩ := hcond
    cases h
    have hcut : cutLine p g = { g with
        stop := .limit, hasNext := false
        text := g.text.take (g.lastNlPos + indentAt g.text g.lastNlPos) } := by
      simp only [cutLine, if_pos hpos, if_pos (And.intro hlt hless)]
    rw [checkIndent, if_pos (by simp [hline, hindent]), nextLine_frame.1, nextLine_frame.2, hcut]
    exact ⟨rfl, rfl⟩
  · cases h

theorem checkIndent_keep (h : ∀ c, indentCut p g g.text = some c → g.text.length ≤ c) :
    (checkIndent p g).text = g.text ∧ (checkIndent p g).hasNext = g.hasNext := by
  unfold checkIndent
  split
  · next hon =>
    obtain ⟨hline, hindent⟩ := Bool.and_eq_true_iff.mp hon
    have hcut : cutLine p g = g := by
      unfold cutLine
      split
      · next hpos =>
        simp only
        split
        · next hboth =>
          have hle := h _ (if_pos ⟨hline, of_decide_eq_true hindent, hpos, hboth.2⟩)
          omega
        · rfl
      · rfl
    rw [nextLine_frame.1, nextLine_frame.2, hcut]
    exact ⟨rfl, rfl⟩
  · exact ⟨rfl, rfl⟩

theorem indentCut_checkLimits (text : Bytes) :
    indentCut p (checkLimits p (sendText p g t).1 t) text = indentCut p g text := by
  obtain ⟨hline, hpos, -⟩ := @checkLimits_frame p (sendText p g t).1 t
  unfold indentCut
  rw [hline, hpos, sendText_lines.1, sendText_lines.2]

/-- The indentation check cuts what the search for stop words has left. -/
theorem processToken_cut (h : indentCut p g (sendText p g t).1.text = some c)
    (hlt : c < (sendText p g t).1.text.length) :
    (processToken p g t).text = (sendText p g t).1.text.take c ∧
      (processToken p g t).hasNext = false := by
  rw [← checkLimits_text p _ t] at h hlt
  rw [← @indentCut_checkLimits p g t] at h
  obtain ⟨htext, hnext⟩ := checkIndent_cut h hlt
  simp only [processToken, checkEog_text, checkNewLine_text]
  refine ⟨by rw [htext, checkLimits_text], ?_⟩
  by_contra hgo
  have hline := checkNewLine_hasNext (checkEog_hasNext (Bool.not_eq_false _ ▸ hgo)).1
  rw [hnext] at hline
  cases hline

/-- The indentation check leaves what the search for stop words has left. -/
theorem processToken_keep
    (h : ∀ c, indentCut p g (sendText p g t).1.text = some c → (sendText p g t).1.text.length ≤ c) :
    (processToken p g t).text = (sendText p g t).1.text ∧
      ((processToken p g t).hasNext = true →
        (sendText p g t).1.hasNext = true ∧ t.eog = false) := by
  have hkeep := @checkIndent_keep p (checkLimits p (sendText p g t).1 t) (by
    rw [checkLimits_text]
    intro c hc
    exact h c (indentCut_checkLimits (p := p) (g := g) (t := t) _ ▸ hc))
  simp only [processToken, checkEog_text, checkNewLine_text]
  refine ⟨by rw [hkeep.1, checkLimits_text], fun hgo => ?_⟩
  obtain ⟨hgo, heog⟩ := checkEog_hasNext hgo
  have hnext := checkNewLine_hasNext hgo
  rw [hkeep.2] at hnext
  exact ⟨checkLimits_frame.2.2 hnext, heog⟩

/-- When the generation goes on, no check has cut the text. -/
theorem processToken_goesOn (h : (processToken p g t).hasNext = true) :
    (processToken p g t).text = (sendText p g t).1.text ∧ (sendText p g t).1.hasNext = true ∧
      t.eog = false := by
  by_cases hcut : ∃ c, indentCut p g (sendText p g t).1.text = some c ∧
      c < (sendText p g t).1.text.length
  · obtain ⟨c, hc, hlt⟩ := hcut
    rw [(processToken_cut hc hlt).2] at h
    cases h
  · have hkeep := processToken_keep (p := p) (g := g) (t := t) fun c hc => by
      by_contra hlt
      exact hcut ⟨c, hc, by omega⟩
    exact ⟨hkeep.1, hkeep.2 h⟩

theorem processToken_nSent_eq : (processToken p g t).nSent = (sendText p g t).1.nSent := by
  simp only [processToken, checkEog_nSent, checkNewLine_nSent, checkIndent_nSent, checkLimits_nSent]

end Token

section Whole

variable {p : GenParams} {g : Gen} {t : Sampled} {ts : List Sampled}

/-- The generation goes on behind all of the tokens. -/
inductive GoesOn (p : GenParams) : List Sampled → Gen → Prop where
  | start : GoesOn p [] {}
  | token {ts : List Sampled} {g : Gen} {t : Sampled} (h : GoesOn p ts g)
      (hnext : (processToken p g t).hasNext = true) : GoesOn p (ts ++ [t]) (processToken p g t)

/-- The pieces of the tokens. -/
def piecesOf (ts : List Sampled) : Bytes := (ts.map Sampled.piece).flatten

theorem piecesOf_append (ts us : List Sampled) :
    piecesOf (ts ++ us) = piecesOf ts ++ piecesOf us := by
  simp [piecesOf]

/-- What was sent is the text at an earlier token, and it ends in no beginning of a stop word. -/
structure SentClean (p : GenParams) (ts : List Sampled) (g : Gen) : Prop where
  text : g.text = piecesOf ts
  sent : g.nSent = 0 ∨ ∃ us, us <+: ts ∧ g.nSent = (piecesOf us).length ∧ Complete (piecesOf us)
  nSent_le : g.nSent ≤ g.text.length
  clean : ∀ w ∈ p.antiprompt, ∀ len, 0 < len → len < w.length → ¬ w.take len <:+ g.text.take g.nSent

theorem sentClean_of_goesOn (h : GoesOn p ts g) : SentClean p ts g := by
  induction h with
  | start =>
    refine ⟨rfl, .inl rfl, Nat.le_refl _, fun w _ len hpos hlt hsuffix => ?_⟩
    have hlen := hsuffix.length_le
    rw [length_take, length_take] at hlen
    simp only [Nat.zero_min] at hlen
    omega
  | @token ts g t _ hnext ih =>
    obtain ⟨htext, hgo, heog⟩ := processToken_goesOn hnext
    have hpieces : g.text ++ t.piece = piecesOf (ts ++ [t]) := by
      rw [ih.text, piecesOf_append]
      simp [piecesOf]
    have hsent : g.nSent = 0 ∨ ∃ us, us <+: ts ++ [t] ∧ g.nSent = (piecesOf us).length ∧
        Complete (piecesOf us) := by
      rcases ih.sent with hzero | ⟨us, hus, hlen, hcomplete⟩
      · exact .inl hzero
      · exact .inr ⟨us, hus.trans (prefix_append ..), hlen, hcomplete⟩
    have hle : g.nSent ≤ (g.text ++ t.piece).length := by
      have := ih.nSent_le
      rw [length_append]
      omega
    have htake : (g.text ++ t.piece).take g.nSent = g.text.take g.nSent :=
      take_append_of_le_length ih.nSent_le
    -- nothing more is sent
    have hsame : (sendText p g t).1.text = g.text ++ t.piece →
        (sendText p g t).1.nSent = g.nSent →
        SentClean p (ts ++ [t]) (processToken p g t) := by
      intro hsame hnum
      have hT : (processToken p g t).text = g.text ++ t.piece := htext.trans hsame
      have hN : (processToken p g t).nSent = g.nSent := processToken_nSent_eq.trans hnum
      refine ⟨hT.trans hpieces, ?_, ?_, ?_⟩
      · rw [hN]
        exact hsent
      · rw [hN, hT]
        exact hle
      · rw [hN, hT, htake]
        exact ih.clean
    by_cases hcomplete : validateUtf8 (g.text ++ t.piece) = (g.text ++ t.piece).length
    · cases hfind : findStoppingStrings p.antiprompt ((g.text ++ t.piece).drop g.nSent)
          t.piece.length true with
      | some best =>
        rw [(sendText_some ih.nSent_le hcomplete hfind).2] at hgo
        cases hgo
      | none =>
        obtain ⟨hT, -, hnum | ⟨hnum, hpartial⟩⟩ := sendText_none ih.nSent_le hcomplete hfind
        · exact hsame hT hnum
        · have hT' : (processToken p g t).text = g.text ++ t.piece := htext.trans hT
          have hN : (processToken p g t).nSent = (g.text ++ t.piece).length :=
            processToken_nSent_eq.trans hnum
          refine ⟨hT'.trans hpieces, .inr ⟨_, prefix_refl _, ?_, ?_⟩, ?_, ?_⟩
          · rw [hN, hpieces]
          · rw [← hpieces]
            exact (validateUtf8_eq_iff _).mp hcomplete
          · rw [hN, hT']
          · intro w hw len hpos hlt hsuffix
            rw [hN, hT', take_length] at hsuffix
            have hnone : findPartialStop ((g.text ++ t.piece).drop g.nSent) w = none := by
              rcases hpartial with heog' | hnone
              · rw [heog] at heog'
                cases heog'
              · exact (findStoppingStrings_spec _ _ _ _).2 hnone w hw
            have hlen : (w.take len).length = len := by
              rw [length_take, Nat.min_eq_left (Nat.le_of_lt hlt)]
            by_cases hshort : len ≤ ((g.text ++ t.piece).drop g.nSent).length
            · -- the beginning is in the text that was not sent yet
              have hnew := suffix_of_suffix_length_le hsuffix
                (drop_suffix g.nSent _) (by rwa [hlen])
              exact findPartialStop_ne_none hpos (Nat.le_of_lt hlt) hnew hnone
            · -- it began in the text that was sent before
              obtain ⟨front, hfront⟩ := hsuffix
              have htotal := congrArg List.length hfront
              rw [length_append, hlen] at htotal
              rw [length_drop] at hshort
              have hle' : front.length ≤ g.nSent := by omega
              have hsplit : (front ++ w.take len).take g.nSent =
                  front ++ w.take (g.nSent - front.length) := by
                rw [take_append, take_of_length_le (l := front) hle', take_take,
                  Nat.min_eq_left (by omega)]
              refine ih.clean w hw (g.nSent - front.length) (by omega) (by omega) ⟨front, ?_⟩
              rw [← htake, ← hfront, hsplit]
    · rw [sendText_incomplete hcomplete] at hsame
      exact hsame rfl rfl

/-- However the text goes on, no occurrence of a stop word is cut by the end of what was sent:
the client has seen all of it or nothing. -/
theorem stopWord_not_split {w rest : Bytes} {i : Nat} (h : GoesOn p ts g) (hw : w ∈ p.antiprompt)
    (hocc : OccursAt (g.text ++ rest) w i) : g.nSent ≤ i ∨ i + w.length ≤ g.nSent := by
  obtain ⟨-, -, hle, hclean⟩ := sentClean_of_goesOn h
  by_contra hsplit
  have hbegin : w.take (g.nSent - i) = (g.text.take g.nSent).drop i := by
    have hsent : (g.text ++ rest).take g.nSent = g.text.take g.nSent := take_append_of_le_length hle
    rw [← hsent, drop_take, prefix_iff_eq_take.mp hocc, take_take, Nat.min_eq_left (by omega)]
  exact hclean w hw (g.nSent - i) (by omega) (by omega) (hbegin ▸ drop_suffix i _)

/-- The token `a` with the stop word `ab` is held back. -/
theorem stopWord_not_split_stopAb :
    (processToken (stopAb 8) {} ⟨[0x61], false, 1, 1, false⟩).nSent ≤ 0 ∨
      0 + 2 ≤ (processToken (stopAb 8) {} ⟨[0x61], false, 1, 1, false⟩).nSent :=
  @stopWord_not_split (stopAb 8) _ _ [0x61, 0x62] [0x62] 0 (.token .start (by decide)) (by decide)
    ⟨[], rfl⟩

variable {q : Nat}

end Whole

end Llama.Server
