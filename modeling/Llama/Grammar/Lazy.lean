import Llama.Grammar.Words
import Llama.Grammar.Partial
import Llama.Peg.Unicode

/-!
# Lazy grammars

A lazy grammar lets tokens pass and keeps their text until a trigger token comes or a trigger
pattern matches the text so far. From the start of the match on it then replays the kept tokens,
the first one cut there, by `llama_grammar_accept_token`.
-/

namespace Llama.Grammar

open List Option

open Peg (encode)

/-- `llama_grammar_accept_str`. -/
def acceptStr (rules : Rules) (fuel : Nat) (g : State) (piece : List UInt8) :
    Except Stop State := do
  let decoded := decodeUtf8 piece g.partialUtf8
  let sts ← decoded.1.dropLast.foldlM (accept rules fuel) g.stackSet
  if sts = [] then .error .emptyStack
  else .ok { stackSet := sts, partialUtf8 := decoded.2 }

/-- What a lazy grammar waits for. -/
structure Triggers where
  /-- `trigger_tokens`. -/
  tokens : List Nat
  /-- `find` of the `trigger_patterns`: where a match starts, if there is one. -/
  patterns : List (List UInt8 → Option Nat)

/-- The mutable part of a lazy `llama_grammar`. -/
structure LazyState where
  /-- The matcher. -/
  state : State
  awaitingTrigger : Bool
  triggerBuffer : List UInt8
  /-- `trigger_buffer_positions`: tokens with the start and the end of their pieces. -/
  triggerBufferPositions : List (Nat × Nat × Nat)
  deriving DecidableEq, Repr

/-- A lazy grammar after `llama_grammar_init_impl`. -/
def LazyState.init (sts : Stacks) : LazyState where
  state := { stackSet := sts, partialUtf8 := .empty }
  awaitingTrigger := true
  triggerBuffer := []
  triggerBufferPositions := []

/-- The start that the first matching pattern gives. -/
def Triggers.find (T : Triggers) (buffer : List UInt8) : Option Nat :=
  T.patterns.findSome? fun find => find buffer

/-- The body of the loop that replays the kept tokens. -/
def replayToken (rules : Rules) (fuel : Nat) (buffer : List UInt8) (start : Nat) (g : State)
    (entry : Nat × Nat × Nat) : Except Stop State :=
  let (tok, tokStart, tokEnd) := entry
  if tokEnd ≤ start then .ok g
  else
    let pieceStart := if tokStart < start then start else tokStart
    let pieceLen := tokEnd - pieceStart
    acceptToken rules fuel g tok ((buffer.drop pieceStart).take pieceLen)

/-- `llama_grammar_accept_impl` of a lazy grammar. -/
def acceptLazy (V : Vocab) (rules : Rules) (fuel : Nat) (T : Triggers) (g : LazyState)
    (token : Nat) : Except Stop LazyState :=
  if g.awaitingTrigger then
    if token ∈ T.tokens then do
      let state ← acceptToken rules fuel g.state token (V.piece token)
      .ok { g with state := state, awaitingTrigger := false, triggerBuffer := [] }
    else
      let size := g.triggerBuffer.length
      let positions := g.triggerBufferPositions ++ [(token, size, size + (V.piece token).length)]
      let buffer := g.triggerBuffer ++ V.piece token
      match T.find buffer with
      | some start => do
        let state ← positions.foldlM (replayToken rules fuel buffer start) g.state
        .ok { state := state, awaitingTrigger := false, triggerBuffer := []
              triggerBufferPositions := [] }
      | none => .ok { g with triggerBuffer := buffer, triggerBufferPositions := positions }
  else do
    let state ← acceptImpl V rules fuel g.state token
    .ok { g with state := state }

/-- Bytes that complete a character of which some are missing, and whole characters. -/
inductive TextFrom : Nat → List UInt8 → Prop
  | nil : TextFrom 0 []
  | lead {b : UInt8} {bs : List UInt8} {missing : Nat} (hb : width b = missing + 1)
      (h : TextFrom missing bs) : TextFrom 0 (b :: bs)
  | cont {b : UInt8} {bs : List UInt8} {missing : Nat} (hb : isContinuation b = true)
      (h : TextFrom missing bs) : TextFrom (missing + 1) (b :: bs)

theorem textFrom_append {tail bs : List UInt8} (ht : ∀ t ∈ tail, isContinuation t = true)
    (h : TextFrom 0 bs) : TextFrom tail.length (tail ++ bs) := by
  induction tail with
  | nil => exact h
  | cons t tail ih =>
    exact TextFrom.cont (ht t mem_cons_self) (ih fun x hx => ht x (mem_cons_of_mem t hx))

theorem textFrom_encode (cs : List Char) : TextFrom 0 (encode cs) := by
  induction cs with
  | nil => exact TextFrom.nil
  | cons c cs ih =>
    obtain ⟨b, tail, hbytes, hwidth, htail⟩ := (encodedAs c).head
    rw [Peg.encode_cons, hbytes, cons_append]
    exact TextFrom.lead hwidth (textFrom_append htail ih)

/-- A piece of a well-formed text is decoded, and the rest goes on where it ends. -/
theorem TextFrom.split {q s : List UInt8} : ∀ {missing : Nat}, TextFrom missing (q ++ s) →
    ∀ value, ∃ cps value' missing', decodeFrom q value missing = some (cps, value', missing') ∧
      TextFrom missing' s ∧ (q.take missing).all isContinuation = true := by
  induction q with
  | nil => exact fun {missing} h value => ⟨[], value, missing, rfl, h, by simp⟩
  | cons b q ih =>
    intro missing h value
    rw [cons_append] at h
    cases h with
    | @lead _ _ k hb h =>
      obtain ⟨cps, value', missing', hdec, hrest, -⟩ := ih h (b.toNat % 2 ^ (7 - k))
      refine ⟨(emit (b.toNat % 2 ^ (7 - k)) k (cps, value', missing')).1, value', missing', ?_,
        hrest, by simp⟩
      rw [decodeFrom, hb]
      simp only [hdec, map_some]
      rfl
    | @cont _ _ k hb h =>
      obtain ⟨cps, value', missing', hdec, hrest, hall⟩ := ih h (value * 64 + b.toNat % 64)
      refine ⟨(emit (value * 64 + b.toNat % 64) k (cps, value', missing')).1, value', missing', ?_,
        hrest, by simp [hb, hall]⟩
      rw [decodeFrom, hdec]
      rfl

theorem TextFrom.decodeUtf8_eq {q s : List UInt8} {missing : Nat} (h : TextFrom missing (q ++ s))
    (h0 : 0 ∉ q) (value : Nat) : ∃ cps value' missing', decodeFrom q value missing =
      some (cps, value', missing') ∧ TextFrom missing' s ∧
        decodeUtf8 q { value := value, nRemain := missing } =
          (cps ++ [0], { value := value', nRemain := missing' }) := by
  obtain ⟨cps, value', missing', hdec, hrest, hall⟩ := h.split value
  refine ⟨cps, value', missing', hdec, hrest, ?_⟩
  rw [Grammar.decodeUtf8_eq h0, if_pos hall, hdec]
  rfl

/-- Bytes that end with a character have a code point. -/
theorem decoded_ne_nil {q : List UInt8} (hq : q ≠ []) : ∀ {value missing value' : Nat}
    {cps : List Nat}, decodeFrom q value missing = some (cps, value', 0) → cps ≠ [] := by
  have hemit : ∀ {bs : List UInt8}, (bs ≠ [] → ∀ {value missing value' : Nat} {cps : List Nat},
      decodeFrom bs value missing = some (cps, value', 0) → cps ≠ []) →
      ∀ {value missing value' : Nat} {cps : List Nat},
        (decodeFrom bs value missing).map (emit value missing) = some (cps, value', 0) →
          cps ≠ [] := by
    intro bs ih value missing value' cps h
    obtain ⟨r, hr, hcps⟩ := map_eq_some_iff.mp h
    obtain ⟨cps', v, m⟩ := r
    simp only [emit, Prod.mk.injEq] at hcps
    obtain ⟨rfl, rfl, rfl⟩ := hcps
    by_cases hbs : bs = []
    · subst hbs
      simp only [decodeFrom, some.injEq, Prod.mk.injEq] at hr
      simp [hr.2.2]
    · have := ih hbs hr
      split <;> simp [this]
  induction q with
  | nil => exact (hq rfl).elim
  | cons b bs ih =>
    intro value missing value' cps h
    cases missing with
    | succ missing =>
      rw [decodeFrom] at h
      exact hemit ih h
    | zero =>
      rw [decodeFrom] at h
      split at h
      · cases h
      · exact hemit ih h

end Llama.Grammar
