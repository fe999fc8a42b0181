import Llama.Grammar.Matcher

/-!
# Filtering and accepting tokens

`llama_grammar_apply_impl` decodes the pieces of the candidate tokens and rejects those that no
stack can consume; `llama_grammar_accept_impl` replays the piece of the sampled token. Both are
modelled for a grammar that does not wait for a trigger. A piece is a list of bytes, read like
a C string.
-/

namespace Llama.Grammar

/-- `llama_partial_utf8`. -/
structure PartialUtf8 where
  /-- Bits so far. -/
  value : Nat
  /-- Bytes that are missing; -1 for an invalid sequence. -/
  nRemain : Int
  deriving DecidableEq, Repr

/-- Sequence lengths by the high bits of the first byte. -/
def utf8Lookup (highbits : Nat) : Int :=
  if highbits < 8 then 1 else if highbits < 12 then 0 else if highbits < 14 then 2
  else if highbits = 14 then 3 else 4

/-- First loop: continue the sequence of the last piece; `none` when it is invalid. -/
def continueDecode : List UInt8 → Nat → Int → Option (List UInt8 × Nat × Int)
  | [], value, n => some ([], value, n)
  | b :: bs, value, n =>
    if b ≠ 0 ∧ 0 < n then
      if b.toNat / 64 ≠ 2 then none
      else continueDecode bs (value * 64 + b.toNat % 64) (n - 1)
    else some (b :: bs, value, n)

/-- The bytes of a sequence after the first. -/
def decodeRest : List UInt8 → Nat → Int → List UInt8 × Nat × Int
  | [], value, n => ([], value, n)
  | b :: bs, value, n =>
    if b ≠ 0 ∧ 0 < n then decodeRest bs (value * 64 + b.toNat % 64) (n - 1)
    else (b :: bs, value, n)

/-- Second loop, over whole sequences. Every turn takes a byte, so as many turns as bytes are
enough. -/
def decodeLoop : Nat → List UInt8 → List Nat → Nat → Int → List Nat × PartialUtf8
  | turns + 1, b :: bs, cps, value, n =>
    if b = 0 then (cps ++ [0], { value := value, nRemain := n })
    else
      let n := utf8Lookup (b.toNat / 16) - 1
      if n < 0 then ([0], { value := 0, nRemain := n })
      else
        let r := decodeRest bs (b.toNat % 2 ^ (7 - n).toNat) n
        decodeLoop turns r.1 (if r.2.2 = 0 then cps ++ [r.2.1] else cps) r.2.1 r.2.2
  | _, _, cps, value, n => (cps ++ [0], { value := value, nRemain := n })

/-- `decode_utf8`: the code points with a terminating 0, and the incomplete sequence at the
end. -/
def decodeUtf8 (src : List UInt8) (start : PartialUtf8) : List Nat × PartialUtf8 :=
  match continueDecode src start.value start.nRemain with
  | none => ([0], { value := 0, nRemain := -1 })
  | some (rest, value, n) =>
    decodeLoop rest.length rest (if 0 < start.nRemain ∧ n = 0 then [value] else []) value n

/-- The loop of `llama_grammar_match_partial_char` over the elements from the pointer on. -/
def matchPartialLoop (low high : Nat) (positive : Bool) : List Element → Bool
  | e :: u :: es =>
    if u.type = .charRngUpper then
      if e.value ≤ high ∧ low ≤ u.value then positive
      else
        match es with
        | a :: es =>
          if a.type = .charAlt then matchPartialLoop low high positive (a :: es) else !positive
        | [] => !positive
    else if e.type = .charAny then true
    else if low ≤ e.value ∧ e.value ≤ high then positive
    else if u.type = .charAlt then matchPartialLoop low high positive (u :: es)
    else !positive
  | [e] =>
    if e.type = .charAny then true
    else if low ≤ e.value ∧ e.value ≤ high then positive else !positive
  | [] => !positive

/-- `llama_grammar_match_partial_char`. -/
def matchPartialChar (rules : Rules) (p : Pos) (utf8 : PartialUtf8) : Except Stop Bool :=
  let e := rules.elem p
  if isPositiveChar e || e.type == .charNot then
    if utf8.nRemain < 0 ∨ (utf8.nRemain = 1 ∧ utf8.value < 2) then .ok false
    else
      let bits := 2 ^ (utf8.nRemain.toNat * 6)
      let low := utf8.value * bits
      let high := low + (bits - 1)
      let low := if low = 0 ∧ utf8.nRemain = 2 then 2 ^ 11
        else if low = 0 ∧ utf8.nRemain = 3 then 2 ^ 16 else low
      .ok (matchPartialLoop low high (isPositiveChar e) (rules.from p))
  else .error .abort

/-- `llama_grammar_candidate`; the pointer to the code points is an array and an offset. -/
structure Candidate where
  /-- Index in the array of candidates. -/
  index : Nat
  /-- The code points of the piece, with the terminating 0. -/
  codePoints : List Nat
  /-- Offset of the pointer. -/
  offset : Nat
  /-- Incomplete sequence at the end of the piece. -/
  partialUtf8 : PartialUtf8
  /-- The token. -/
  id : Nat
  deriving DecidableEq, Repr

def Candidate.chr (tok : Candidate) : Nat := (tok.codePoints[tok.offset]?).getD 0

/-- `tok.code_points - 1`. -/
def Candidate.back (tok : Candidate) : Candidate := { tok with offset := tok.offset - 1 }

/-- What the grammar uses of `llama_vocab`. -/
structure Vocab where
  /-- `token_to_piece`. -/
  piece : Nat → List UInt8
  isEog : Nat → Bool

/-- The mutable part of `llama_grammar`. -/
structure State where
  /-- Stacks of the matcher. -/
  stackSet : Stacks
  /-- Incomplete sequence of the pieces so far. -/
  partialUtf8 : PartialUtf8
  deriving DecidableEq, Repr

/-- The code points of a piece for one stack; the loop stops when no stack is left. -/
def acceptPiece (rules : Rules) (fuel : Nat) : List Nat → Stacks → Except Stop Stacks
  | [], cur => .ok cur
  | chr :: cps, cur => do
    let next ← accept rules fuel cur chr
    if next = [] then .ok [] else acceptPiece rules fuel cps next

/-- Loop body of `llama_grammar_accept_token`. -/
def acceptTokenStack (rules : Rules) (fuel token : Nat) (cps : List Nat) (acc : Stacks)
    (st : Stack) : Except Stop Stacks :=
  match st with
  | [] => .ok acc
  | p :: rest =>
    if (rules.elem p).type = .token ∨ (rules.elem p).type = .tokenNot then do
      let m ← matchToken rules p token
      if m then advanceStack rules fuel (rules.push (p.add 1) rest) acc else .ok acc
    else do
      let surviving ← acceptPiece rules fuel cps [p :: rest]
      .ok (surviving.foldl (fun acc st => addStack st acc) acc)

/-- `llama_grammar_accept_token`. -/
def acceptToken (rules : Rules) (fuel : Nat) (g : State) (token : Nat) (piece : List UInt8) :
    Except Stop State := do
  let decoded := decodeUtf8 piece g.partialUtf8
  let sts ← g.stackSet.foldlM (acceptTokenStack rules fuel token decoded.1.dropLast) []
  if sts = [] then .error .emptyStack
  else .ok { stackSet := sts, partialUtf8 := decoded.2 }

/-- `llama_grammar_accept_impl`. -/
def acceptImpl (V : Vocab) (rules : Rules) (fuel : Nat) (g : State) (token : Nat) :
    Except Stop State :=
  if V.isEog token then if [] ∈ g.stackSet then .ok g else .error .abort
  else acceptToken rules fuel g token (V.piece token)

end Llama.Grammar
