import Mathlib.Data.List.Basic
import Mathlib.Data.List.TakeDrop

/-!
# One sampled token

`process_token` of the server context: the text of a slot grows by the piece of the token, is
searched for stop words, and is sent as far as it cannot become part of a stop word. The limits
on the number of tokens are checked against counters that the caller has set before the call.
-/

namespace Llama.Server

/-- A string of the source. -/
abbrev Bytes := List UInt8

inductive StopType where
  | none
  | eos
  | word
  | limit
deriving DecidableEq

/-- What the text of a slot depends on, of its request and of the server. -/
structure GenParams where
  antiprompt : List Bytes := []
  /-- `n_predict` of the request; `-1` is no limit. -/
  nPredict : Int := -1
  /-- `n_predict` of the server. -/
  nPredictBase : Int := -1
  nCtx : Int
  ctxShift : Bool := false
  nIndent : Int := 0
  stream : Bool := true
deriving DecidableEq

/-- The fields of a slot that `process_token` reads or writes. -/
structure Gen where
  text : Bytes := []
  nSent : Nat := 0
  hasNext : Bool := true
  stop : StopType := .none
  stoppingWord : Bytes := []
  hasNewLine : Bool := false
  lastNlPos : Nat := 0
  truncated : Bool := false
  nRemaining : Int := -1
  /-- The contents of the partial responses, in the order in which they are sent. -/
  chunks : List Bytes := []
deriving DecidableEq

/-- A sampled token and what the caller set before the call. -/
structure Sampled where
  /-- `text_to_send`, the piece of the token. -/
  piece : Bytes
  /-- `llama_vocab_is_eog`. -/
  eog : Bool := false
  nDecoded : Int := 1
  /-- `prompt.n_tokens()`. -/
  nTokens : Int := 0
  /-- `t_max_predict_ms` is set and has passed. -/
  timeUp : Bool := false
deriving DecidableEq

/-- The number of bytes of a multi-byte character that begins with this byte. -/
def charLength (c : UInt8) : Nat :=
  if c &&& 0xE0 = 0xC0 then 2
  else if c &&& 0xF0 = 0xE0 then 3
  else if c &&& 0xF8 = 0xF0 then 4
  else 0

/-- The length without a multi-byte character that is cut off at the end. -/
def validateUtf8 (text : Bytes) : Nat :=
  match (List.range' 1 (min 4 text.length)).find? fun i =>
      i < charLength (text.getD (text.length - i) 0) with
  | some i => text.length - i
  | none => text.length

def findFrom (text word : Bytes) (pos : Nat) : Option Nat :=
  (List.range' pos (text.length + 1 - pos)).find? fun i => word.isPrefixOf (text.drop i)

/-- `string_find_partial_stop`: where the longest beginning of `stop` starts that ends `str`. -/
def findPartialStop (str stop : Bytes) : Option Nat :=
  ((List.range' 1 (min str.length stop.length)).reverse.find? fun len =>
    stop.getD (len - 1) 0 == str.getLastD 0 && (stop.take len).isSuffixOf str).map
      fun len => str.length - len

/-- The position of one stop word, or of its beginning at the end of the text. -/
def stopPos (text : Bytes) (lastTokenSize : Nat) (full : Bool) (word : Bytes) : Option Nat :=
  if full then findFrom text word (text.length - (word.length + lastTokenSize))
  else findPartialStop text word

/-- The first position of a stop word, and the word. -/
def findStoppingStrings (words : List Bytes) (text : Bytes) (lastTokenSize : Nat) (full : Bool) :
    Option (Nat × Bytes) :=
  words.foldl (fun best word =>
    match stopPos text lastTokenSize full word, best with
    | some pos, some (stop, w) => if pos < stop then some (pos, word) else some (stop, w)
    | some pos, none => some (pos, word)
    | none, best => best) none

/-- The text of the slot after the token, and what of it is sent. -/
def sendText (p : GenParams) (g : Gen) (t : Sampled) : Gen × Bytes :=
  let text := g.text ++ t.piece
  let g := { g with text := text, hasNext := true }
  if validateUtf8 text < text.length then (g, t.piece)
  else
    let pos := min g.nSent text.length
    let test := text.drop pos
    match findStoppingStrings p.antiprompt test t.piece.length true with
    | some (stop, word) =>
      let text := text.take (pos + stop)
      let send := text.drop (min g.nSent text.length)
      ({ g with
          text := text
          nSent := g.nSent + send.length
          hasNext := false
          stop := .word
          stoppingWord := word
          chunks := if p.stream then g.chunks ++ [send] else g.chunks }, send)
    | none =>
      let hold := !t.eog &&
        (findStoppingStrings p.antiprompt test t.piece.length false).isSome
      let send := if hold then [] else test
      ({ g with
          nSent := g.nSent + send.length
          chunks := if p.stream then g.chunks ++ [send] else g.chunks }, send)

/-- `has_budget`, with the new `n_remaining`. -/
def hasBudget (p : GenParams) (nRemaining nDecoded : Int) : Bool × Int :=
  if p.nPredict = -1 ∧ p.nPredictBase = -1 then (true, nRemaining)
  else
    let n := if p.nPredict ≠ -1 then p.nPredict - nDecoded else p.nPredictBase - nDecoded
    (0 < n, n)

def checkLimits (p : GenParams) (g : Gen) (t : Sampled) : Gen :=
  let g := if !p.ctxShift && p.nCtx ≤ t.nTokens + 1 then
      { g with truncated := true, stop := .limit, hasNext := false }
    else g
  if 0 < t.nDecoded ∧ g.hasNext = true then
    let (ok, n) := hasBudget p g.nRemaining t.nDecoded
    let g := { g with nRemaining := n }
    if ok then g else { g with stop := .limit, hasNext := false }
  else g

/-- The number of blanks from a position on. -/
def indentAt (text : Bytes) (pos : Nat) : Nat :=
  ((text.drop pos).takeWhile fun c => c == 0x20 || c == 0x09).length

/-- A line that is indented too little stops the generation and is cut. -/
def cutLine (p : GenParams) (g : Gen) : Gen :=
  if 0 < g.lastNlPos then
    let n := indentAt g.text g.lastNlPos
    let pos := g.lastNlPos + n
    if pos < g.text.length ∧ (n : Int) < p.nIndent then
      { g with stop := .limit, hasNext := false, text := g.text.take pos }
    else g
  else g

/-- The start of the next line. -/
def nextLine (g : Gen) : Gen :=
  match findFrom g.text [0x0A] g.lastNlPos with
  | some pos => { g with lastNlPos := pos + 1 }
  | none => g

def checkIndent (p : GenParams) (g : Gen) : Gen :=
  if g.hasNewLine && 0 < p.nIndent then nextLine (cutLine p g) else g

/-- A new line in the text that was sent, and the limit on the time. -/
def checkNewLine (g : Gen) (t : Sampled) (send : Bytes) : Gen :=
  if send.contains 0x0A then
    let g := { g with hasNewLine := true }
    if t.timeUp then { g with stop := .limit, hasNext := false } else g
  else g

def checkEog (g : Gen) (t : Sampled) : Gen :=
  if t.eog then { g with stop := .eos, hasNext := false } else g

/-- `process_token`; the generation goes on if `hasNext` is set afterwards. -/
def processToken (p : GenParams) (g : Gen) (t : Sampled) : Gen :=
  let (g, send) := sendText p g t
  checkEog (checkNewLine (checkIndent p (checkLimits p g t)) t send) t

/-- The content of `send_final_response`. -/
def finalContent (p : GenParams) (g : Gen) : Bytes := if p.stream then [] else g.text

section Fields

variable (p : GenParams) (g : Gen) (t : Sampled) (send : Bytes)

@[simp] theorem checkLimits_text : (checkLimits p g t).text = g.text := by
  unfold checkLimits
  grind

@[simp] theorem checkLimits_nSent : (checkLimits p g t).nSent = g.nSent := by
  unfold checkLimits
  grind

@[simp] theorem checkLimits_chunks : (checkLimits p g t).chunks = g.chunks := by
  unfold checkLimits
  grind

theorem checkIndent_of_nIndent (h : p.nIndent = 0) : checkIndent p g = g := by
  simp [checkIndent, h]

@[simp] theorem checkIndent_chunks : (checkIndent p g).chunks = g.chunks := by
  unfold checkIndent cutLine nextLine
  grind

@[simp] theorem checkNewLine_text : (checkNewLine g t send).text = g.text := by
  unfold checkNewLine
  grind

@[simp] theorem checkNewLine_nSent : (checkNewLine g t send).nSent = g.nSent := by
  unfold checkNewLine
  grind

@[simp] theorem checkNewLine_chunks : (checkNewLine g t send).chunks = g.chunks := by
  unfold checkNewLine
  grind

@[simp] theorem checkEog_text : (checkEog g t).text = g.text := by
  unfold checkEog
  grind

@[simp] theorem checkEog_nSent : (checkEog g t).nSent = g.nSent := by
  unfold checkEog
  grind

@[simp] theorem checkEog_chunks : (checkEog g t).chunks = g.chunks := by
  unfold checkEog
  grind

theorem processToken_chunks : (processToken p g t).chunks = (sendText p g t).1.chunks := by
  simp [processToken]

end Fields

end Llama.Server
