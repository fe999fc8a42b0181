import Llama.Lib.BestPath
import Llama.Vocab.Normalize
import Mathlib.Algebra.Order.Ring.Rat

/-!
# The unigram tokenizer

`llm_tokenizer_ugm_session::tokenize` on a normalized text: a forward dynamic program over the
offsets between characters, relaxed along the token trie, with an unknown token where no token
covers exactly one character; then the best tokenization is read off backwards. Scores are
exact numbers, and `-DBL_MAX` is the absence of a score.
-/

namespace Llama.Vocab

open NaiveTrie hiding node
open Peg

/-- The tokens that the constructor of `llm_tokenizer_ugm` gives to `token_matcher`. -/
def TokenAttr.matched (a : TokenAttr) : Bool := a.normal || a.userDefined || a.unused

/-- The insertions into `token_matcher`. -/
def ugmEntries (vocab : List (TokenData ℚ)) : List (List UInt8 × Nat) :=
  (vocab.zipIdx.filter fun p => p.1.attr.matched).map fun p => (p.1.text, p.2)

def tokenMatcher (vocab : List (TokenData ℚ)) : NaiveTrie := ofEntries (ugmEntries vocab)

def fltMax : ℚ := (2 ^ 24 - 1) * 2 ^ 104

def minScore (vocab : List (TokenData ℚ)) : ℚ :=
  (vocab.filter fun d => d.attr.normal).foldl (fun m d => min m d.score) fltMax

def unknownTokenScore (vocab : List (TokenData ℚ)) : ℚ := minScore vocab - 10

/-- User-defined tokens score zero. -/
def TokenData.tokenScore (d : TokenData ℚ) : ℚ := if d.attr.userDefined then 0 else d.score

def scoreOf (vocab : List (TokenData ℚ)) (id : Nat) : ℚ :=
  match vocab[id]? with
  | some d => d.tokenScore
  | none => 0

structure BestTokenization where
  tokenId : Nat
  inputOffset : Nat
  scoreSum : Option ℚ
  deriving DecidableEq

/-- A challenger is better than a champion. -/
def improves (champion : Option ℚ) (challenger : ℚ) : Bool :=
  match champion with
  | some s => s < challenger
  | none => true

def scoreAt (results : List BestTokenization) (offset : Nat) : Option ℚ :=
  (results[offset]?).bind (·.scoreSum)

/-- A token from `inputOffset` to `prefixOffset` challenges the champion there. -/
def relax (results : List BestTokenization) (inputOffset prefixOffset tokenId : Nat)
    (tokenScore : ℚ) : List BestTokenization :=
  match scoreAt results inputOffset, results[prefixOffset]? with
  | some currentBest, some currentChamp =>
    if improves currentChamp.scoreSum (currentBest + tokenScore) then
      results.set prefixOffset { tokenId := tokenId, inputOffset := inputOffset
                                 scoreSum := some (currentBest + tokenScore) }
    else results
  | _, _ => results

/-- The walk along the trie from `inputOffset`, at a node that `prefixOffset` bytes of the text
end in and `rest` goes on from. The state is `single_codepoint_token_found` and the table. -/
def walkTokens (vocab : List (TokenData ℚ)) (inputOffset units : Nat) :
    NaiveTrie → List UInt8 → Nat → Bool × List BestTokenization → Bool × List BestTokenization
  | node, rest, prefixOffset, st =>
    let st := match node.value with
      | some id => (st.1 || prefixOffset - inputOffset == units,
          relax st.2 inputOffset prefixOffset id (scoreOf vocab id))
      | none => st
    match rest with
    | [] => st
    | c :: rest =>
      match node.traverse c with
      | none => st
      | some u => walkTokens vocab inputOffset units u rest (prefixOffset + 1) st

/-- Code units of the code point at an offset. -/
def unitsAt (normalized : List UInt8) (inputOffset : Nat) : Nat :=
  match normalized.drop inputOffset with
  | [] => 0
  | b :: _ => min (lenUtf8 b) (normalized.length - inputOffset)

/-- Loop body over the code points. -/
def ugmStep (vocab : List (TokenData ℚ)) (unk : Nat) (normalized : List UInt8)
    (inputOffset : Nat) (results : List BestTokenization) : List BestTokenization :=
  match normalized.drop inputOffset with
  | [] => results
  | b :: rest =>
    let units := unitsAt normalized inputOffset
    let st := match (tokenMatcher vocab).traverse b with
      | none => (false, results)
      | some node => walkTokens vocab inputOffset units node rest (inputOffset + 1) (false, results)
    if st.1 then st.2
    else relax st.2 inputOffset (inputOffset + units) unk (unknownTokenScore vocab)

/-- The loop over the code points, for a number of turns. -/
def ugmLoop (vocab : List (TokenData ℚ)) (unk : Nat) (normalized : List UInt8) :
    Nat → Nat → List BestTokenization → List BestTokenization
  | 0, _, results => results
  | turns + 1, inputOffset, results =>
    if inputOffset < normalized.length then
      ugmLoop vocab unk normalized turns (inputOffset + unitsAt normalized inputOffset)
        (ugmStep vocab unk normalized inputOffset results)
    else results

/-- `tokenization_results` before the loop. -/
def initialResults (unk inputLen : Nat) : List BestTokenization :=
  { tokenId := unk, inputOffset := 0, scoreSum := some 0 } ::
    List.replicate inputLen { tokenId := unk, inputOffset := 0, scoreSum := none }

/-- The loop that gathers the tokens from the end. `tokenization` is a reference to the last
entry of the table, which every turn overwrites. -/
def backtrack (unk inputLen : Nat) : Nat → List BestTokenization → Bool → List Nat → List Nat
  | 0, _, _, output => output
  | turns + 1, results, isPrevUnknown, output =>
    match results[inputLen]? with
    | none => output
    | some tokenization =>
      let isUnknown := tokenization.tokenId == unk
      let output :=
        if isPrevUnknown && isUnknown then output else output ++ [tokenization.tokenId]
      if tokenization.inputOffset = 0 then output
      else
        match results[tokenization.inputOffset]? with
        | none => output
        | some next => backtrack unk inputLen turns (results.set inputLen next) isUnknown output

/-- `llm_tokenizer_ugm_session::tokenize` on a normalized text: what it appends. -/
def ugmTokens (vocab : List (TokenData ℚ)) (unk : Nat) (normalized : List UInt8) : List Nat :=
  if normalized.length = 0 then []
  else
    let results := ugmLoop vocab unk normalized normalized.length 0
      (initialResults unk normalized.length)
    (backtrack unk normalized.length normalized.length results false []).reverse

end Llama.Vocab
