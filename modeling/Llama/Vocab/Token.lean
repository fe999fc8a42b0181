import Mathlib.Init

/-!
# Tokens of a vocabulary
-/

namespace Llama.Vocab

/-- The flags of `llama_token_attr` that the tokenizers look at. -/
structure TokenAttr where
  unknown : Bool
  unused : Bool
  normal : Bool
  control : Bool
  userDefined : Bool
  lstrip : Bool
  rstrip : Bool
  deriving DecidableEq, Repr

/-- `LLAMA_TOKEN_ATTR_UNDEFINED`. -/
def TokenAttr.undefined : TokenAttr :=
  { unknown := false, unused := false, normal := false, control := false, userDefined := false
    lstrip := false, rstrip := false }

/-- `llama_vocab::token_data`, with exact numbers for the scores. -/
structure TokenData (S : Type) where
  text : List UInt8
  score : S
  attr : TokenAttr
  deriving DecidableEq, Repr

end Llama.Vocab
