import Llama.Vocab.Token
import Llama.Vocab.Trie
import Llama.Vocab.Unicode

/-!
# Normalization of the unigram tokenizer

`normalize_prefix` returns what the front of the remaining input becomes. A user-defined token
is meant to stay as it is; what the trie reports, however, is its longest path along the
input, and a path may end inside a token.
-/

namespace Llama.Vocab

open Peg NaiveTrie List

variable {S : Type}

/-- What `normalize_prefix` reads of `llm_tokenizer_ugm`. -/
structure UgmNormalizer where
  /-- `user_defined_token_matcher`. -/
  userDefined : NaiveTrie
  /-- `xcda_array`. -/
  xcda : List UInt32
  /-- `prefix_replacements`. -/
  replacements : List UInt8

/-- The texts of the user-defined tokens, by id. -/
def userDefinedTokens (vocab : List (TokenData S)) : List (List UInt8) :=
  (vocab.filter fun d => d.attr.userDefined).map (·.text)

/-- The constructor of `llm_tokenizer_ugm`, given the parts of the precompiled charsmap. -/
def UgmNormalizer.ofVocab (vocab : List (TokenData S)) (xcda : List UInt32)
    (replacements : List UInt8) : UgmNormalizer :=
  { userDefined := ofEntries ((userDefinedTokens vocab).map fun w => (w, 0))
    xcda := xcda
    replacements := replacements }

/-- How normalization ends without a result. -/
inductive NormalizeFault where
  /-- It throws `std::runtime_error`. -/
  | thrown (what : String)
  /-- It reads past the end of the replacements. -/
  | outOfBounds
  deriving DecidableEq, Repr

/-- The return statement that a result comes from. -/
inductive NormalizeBranch where
  | atEnd
  | userDefined
  | replaced
  | unmodified
  | invalid
  deriving DecidableEq, Repr

structure NormalizationResult where
  branch : NormalizeBranch
  normalized : List UInt8
  consumedInput : Nat
  deriving DecidableEq, Repr

/-- `xcda_array_view::get_node`. -/
def getNode (xcda : List UInt32) (index : UInt32) : Except NormalizeFault UInt32 :=
  match xcda[index.toNat]? with
  | some n => .ok n
  | none => .error (.thrown "Index out of array bounds in XCDA array!")

/-- `xcda_array_view::get_base`. -/
def getBase (xcda : List UInt32) (index : UInt32) : Except NormalizeFault UInt32 := do
  let packed ← getNode xcda index
  pure ((packed >>> 10) <<< ((packed &&& ((1 : UInt32) <<< 9)) >>> 6))

/-- `xcda_array_view::get_lcheck`. -/
def getLcheck (xcda : List UInt32) (index : UInt32) : Except NormalizeFault UInt32 := do
  let packed ← getNode xcda index
  pure (packed &&& (((1 : UInt32) <<< 31) ||| 0xff))

/-- `xcda_array_view::get_leaf`. -/
def getLeaf (xcda : List UInt32) (index : UInt32) : Except NormalizeFault Bool := do
  let packed ← getNode xcda index
  pure ((packed >>> 8) &&& 1 != 0)

/-- `xcda_array_view::get_value`. -/
def getValue (xcda : List UInt32) (index : UInt32) : Except NormalizeFault UInt32 := do
  let packed ← getNode xcda index
  pure (packed &&& (((1 : UInt32) <<< 31) - 1))

/-- The walk along the array. `length` bytes matched so far, and `best` is the length and the
replacement offset of the longest leaf. -/
def xcdaWalk (xcda : List UInt32) :
    List UInt8 → UInt32 → Nat → Nat × Nat → Except NormalizeFault (Nat × Nat)
  | [], _, _, best => pure best
  | c :: rest, nodeIndex, length, best =>
    if c = 0 then pure best
    else do
      let child := nodeIndex ^^^ c.toUInt32
      let lcheck ← getLcheck xcda child
      if lcheck ≠ c.toUInt32 then pure best
      else do
        let isLeaf ← getLeaf xcda child
        let base ← getBase xcda child
        let next := child ^^^ base
        if isLeaf then do
          let value ← getValue xcda next
          xcdaWalk xcda rest next (length + 1) (length + 1, value.toNat)
        else xcdaWalk xcda rest next (length + 1) best

/-- The longest prefix that the charsmap replaces: its length and the replacement offset. -/
def longestReplaced (xcda : List UInt32) (rest : List UInt8) : Except NormalizeFault (Nat × Nat) :=
  if xcda.length > 0 then do
    let root ← getBase xcda 0
    xcdaWalk xcda rest root 0 (0, 0)
  else pure (0, 0)

/-- `llm_tokenizer_ugm_session::normalize_prefix`. -/
def normalizePrefix (t : UgmNormalizer) (input : List UInt8) (inputOffset : Nat) :
    Except NormalizeFault NormalizationResult :=
  if inputOffset = input.length then
    pure { branch := .atEnd, normalized := [], consumedInput := 0 }
  else do
    let rest := input.drop inputOffset
    let userLength := t.userDefined.getLongestPrefix rest 0
    if userLength > 0 then
      pure { branch := .userDefined, normalized := rest.take userLength
             consumedInput := userLength }
    else do
      let (prefixLength, prefixOffset) ← longestReplaced t.xcda rest
      if prefixLength > 0 then
        if prefixOffset ≥ t.replacements.length then
          throw (.thrown "Index out of array bounds in precompiled charsmap!")
        else if 0 ∈ t.replacements.drop prefixOffset then
          pure { branch := .replaced
                 normalized := (t.replacements.drop prefixOffset).takeWhile (· != 0)
                 consumedInput := prefixLength }
        else throw .outOfBounds
      else
        match cptFromUtf8 rest with
        | some (_, n) =>
          pure { branch := .unmodified, normalized := rest.take n, consumedInput := n }
        | none =>
          pure { branch := .invalid, normalized := [0xEF, 0xBF, 0xBD], consumedInput := 1 }

/-- What the user-defined branch returns is a user-defined token, and no longer one begins the
remaining input. -/
def ReturnsToken (vocab : List (TokenData S)) (t : UgmNormalizer) (input : List UInt8)
    (inputOffset : Nat) : Prop :=
  ∀ r, normalizePrefix t input inputOffset = .ok r → r.branch = .userDefined →
    r.normalized ∈ userDefinedTokens vocab ∧ r.normalized <+: input.drop inputOffset ∧
    ∀ w ∈ userDefinedTokens vocab, w <+: input.drop inputOffset → w.length ≤ r.normalized.length

/-- What the user-defined branch consumes does not end inside a character of the input. -/
def KeepsCharacters (t : UgmNormalizer) (input : List UInt8) (inputOffset : Nat) : Prop :=
  ∀ r, normalizePrefix t input inputOffset = .ok r → r.branch = .userDefined →
    ∀ (c : Char) (i : Nat), i < r.consumedInput →
      String.utf8EncodeChar c <+: input.drop (inputOffset + i) →
      i + (String.utf8EncodeChar c).length ≤ r.consumedInput

/-- As far as the input follows a token, it follows one that it contains. -/
def PathsComplete (tokens : List (List UInt8)) (rest : List UInt8) : Prop :=
  ∀ w ∈ tokens, ∀ p, p <+: w → p <+: rest → p ≠ [] →
    ∃ w' ∈ tokens, w' <+: rest ∧ p.length ≤ w'.length

/-- The longest token that the input begins with does not end inside a character. -/
def EndsBetween (tokens : List (List UInt8)) (rest : List UInt8) : Prop :=
  ∀ w ∈ tokens, w <+: rest → (∀ w' ∈ tokens, w' <+: rest → w'.length ≤ w.length) →
    ∀ (c : Char) (i : Nat), i < w.length → String.utf8EncodeChar c <+: rest.drop i →
      i + (String.utf8EncodeChar c).length ≤ w.length

variable {vocab : List (TokenData S)} {xcda : List UInt32} {replacements : List UInt8}
  {tokens : List (List UInt8)} {input rest w : List UInt8} {inputOffset : Nat}

/-- The paths of the matcher are the prefixes of the user-defined tokens. -/
theorem userDefined_walk_isSome {p : List UInt8} (hp : p ≠ []) :
    ((UgmNormalizer.ofVocab vocab xcda replacements).userDefined.walk p).isSome ↔
      ∃ w ∈ userDefinedTokens vocab, p <+: w := by
  rw [UgmNormalizer.ofVocab, walk_ofEntries_isSome]
  simp [hp]

/-- The length the matcher reports is that of the longest common prefix with a token. -/
theorem userLength_spec (vocab : List (TokenData S)) (xcda : List UInt32)
    (replacements rest : List UInt8) :
    ∃ n, (UgmNormalizer.ofVocab vocab xcda replacements).userDefined.getLongestPrefix rest 0 = n ∧
      n ≤ rest.length ∧ (0 < n → ∃ w ∈ userDefinedTokens vocab, rest.take n <+: w) ∧
      ∀ w ∈ userDefinedTokens vocab, ∀ p, p <+: w → p <+: rest → p.length ≤ n := by
  obtain ⟨hle, hiff⟩ := getLongestPrefix_spec
    (UgmNormalizer.ofVocab vocab xcda replacements).userDefined rest
  refine ⟨_, rfl, hle, fun hpos => ?_, fun w hw p hpw hpr => ?_⟩
  · have hwalk := (hiff _ hle).mpr le_rfl
    refine (userDefined_walk_isSome ?_).mp hwalk
    rw [← length_pos_iff, length_take]
    omega
  · rcases p.eq_nil_or_concat with rfl | ⟨q, x, rfl⟩
    · exact Nat.zero_le _
    · refine (hiff _ hpr.length_le).mp ?_
      rw [← prefix_iff_eq_take.mp hpr]
      exact (userDefined_walk_isSome (by simp)).mpr ⟨w, hw, hpw⟩

/-- The user-defined branch is taken on a path, and returns the input along it. -/
theorem normalizePrefix_userDefined {t : UgmNormalizer} {r : NormalizationResult} {n : Nat}
    (hn : t.userDefined.getLongestPrefix (input.drop inputOffset) 0 = n)
    (hle : n ≤ (input.drop inputOffset).length) :
    (normalizePrefix t input inputOffset = .ok r ∧ r.branch = .userDefined) ↔
      0 < n ∧ r = { branch := .userDefined, normalized := (input.drop inputOffset).take n
                    consumedInput := n } := by
  rw [length_drop] at hle
  unfold normalizePrefix
  by_cases hend : inputOffset = input.length
  · rw [if_pos hend]
    constructor
    · rintro ⟨h, hb⟩
      cases h
      cases hb
    · rintro ⟨hpos, -⟩
      omega
  · rw [if_neg hend]
    simp only [hn]
    by_cases hpos : n > 0
    · rw [if_pos hpos]
      constructor
      · rintro ⟨h, -⟩
        cases h
        exact ⟨hpos, rfl⟩
      · rintro ⟨-, rfl⟩
        exact ⟨rfl, rfl⟩
    · rw [if_neg hpos]
      refine ⟨?_, fun h => absurd h.1 hpos⟩
      rintro ⟨h, hb⟩
      -- every other return statement is another branch
      exfalso
      cases hl : longestReplaced t.xcda (input.drop inputOffset) with
      | error e =>
        rw [hl] at h
        cases h
      | ok best =>
        rw [hl] at h
        simp only [bind, Except.bind] at h
        split_ifs at h
        · cases h
          cases hb
        · split at h
          all_goals
            cases h
            cases hb

/-- Where a text and a longer input agree, a character of the input that starts in the text
also ends there. -/
theorem encode_keeps (cs : List Char) (h : encode cs <+: rest) (c : Char) (i : Nat)
    (hi : i < (encode cs).length) (hc : String.utf8EncodeChar c <+: rest.drop i) :
    i + (String.utf8EncodeChar c).length ≤ (encode cs).length := by
  induction cs generalizing rest i with
  | nil => simp at hi
  | cons d cs ih =>
    rw [encode_cons] at h hi ⊢
    obtain ⟨t, rfl⟩ := h
    obtain ⟨u, hu⟩ := hc
    have hdec := decode_encodeChar c u
    rw [hu] at hdec
    rw [length_append] at hi ⊢
    by_cases hlt : i < (String.utf8EncodeChar d).length
    · cases i with
      | zero =>
        -- the same character
        rw [drop_zero, append_assoc, decode_encodeChar] at hdec
        injection hdec with _ hlen
        omega
      | succ i =>
        -- no character starts with a continuation byte
        rw [append_assoc, drop_append_of_le_length hlt.le,
          decode_encodeChar_drop (Nat.succ_pos i) hlt] at hdec
        cases hdec
    · have hrest : String.utf8EncodeChar c <+:
          (encode cs ++ t).drop (i - (String.utf8EncodeChar d).length) := by
        rw [append_assoc, drop_append, drop_eq_nil_of_le (by omega), nil_append] at hu
        exact ⟨u, hu⟩
      have := ih (prefix_append _ t) (i - (String.utf8EncodeChar d).length) (by omega) hrest
      omega

/-- Tokens of whole characters end between the characters of every input. -/
theorem endsBetween_of_encoded (h : ∀ w ∈ tokens, ∃ cs, w = encode cs) (rest : List UInt8) :
    EndsBetween tokens rest := by
  intro w hw hp _ c i hi hc
  obtain ⟨cs, rfl⟩ := h w hw
  exact encode_keeps cs hp c i hi hc

/-- The branch returns whole tokens and keeps the characters exactly when the input leaves no
token half way and the longest token keeps them. -/
theorem whole_iff (vocab : List (TokenData S)) (xcda : List UInt32)
    (replacements input : List UInt8) (inputOffset : Nat) :
    (ReturnsToken vocab (.ofVocab vocab xcda replacements) input inputOffset ∧
        KeepsCharacters (.ofVocab vocab xcda replacements) input inputOffset) ↔
      PathsComplete (userDefinedTokens vocab) (input.drop inputOffset) ∧
        EndsBetween (userDefinedTokens vocab) (input.drop inputOffset) := by
  obtain ⟨n, hn, hle, hpath, hmax⟩ :=
    userLength_spec vocab xcda replacements (input.drop inputOffset)
  have hbranch := fun r => normalizePrefix_userDefined (r := r) hn hle
  have htake : ((input.drop inputOffset).take n).length = n := by
    rw [length_take, Nat.min_eq_left hle]
  constructor
  · rintro ⟨htok, hkeep⟩
    rcases Nat.eq_zero_or_pos n with hz | hpos
    · -- no path: nothing to show
      refine ⟨fun w hw p hpw hpr hne => ?_, fun w hw hp _ c i hi => ?_⟩
      · have := hmax w hw p hpw hpr
        exact absurd (length_eq_zero_iff.mp (by omega)) hne
      · have := hmax w hw w prefix_rfl hp
        omega
    · obtain ⟨hr, hb⟩ := (hbranch _).mpr ⟨hpos, rfl⟩
      obtain ⟨hmem, hpre, hlong⟩ := htok _ hr hb
      refine ⟨fun w hw p hpw hpr _ => ⟨_, hmem, hpre, ?_⟩, fun w hw hp hwmax c i hi hc => ?_⟩
      · rw [htake]
        exact hmax w hw p hpw hpr
      · have hlen : w.length = n := by
          refine Nat.le_antisymm (hmax w hw w prefix_rfl hp) ?_
          have := hwmax _ hmem hpre
          rwa [htake] at this
        rw [hlen] at hi ⊢
        exact hkeep _ hr hb c i hi (by rwa [← drop_drop])
  · rintro ⟨hcomplete, hends⟩
    have hwhole : 0 < n → (input.drop inputOffset).take n ∈ userDefinedTokens vocab := by
      intro hpos
      obtain ⟨w, hw, hp⟩ := hpath hpos
      obtain ⟨w', hw', hp', hlen⟩ := hcomplete w hw _ hp ( take_prefix _ _) (by
        rw [← length_pos_iff, htake]
        exact hpos)
      rw [htake] at hlen
      have hlen' : w'.length = n := Nat.le_antisymm (hmax w' hw' w' prefix_rfl hp') hlen
      rwa [← hlen', ← prefix_iff_eq_take.mp hp']
    have hlongest : ∀ w ∈ userDefinedTokens vocab, w <+: input.drop inputOffset →
        w.length ≤ ((input.drop inputOffset).take n).length := by
      intro w hw hp
      rw [htake]
      exact hmax w hw w prefix_rfl hp
    constructor
    · intro r hr hb
      obtain ⟨hpos, rfl⟩ := (hbranch r).mp ⟨hr, hb⟩
      exact ⟨hwhole hpos, take_prefix _ _, hlongest⟩
    · intro r hr hb c i hi hc
      obtain ⟨hpos, rfl⟩ := (hbranch r).mp ⟨hr, hb⟩
      rw [← drop_drop] at hc
      have := hends _ (hwhole hpos) ( take_prefix _ _) hlongest c i (by rwa [htake]) hc
      rwa [htake] at this

/-- What the user-defined branch is for holds exactly when the input leaves no token half way
and the longest token ends between characters; tokens of whole characters always do. -/
theorem normalizePrefix_tokens_iff (vocab : List (TokenData S)) (xcda : List UInt32)
    (replacements input : List UInt8) (inputOffset : Nat) :
    ((ReturnsToken vocab (.ofVocab vocab xcda replacements) input inputOffset ∧
        KeepsCharacters (.ofVocab vocab xcda replacements) input inputOffset) ↔
      PathsComplete (userDefinedTokens vocab) (input.drop inputOffset) ∧
        EndsBetween (userDefinedTokens vocab) (input.drop inputOffset)) ∧
    ((∀ w ∈ userDefinedTokens vocab, ∃ cs, w = encode cs) →
      EndsBetween (userDefinedTokens vocab) (input.drop inputOffset)) :=
  ⟨whole_iff vocab xcda replacements input inputOffset, fun h => endsBetween_of_encoded h _⟩

/-- A vocabulary with the user-defined token `é`. -/
def acuteVocab : List (TokenData Int) :=
  [{ text := [0xC3, 0xA9], score := 0, attr := { TokenAttr.undefined with userDefined := true } }]

/-- The text `è` shares its first byte with the token: that byte is kept and the other one
replaced. -/
theorem grave_split :
    normalizePrefix (.ofVocab acuteVocab [] []) [0xC3, 0xA8] 0 =
        .ok { branch := .userDefined, normalized := [0xC3], consumedInput := 1 } ∧
      normalizePrefix (.ofVocab acuteVocab [] []) [0xC3, 0xA8] 1 =
        .ok { branch := .invalid, normalized := [0xEF, 0xBF, 0xBD], consumedInput := 1 } ∧
      ¬ ReturnsToken acuteVocab (.ofVocab acuteVocab [] []) [0xC3, 0xA8] 0 ∧
      ¬ KeepsCharacters (.ofVocab acuteVocab [] []) [0xC3, 0xA8] 0 := by
  have hfirst : normalizePrefix (.ofVocab acuteVocab [] []) [0xC3, 0xA8] 0 =
      .ok { branch := .userDefined, normalized := [0xC3], consumedInput := 1 } := by rfl
  refine ⟨hfirst, by rfl, fun h => ?_, fun h => ?_⟩
  · exact absurd (h _ hfirst rfl).1 (by decide)
  · exact absurd (h _ hfirst rfl (Char.ofNat 0xE8) 0 (by decide) ⟨[], by decide⟩) (by decide)

end Llama.Vocab
