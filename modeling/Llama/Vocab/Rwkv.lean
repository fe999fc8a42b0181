import Llama.Vocab.Trie

/-!
# The RWKV tokenizer

Greedy longest match over a trie. The inner loop reads one byte past the match and relies on
the NUL after the text to fall off the trie, so a token that continues the rest of the text
with a NUL leads it past the end of the string.
-/

namespace Llama.Vocab

open NaiveTrie hiding node
open List

/-- Parser state of `llama_unescape_rwkv_token`. -/
structure Unescape where
  output : List UInt8
  escaping : Bool
  hexRemaining : Nat
  hexAcc : UInt8

/-- The value of a hex digit; `char` is signed. -/
def hexValue (c : UInt8) : UInt8 :=
  if 0x61 ≤ c.toNat ∧ c.toNat < 0x80 then c - 0x61 + 10 else c - 0x30

/-- Loop body of `llama_unescape_rwkv_token`. -/
def Unescape.step (s : Unescape) (c : UInt8) : Unescape :=
  if s.hexRemaining ≠ 0 then
    let acc := (s.hexAcc <<< 4) + hexValue c
    if s.hexRemaining - 1 = 0 then
      { s with output := s.output ++ [acc], hexRemaining := 0, hexAcc := 0 }
    else { s with hexRemaining := s.hexRemaining - 1, hexAcc := acc }
  else if s.escaping then
    if c = 0x74 then { s with output := s.output ++ [0x09], escaping := false }
    else if c = 0x6E then { s with output := s.output ++ [0x0A], escaping := false }
    else if c = 0x72 then { s with output := s.output ++ [0x0D], escaping := false }
    else if c = 0x78 then { s with hexRemaining := 2, escaping := false }
    else { s with output := s.output ++ [c], escaping := false }
  else if c = 0x5C then { s with escaping := true }
  else { s with output := s.output ++ [c] }

/-- `llama_unescape_rwkv_token`. -/
def unescapeRwkvToken (escaped : List UInt8) : List UInt8 :=
  (escaped.foldl Unescape.step
    { output := [], escaping := false, hexRemaining := 0, hexAcc := 0 }).output

/-- The bytes of the tokens, by id. -/
def rwkvTokens (texts : List (List UInt8)) : List (List UInt8) := texts.map unescapeRwkvToken

/-- `llm_tokenizer_rwkv`: the matcher of a vocabulary. -/
def rwkvMatcher (texts : List (List UInt8)) : NaiveTrie := ofEntries (rwkvTokens texts).zipIdx

/-- The inner loop of `tokenize`, at `position` in a text that goes on with `rest`: the id and
the end of the longest match, or `none` when it reads past the NUL after the text. -/
def longestFrom : NaiveTrie → List UInt8 → Nat → Nat → Nat → Option (Nat × Nat)
  | node, rest, position, tokenId, tokenLength =>
    let best := match node.value with
      | some v => (v, position + 1)
      | none => (tokenId, tokenLength)
    match rest with
    | [] =>
      -- `text[text.size()]` is NUL; there is nothing to read behind it
      match node.traverse 0 with
      | none => some best
      | some _ => none
    | c :: rest =>
      match node.traverse c with
      | none => some best
      | some u => longestFrom u rest (position + 1) best.1 best.2

/-- How a call of `tokenize` ends. -/
inductive RwkvOutcome where
  /-- It appends these tokens. -/
  | done (output : List Nat)
  /-- It reads past the end of the string. -/
  | outOfBounds
  /-- It is still running. -/
  | running
  deriving DecidableEq, Repr

/-- The outer loop of `tokenize`, for a number of turns. `position` is a uint32 that cannot wrap:
`llama_tokenize` takes the length of a text as an int32. -/
def rwkvLoop (matcher : NaiveTrie) (unk : Nat) (text : List UInt8) :
    Nat → Nat → List Nat → RwkvOutcome
  | 0, position, output => if text.length ≤ position then .done output else .running
  | turns + 1, position, output =>
    match text.drop position with
    | [] => .done output
    | c :: rest =>
      match matcher.traverse c with
      | none => rwkvLoop matcher unk text turns (position + 1) (output ++ [unk])
      | some node =>
        match longestFrom node rest position 0 0 with
        | none => .outOfBounds
        | some (tokenId, tokenLength) =>
          rwkvLoop matcher unk text turns tokenLength (output ++ [tokenId])

/-- `llm_tokenizer_rwkv_session::tokenize`, with as many turns as the text has bytes. -/
def rwkvTokenize (texts : List (List UInt8)) (unk : Nat) (text : List UInt8) : RwkvOutcome :=
  rwkvLoop (rwkvMatcher texts) unk text text.length 0 []

/-- `w` is a longest token that `text` starts with. -/
def LongestToken (tokens : List (List UInt8)) (text w : List UInt8) : Prop :=
  w ∈ tokens ∧ w <+: text ∧ ∀ w' ∈ tokens, w' <+: text → w'.length ≤ w.length

/-- The ids stand for longest tokens, one after the other, up to the end of the text. -/
inductive GreedyTokens (tokens : List (List UInt8)) : List UInt8 → List Nat → Prop
  | nil : GreedyTokens tokens [] []
  | cons {w rest : List UInt8} {id : Nat} {ids : List Nat} (hid : tokens[id]? = some w)
      (hne : w ≠ []) (hw : LongestToken tokens (w ++ rest) w)
      (h : GreedyTokens tokens rest ids) : GreedyTokens tokens (w ++ rest) (id :: ids)

/-- Taking longest tokens off the text leaves `rest` at some point. -/
inductive Boundary (tokens : List (List UInt8)) : List UInt8 → List UInt8 → Prop
  | start {text : List UInt8} : Boundary tokens text text
  | step {w text rest : List UInt8} (hne : w ≠ []) (hw : LongestToken tokens (w ++ text) w)
      (h : Boundary tokens text rest) : Boundary tokens (w ++ text) rest

/-- No token continues what is left of the text at a boundary with a NUL. -/
def NoOverrun (tokens : List (List UInt8)) (text : List UInt8) : Prop :=
  ∀ rest, Boundary tokens text rest → rest ≠ [] → ∀ w ∈ tokens, ¬ rest ++ [0] <+: w

variable {texts : List (List UInt8)} {tokens : List (List UInt8)} {text w w' rest : List UInt8}

theorem LongestToken.unique (h : LongestToken tokens text w) (h' : LongestToken tokens text w') :
    w = w' := by
  have hlen : w.length = w'.length := Nat.le_antisymm (h'.2.2 w h.1 h.2.1) (h.2.2 w' h'.1 h'.2.1)
  exact List.IsPrefix.eq_of_length (prefix_of_prefix_length_le h.2.1 h'.2.1 hlen.le) hlen

/-- The tokens that were chosen spell the text. -/
theorem GreedyTokens.flatten {ids : List Nat} (h : GreedyTokens tokens text ids) :
    ids.flatMap (fun id => (tokens[id]?).getD []) = text := by
  induction h with
  | nil => rfl
  | cons hid _ _ _ ih => rw [flatMap_cons, hid, Option.getD_some, ih]

/-- Where a longest token is taken off, the condition is one about this place and one about the
rest. -/
theorem noOverrun_step (hne : w ≠ []) (hw : LongestToken tokens (w ++ rest) w) :
    NoOverrun tokens (w ++ rest) ↔
      (∀ x ∈ tokens, ¬ (w ++ rest) ++ [0] <+: x) ∧ NoOverrun tokens rest := by
  constructor
  · intro h
    exact ⟨h _ .start (by simp [hne]), fun r hr => h r (.step hne hw hr)⟩
  · rintro ⟨hhere, hrest⟩ r hr hrne
    generalize ht : w ++ rest = text at *
    cases hr with
    | start => exact hhere
    | @step w' text' _ hne' hw' hr' =>
      -- the longest token is unique
      obtain rfl := hw.unique hw'
      obtain rfl := append_cancel_left ht
      exact hrest r hr' hrne

theorem noOverrun_nil : NoOverrun tokens [] := by
  intro r hr hrne
  generalize ht : ([] : List UInt8) = text at hr
  cases hr with
  | start => exact absurd ht.symm hrne
  | step hne _ _ => exact absurd (append_eq_nil_iff.mp ht.symm).1 hne

/-- The value of the longest prefix that has one and the end of the prefix, or what was there
before when there is none. -/
def LongestValue (node : NaiveTrie) (rest : List UInt8) (position : Nat) (before r : Nat × Nat) :
    Prop :=
  (∃ m ≤ rest.length, node.lookup (rest.take m) = some r.1 ∧ r.2 = position + 1 + m ∧
    ∀ k ≤ rest.length, (node.lookup (rest.take k)).isSome → k ≤ m) ∨
  (r = before ∧ ∀ k ≤ rest.length, node.lookup (rest.take k) = none)

variable {node : NaiveTrie} {position : Nat} {c : UInt8}

/-- Where nothing below a node has a value, the node's own value is the last one. -/
theorem longestValue_own {tokenId tokenLength : Nat}
    (hlater : ∀ k ≤ rest.length, (node.lookup (rest.take k)).isSome → k = 0) :
    LongestValue node rest position (tokenId, tokenLength)
      (match node.value with | some v => (v, position + 1) | none => (tokenId, tokenLength)) := by
  have hown : node.lookup (rest.take 0) = node.value := by
    rw [take_zero, lookup_nil]
  cases hv : node.value with
  | some v =>
    exact .inl ⟨0, Nat.zero_le _, hown.trans hv, rfl, fun k hk hl => (hlater k hk hl).le⟩
  | none =>
    refine .inr ⟨rfl, fun k hk => ?_⟩
    cases hl : node.lookup (rest.take k) with
    | none => rfl
    | some v =>
      obtain rfl := hlater k hk (by rw [hl]; rfl)
      rw [hown, hv] at hl
      cases hl

/-- A value below a node is a value of the node one byte further on. -/
theorem LongestValue.cons {u : NaiveTrie} {before own r : Nat × Nat} (ht : node.traverse c = some u)
    (hown : (∀ k ≤ (c :: rest).length, (node.lookup ((c :: rest).take k)).isSome → k = 0) →
      LongestValue node (c :: rest) position before own)
    (h : LongestValue u rest (position + 1) own r) :
    LongestValue node (c :: rest) position before r := by
  have hsucc : ∀ k, node.lookup ((c :: rest).take (k + 1)) = u.lookup (rest.take k) := fun k => by
    rw [take_succ_cons, lookup_cons, ht, Option.bind_some]
  rcases h with ⟨m, hm, hl, hr, hmax⟩ | ⟨rfl, hno⟩
  · refine .inl ⟨m + 1, by simpa using hm, (hsucc m).trans hl, by omega, fun k hk hl' => ?_⟩
    cases k with
    | zero => omega
    | succ k =>
      rw [hsucc] at hl'
      have := hmax k (by simpa using hk) hl'
      omega
  · refine hown fun k hk hl' => ?_
    cases k with
    | zero => rfl
    | succ k =>
      rw [hsucc, hno k (by simpa using hk)] at hl'
      cases hl'

/-- The inner loop reads past the text exactly when the trie goes on with a NUL, and otherwise
finds the longest value. -/
theorem longestFrom_spec (node : NaiveTrie) (rest : List UInt8)
    (position tokenId tokenLength : Nat) :
    (longestFrom node rest position tokenId tokenLength = none ↔ (node.walk (rest ++ [0])).isSome) ∧
    ∀ r, longestFrom node rest position tokenId tokenLength = some r →
      LongestValue node rest position (tokenId, tokenLength) r := by
  induction rest generalizing node position tokenId tokenLength with
  | nil =>
    unfold longestFrom
    simp only [nil_append, walk_singleton]
    cases ht : node.traverse 0 with
    | some u => simp
    | none =>
      refine ⟨by simp, fun r hr => ?_⟩
      cases hr
      exact longestValue_own fun k hk _ => Nat.le_zero.mp hk
  | cons c rest ih =>
    unfold longestFrom
    simp only [cons_append, walk_cons]
    cases ht : node.traverse c with
    | none =>
      refine ⟨by simp, fun r hr => ?_⟩
      cases hr
      refine longestValue_own fun k _ hk => ?_
      cases k with
      | zero => rfl
      | succ k => simp [lookup_cons, ht] at hk
    | some u =>
      obtain ⟨hnone, hsome⟩ := ih u (position + 1)
        (match node.value with | some v => (v, position + 1) | none => (tokenId, tokenLength)).1
        (match node.value with | some v => (v, position + 1) | none => (tokenId, tokenLength)).2
      exact ⟨hnone, fun r hr => (hsome r hr).cons ht longestValue_own⟩

theorem matcher_lookup {id : Nat} (h : (rwkvMatcher texts).lookup w = some id) :
    (rwkvTokens texts)[id]? = some w :=
  mk_mem_zipIdx_iff_getElem?.mp (mem_of_lookup h)

theorem matcher_lookup_isSome : ((rwkvMatcher texts).lookup w).isSome ↔ w ∈ rwkvTokens texts := by
  rw [rwkvMatcher, lookup_isSome]
  constructor
  · rintro ⟨⟨x, id⟩, hx, rfl⟩
    exact mem_of_getElem? (mk_mem_zipIdx_iff_getElem?.mp hx)
  · intro h
    obtain ⟨id, hid⟩ := mem_iff_getElem?.mp h
    exact ⟨(w, id), mk_mem_zipIdx_iff_getElem?.mpr hid, rfl⟩

theorem matcher_walk_isSome (hne : w ≠ []) :
    ((rwkvMatcher texts).walk w).isSome ↔ ∃ x ∈ rwkvTokens texts, w <+: x := by
  rw [rwkvMatcher, walk_ofEntries_isSome]
  constructor
  · rintro (h | ⟨⟨x, id⟩, hx, h⟩)
    · exact absurd h hne
    · exact ⟨x, mem_of_getElem? (mk_mem_zipIdx_iff_getElem?.mp hx), h⟩
  · rintro ⟨x, hx, h⟩
    obtain ⟨id, hid⟩ := mem_iff_getElem?.mp hx
    exact .inr ⟨(x, id), mk_mem_zipIdx_iff_getElem?.mpr hid, h⟩

/-- One turn at a byte: past the end when some token goes on with a NUL, and otherwise a longest
token. -/
theorem longestFrom_matcher (position : Nat) (hbyte : [c] ∈ rwkvTokens texts)
    (ht : (rwkvMatcher texts).traverse c = some node) :
    (longestFrom node rest position 0 0 = none ↔ ∃ x ∈ rwkvTokens texts, (c :: rest) ++ [0] <+: x) ∧
    ∀ r, longestFrom node rest position 0 0 = some r →
      ∃ w, (rwkvTokens texts)[r.1]? = some w ∧ w ≠ [] ∧
        LongestToken (rwkvTokens texts) (c :: rest) w ∧ r.2 = position + w.length := by
  have hlook : ∀ p, node.lookup p = (rwkvMatcher texts).lookup (c :: p) := by
    intro p
    rw [lookup_cons, ht, Option.bind_some]
  obtain ⟨hnone, hsome⟩ := longestFrom_spec node rest position 0 0
  constructor
  · rw [hnone, ← matcher_walk_isSome (by simp), cons_append, walk_cons, ht, Option.bind_some]
  · intro r hr
    rcases hsome r hr with ⟨m, hm, hl, hr2, hmax⟩ | ⟨-, hno⟩
    · rw [hlook] at hl
      have hid := matcher_lookup hl
      refine ⟨c :: rest.take m, hid, by simp, ⟨mem_of_getElem? hid, ?_, ?_⟩, ?_⟩
      · exact cons_prefix_cons.mpr ⟨rfl, take_prefix _ _⟩
      · intro w' hw' hp
        cases w' with
        | nil => simp
        | cons d w' =>
          obtain ⟨rfl, hp'⟩ := cons_prefix_cons.mp hp
          have hle := hmax w'.length hp'.length_le (by
            rw [← prefix_iff_eq_take.mp hp', hlook, matcher_lookup_isSome]
            exact hw')
          simp only [length_cons, length_take]
          omega
      · simp only [length_cons, length_take]
        omega
    · -- the single byte is a token, so some value is found
      have h0 := hno 0 (Nat.zero_le _)
      rw [take_zero, hlook] at h0
      have := matcher_lookup_isSome.mpr hbyte
      rw [h0] at this
      cases this

/-- From any boundary, the loop ends with longest tokens or past the end of the string. -/
theorem rwkvLoop_spec (text : List UInt8) (unk : Nat)
    (hbytes : ∀ b : UInt8, [b] ∈ rwkvTokens texts) :
    ∀ (turns position : Nat) (output : List Nat), text.length - position ≤ turns →
      (NoOverrun (rwkvTokens texts) (text.drop position) → ∃ ids,
        rwkvLoop (rwkvMatcher texts) unk text turns position output = .done (output ++ ids) ∧
          GreedyTokens (rwkvTokens texts) (text.drop position) ids) ∧
      (¬ NoOverrun (rwkvTokens texts) (text.drop position) →
        rwkvLoop (rwkvMatcher texts) unk text turns position output = .outOfBounds) := by
  intro turns
  induction turns with
  | zero =>
    intro position output hlen
    have hle : text.length ≤ position := by omega
    rw [drop_eq_nil_of_le hle]
    exact ⟨fun _ => ⟨[], by simp [rwkvLoop, hle], .nil⟩, fun h => absurd noOverrun_nil h⟩
  | succ turns ih =>
    intro position output hlen
    simp only [rwkvLoop]
    cases hrest : text.drop position with
    | nil => exact ⟨fun _ => ⟨[], by simp, .nil⟩, fun h => absurd noOverrun_nil h⟩
    | cons c rest =>
      obtain ⟨node, ht⟩ : ∃ node, (rwkvMatcher texts).traverse c = some node := by
        have h := (matcher_walk_isSome (w := [c]) (by simp)).mpr ⟨_, hbytes c, prefix_rfl⟩
        rw [walk_singleton] at h
        exact Option.isSome_iff_exists.mp h
      obtain ⟨hnone, hsome⟩ := @longestFrom_matcher texts rest node c position (hbytes c) ht
      simp only [ht]
      cases hl : longestFrom node rest position 0 0 with
      | none =>
        refine ⟨fun h => ?_, fun _ => rfl⟩
        obtain ⟨x, hx, hp⟩ := hnone.mp hl
        exact absurd hp (h _ .start (by simp) x hx)
      | some r =>
        obtain ⟨tokenId, tokenLength⟩ := r
        obtain ⟨w, hid, hne, hw, hpos⟩ := hsome _ hl
        simp only at hid hpos ⊢
        obtain ⟨after, hafter⟩ := hw.2.1
        have hdrop : text.drop tokenLength = after := by
          rw [hpos, ← drop_drop, hrest, ← hafter, drop_left]
        have hpos' : 0 < w.length := length_pos_iff.mpr hne
        obtain ⟨hgood, hbad⟩ := ih tokenLength (output ++ [tokenId]) (by omega)
        rw [hdrop] at hgood hbad
        rw [← hafter] at hw ⊢
        have hhere : ∀ x ∈ rwkvTokens texts, ¬ (w ++ after) ++ [0] <+: x := by
          intro x hx hp
          rw [hafter] at hp
          rw [hnone.mpr ⟨x, hx, hp⟩] at hl
          cases hl
        rw [noOverrun_step hne hw]
        constructor
        · rintro ⟨-, h⟩
          obtain ⟨ids, hrun, hids⟩ := hgood h
          exact ⟨tokenId :: ids, by rw [hrun, append_assoc, singleton_append],
            .cons hid hne hw hids⟩
        · intro h
          exact hbad fun hr => h ⟨hhere, hr⟩

/-- Tokenizing ends with longest tokens that spell the text, exactly when at no boundary a token
continues the rest of the text with a NUL. -/
theorem rwkvTokenize_greedy_iff (texts : List (List UInt8)) (unk : Nat) (text : List UInt8)
    (hbytes : ∀ b : UInt8, [b] ∈ rwkvTokens texts) :
    (∃ ids, rwkvTokenize texts unk text = .done ids ∧ GreedyTokens (rwkvTokens texts) text ids ∧
      ids.flatMap (fun id => ((rwkvTokens texts)[id]?).getD []) = text) ↔
      NoOverrun (rwkvTokens texts) text := by
  obtain ⟨hgood, hbad⟩ := rwkvLoop_spec text unk hbytes text.length 0 [] (by omega)
  rw [drop_zero] at hgood hbad
  constructor
  · rintro ⟨ids, hrun, -⟩
    by_contra h
    rw [rwkvTokenize, hbad h] at hrun
    cases hrun
  · intro h
    obtain ⟨ids, hrun, hids⟩ := hgood h
    exact ⟨ids, hrun, hids, hids.flatten⟩

/-- The escaped single bytes and the token `a\x00b`. -/
def nulVocab : List (List UInt8) :=
  (range 256).map (fun b => if b = 0x5C then [0x5C, 0x5C] else [UInt8.ofNat b]) ++
    [[0x61, 0x5C, 0x78, 0x30, 0x30, 0x62]]

theorem nulVocab_bytes (b : UInt8) : [b] ∈ rwkvTokens nulVocab := by
  refine mem_map.mpr ⟨if b.toNat = 0x5C then [0x5C, 0x5C] else [UInt8.ofNat b.toNat],
    mem_append_left _ (mem_map.mpr ⟨b.toNat, by simpa using b.toNat_lt, rfl⟩), ?_⟩
  split
  · rename_i h
    have : b = 0x5C := UInt8.toNat_inj.mp h
    subst this
    rfl
  · rename_i h
    have : b ≠ 0x5C := fun he => h (by rw [he]; rfl)
    simp [unescapeRwkvToken, Unescape.step, this]

theorem rwkvTokenize_greedy_iff_nulVocab :
    (∃ ids, rwkvTokenize nulVocab 0 [0x62] = .done ids ∧
      GreedyTokens (rwkvTokens nulVocab) [0x62] ids ∧
      ids.flatMap (fun id => ((rwkvTokens nulVocab)[id]?).getD []) = [0x62]) ↔
      NoOverrun (rwkvTokens nulVocab) [0x62] :=
  rwkvTokenize_greedy_iff nulVocab 0 [0x62] nulVocab_bytes

/-- On the text `a` the loop takes the NUL after it for input and reads on. -/
theorem nul_token_overruns :
    (∀ b : UInt8, [b] ∈ rwkvTokens nulVocab) ∧ rwkvTokenize nulVocab 0 [0x61] = .outOfBounds := by
  refine ⟨nulVocab_bytes, ?_⟩
  refine (rwkvLoop_spec [0x61] 0 nulVocab_bytes 1 0 [] (by simp)).2 fun h => ?_
  have htoken : [0x61, 0x00, 0x62] ∈ rwkvTokens nulVocab :=
    mem_map.mpr ⟨[0x61, 0x5C, 0x78, 0x30, 0x30, 0x62], by simp [nulVocab], by decide⟩
  exact h _ .start (by simp) _ htoken ⟨[0x62], rfl⟩

end Llama.Vocab
