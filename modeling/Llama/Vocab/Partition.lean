import Llama.Vocab.Slice
import Llama.Vocab.Token

/-!
# Partition at special tokens

`tokenizer_st_partition` divides a text at the texts of the special tokens, one token after the
other. The fragments are in a singly linked list that changes while an iterator goes over it:
what a match divides a fragment into comes after it, and then the fragment is erased. An
iterator is the index of its node.
-/

namespace Llama.Vocab

open List Option

variable {S : Type}

/-- `fragment_buffer_variant`. All raw fragments refer to one text. -/
inductive Fragment where
  | token (id : Nat)
  | raw (offset length : Nat)
  deriving DecidableEq, Repr

/-- The constructor of raw fragments, with its assertions. -/
def Fragment.mkRaw (text : List UInt8) (offset length : Nat) : Option Fragment :=
  if 1 ≤ length ∧ offset + length ≤ text.length then some (.raw offset length) else none

/-- `std::string_view::find`: the first occurrence from a position on. -/
def findFrom (view pattern : List UInt8) (pos : Nat) : Option Nat :=
  (range' pos (view.length + 1 - pos)).find? fun m => pattern.isPrefixOf (view.drop m)

/-- `isspace` of the C locale. -/
def isSpace (b : UInt8) : Bool := b == 0x20 || (0x09 ≤ b.toNat && b.toNat ≤ 0x0D)

/-- The byte at an offset is white space. -/
def spaceAt (text : List UInt8) (i : Nat) : Bool :=
  match text[i]? with
  | some b => isSpace b
  | none => false

/-- Length of the left remainder without white space at its end. -/
def stripLeft (text : List UInt8) (offset : Nat) : Nat → Nat
  | 0 => 0
  | length + 1 =>
    if spaceAt text (offset + length) then stripLeft text offset length else length + 1

/-- Offset and length of the right remainder without white space at its start. -/
def stripRight (text : List UInt8) : Nat → Nat → Nat × Nat
  | offset, 0 => (offset, 0)
  | offset, length + 1 =>
    if spaceAt text offset then stripRight text (offset + 1) length else (offset, length + 1)

def emplaceAfter (buffer : List Fragment) (it : Nat) (f : Fragment) : List Fragment :=
  buffer.take (it + 1) ++ f :: buffer.drop (it + 1)

/-- A raw fragment after the iterator, which moves on to it, unless it is empty. -/
def emplaceRaw (text : List UInt8) (buffer : List Fragment) (it offset length : Nat) :
    Option (List Fragment × Nat) :=
  if length > 0 then do
    let f ← Fragment.mkRaw text offset length
    pure (emplaceAfter buffer it f, it + 1)
  else pure (buffer, it)

/-- What is left of a match at `found`, without white space before tokens that strip it. -/
def emplaceLeft (text : List UInt8) (data : TokenData S) (buffer : List Fragment)
    (it base found : Nat) : Option (List Fragment × Nat) :=
  if found > base then
    emplaceRaw text buffer it base
      (if data.attr.lstrip then stripLeft text base (found - base) else found - base)
  else some (buffer, it)

/-- What is right of a match, without white space after tokens that strip it. -/
def rightRemainder (text : List UInt8) (data : TokenData S) (offset length : Nat) : Nat × Nat :=
  if data.attr.rstrip then stripRight text offset length else (offset, length)

/-- The loop over one fragment: the buffer, the iterator, and the part of the text that is
still to be searched. -/
def splitFragment (text : List UInt8) (id : Nat) (data : TokenData S) :
    Nat → List Fragment → Nat → Nat → Nat → Option (List Fragment × Nat)
  | 0, _, _, _, _ => none
  | turns + 1, buffer, source, base, length =>
    match findFrom (text.take (base + length)) data.text base with
    | none => some (buffer, source)
    | some found => do
      let left ← emplaceLeft text data buffer source base found
      let buffer := emplaceAfter left.1 left.2 (.token id)
      let it := left.2 + 1
      if found + data.text.length < base + length then do
        let rest := rightRemainder text data (found + data.text.length)
          (length - ((found - base) + data.text.length))
        let right ← emplaceRaw text buffer it rest.1 rest.2
        -- the erased node stood before the iterator
        splitFragment text id data turns (right.1.eraseIdx source) (right.2 - 1) rest.1 rest.2
      else some (buffer.eraseIdx source, it - 1)

/-- The loop over the fragments for one special token. -/
def scanFragments (text : List UInt8) (id : Nat) (data : TokenData S) :
    Nat → List Fragment → Nat → Option (List Fragment)
  | 0, buffer, it => if it < buffer.length then none else some buffer
  | turns + 1, buffer, it =>
    match buffer[it]? with
    | none => some buffer
    | some (.token _) => scanFragments text id data turns buffer (it + 1)
    | some (.raw offset length) => do
      let (buffer, it) ← splitFragment text id data (length + 1) buffer it offset length
      scanFragments text id data turns buffer (it + 1)

/-- The tokens that are looked for: control and unknown tokens only when special tokens are
parsed. -/
def enabled (parseSpecial : Bool) (data : TokenData S) : Bool :=
  parseSpecial || !(data.attr.control || data.attr.unknown)

/-- `llama_vocab::impl::tokenizer_st_partition`, with the tokens of `cache_special_tokens`. -/
def stPartition (vocab : List (TokenData S)) (special : List Nat) (text : List UInt8)
    (parseSpecial : Bool) (buffer : List Fragment) : Option (List Fragment) :=
  special.foldlM (fun buffer id =>
    match vocab[id]? with
    | none => none
    | some data =>
      if enabled parseSpecial data then scanFragments text id data buffer.length buffer 0
      else some buffer) buffer

/-- The fragments of a text in `llama_vocab::impl::tokenize`. -/
def partitionText (vocab : List (TokenData S)) (special : List Nat) (text : List UInt8)
    (parseSpecial : Bool) : Option (List Fragment) :=
  if text.isEmpty then some []
  else do
    let f ← Fragment.mkRaw text 0 text.length
    stPartition vocab special text parseSpecial [f]

/-- The bytes a fragment stands for. -/
def Fragment.bytes (vocab : List (TokenData S)) (text : List UInt8) : Fragment → List UInt8
  | .token id =>
    match vocab[id]? with
    | some data => data.text
    | none => []
  | .raw offset length => slice text offset length

/-- The fragments in order are the bytes, but for white space before tokens that strip on the
left and after tokens that strip on the right. -/
inductive Covers (vocab : List (TokenData S)) (special : List Nat) (text : List UInt8) :
    List Fragment → List UInt8 → Prop
  | nil : Covers vocab special text [] []
  | raw {offset length : Nat} {rest : List Fragment} {t : List UInt8}
      (h : Covers vocab special text rest t) :
      Covers vocab special text (.raw offset length :: rest) (slice text offset length ++ t)
  | token {id : Nat} {data : TokenData S} {before after t : List UInt8} {rest : List Fragment}
      (hid : id ∈ special) (hdata : vocab[id]? = some data)
      (hbefore : ∀ b ∈ before, isSpace b) (hleft : before ≠ [] → data.attr.lstrip)
      (hafter : ∀ b ∈ after, isSpace b) (hright : after ≠ [] → data.attr.rstrip)
      (h : Covers vocab special text rest t) :
      Covers vocab special text (.token id :: rest) (before ++ data.text ++ after ++ t)

variable {vocab : List (TokenData S)} {special : List Nat} {text s t : List UInt8}
  {fs gs : List Fragment} {data : TokenData S} {id : Nat}

theorem Covers.append (hf : Covers vocab special text fs s) (hg : Covers vocab special text gs t) :
    Covers vocab special text (fs ++ gs) (s ++ t) := by
  induction hf with
  | nil => exact hg
  | raw _ ih =>
    rw [append_assoc]
    exact .raw ih
  | token hid hdata hb hl ha hr _ ih =>
    rw [append_assoc]
    exact .token hid hdata hb hl ha hr ih

/-- Without tokens that strip, the fragments spell the bytes. -/
theorem Covers.spells (h : Covers vocab special text fs s)
    (hstrip : ∀ id ∈ special, ∀ data, vocab[id]? = some data →
      data.attr.lstrip = false ∧ data.attr.rstrip = false) :
    fs.flatMap (Fragment.bytes vocab text) = s := by
  induction h with
  | nil => rfl
  | raw _ ih => rw [flatMap_cons, ih, Fragment.bytes]
  | @token id data before after t rest hid hdata _ hl _ hr _ ih =>
    obtain ⟨hnl, hnr⟩ := hstrip id hid data hdata
    have hb : before = [] := by
      by_contra hne
      rw [hl hne] at hnl
      cases hnl
    have ha : after = [] := by
      by_contra hne
      rw [hr hne] at hnr
      cases hnr
    rw [flatMap_cons, ih, hb, ha, Fragment.bytes, hdata]
    simp

theorem isSpace_of_spaceAt {i : Nat} (h : spaceAt text i = true) :
    ∃ b, text[i]? = some b ∧ isSpace b = true := by
  unfold spaceAt at h
  cases hb : text[i]? with
  | none => simp [hb] at h
  | some b => exact ⟨b, rfl, by simpa [hb] using h⟩

/-- What is stripped on the left is white space. -/
theorem stripLeft_spec (text : List UInt8) (offset length : Nat) :
    stripLeft text offset length ≤ length ∧ ∃ ws, (∀ b ∈ ws, isSpace b) ∧
      slice text offset length = slice text offset (stripLeft text offset length) ++ ws := by
  induction length with
  | zero => exact ⟨le_rfl, [], by simp, by simp [stripLeft]⟩
  | succ n ih =>
    unfold stripLeft
    split
    · rename_i hsp
      obtain ⟨hle, ws, hws, he⟩ := ih
      obtain ⟨b, hb, hspb⟩ := isSpace_of_spaceAt hsp
      refine ⟨by omega, ws ++ [b], ?_, ?_⟩
      · rw [forall_mem_append]
        exact ⟨hws, by simpa using hspb⟩
      · rw [slice_split text offset (show n ≤ n + 1 by omega), he, Nat.add_sub_cancel_left,
          slice_one hb, append_assoc]
    · exact ⟨le_rfl, [], by simp, by simp⟩

/-- What is stripped on the right is white space. -/
theorem stripRight_spec (text : List UInt8) (offset length : Nat) :
    ∃ o n, stripRight text offset length = (o, n) ∧ offset ≤ o ∧ o + n = offset + length ∧
      ∃ ws, (∀ b ∈ ws, isSpace b) ∧ slice text offset length = ws ++ slice text o n := by
  induction length generalizing offset with
  | zero => exact ⟨offset, 0, rfl, le_rfl, rfl, [], by simp, by simp⟩
  | succ n ih =>
    unfold stripRight
    split
    · rename_i hsp
      obtain ⟨o, m, hstrip, hle, hsum, ws, hws, he⟩ := ih (offset + 1)
      obtain ⟨b, hb, hspb⟩ := isSpace_of_spaceAt hsp
      refine ⟨o, m, hstrip, by omega, by omega, b :: ws, ?_, ?_⟩
      · rw [forall_mem_cons]
        exact ⟨hspb, hws⟩
      · rw [slice_split text offset (show 1 ≤ n + 1 by omega), slice_one hb, Nat.add_sub_cancel, he]
        rfl
    · exact ⟨offset, n + 1, rfl, le_rfl, rfl, [], by simp, by simp⟩

variable {pat : List UInt8} {base length n o it : Nat} {a b : List Fragment} {f : Fragment}

theorem prefix_view_iff {e k : Nat} (hne : pat ≠ []) (he : e ≤ text.length) :
    pat <+: (text.take e).drop k ↔ k + pat.length ≤ e ∧ slice text k pat.length = pat := by
  have hpos := length_pos_iff.mpr hne
  rw [drop_take, slice]
  constructor
  · intro h
    have hle := h.length_le
    rw [length_take, length_drop] at hle
    refine ⟨by omega, ?_⟩
    have := prefix_iff_eq_take.mp h
    rw [take_take, Nat.min_eq_left (by omega)] at this
    exact this.symm
  · rintro ⟨hle, h⟩
    have hp : (text.drop k).take pat.length <+: (text.drop k).take (e - k) :=
      take_prefix_take_left (by omega)
    rwa [h] at hp

/-- The first occurrence within a part of the text. -/
theorem findFrom_some {m : Nat} (hne : pat ≠ []) (hle : base + length ≤ text.length)
    (h : findFrom (text.take (base + length)) pat base = some m) :
    base ≤ m ∧ m + pat.length ≤ base + length ∧ slice text m pat.length = pat ∧
      ∀ k, base ≤ k → k + pat.length ≤ base + length → slice text k pat.length = pat → m ≤ k := by
  rw [findFrom, find?_range'_eq_some, isPrefixOf_iff_prefix, prefix_view_iff hne hle,
    mem_range'_1] at h
  obtain ⟨⟨hend, hm⟩, ⟨hbase, -⟩, hfirst⟩ := h
  refine ⟨hbase, hend, hm, fun k hk hke hks => ?_⟩
  by_contra hlt
  have := hfirst k hk (by omega)
  rw [Bool.not_eq_true', ← Bool.not_eq_true, isPrefixOf_iff_prefix, prefix_view_iff hne hle] at this
  exact this ⟨hke, hks⟩

theorem findFrom_none (hne : pat ≠ []) (hle : base + length ≤ text.length)
    (h : findFrom (text.take (base + length)) pat base = none) (k : Nat) (hk : base ≤ k)
    (hke : k + pat.length ≤ base + length) : slice text k pat.length ≠ pat := by
  rw [findFrom, find?_eq_none] at h
  intro hks
  have hlen : (text.take (base + length)).length = base + length := by
    rw [length_take]
    omega
  refine h k (mem_range'_1.mpr (by omega)) ?_
  rw [ isPrefixOf_iff_prefix, prefix_view_iff hne hle]
  exact ⟨hke, hks⟩

/-- An occurrence within a part is at a position. -/
theorem position_of_infix (h : o + n ≤ text.length) (hp : pat <:+: slice text o n) :
    ∃ k, o ≤ k ∧ k + pat.length ≤ o + n ∧ slice text k pat.length = pat := by
  obtain ⟨a, b, he⟩ := hp
  have hlen := congrArg List.length he
  rw [slice_length h, length_append, length_append] at hlen
  refine ⟨o + a.length, by omega, by omega, ?_⟩
  have hsp := slice_split text o (show a.length ≤ n by omega)
  rw [slice_split text (o + a.length) (show pat.length ≤ n - a.length by omega), ← he,
    append_assoc] at hsp
  have hal : (slice text o a.length).length = a.length := slice_length (by omega)
  obtain ⟨-, hrest⟩ := append_inj hsp hal.symm
  have hpl : (slice text (o + a.length) pat.length).length = pat.length := slice_length (by omega)
  exact (append_inj hrest hpl.symm).1.symm

theorem emplaceAfter_append (h : a.length = it + 1) (f : Fragment) :
    emplaceAfter (a ++ b) it f = a ++ f :: b := by
  rw [emplaceAfter, ← h, take_left, drop_left]

/-- A part as fragments: none when it is empty. -/
def rawOf (offset length : Nat) : List Fragment :=
  if length > 0 then [.raw offset length] else []

theorem emplaceRaw_append {offset : Nat} (h : a.length = it + 1)
    (hle : offset + length ≤ text.length) :
    emplaceRaw text (a ++ b) it offset length =
      some (a ++ rawOf offset length ++ b, it + (rawOf offset length).length) := by
  unfold emplaceRaw rawOf
  split
  · have hmk : Fragment.mkRaw text offset length = some (.raw offset length) :=
      if_pos ⟨by omega, hle⟩
    rw [hmk]
    simp [emplaceAfter_append h]
  · simp

theorem covers_raw (offset length : Nat) :
    Covers vocab special text [.raw offset length] (slice text offset length) := by
  have h : Covers vocab special text [.raw offset length] (slice text offset length ++ []) :=
    .raw .nil
  rwa [append_nil] at h

theorem covers_rawOf (offset length : Nat) :
    Covers vocab special text (rawOf offset length) (slice text offset length) := by
  unfold rawOf
  split
  · exact covers_raw offset length
  · obtain rfl : length = 0 := by omega
    exact .nil

/-- The fragment, when it is raw, is a part of another part of the text, without a pattern. -/
def Within (text : List UInt8) (base length : Nat) (pat : List UInt8) (f : Fragment) : Prop :=
  ∀ o n, f = .raw o n → 1 ≤ n ∧ base ≤ o ∧ o + n ≤ base + length ∧ ¬ pat <:+: slice text o n

theorem within_token (id : Nat) : Within text base length pat (.token id) := nofun

theorem within_rawOf (h1 : base ≤ o) (h2 : o + n ≤ base + length)
    (hno : ¬ pat <:+: slice text o n) :
    ∀ f ∈ rawOf o n, Within text base length pat f := by
  unfold rawOf
  split
  · intro f hf o' n' he
    rw [mem_singleton.mp hf] at he
    cases he
    exact ⟨by omega, h1, h2, hno⟩
  · simp

theorem Within.mono {base' length' : Nat} (h : Within text base' length' pat f) (h1 : base ≤ base')
    (h2 : base' + length' ≤ base + length) : Within text base length pat f := by
  intro o n he
  obtain ⟨hn, ho, hon, hno⟩ := h o n he
  exact ⟨hn, by omega, by omega, hno⟩

/-- The left remainder: what it leaves out is white space. -/
theorem emplaceLeft_append {found : Nat} (data : TokenData S) (h : a.length = it + 1)
    (hle : base ≤ found) (hend : found ≤ text.length) :
    ∃ n ws, emplaceLeft text data (a ++ b) it base found =
        some (a ++ rawOf base n ++ b, it + (rawOf base n).length) ∧
      n ≤ found - base ∧ (∀ b ∈ ws, isSpace b) ∧ (ws ≠ [] → data.attr.lstrip) ∧
      slice text base (found - base) = slice text base n ++ ws := by
  unfold emplaceLeft
  split
  · split
    · rename_i hl
      obtain ⟨hn, ws, hws, he⟩ := stripLeft_spec text base (found - base)
      exact ⟨_, ws, emplaceRaw_append h (by omega), hn, hws, fun _ => hl, he⟩
    · exact ⟨found - base, [], emplaceRaw_append h (by omega), le_rfl, by simp, by simp, by simp⟩
  · have : found - base = 0 := by omega
    exact ⟨0, [], by simp [rawOf], by omega, by simp, by simp, by simp [this]⟩

/-- The right remainder: what it leaves out is white space. -/
theorem rightRemainder_spec (text : List UInt8) (data : TokenData S) (base length : Nat) :
    ∃ o n ws, rightRemainder text data base length = (o, n) ∧ base ≤ o ∧ o + n = base + length ∧
      (∀ b ∈ ws, isSpace b) ∧ (ws ≠ [] → data.attr.rstrip) ∧
      slice text base length = ws ++ slice text o n := by
  unfold rightRemainder
  split
  · rename_i hr
    obtain ⟨o, n, he, hle, hsum, ws, hws, hs⟩ := stripRight_spec text base length
    exact ⟨o, n, ws, he, hle, hsum, hws, fun _ => hr, hs⟩
  · exact ⟨base, length, [], rfl, le_rfl, rfl, by simp, by simp, by simp⟩

theorem eraseIdx_middle (pre mid post : List Fragment) (x : Fragment) :
    (pre ++ [x] ++ mid ++ post).eraseIdx pre.length = pre ++ mid ++ post := by
  rw [append_assoc, append_assoc, eraseIdx_append_of_length_le le_rfl]
  simp

theorem splitFragment_empty (hne : data.text ≠ []) {turns : Nat} {buffer : List Fragment}
    (hle : base ≤ text.length) :
    splitFragment text id data (turns + 1) buffer it base 0 = some (buffer, it) := by
  have hpos := length_pos_iff.mpr hne
  rw [splitFragment]
  cases h : findFrom (text.take (base + 0)) data.text base with
  | none => rfl
  | some m =>
    have := findFrom_some hne (by omega) h
    omega

/-- The token between what is left of it and what follows, with the white space it strips. -/
theorem Covers.around_token (hid : id ∈ special) (hdata : vocab[id]? = some data)
    {ws ws' : List UInt8} {rest : List Fragment} (hws : ∀ b ∈ ws, isSpace b)
    (hwl : ws ≠ [] → data.attr.lstrip) (hws' : ∀ b ∈ ws', isSpace b)
    (hwr : ws' ≠ [] → data.attr.rstrip) (hrest : Covers vocab special text rest t) :
    Covers vocab special text (rawOf base n ++ [.token id] ++ rest)
      (slice text base n ++ (ws ++ data.text ++ (ws' ++ t))) := by
  rw [append_assoc, ← append_assoc (ws ++ data.text)]
  exact (covers_rawOf base n).append (.token hid hdata hws hwl hws' hwr hrest)

/-- What stands in front of the first match is emplaced behind the fragment, and then the token.
The token is not in it, so no raw fragment contains it if none of the rest does. -/
theorem emplaceLeft_token (hne : data.text ≠ []) (pre post : List Fragment) {length m : Nat}
    (id : Nat) (hle : base + length ≤ text.length)
    (hfind : findFrom (text.take (base + length)) data.text base = some m) :
    ∃ n ws, emplaceLeft text data (pre ++ [.raw base length] ++ post) pre.length base m =
        some (pre ++ [.raw base length] ++ rawOf base n ++ post,
          pre.length + (rawOf base n).length) ∧
      emplaceAfter (pre ++ [.raw base length] ++ rawOf base n ++ post)
        (pre.length + (rawOf base n).length) (.token id) =
          pre ++ [.raw base length] ++ (rawOf base n ++ [.token id]) ++ post ∧
      (∀ b ∈ ws, isSpace b) ∧ (ws ≠ [] → data.attr.lstrip) ∧
      slice text base length = slice text base n ++ (ws ++ data.text ++
        slice text (m + data.text.length) (length - ((m - base) + data.text.length))) ∧
      ∀ rest, (∀ f ∈ rest, Within text base length data.text f) →
        ∀ f ∈ rawOf base n ++ [.token id] ++ rest, Within text base length data.text f := by
  have hpos := length_pos_iff.mpr hne
  obtain ⟨hbm, hme, hms, hfirst⟩ := findFrom_some hne hle hfind
  have ha : (pre ++ [Fragment.raw base length]).length = pre.length + 1 := by simp
  obtain ⟨n, ws, hleft, hnle, hws, hwl, hsl⟩ :=
    @emplaceLeft_append S text base _ _ post m data ha hbm (by omega)
  have ha1 : (pre ++ [Fragment.raw base length] ++ rawOf base n).length =
      pre.length + (rawOf base n).length + 1 := by
    simp only [length_append, length_singleton]
    omega
  have hcleft : ¬ data.text <:+: slice text base n := by
    intro hin
    obtain ⟨k, hk, hke, hks⟩ := position_of_infix (by omega) hin
    have := hfirst k hk (by omega) hks
    omega
  refine ⟨n, ws, hleft, ?_, hws, hwl, ?_, fun rest hrest => ?_⟩
  · rw [emplaceAfter_append ha1]
    simp
  · rw [slice_around hbm hme hms, hsl, append_assoc, append_assoc]
  · rw [forall_mem_append, forall_mem_append]
    exact ⟨⟨within_rawOf le_rfl (by omega) hcleft, by simpa using within_token id⟩, hrest⟩

/-- What the loop makes of a raw fragment: fragments that cover it, of which no raw one
contains the token. The iterator ends at the last one. -/
theorem splitFragment_spec (hid : id ∈ special) (hdata : vocab[id]? = some data)
    (hne : data.text ≠ []) (turns : Nat) : ∀ (base length : Nat) (pre post : List Fragment),
    length < turns → 1 ≤ length → base + length ≤ text.length →
    ∃ mid last, splitFragment text id data turns (pre ++ [.raw base length] ++ post) pre.length
        base length = some (pre ++ (mid ++ [last]) ++ post, pre.length + mid.length) ∧
      Covers vocab special text (mid ++ [last]) (slice text base length) ∧
      ∀ f ∈ mid ++ [last], Within text base length data.text f := by
  have hpos := length_pos_iff.mpr hne
  induction turns with
  | zero => exact fun _ _ _ _ h => absurd h (Nat.not_lt_zero _)
  | succ turns ih =>
    intro base length pre post hturns hlen hle
    rw [splitFragment]
    cases hfind : findFrom (text.take (base + length)) data.text base with
    | none =>
      refine ⟨[], .raw base length, by simp, covers_raw base length, ?_⟩
      intro f hf o n he
      rw [nil_append, mem_singleton] at hf
      subst hf
      cases he
      refine ⟨hlen, le_rfl, le_rfl, fun hin => ?_⟩
      obtain ⟨k, hk, hke, hks⟩ := position_of_infix hle hin
      exact findFrom_none hne hle hfind k hk hke hks
    | some m =>
      obtain ⟨hbm, hme, hms, -⟩ := findFrom_some hne hle hfind
      obtain ⟨n, ws, hleft, hbuf, hws, hwl, hparts, hwtoken⟩ :=
        emplaceLeft_token hne pre post id hle hfind
      have ha2 : (pre ++ [Fragment.raw base length] ++
          (rawOf base n ++ [Fragment.token id])).length =
          pre.length + (rawOf base n).length + 1 + 1 := by
        simp only [length_append, length_singleton]
        omega
      simp only [hleft, bind_eq_bind, bind_some, hbuf]
      split
      · rename_i hmore
        obtain ⟨o, k, ws', hrest, ho, hok, hws', hwr, hsr⟩ := rightRemainder_spec text data
          (m + data.text.length) (length - ((m - base) + data.text.length))
        simp only [hrest]
        rw [emplaceRaw_append ha2 (by omega), bind_some, hparts, hsr]
        have herase : (pre ++ [Fragment.raw base length] ++
            (rawOf base n ++ [Fragment.token id]) ++ rawOf o k ++ post).eraseIdx pre.length =
            pre ++ (rawOf base n ++ [.token id]) ++ rawOf o k ++ post := by
          have := eraseIdx_middle pre (rawOf base n ++ [.token id] ++ rawOf o k) post
            (.raw base length)
          simpa using this
        simp only [herase]
        cases k with
        | zero =>
          -- nothing but white space is left to search
          obtain ⟨turns, rfl⟩ := Nat.exists_eq_succ_of_ne_zero (show turns ≠ 0 by omega)
          rw [Nat.succ_eq_add_one, splitFragment_empty hne (by omega)]
          refine ⟨rawOf base n, .token id, by simp [rawOf], ?_, ?_⟩
          · have hnil : slice text o 0 = [] := by simp [slice]
            have hcov : Covers vocab special text (rawOf base n ++ [.token id] ++ []) _ :=
              .around_token hid hdata hws hwl hws' hwr .nil
            simpa [hnil] using hcov
          · simpa using hwtoken [] (by simp)
        | succ k =>
          have hlen' : (pre ++ (rawOf base n ++ [Fragment.token id])).length =
              pre.length + (rawOf base n).length + 1 + (rawOf o (k + 1)).length - 1 := by
            simp [rawOf]
            omega
          obtain ⟨mid, last, hrun, hcov, hwith⟩ := ih o (k + 1)
            (pre ++ (rawOf base n ++ [.token id])) post (by omega) (by omega) (by omega)
          have hraw : rawOf o (k + 1) = [Fragment.raw o (k + 1)] := by simp [rawOf]
          rw [← hlen', hraw, hrun]
          refine ⟨rawOf base n ++ [.token id] ++ mid, last, ?_, ?_, ?_⟩
          · simp
            omega
          · have hall : Covers vocab special text (rawOf base n ++ [.token id] ++ _) _ :=
              .around_token hid hdata hws hwl hws' hwr hcov
            simpa using hall
          · have := hwtoken _ fun f hf => (hwith f hf).mono (show base ≤ o by omega)
              (show o + (k + 1) ≤ base + length by omega)
            simpa using this
      · rename_i hend
        have hzero : length - ((m - base) + data.text.length) = 0 := by omega
        refine ⟨rawOf base n, .token id, ?_, ?_, ?_⟩
        · rw [eraseIdx_middle, Nat.add_sub_cancel]
        · rw [hparts, hzero]
          have hcov : Covers vocab special text (rawOf base n ++ [.token id] ++ []) _ :=
            .around_token hid hdata hws hwl (forall_mem_nil _) (absurd rfl) .nil
          simpa [slice] using hcov
        · simpa using hwtoken [] (by simp)

/-- Every raw fragment is a non-empty part of the text. -/
def Inside (text : List UInt8) (fs : List Fragment) : Prop :=
  ∀ o n, .raw o n ∈ fs → 1 ≤ n ∧ o + n ≤ text.length

/-- No raw fragment contains the pattern. -/
def Free (text pat : List UInt8) (fs : List Fragment) : Prop :=
  ∀ o n, .raw o n ∈ fs → ¬ pat <:+: slice text o n

/-- Other fragments that cover the same bytes with smaller parts. -/
structure Divides (vocab : List (TokenData S)) (special : List Nat) (text : List UInt8)
    (fs gs : List Fragment) : Prop where
  covers : ∀ s, Covers vocab special text fs s → Covers vocab special text gs s
  inside : Inside text fs → Inside text gs
  free : ∀ pat, Free text pat fs → Free text pat gs

theorem Covers.tail (h : Covers vocab special text (f :: fs) s) :
    ∃ a b, s = a ++ b ∧ Covers vocab special text fs b ∧
      ∀ gs b', Covers vocab special text gs b' → Covers vocab special text (f :: gs) (a ++ b') := by
  cases h with
  | raw h => exact ⟨_, _, rfl, h, fun _ _ h' => .raw h'⟩
  | token hid hdata hb hl ha hr h =>
    exact ⟨_, _, rfl, h, fun _ _ h' => .token hid hdata hb hl ha hr h'⟩

theorem Divides.cons (h : Divides vocab special text fs gs) (id : Nat) :
    Divides vocab special text (.token id :: fs) (.token id :: gs) := by
  refine ⟨fun s hs => ?_, fun hin o n hm => ?_, fun pat hf o n hm => ?_⟩
  · obtain ⟨a, b, rfl, hb, hcons⟩ := hs.tail
    exact hcons gs b (h.covers b hb)
  · refine h.inside (fun o n hm => hin o n (mem_cons_of_mem _ hm)) o n ?_
    simpa using hm
  · refine h.free pat (fun o n hm => hf o n (mem_cons_of_mem _ hm)) o n ?_
    simpa using hm

/-- A raw fragment becomes what covers it. -/
theorem Divides.replace {mid : List Fragment} (h : Divides vocab special text fs gs)
    (hcov : Covers vocab special text mid (slice text base length))
    (hwith : ∀ f ∈ mid, Within text base length pat f) :
    Divides vocab special text (.raw base length :: fs) (mid ++ gs) := by
  refine ⟨fun s hs => ?_, fun hin o n hm => ?_, fun pat hf o n hm => ?_⟩
  · cases hs with
    | raw hs => exact hcov.append (h.covers _ hs)
  · rcases mem_append.mp hm with hm | hm
    · obtain ⟨hn, -, hon, -⟩ := hwith _ hm o n rfl
      have := (hin base length (mem_cons_self ..)).2
      exact ⟨hn, by omega⟩
    · exact h.inside (fun o n hm => hin o n (mem_cons_of_mem _ hm)) o n hm
  · rcases mem_append.mp hm with hm | hm
    · obtain ⟨-, ho, hon, -⟩ := hwith _ hm o n rfl
      exact fun hp => hf base length (mem_cons_self ..) (hp.trans (slice_isInfix ho hon))
    · exact h.free pat (fun o n hm => hf o n (mem_cons_of_mem _ hm)) o n hm

/-- One special token: the loop divides the fragments behind the iterator and leaves none that
contains the token. -/
theorem scanFragments_spec (hid : id ∈ special) (hdata : vocab[id]? = some data)
    (hne : data.text ≠ []) (turns : Nat) : ∀ (done todo : List Fragment),
    todo.length ≤ turns → Inside text todo →
    ∃ out, scanFragments text id data turns (done ++ todo) done.length = some (done ++ out) ∧
      Divides vocab special text todo out ∧ Free text data.text out := by
  induction turns with
  | zero =>
    intro done todo hturns _
    obtain rfl : todo = [] := length_eq_zero_iff.mp (by omega)
    exact ⟨[], by simp [scanFragments], ⟨fun _ h => h, fun h => h, fun _ h => h⟩, nofun⟩
  | succ turns ih =>
    intro done todo hturns hin
    rw [scanFragments]
    cases todo with
    | nil =>
      exact ⟨[], by simp, ⟨fun _ h => h, fun h => h, fun _ h => h⟩, nofun⟩
    | cons f todo =>
      have hget : (done ++ f :: todo)[done.length]? = some f := by simp
      have hin' : Inside text todo := fun o n hm => hin o n (mem_cons_of_mem _ hm)
      have hlen : todo.length ≤ turns := by simpa using hturns
      rw [hget]
      cases f with
      | token id' =>
        obtain ⟨out, hrun, hdiv, hfree⟩ := ih (done ++ [.token id']) todo hlen hin'
        refine ⟨.token id' :: out, by simpa using hrun, hdiv.cons id', fun o n hm => ?_⟩
        exact hfree o n (by simpa using hm)
      | raw base length =>
        obtain ⟨hl1, hl2⟩ := hin base length (mem_cons_self ..)
        obtain ⟨mid, last, hsplit, hcov, hwith⟩ := splitFragment_spec hid hdata hne (length + 1)
          base length done todo (Nat.lt_succ_self _) hl1 hl2
        obtain ⟨out, hrun, hdiv, hfree⟩ := ih (done ++ (mid ++ [last])) todo hlen hin'
        refine ⟨mid ++ [last] ++ out, ?_, hdiv.replace hcov hwith, fun o n hm => ?_⟩
        · have hcons : done ++ .raw base length :: todo = done ++ [.raw base length] ++ todo := by
            simp
          simp only [hcons, hsplit, bind_eq_bind, bind_some]
          have hit : done.length + mid.length + 1 = (done ++ (mid ++ [last])).length := by
            simp [Nat.add_assoc]
          rw [hit, hrun]
          simp
        · rcases mem_append.mp hm with hm | hm
          · exact (hwith _ hm o n rfl).2.2.2
          · exact hfree o n hm

theorem Divides.trans {hs : List Fragment} (h : Divides vocab special text fs gs)
    (h' : Divides vocab special text gs hs) : Divides vocab special text fs hs :=
  ⟨fun s hc => h'.covers s (h.covers s hc), fun hi => h'.inside (h.inside hi),
    fun pat hf => h'.free pat (h.free pat hf)⟩

/-- The run over the special tokens: once a token was looked for, no fragment contains it any
more, whatever is divided later. -/
theorem stPartition_spec (parseSpecial : Bool) (todo : List Nat)
    (hspecial : ∀ id ∈ special, ∃ data, vocab[id]? = some data ∧ data.text ≠ [])
    (hsub : ∀ id ∈ todo, id ∈ special) (hin : Inside text fs) :
    ∃ gs, stPartition vocab todo text parseSpecial fs = some gs ∧
      Divides vocab special text fs gs ∧
      ∀ id ∈ todo, ∀ data, vocab[id]? = some data → enabled parseSpecial data →
        Free text data.text gs := by
  induction todo generalizing fs with
  | nil => exact ⟨fs, rfl, ⟨fun _ h => h, fun h => h, fun _ h => h⟩, by simp⟩
  | cons id todo ih =>
    obtain ⟨hid, hsub⟩ := forall_mem_cons.mp hsub
    obtain ⟨data, hdata, hne⟩ := hspecial id hid
    have hstep : ∃ gs, (if enabled parseSpecial data then
        scanFragments text id data fs.length fs 0 else some fs) = some gs ∧
        Divides vocab special text fs gs ∧
        (enabled parseSpecial data → Free text data.text gs) := by
      split
      · obtain ⟨out, hrun, hdiv, hfree⟩ :=
          scanFragments_spec hid hdata hne fs.length [] fs le_rfl hin
        exact ⟨out, hrun, hdiv, fun _ => hfree⟩
      · rename_i hoff
        exact ⟨fs, rfl, ⟨fun _ h => h, fun h => h, fun _ h => h⟩, fun h => absurd h hoff⟩
    obtain ⟨gs, hgs, hdiv, hfree⟩ := hstep
    obtain ⟨hs, hrun, hdiv', hfree'⟩ := ih hsub (hdiv.inside hin)
    refine ⟨hs, ?_, hdiv.trans hdiv', fun id' hid' data' hdata' hen => ?_⟩
    · rw [stPartition, foldlM_cons]
      simp only [hdata, hgs, bind_eq_bind, bind_some]
      exact hrun
    · rcases mem_cons.mp hid' with rfl | hid'
      · rw [hdata] at hdata'
        cases hdata'
        exact hdiv'.free _ (hfree hen)
      · exact hfree' id' hid' data' hdata' hen

/-- The fragments of a text, in order, are the text but for white space that tokens strip, and
exactly the text when no token strips; no raw fragment contains an enabled special token. -/
theorem partitionText_lossless (vocab : List (TokenData S)) (special : List Nat)
    (text : List UInt8) (parseSpecial : Bool)
    (hspecial : ∀ id ∈ special, ∃ data, vocab[id]? = some data ∧ data.text ≠ []) :
    ∃ fs, partitionText vocab special text parseSpecial = some fs ∧
      Covers vocab special text fs text ∧
      ((∀ id ∈ special, ∀ data, vocab[id]? = some data →
          data.attr.lstrip = false ∧ data.attr.rstrip = false) →
        fs.flatMap (Fragment.bytes vocab text) = text) ∧
      ∀ id ∈ special, ∀ data, vocab[id]? = some data → enabled parseSpecial data →
        ∀ o n, .raw o n ∈ fs → ¬ data.text <:+: slice text o n := by
  unfold partitionText
  cases text with
  | nil => exact ⟨[], rfl, .nil, fun _ => rfl, by simp⟩
  | cons b rest =>
    have hmk : Fragment.mkRaw (b :: rest) 0 (b :: rest).length =
        some (.raw 0 (b :: rest).length) := if_pos ⟨by simp, by simp⟩
    have hin : Inside (b :: rest) [.raw 0 (b :: rest).length] := by
      intro o n hm
      cases mem_singleton.mp hm
      exact ⟨by simp, by simp⟩
    have hwhole : Covers vocab special (b :: rest) [.raw 0 (b :: rest).length] (b :: rest) := by
      have h : Covers vocab special (b :: rest) [.raw 0 (b :: rest).length]
          (slice (b :: rest) 0 (b :: rest).length) := covers_raw _ _
      simpa [slice] using h
    obtain ⟨fs, hrun, hdiv, hfree⟩ :=
      stPartition_spec parseSpecial special hspecial (fun _ h => h) hin
    have hcov := hdiv.covers _ hwhole
    refine ⟨fs, ?_, hcov, hcov.spells, hfree⟩
    rw [isEmpty_cons, if_neg (by simp), hmk]
    exact hrun

/-- One control token, `<s>`, that strips white space on its left. -/
def startVocab : List (TokenData Unit) :=
  [{ text := [0x3C, 0x73, 0x3E], score := ()
     attr := { TokenAttr.undefined with control := true, lstrip := true } }]

theorem partitionText_lossless_startVocab :
    ∃ fs, partitionText startVocab [0] [0x61, 0x20, 0x3C, 0x73, 0x3E] true = some fs ∧
      Covers startVocab [0] [0x61, 0x20, 0x3C, 0x73, 0x3E] fs [0x61, 0x20, 0x3C, 0x73, 0x3E] ∧
      ((∀ id ∈ [0], ∀ data, startVocab[id]? = some data →
          data.attr.lstrip = false ∧ data.attr.rstrip = false) →
        fs.flatMap (Fragment.bytes startVocab [0x61, 0x20, 0x3C, 0x73, 0x3E]) =
          [0x61, 0x20, 0x3C, 0x73, 0x3E]) ∧
      ∀ id ∈ [0], ∀ data, startVocab[id]? = some data → enabled true data →
        ∀ o n, .raw o n ∈ fs → ¬ data.text <:+: slice [0x61, 0x20, 0x3C, 0x73, 0x3E] o n :=
  partitionText_lossless startVocab [0] [0x61, 0x20, 0x3C, 0x73, 0x3E] true (by
    intro id hid
    rw [mem_singleton.mp hid]
    exact ⟨_, rfl, by simp⟩)

example : partitionText startVocab [0] [0x61, 0x20, 0x3C, 0x73, 0x3E] true =
    some [.raw 0 1, .token 0] := by decide

end Llama.Vocab
