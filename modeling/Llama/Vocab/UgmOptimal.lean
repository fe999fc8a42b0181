import Llama.Vocab.UgmRelax

/-!
# Unigram tokenization is optimal

The steps of the dynamic program are the pieces of a segmentation: matched tokens, and single
characters that are no token. At the end of the loop no piece does better than the table, and
every entry of the table comes from a piece, so reading the table backwards gives a
segmentation of maximal score. Runs of the unknown id become one token.
-/

namespace Llama.Vocab

open NaiveTrie hiding node
open List
open Peg BestPath

/-- A vocabulary as the loader leaves it, which asserts that no two ids have one text. -/
structure UgmVocab where
  tokens : List (TokenData ℚ)
  distinct : (tokens.map (·.text)).Nodup

/-- A piece of a segmentation. -/
inductive UgmPiece where
  | token (id : Nat)
  | unknown (c : Char)
  deriving DecidableEq

namespace UgmPiece

def bytes (vocab : List (TokenData ℚ)) : UgmPiece → List UInt8
  | token id =>
    match vocab[id]? with
    | some d => d.text
    | none => []
  | unknown c => String.utf8EncodeChar c

def score (vocab : List (TokenData ℚ)) : UgmPiece → ℚ
  | token id => scoreOf vocab id
  | unknown _ => unknownTokenScore vocab

/-- The id that stands for a piece. -/
def id (unk : Nat) : UgmPiece → Nat
  | token id => id
  | unknown _ => unk

/-- A matched token, or a character that is not itself one. -/
def Valid (vocab : List (TokenData ℚ)) : UgmPiece → Prop
  | token id => ∃ d, vocab[id]? = some d ∧ d.attr.matched
  | unknown c => ∀ d ∈ vocab, d.attr.matched → d.text ≠ String.utf8EncodeChar c

end UgmPiece

/-- The pieces spell the text. -/
structure Segmentation (vocab : List (TokenData ℚ)) (text : List UInt8)
    (pieces : List UgmPiece) : Prop where
  valid : ∀ p ∈ pieces, p.Valid vocab
  spells : pieces.flatMap (·.bytes vocab) = text

/-- Runs of the unknown id become one. -/
def mergeUnknown (unk : Nat) : List Nat → List Nat
  | [] => []
  | id :: ids =>
    if id = unk ∧ ids.head? = some unk then mergeUnknown unk ids else id :: mergeUnknown unk ids

/-- The texts of the matched tokens are valid UTF-8 and not empty. -/
def UgmVocab.WellEncoded (v : UgmVocab) : Prop :=
  ∀ d ∈ v.tokens, d.attr.matched → ∃ ds, ds ≠ [] ∧ d.text = encode ds

/-- A piece leads from the offset `i` to the offset `j` of the text. -/
def PieceStep (vocab : List (TokenData ℚ)) (text : List UInt8) (j : Nat) (l : UgmPiece)
    (i : Nat) : Prop :=
  l.Valid vocab ∧ j = i + (l.bytes vocab).length ∧ l.bytes vocab <+: text.drop i

variable {v : UgmVocab} {unk i j k : Nat} {cs : List Char} {text w : List UInt8} {l : UgmPiece}
  {T : List BestTokenization}

/-- A valid piece is a text of characters. -/
theorem UgmPiece.Valid.encoded (hv : v.WellEncoded) (h : l.Valid v.tokens) :
    ∃ ds, ds ≠ [] ∧ l.bytes v.tokens = encode ds := by
  cases l with
  | token id =>
    obtain ⟨d, hd, hm⟩ := h
    simp only [UgmPiece.bytes, hd]
    exact hv d (mem_of_getElem? hd) hm
  | unknown c => exact ⟨[c], by simp, by simp [UgmPiece.bytes]⟩

theorem encode_pos {ds : List Char} (h : ds ≠ []) : 0 < (encode ds).length := by
  cases ds with
  | nil => exact absurd rfl h
  | cons d ds =>
    rw [encode_cons, length_append]
    have := encodeChar_pos d
    omega

theorem PieceStep.lt (hv : v.WellEncoded) (h : PieceStep v.tokens text j l i) :
    i < j ∧ j ≤ text.length := by
  obtain ⟨hl, rfl, hp⟩ := h
  obtain ⟨ds, hne, he⟩ := hl.encoded hv
  have hpos := encode_pos hne
  have hle := hp.length_le
  rw [he, length_drop] at hle
  rw [he]
  omega

variable {ls : List UgmPiece} {id n : Nat} {c : Char} {a b : List Char}

/-- A path of pieces spells the text up to its offset. -/
theorem spells_of_path (h : Path (PieceStep v.tokens text) 0 j ls) :
    (∀ l ∈ ls, l.Valid v.tokens) ∧ ls.reverse.flatMap (·.bytes v.tokens) = text.take j := by
  induction h with
  | nil => simp
  | @cons j i l ls hs _ ih =>
    obtain ⟨hl, rfl, hp⟩ := hs
    refine ⟨forall_mem_cons.mpr ⟨hl, ih.1⟩, ?_⟩
    rw [reverse_cons, flatMap_append, ih.2, take_add, ← prefix_iff_eq_take.mp hp]
    simp

theorem path_length_le (hv : v.WellEncoded) (h : Path (PieceStep v.tokens text) 0 j ls) :
    ls.length ≤ j := by
  induction h with
  | nil => simp
  | cons hs _ ih =>
    have := (hs.lt hv).1
    rw [length_cons]
    omega

/-- Pieces that spell a front of the text are a path. -/
theorem path_of_spells (ps : List UgmPiece) (h : ∀ p ∈ ps, p.Valid v.tokens)
    (hp : ps.flatMap (·.bytes v.tokens) <+: text) :
    Path (PieceStep v.tokens text) 0 (ps.flatMap (·.bytes v.tokens)).length ps.reverse := by
  induction ps using List.reverseRecOn with
  | nil => exact .nil
  | append_singleton ps p ih =>
    rw [flatMap_append] at hp ⊢
    rw [reverse_append, length_append]
    have hps := ih (fun q hq => h q (by simp [hq])) ((prefix_append _ _).trans hp)
    refine .cons ⟨h p (by simp), by simp, ?_⟩ hps
    obtain ⟨t, rfl⟩ := hp
    rw [append_assoc, drop_left]
    simp

theorem mem_ugmEntries {vocab : List (TokenData ℚ)} :
    (w, id) ∈ ugmEntries vocab ↔ ∃ d, vocab[id]? = some d ∧ d.attr.matched ∧ d.text = w := by
  simp only [ugmEntries, mem_map, mem_filter, Prod.mk.injEq, Prod.exists]
  constructor
  · rintro ⟨d, n, ⟨hm, ha⟩, rfl, rfl⟩
    exact ⟨d, mk_mem_zipIdx_iff_getElem?.mp hm, ha, rfl⟩
  · rintro ⟨d, hd, ha, rfl⟩
    exact ⟨d, id, ⟨mk_mem_zipIdx_iff_getElem?.mpr hd, ha⟩, rfl, rfl⟩

/-- The matcher finds a token by its text. -/
theorem tokenMatcher_lookup : (tokenMatcher v.tokens).lookup w = some id ↔
    ∃ d, v.tokens[id]? = some d ∧ d.attr.matched ∧ d.text = w := by
  constructor
  · exact fun h => mem_ugmEntries.mp (mem_of_lookup h)
  · rintro ⟨d, hd, hm, ht⟩
    have hsome : ((ofEntries (ugmEntries v.tokens)).lookup w).isSome :=
      lookup_isSome.mpr ⟨_, mem_ugmEntries.mpr ⟨d, hd, hm, ht⟩, rfl⟩
    obtain ⟨id', hid'⟩ := Option.isSome_iff_exists.mp hsome
    obtain ⟨d', hd', -, ht'⟩ := mem_ugmEntries.mp (mem_of_lookup hid')
    -- no two ids have the same text
    have hlt : id < (v.tokens.map (·.text)).length := by
      simpa using (List.getElem?_eq_some_iff.mp hd).1
    have : id = id' := (getElem?_inj hlt v.distinct).mp (by simp [hd, hd', ht, ht'])
    rw [tokenMatcher, hid', this]

/-- The tokens that the text goes on with at an offset. -/
def tokenEnds (vocab : List (TokenData ℚ)) (text : List UInt8) (i : Nat) : List (Nat × Nat) :=
  match text.drop i with
  | [] => []
  | b :: rest =>
    match (tokenMatcher vocab).traverse b with
    | none => []
    | some node => walkEnds node rest (i + 1)

theorem mem_tokenEnds {p : Nat} : (p, id) ∈ tokenEnds v.tokens text i ↔
    ∃ m, 0 < m ∧ m ≤ (text.drop i).length ∧ p = i + m ∧
      (tokenMatcher v.tokens).lookup ((text.drop i).take m) = some id := by
  unfold tokenEnds
  cases text.drop i with
  | nil =>
    simp only [not_mem_nil, length_nil, false_iff]
    rintro ⟨m, h0, h1, -⟩
    omega
  | cons b rest =>
    simp only
    have hshift : (∃ m, 0 < m ∧ m ≤ (b :: rest).length ∧ p = i + m ∧
        (tokenMatcher v.tokens).lookup ((b :: rest).take m) = some id) ↔
        ∃ m ≤ rest.length, p = i + 1 + m ∧
          (tokenMatcher v.tokens).lookup (b :: rest.take m) = some id := by
      constructor
      · rintro ⟨m, h0, hm, rfl, hl⟩
        obtain ⟨m, rfl⟩ := Nat.exists_eq_succ_of_ne_zero h0.ne'
        exact ⟨m, by simpa using hm, by omega, hl⟩
      · rintro ⟨m, hm, rfl, hl⟩
        exact ⟨m + 1, by omega, by simpa using hm, by omega, hl⟩
    rw [hshift]
    cases ht : (tokenMatcher v.tokens).traverse b with
    | none => simp [lookup_cons, ht]
    | some node =>
      simp only [lookup_cons, ht, Option.bind_some]
      exact mem_walkEnds node rest (i + 1) p id

/-- All challengers of an offset, in the order of the code. -/
def challengers (vocab : List (TokenData ℚ)) (unk : Nat) (text : List UInt8) (i : Nat) :
    List Challenger :=
  (tokenEnds vocab text i).map (fun e => (e.1, e.2, scoreOf vocab e.2)) ++
    if (tokenEnds vocab text i).any (fun e => e.1 - i == unitsAt text i) then []
    else [(i + unitsAt text i, unk, unknownTokenScore vocab)]

theorem ugmStep_eq (vocab : List (TokenData ℚ)) (h : text.drop i ≠ []) :
    ugmStep vocab unk text i T = relaxAll i (challengers vocab unk text i) T := by
  unfold ugmStep challengers tokenEnds
  cases hd : text.drop i with
  | nil => exact absurd hd h
  | cons b rest =>
    rcases Option.eq_none_or_eq_some ((tokenMatcher vocab).traverse b) with ht | ⟨node, ht⟩
    · simp [ht, relaxAll]
    · simp only [ht, walkTokens_eq, Bool.false_or]
      split <;> simp [relaxAll]

/-- The text goes on with a character at the offset `i`. -/
def CharAt (text : List UInt8) (i : Nat) (c : Char) : Prop :=
  String.utf8EncodeChar c <+: text.drop i

theorem CharAt.units (h : CharAt text i c) : unitsAt text i = (String.utf8EncodeChar c).length := by
  obtain ⟨t, ht⟩ := h
  obtain ⟨b, r, hb, hlen⟩ := lenUtf8_encodeChar c
  have hle := congrArg List.length ht
  rw [length_append, length_drop] at hle
  rw [hb, cons_append] at ht
  rw [unitsAt, ← ht]
  simp only
  rw [hlen]
  omega

/-- The challengers of an offset between characters are its pieces. -/
theorem mem_challengers (hv : v.WellEncoded) (hc : CharAt text i c) {q : Challenger} :
    q ∈ challengers v.tokens unk text i ↔
      ∃ l, PieceStep v.tokens text q.1 l i ∧ q.2.1 = l.id unk ∧ q.2.2 = l.score v.tokens := by
  obtain ⟨p, id, s⟩ := q
  have hfound : (tokenEnds v.tokens text i).any (fun e => e.1 - i == unitsAt text i) = true ↔
      ∃ d ∈ v.tokens, d.attr.matched ∧ d.text = String.utf8EncodeChar c := by
    rw [any_eq_true]
    constructor
    · rintro ⟨⟨p, id⟩, hm, hu⟩
      obtain ⟨m, h0, hm, rfl, hl⟩ := mem_tokenEnds.mp hm
      obtain ⟨d, hd, hmat, ht⟩ := tokenMatcher_lookup.mp hl
      have hmu : m = (String.utf8EncodeChar c).length := by
        rw [← hc.units]
        simpa using hu
      refine ⟨d, mem_of_getElem? hd, hmat, ?_⟩
      rw [ht, hmu, ← prefix_iff_eq_take.mp hc]
    · rintro ⟨d, hd, hmat, ht⟩
      obtain ⟨id, hid⟩ := mem_iff_getElem?.mp hd
      refine ⟨(i + (String.utf8EncodeChar c).length, id), mem_tokenEnds.mpr
        ⟨_, encodeChar_pos c, hc.length_le, rfl, ?_⟩, by simp [hc.units]⟩
      rw [← prefix_iff_eq_take.mp hc]
      exact tokenMatcher_lookup.mpr ⟨d, hid, hmat, ht⟩
  rw [challengers, mem_append, mem_map]
  constructor
  · rintro (⟨⟨p', id'⟩, hm, he⟩ | hm)
    · simp only [Prod.mk.injEq] at he
      obtain ⟨rfl, rfl, rfl⟩ := he
      obtain ⟨m, -, hle, rfl, hl⟩ := mem_tokenEnds.mp hm
      obtain ⟨d, hd, hmat, ht⟩ := tokenMatcher_lookup.mp hl
      have hb : (UgmPiece.token id').bytes v.tokens = (text.drop i).take m := by
        simp only [UgmPiece.bytes, hd, ht]
      refine ⟨.token id', ⟨⟨d, hd, hmat⟩, ?_, ?_⟩, rfl, rfl⟩
      · rw [hb, length_take, Nat.min_eq_left hle]
      · rw [hb]
        exact take_prefix _ _
    · -- the unknown token, where no token covers the character
      split at hm
      · cases hm
      · rename_i hno
        rw [hfound] at hno
        simp only [mem_singleton, Prod.mk.injEq] at hm
        obtain ⟨rfl, rfl, rfl⟩ := hm
        refine ⟨.unknown c, ⟨fun d hd hmat ht => hno ⟨d, hd, hmat, ht⟩, ?_, hc⟩, rfl, rfl⟩
        simp only [UgmPiece.bytes, hc.units]
  · rintro ⟨l, ⟨hl, hp, hpre⟩, hid, hs⟩
    simp only at hp hid hs
    subst hp hid hs
    cases l with
    | token id =>
      obtain ⟨d, hd, hmat⟩ := hl
      have hb : (UgmPiece.token id).bytes v.tokens = d.text := by simp only [UgmPiece.bytes, hd]
      rw [hb] at hpre ⊢
      obtain ⟨ds, hne, he⟩ := hv d (mem_of_getElem? hd) hmat
      refine .inl ⟨(i + d.text.length, id), mem_tokenEnds.mpr
        ⟨_, he ▸ encode_pos hne, hpre.length_le, rfl, ?_⟩, rfl⟩
      rw [← prefix_iff_eq_take.mp hpre]
      exact tokenMatcher_lookup.mpr ⟨d, hd, hmat, rfl⟩
    | unknown c' =>
      obtain ⟨t, ht⟩ := hc
      obtain ⟨t', ht'⟩ := hpre
      obtain rfl : c' = c := encodeChar_unique (ht'.trans ht.symm)
      right
      rw [if_neg (fun h => by
        obtain ⟨d, hd, hmat, htx⟩ := hfound.mp h
        exact hl d hd hmat htx)]
      simp only [UgmPiece.bytes, UgmPiece.id, UgmPiece.score, CharAt.units ⟨t, ht⟩, mem_singleton]

/-- The offset is between two characters of the text. -/
def CharBoundary (cs : List Char) (j : Nat) : Prop := ∃ a b, cs = a ++ b ∧ j = (encode a).length

theorem encode_length_le (h : a <+: b) : (encode a).length ≤ (encode b).length := by
  obtain ⟨t, rfl⟩ := h
  simp

/-- A piece leads from a boundary to a boundary. -/
theorem CharBoundary.step (hv : v.WellEncoded) (hi : CharBoundary cs i)
    (h : PieceStep v.tokens (encode cs) j l i) : CharBoundary cs j := by
  obtain ⟨a, b, rfl, rfl⟩ := hi
  obtain ⟨hl, rfl, hp⟩ := h
  obtain ⟨ds, -, he⟩ := hl.encoded hv
  rw [he, encode_append, drop_left] at hp
  obtain ⟨r, rfl⟩ := prefix_of_encode_prefix hp
  exact ⟨a ++ ds, r, by simp, by simp [he]⟩

/-- Inside a character there is no boundary. -/
theorem CharBoundary.skip (h : CharBoundary (a ++ c :: b) j) (hj : (encode a).length < j) :
    (encode a).length + (String.utf8EncodeChar c).length ≤ j := by
  obtain ⟨a', b', he, rfl⟩ := h
  have ha : a <+: a ++ c :: b := prefix_append _ _
  have ha' : a' <+: a ++ c :: b := ⟨b', he.symm⟩
  rcases Nat.lt_or_ge a.length a'.length with hlt | hge
  · have hc : a ++ [c] <+: a ++ c :: b := ⟨b, by simp⟩
    have := encode_length_le (prefix_of_prefix_length_le hc ha' (by simp; omega))
    simpa using this
  · have := encode_length_le (prefix_of_prefix_length_le ha' ha hge)
    omega

/-- The table when the loop stands at the offset `k`. -/
structure TableInv (v : UgmVocab) (unk : Nat) (cs : List Char) (k : Nat)
    (T : List BestTokenization) : Prop where
  length : T.length = (encode cs).length + 1
  goal : scoreAt T 0 = some 0
  attained : ∀ j s, scoreAt T j = some s → (j = 0 ∧ s = 0) ∨ ∃ l i s',
    PieceStep v.tokens (encode cs) j l i ∧ i < k ∧ scoreAt T i = some s' ∧
    s = l.score v.tokens + s' ∧
    T[j]? = some { tokenId := l.id unk, inputOffset := i, scoreSum := some s }
  closed : ∀ i l j s, i < k → PieceStep v.tokens (encode cs) j l i → scoreAt T i = some s →
    ∃ s', scoreAt T j = some s' ∧ l.score v.tokens + s ≤ s'
  boundary : ∀ j s, scoreAt T j = some s → CharBoundary cs j
  reached : ∃ s, scoreAt T k = some s

theorem initialResults_scoreAt {s : ℚ} (h : scoreAt (initialResults unk n) j = some s) :
    j = 0 ∧ s = 0 := by
  cases j with
  | zero => exact ⟨rfl, by simpa [scoreAt, initialResults, eq_comm] using h⟩
  | succ j =>
    simp only [scoreAt, initialResults, getElem?_cons_succ, getElem?_replicate] at h
    split at h <;> cases h

theorem loopInv_initial (v : UgmVocab) (unk : Nat) (cs : List Char) :
    TableInv v unk cs 0 (initialResults unk (encode cs).length) where
  length := by simp [initialResults]
  goal := rfl
  attained _ _ h := .inl (initialResults_scoreAt h)
  closed _ _ _ _ h := absurd h (Nat.not_lt_zero _)
  boundary j s h := by
    obtain ⟨rfl, -⟩ := initialResults_scoreAt h
    exact ⟨[], cs, rfl, rfl⟩
  reached := ⟨0, rfl⟩

/-- One turn of the loop, at a character. -/
theorem TableInv.step {a b : List Char} {c : Char} (hv : v.WellEncoded) (hcs : cs = a ++ c :: b)
    (h : TableInv v unk cs (encode a).length T) :
    TableInv v unk cs ((encode a).length + (String.utf8EncodeChar c).length)
      (ugmStep v.tokens unk (encode cs) (encode a).length T) := by
  generalize hk : (encode a).length = k at *
  have hdrop : (encode cs).drop k = String.utf8EncodeChar c ++ encode b := by
    rw [hcs, encode_append, ← hk, drop_left, encode_cons]
  have hchar : CharAt (encode cs) k c := ⟨_, hdrop.symm⟩
  have hpos := encodeChar_pos c
  have hne : (encode cs).drop k ≠ [] := by
    rw [hdrop, ← length_pos_iff, length_append]
    omega
  have hmem : ∀ q : Challenger, q ∈ challengers v.tokens unk (encode cs) k ↔ ∃ l,
      PieceStep v.tokens (encode cs) q.1 l k ∧ q.2.1 = l.id unk ∧ q.2.2 = l.score v.tokens :=
    fun q => mem_challengers hv hchar
  have hlater : ∀ q ∈ challengers v.tokens unk (encode cs) k, k < q.1 := by
    intro q hq
    obtain ⟨l, hl, -⟩ := (hmem q).mp hq
    exact (hl.lt hv).1
  obtain ⟨cur, hcur⟩ := h.reached
  rw [ugmStep_eq v.tokens hne]
  have hr := relaxAll_relaxed k (challengers v.tokens unk (encode cs) k) hlater T
  generalize relaxAll k (challengers v.tokens unk (encode cs) k) T = T' at hr
  have hkept : ∀ i ≤ k, scoreAt T' i = scoreAt T i := fun i hi => by
    rw [scoreAt, hr.kept i hi, ← scoreAt]
  have hbound : ∀ l j, PieceStep v.tokens (encode cs) j l k →
      ∃ s', scoreAt T' j = some s' ∧ l.score v.tokens + cur ≤ s' := by
    intro l j hl
    obtain ⟨y, hy, hle⟩ := hr.bound (j, l.id unk, l.score v.tokens) ((hmem _).mpr ⟨l, hl, rfl, rfl⟩)
      cur hcur (by rw [h.length]; have := (hl.lt hv).2; simp only; omega)
    exact ⟨y, hy, by rwa [add_comm]⟩
  have hBk : CharBoundary cs k := ⟨a, c :: b, hcs, hk.symm⟩
  have hentry : ∀ j s, scoreAt T' j = some s → scoreAt T j = some s ∧ T'[j]? = T[j]? ∨
      ∃ l, PieceStep v.tokens (encode cs) j l k ∧ s = l.score v.tokens + cur ∧
        T'[j]? = some { tokenId := l.id unk, inputOffset := k, scoreSum := some s } := by
    intro j s hs
    rcases hr.entry j with he | ⟨q, hq, cur', hcur', rfl, he⟩
    · exact .inl ⟨by rw [← hs, scoreAt, scoreAt, he], he⟩
    · obtain ⟨l, hl, hid, hsc⟩ := (hmem q).mp hq
      obtain rfl : cur' = cur := by
        rw [hcur] at hcur'
        exact (Option.some.inj hcur').symm
      rw [scoreAt_of_getElem? he] at hs
      cases hs
      exact .inr ⟨l, hl, by rw [hsc, add_comm], by rw [he, hid]⟩
  constructor
  · rw [hr.length, h.length]
  · rw [hkept 0 (Nat.zero_le _), h.goal]
  · intro j s hs
    rcases hentry j s hs with ⟨hs, he⟩ | ⟨l, hl, rfl, he⟩
    · rcases h.attained j s hs with h0 | ⟨l, i, s', hl, hi, hs', hsum, hent⟩
      · exact .inl h0
      · exact .inr ⟨l, i, s', hl, by omega, by rw [hkept i hi.le, hs'], hsum, he.trans hent⟩
    · exact .inr ⟨l, k, cur, hl, by omega, by rw [hkept k le_rfl, hcur], rfl, he⟩
  · intro i l j s hi hl hs
    rcases Nat.lt_trichotomy i k with hlt | rfl | hgt
    · rw [hkept i hlt.le] at hs
      obtain ⟨x, hx, hle⟩ := h.closed i l j s hlt hl hs
      obtain ⟨y, hy, hxy⟩ := hr.mono j x hx
      exact ⟨y, hy, hle.trans hxy⟩
    · rw [hkept i le_rfl, hcur] at hs
      cases hs
      exact hbound l j hl
    · -- inside the character nothing is reached
      have hB : CharBoundary cs i := by
        rcases hentry i s hs with ⟨hs, -⟩ | ⟨l', hl', -⟩
        · exact h.boundary i s hs
        · exact hBk.step hv hl'
      have := CharBoundary.skip (hcs ▸ hB) (hk.symm ▸ hgt)
      omega
  · intro j s hs
    rcases hentry j s hs with ⟨hs, -⟩ | ⟨l, hl, -⟩
    · exact h.boundary j s hs
    · exact hBk.step hv hl
  · -- the character is a token or an unknown character
    by_cases htok : ∃ d ∈ v.tokens, d.attr.matched ∧ d.text = String.utf8EncodeChar c
    · obtain ⟨d, hd, hmat, ht⟩ := htok
      obtain ⟨id, hid⟩ := mem_iff_getElem?.mp hd
      have hb : (UgmPiece.token id).bytes v.tokens = String.utf8EncodeChar c := by
        simp only [UgmPiece.bytes, hid, ht]
      obtain ⟨s', hs', -⟩ := hbound (.token id) _ ⟨⟨d, hid, hmat⟩, rfl, by rw [hb]; exact hchar⟩
      rw [hb] at hs'
      exact ⟨s', hs'⟩
    · have hval : (UgmPiece.unknown c).Valid v.tokens := fun d hd hmat ht => htok ⟨d, hd, hmat, ht⟩
      obtain ⟨s', hs', -⟩ := hbound (.unknown c) _ ⟨hval, rfl, hchar⟩
      exact ⟨s', hs'⟩

theorem ugmLoop_inv (hv : v.WellEncoded) (b : List Char) : ∀ (turns : Nat) (a : List Char)
    (T : List BestTokenization), cs = a ++ b → (encode b).length ≤ turns →
    TableInv v unk cs (encode a).length T →
    TableInv v unk cs (encode cs).length
      (ugmLoop v.tokens unk (encode cs) turns (encode a).length T) := by
  induction b with
  | nil =>
    rintro turns a T rfl - h
    rw [append_nil] at h ⊢
    cases turns with
    | zero => exact h
    | succ turns => rwa [ugmLoop, if_neg (lt_irrefl _)]
  | cons c b ih =>
    intro turns a T hcs hturns h
    have hpos := encodeChar_pos c
    rw [encode_cons, length_append] at hturns
    have hchar : CharAt (encode cs) (encode a).length c :=
      ⟨encode b, by rw [hcs, encode_append, drop_left, encode_cons]⟩
    cases turns with
    | zero => omega
    | succ turns =>
      have hlt : (encode a).length < (encode cs).length := by
        rw [hcs, encode_append, encode_cons, length_append, length_append]
        omega
      have hac : (encode (a ++ [c])).length =
          (encode a).length + (String.utf8EncodeChar c).length := by simp
      rw [ugmLoop, if_pos hlt, hchar.units, ← hac]
      exact ih turns (a ++ [c]) _ (by simp [hcs]) (by omega) (hac ▸ h.step hv hcs)

/-- The ids that the loop from the end appends, for the ids of the pieces from the end. -/
def gather (unk : Nat) : Bool → List Nat → List Nat
  | _, [] => []
  | isPrevUnknown, id :: ids =>
    if isPrevUnknown && id == unk then gather unk true ids
    else id :: gather unk (id == unk) ids

/-- The entry at `j` is a piece that ends there. -/
def Chosen (v : UgmVocab) (unk : Nat) (text : List UInt8) (T : List BestTokenization) (j : Nat)
    (l : UgmPiece) (i : Nat) : Prop :=
  PieceStep v.tokens text j l i ∧
    ∃ s, T[j]? = some { tokenId := l.id unk, inputOffset := i, scoreSum := some s }

/-- Overwriting the last entry with the current one does not disturb the loop: it only reads
entries before it. -/
theorem backtrack_eq (hv : v.WellEncoded) (hp : Path (Chosen v unk text T) 0 j ls) :
    ∀ (turns : Nat) (R : List BestTokenization)
    (isPrevUnknown : Bool) (output : List Nat), 0 < j → ls.length ≤ turns →
    R.length = text.length + 1 → R[text.length]? = T[j]? →
    (∀ i < text.length, R[i]? = T[i]?) →
    backtrack unk text.length turns R isPrevUnknown output =
      output ++ gather unk isPrevUnknown (ls.map (·.id unk)) := by
  induction hp with
  | nil => exact fun _ _ _ _ h => absurd h (lt_irrefl _)
  | @cons j i l ls hc hp ih =>
    intro turns R isPrevUnknown output hj hturns hlen hlast hR
    obtain ⟨hstep, s, hent⟩ := hc
    have hij := hstep.lt hv
    cases turns with
    | zero => simp at hturns
    | succ turns =>
      have hg : gather unk isPrevUnknown ((l :: ls).map (·.id unk)) =
          (if isPrevUnknown && l.id unk == unk then [] else [l.id unk]) ++
            gather unk (l.id unk == unk) (ls.map (·.id unk)) := by
        rw [map_cons, gather]
        cases hu : l.id unk == unk <;> cases isPrevUnknown <;> simp
      simp only [backtrack, hlast, hent]
      by_cases hi : i = 0
      · -- the first piece of the text
        have hnil : ls = [] := by
          cases hp with
          | nil => rfl
          | cons hc' _ => exact absurd (hc'.1.lt hv).1 (by omega)
        subst hnil
        rw [if_pos hi, hg]
        split <;> simp [gather]
      · have hilt : i < text.length := by omega
        obtain ⟨next, hnext⟩ : ∃ next, R[i]? = some next := ⟨_, getElem?_eq_getElem (by omega)⟩
        rw [if_neg hi]
        simp only [hnext]
        rw [ih turns _ _ _ (by omega) (by simpa using hturns) (by simpa using hlen) ?_ ?_, hg]
        · split <;> simp
        · rw [getElem?_set_self (by omega), ← hnext, hR i hilt]
        · intro i' hi'
          rw [getElem?_set_ne (by omega), hR i' hi']

theorem mergeUnknown_append (unk id : Nat) (ids : List Nat) :
    mergeUnknown unk (ids ++ [id]) =
      if id = unk ∧ ids.getLast? = some unk then mergeUnknown unk ids
      else mergeUnknown unk ids ++ [id] := by
  induction ids with
  | nil => simp [mergeUnknown]
  | cons x ids ih =>
    cases ids with
    | nil =>
      by_cases hx : x = unk <;> by_cases hid : id = unk <;> simp [mergeUnknown, hx, hid]
    | cons y ids =>
      have hcons : ∀ zs, mergeUnknown unk (x :: y :: zs) =
          if x = unk ∧ y = unk then mergeUnknown unk (y :: zs)
          else x :: mergeUnknown unk (y :: zs) := fun zs => by
        rw [mergeUnknown]
        simp only [head?_cons, Option.some.injEq]
      rw [cons_append, cons_append, hcons, hcons, ← cons_append, ih, getLast?_cons_cons]
      by_cases hid : id = unk ∧ (y :: ids).getLast? = some unk
      · rw [if_pos hid, if_pos hid]
      · rw [if_neg hid, if_neg hid]
        split <;> simp

/-- Gathering from the end and reversing merges the runs. -/
theorem gather_reverse (unk : Nat) (ids : List Nat) (isPrevUnknown : Bool) :
    (gather unk isPrevUnknown ids).reverse ++ (if isPrevUnknown then [unk] else []) =
      mergeUnknown unk (ids.reverse ++ if isPrevUnknown then [unk] else []) := by
  induction ids generalizing isPrevUnknown with
  | nil => cases isPrevUnknown <;> simp [gather, mergeUnknown]
  | cons id ids ih =>
    have ih0 := ih (id == unk)
    cases isPrevUnknown with
    | false =>
      by_cases hid : id = unk
      · simpa [gather, hid] using ih0
      · have hne : (id == unk) = false := by simp [hid]
        rw [hne] at ih0
        simp only [Bool.false_eq_true, if_false, append_nil] at ih0
        simp only [gather, Bool.false_and, Bool.false_eq_true, if_false, hne, reverse_cons,
          append_nil, mergeUnknown_append, hid, false_and, ih0]
    | true =>
      have ht := ih true
      simp only [if_true] at ht ⊢
      by_cases hid : id = unk
      · subst hid
        simp only [gather, beq_self_eq_true, Bool.and_self, if_true, reverse_cons]
        rw [mergeUnknown_append, if_pos (by simp)]
        exact ht
      · have hne : (id == unk) = false := by simp [hid]
        rw [hne] at ih0
        simp only [Bool.false_eq_true, if_false, append_nil] at ih0
        simp only [gather, hne, Bool.and_false, Bool.false_eq_true, if_false, reverse_cons]
        rw [mergeUnknown_append, if_neg (by simp [hid]), mergeUnknown_append,
          if_neg (by simp [hid]), ih0]

/-- Tokenizing gives the tokens of a segmentation of maximal score, with runs of the unknown
token merged. -/
theorem ugmTokens_optimal (v : UgmVocab) (unk : Nat) (cs : List Char) (hcs : cs ≠ [])
    (hv : v.WellEncoded) :
    ∃ pieces, Segmentation v.tokens (encode cs) pieces ∧
      (∀ other, Segmentation v.tokens (encode cs) other →
        total (·.score v.tokens) other ≤ total (·.score v.tokens) pieces) ∧
      ugmTokens v.tokens unk (encode cs) = mergeUnknown unk (pieces.map (·.id unk)) := by
  have hn := encode_pos hcs
  have hinv : TableInv v unk cs (encode cs).length
      (ugmLoop v.tokens unk (encode cs) (encode cs).length (encode []).length _) :=
    ugmLoop_inv hv cs (encode cs).length [] _ rfl le_rfl (loopInv_initial v unk cs)
  rw [encode_nil, length_nil] at hinv
  generalize hT : ugmLoop v.tokens unk (encode cs) (encode cs).length 0
    (initialResults unk (encode cs).length) = T at hinv
  have hbounding : Bounding (PieceStep v.tokens (encode cs)) 0 (·.score v.tokens) (scoreAt T) :=
    ⟨hinv.goal, fun j l i s hl hs => hinv.closed i l j s (by have := hl.lt hv; omega) hl hs⟩
  have hattained : Attained (Chosen v unk (encode cs) T) 0 (·.score v.tokens) (scoreAt T)
      (fun j => j) := by
    intro j s hs
    rcases hinv.attained j s hs with h0 | ⟨l, i, s', hl, -, hs', rfl, hent⟩
    · exact .inl h0
    · exact .inr ⟨l, i, s', ⟨hl, _, hent⟩, (hl.lt hv).1, hs', rfl⟩
  obtain ⟨s, hs⟩ := hinv.reached
  obtain ⟨ls, hpath, -⟩ := hattained.exists_path hs
  have hsub : ∀ j l i, Chosen v unk (encode cs) T j l i → PieceStep v.tokens (encode cs) j l i :=
    fun _ _ _ h => h.1
  obtain ⟨best, hbest, hmax⟩ := exists_best hbounding hattained (hpath.mono hsub)
  have htotal : ∀ ls : List UgmPiece,
      total (·.score v.tokens) ls.reverse = total (·.score v.tokens) ls := fun ls => by
    rw [total, total, map_reverse, sum_reverse]
  obtain ⟨hval, hspell⟩ := spells_of_path (hbest.mono hsub)
  refine ⟨best.reverse, ⟨fun p hp => hval p (mem_reverse.mp hp), by simpa using hspell⟩,
    fun other ho => ?_, ?_⟩
  · have hpre : other.flatMap (·.bytes v.tokens) <+: encode cs := by rw [ho.spells]
    have hp := path_of_spells other ho.valid hpre
    rw [ho.spells] at hp
    have := hmax _ hp
    rwa [htotal] at this ⊢
  · have hlen : (encode cs).length ≠ 0 := hn.ne'
    simp only [ugmTokens, if_neg hlen, hT]
    rw [backtrack_eq hv hbest _ T false [] hn (path_length_le hv (hbest.mono hsub)) hinv.length rfl
      (fun _ _ => rfl), nil_append]
    have hg := gather_reverse unk (best.map (·.id unk)) false
    simpa [map_reverse] using hg

/-- A vocabulary in which the only token, `a`, is also the unknown token. -/
def letterVocab : UgmVocab where
  tokens := [{ text := [0x61], score := 0, attr := { TokenAttr.undefined with normal := true } }]
  distinct := by simp

theorem letterVocab_wellEncoded : letterVocab.WellEncoded := by
  intro d hd _
  rw [mem_singleton.mp hd]
  exact ⟨['a'], by simp, by decide⟩

theorem ugmTokens_optimal_letterVocab :
    ∃ pieces, Segmentation letterVocab.tokens (encode ['a', 'a']) pieces ∧
      (∀ other, Segmentation letterVocab.tokens (encode ['a', 'a']) other →
        total (·.score letterVocab.tokens) other ≤ total (·.score letterVocab.tokens) pieces) ∧
      ugmTokens letterVocab.tokens 0 (encode ['a', 'a']) = mergeUnknown 0 (pieces.map (·.id 0)) :=
  ugmTokens_optimal letterVocab 0 ['a', 'a'] (by simp) letterVocab_wellEncoded

/-- Only runs of unknown characters become one. -/
def mergeCharacters (unk : Nat) : List UgmPiece → List Nat
  | [] => []
  | .token id :: ps => id :: mergeCharacters unk ps
  | .unknown _ :: .unknown c :: ps => mergeCharacters unk (.unknown c :: ps)
  | .unknown _ :: ps => unk :: mergeCharacters unk ps

/-- A text of letters `a` has one segmentation. -/
theorem letterVocab_segmentation {pieces : List UgmPiece}
    (h : Segmentation letterVocab.tokens (replicate n 0x61) pieces) :
    pieces = replicate n (.token 0) := by
  induction pieces generalizing n with
  | nil =>
    have := congrArg List.length h.spells
    simp only [flatMap_nil, length_nil, length_replicate] at this
    rw [← this, replicate_zero]
  | cons p ps ih =>
    have hval := forall_mem_cons.mp h.valid
    have hsp := h.spells
    rw [flatMap_cons] at hsp
    cases p with
    | token id =>
      obtain ⟨d, hd, -⟩ := hval.1
      obtain rfl : id = 0 := by
        have := (List.getElem?_eq_some_iff.mp hd).1
        simpa [letterVocab] using this
      change [0x61] ++ _ = _ at hsp
      cases n with
      | zero => simp at hsp
      | succ n =>
        rw [replicate_succ, singleton_append] at hsp
        rw [replicate_succ, ih ⟨hval.2, (List.cons.inj hsp).2⟩]
    | unknown c =>
      simp only [UgmPiece.bytes] at hsp
      cases n with
      | zero =>
        have hlen := congrArg List.length hsp
        have hpos := encodeChar_pos c
        rw [length_append, length_replicate] at hlen
        omega
      | succ n =>
        have ha : String.utf8EncodeChar c ++ ps.flatMap (·.bytes letterVocab.tokens) =
            String.utf8EncodeChar 'a' ++ replicate n 0x61 := hsp
        obtain rfl := encodeChar_unique ha
        exact absurd rfl (hval.1 _ (mem_singleton_self _) rfl)

/-- The text `aa` is two tokens `a`, and no unknown characters, but one token comes out. -/
theorem unknown_id_merged : letterVocab.WellEncoded ∧
    ¬ ∃ pieces, Segmentation letterVocab.tokens (encode ['a', 'a']) pieces ∧
      (∀ other, Segmentation letterVocab.tokens (encode ['a', 'a']) other →
        total (·.score letterVocab.tokens) other ≤ total (·.score letterVocab.tokens) pieces) ∧
      ugmTokens letterVocab.tokens 0 (encode ['a', 'a']) = mergeCharacters 0 pieces := by
  refine ⟨letterVocab_wellEncoded, ?_⟩
  rintro ⟨pieces, hseg, -, heq⟩
  have hrun : ugmTokens letterVocab.tokens 0 (encode ['a', 'a']) = [0] := by decide
  obtain rfl := letterVocab_segmentation (n := 2) hseg
  rw [hrun] at heq
  exact absurd heq (by decide)

end Llama.Vocab
