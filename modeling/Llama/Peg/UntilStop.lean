import Llama.Peg.Until

/-!
# Where `until` stops

The scan stops at the first end of the text that a delimiter touches: the delimiter starts
there, or the text ends inside it. So it stops early when the text ends in the beginning of
a delimiter, and when more text arrives the stop never moves back.
-/

namespace Llama.Peg

open List

variable {n p : Nat} {d x : List UInt8} {w left read : List Char} {words : List (List Nat)}
  {delimiters : List (List Char)}

theorem codepointsFrom_prefix {m : Nat} (hnm : n ≤ m) (h : d <+: x) :
    codepointsFrom n d <+: codepointsFrom m x := by
  induction n generalizing m d x with
  | zero => exact nil_prefix
  | succ n ih =>
    obtain ⟨m, rfl⟩ : ∃ k, m = k + 1 := ⟨m - 1, by omega⟩
    rw [codepointsFrom, codepointsFrom]
    cases hd : decodeCodepoint d with
    | incomplete => exact nil_prefix
    | invalid => exact nil_prefix
    | success cp k =>
      have hx : decodeCodepoint x = .success cp k := by
        obtain ⟨t, rfl⟩ := h
        rw [decode_append (by rw [hd]; simp), hd]
      rw [hx]
      exact cons_prefix_cons.mpr ⟨rfl, ih (by omega) (h.drop k)⟩

theorem codepoints_prefix (h : d <+: x) : codepoints d <+: codepoints x :=
  codepointsFrom_prefix h.length_le h

theorem encode_prefix_iff {d x : List Char} : encode d <+: encode x ↔ d <+: x := by
  constructor
  · intro h
    have hcp := codepoints_prefix h
    rw [codepoints_encode, codepoints_encode] at hcp
    exact prefix_map_toNat.mp hcp
  · rintro ⟨t, rfl⟩
    exact ⟨encode t, (encode_append d t).symm⟩

/-- A position of a text where the decoder reads something lies between two characters. -/
theorem boundary_of_decode (w : List Char) (hp : p < (encode w).length)
    (h : decodeCodepoint ((encode w).drop p) ≠ .invalid) :
    ∃ a b, w = a ++ b ∧ p = (encode a).length := by
  induction w generalizing p with
  | nil => simp at hp
  | cons c w ih =>
    rw [encode_cons] at hp h
    rw [length_append] at hp
    rcases Nat.lt_or_ge p (String.utf8EncodeChar c).length with hlt | hge
    · cases p with
      | zero => exact ⟨[], c :: w, rfl, rfl⟩
      | succ k =>
        rw [drop_append_of_le_length (by omega)] at h
        exact absurd (decode_encodeChar_drop (Nat.succ_pos k) hlt _) h
    · rw [drop_append, drop_eq_nil_of_le hge, nil_append] at h
      obtain ⟨a, b, rfl, ha⟩ := ih (by omega) h
      refine ⟨c :: a, b, rfl, ?_⟩
      rw [encode_cons, length_append]
      omega

/-- A word with a first code point occurs in a text between two characters only. -/
theorem occurs_boundary (hd : codepoints d ≠ []) (h : d <+: (encode w).drop p) :
    ∃ a b, w = a ++ b ∧ p = (encode a).length ∧ d <+: encode b := by
  cases d with
  | nil => exact absurd rfl hd
  | cons b0 d =>
    have hdec : decodeCodepoint ((encode w).drop p) ≠ .invalid := by
      obtain ⟨t, ht⟩ := h
      rw [← ht]
      intro hinv
      apply hd
      rw [codepoints, length_cons, codepointsFrom]
      cases hc : decodeCodepoint (b0 :: d) with
      | incomplete => rfl
      | invalid => rfl
      | success cp k =>
        rw [decode_append (by rw [hc]; simp), hc] at hinv
        cases hinv
    have hlt : p < (encode w).length := by
      have := h.length_le
      rw [length_cons, length_drop] at this
      omega
    obtain ⟨a, b, rfl, ha⟩ := boundary_of_decode w hlt hdec
    rw [ha, encode_append, drop_left] at h
    exact ⟨a, b, rfl, ha, h⟩

/-- A word starts at `x`, or `x` ends inside a word. -/
def Touches (words : List (List Nat)) (x : List Nat) : Prop :=
  ∃ w ∈ words, w ≠ [] ∧ (w <+: x ∨ x <+: w)

theorem Touches.cut {x : List Nat} (t : List Nat) (h : Touches words (x ++ t)) :
    Touches words x := by
  obtain ⟨w, hw, hne, hx | hx⟩ := h
  · exact ⟨w, hw, hne, prefix_or_prefix_of_prefix hx (prefix_append x t)⟩
  · exact ⟨w, hw, hne, .inr ((prefix_append x t).trans hx)⟩

theorem checkFrom_ofWords (delimiters : List (List UInt8)) {x : List Nat} (hx : x ≠ []) :
    (Trie.ofWords delimiters).checkFrom 0 x = .noMatch ↔
      ¬ Touches (delimiters.map codepoints) x := by
  obtain ⟨paths, hpaths⟩ := Trie.ofWords_holds delimiters
  rw [Trie.checkFrom_noMatch hpaths x hpaths.root, hpaths.closed]
  simp only [nil_append, hx, false_or, imp_false, not_exists, not_and]
  constructor
  · rintro ⟨h1, h2⟩ ⟨w, hw, hne, hp | hp⟩
    · exact h1 w hp hne hw
    · exact h2 w hw hp
  · intro h
    refine ⟨fun y hy hne hw => h ⟨y, hw, hne, .inl hy⟩, fun w hw hp => h ⟨w, hw, ?_, .inr hp⟩⟩
    rintro rfl
    exact hx (prefix_nil.mp hp)

theorem untilFrom_ofWords (delimiters : List (List UInt8)) (lenient : Bool) (start : Nat)
    (done rest : List Char) (hn : (encode rest).length ≤ n) :
    ∃ read left, rest = read ++ left ∧ StopsBehind (Touches (delimiters.map codepoints)) read left ∧
      Context.untilFrom ⟨encode (done ++ rest), lenient⟩ (Trie.ofWords delimiters) start n
          (encode done).length =
        ⟨if left = [] ∧ lenient = true then .needMoreInput else .success, start,
          (encode (done ++ read)).length, []⟩ := by
  obtain ⟨read, left, hrest, hstop, hr⟩ :=
    untilFrom_stops (Trie.ofWords delimiters) lenient start done rest hn
  refine ⟨read, left, hrest, ⟨?_, ?_⟩, hr⟩
  · intro y hy hne
    have hx : (y ++ left).map Char.toNat ≠ [] := by simp [hne]
    have := hstop.passed y hy hne
    rwa [ne_eq, checkFrom_ofWords delimiters hx, not_not] at this
  · intro hne
    have hx : left.map Char.toNat ≠ [] := by simp [hne]
    have := hstop.stops hne
    rwa [ne_eq, checkFrom_ofWords delimiters hx, not_not] at this

/-- No place before the stop is touched, with more text behind it either. -/
theorem StopsBehind.stop_le {a b : List Char} (h : StopsBehind (Touches words) read left)
    (hab : read ++ left <+: a ++ b) (hb : Touches words (b.map Char.toNat)) : read <+: a := by
  obtain ⟨more, hmore⟩ := hab
  have hread : read <+: a ++ b := by
    rw [← hmore, append_assoc]
    exact prefix_append read (left ++ more)
  obtain hle | ⟨y, rfl⟩ := prefix_or_prefix_of_prefix hread (prefix_append a b)
  · exact hle
  · have hleft : b = y ++ left ++ more := by simpa using hmore.symm
    by_cases hy : y = []
    · rw [hy, append_nil]
    · rw [hleft, map_append] at hb
      exact absurd hb.cut (h.passed y (suffix_append a y) hy)

/-- With more text behind it the scan does not stop earlier. -/
theorem StopsBehind.grows {read₁ left₁ read₂ left₂ : List Char}
    (h₁ : StopsBehind (Touches words) read₁ left₁) (h₂ : StopsBehind (Touches words) read₂ left₂)
    (h : read₁ ++ left₁ <+: read₂ ++ left₂) : read₁ <+: read₂ := by
  by_cases hleft : left₂ = []
  · rw [hleft, append_nil] at h
    exact (prefix_append read₁ left₁).trans h
  · exact h₁.stop_le h (h₂.stops hleft)

/-- A word with a first code point that occurs behind `done` touches the place. -/
theorem touches_of_occurs {delimiters : List (List UInt8)} (hmem : d ∈ delimiters)
    (hd : codepoints d ≠ []) {done : List Char} (hp : (encode done).length ≤ p)
    (h : d <+: (encode (done ++ w)).drop p) :
    ∃ a b, w = a ++ b ∧ p = (encode (done ++ a)).length ∧
      Touches (delimiters.map codepoints) (b.map Char.toNat) := by
  obtain ⟨a, b, hab, rfl, hb⟩ := occurs_boundary hd h
  have hda : encode done <+: encode a := by
    have hdw : encode done <+: encode (done ++ w) := encode_prefix_iff.mpr (prefix_append done w)
    rw [hab] at hdw
    have haw : encode a <+: encode (a ++ b) := encode_prefix_iff.mpr (prefix_append a b)
    exact prefix_of_prefix_length_le hdw haw hp
  obtain ⟨a, rfl⟩ := encode_prefix_iff.mp hda
  refine ⟨a, b, by simpa using hab, rfl, codepoints d, mem_map_of_mem hmem, hd, .inl ?_⟩
  rw [← codepoints_encode]
  exact codepoints_prefix hb

/-- The bytes from `start` to `stop` are those before the first delimiter. -/
structure StopsAtFirst (input : List UInt8) (delimiters : List (List UInt8)) (start stop : Nat) :
    Prop where
  lower : start ≤ stop
  upper : stop ≤ input.length
  before : ∀ p, start ≤ p → p < stop → ∀ d ∈ delimiters, ¬ d <+: input.drop p
  here : stop = input.length ∨ ∃ d ∈ delimiters, d <+: input.drop stop

/-- Where the end `x` of the text is the beginning of a delimiter, a delimiter occurs in the
text there or earlier. -/
def NoneUnfinished (delimiters : List (List Char)) (w : List Char) : Prop :=
  ∀ x, x <:+ w → x ≠ [] → (∃ d ∈ delimiters, x <+: d) →
    ∃ y, x <:+ y ∧ y <:+ w ∧ ∃ d ∈ delimiters, d <+: y

theorem touches_texts (hne : [] ∉ delimiters) {x : List Char} :
    Touches ((delimiters.map encode).map codepoints) (x.map Char.toNat) ↔
      ∃ d ∈ delimiters, d <+: x ∨ x <+: d := by
  rw [codepoints_map_encode]
  constructor
  · rintro ⟨w, hw, -, hp⟩
    obtain ⟨d, hd, rfl⟩ := mem_map.mp hw
    rw [prefix_map_toNat, prefix_map_toNat] at hp
    exact ⟨d, hd, hp⟩
  · rintro ⟨d, hd, hp⟩
    refine ⟨d.map Char.toNat, mem_map_of_mem hd, ?_, ?_⟩
    · intro hnil
      exact hne (map_eq_nil_iff.mp hnil ▸ hd)
    · rwa [prefix_map_toNat, prefix_map_toNat]

/-- The stop of the scan is at the first delimiter if one starts there or the text ends. -/
theorem StopsBehind.atFirst_iff (hne : [] ∉ delimiters) (done : List Char)
    (h : StopsBehind (Touches ((delimiters.map encode).map codepoints)) read left) :
    StopsAtFirst (encode (done ++ (read ++ left))) (delimiters.map encode) (encode done).length
        (encode (done ++ read)).length ↔ left = [] ∨ ∃ d ∈ delimiters, d <+: left := by
  have hdrop : (encode (done ++ (read ++ left))).drop (encode (done ++ read)).length =
      encode left := by
    rw [← append_assoc, encode_append (done ++ read), drop_left]
  constructor
  · intro hs
    obtain hend | ⟨d, hd, hp⟩ := hs.here
    · left
      rw [← append_assoc, encode_append (done ++ read), length_append] at hend
      cases left with
      | nil => rfl
      | cons c left =>
        have hpos : 0 < (String.utf8EncodeChar c).length :=
          length_pos_iff.mpr String.utf8EncodeChar_ne_nil
        rw [encode_cons, length_append] at hend
        omega
    · right
      obtain ⟨d, hmem, rfl⟩ := mem_map.mp hd
      rw [hdrop, encode_prefix_iff] at hp
      exact ⟨d, hmem, hp⟩
  · intro hleft
    refine ⟨by simp, by simp, ?_, ?_⟩
    · -- an earlier occurrence would lie in what the scan passed
      intro p hp hlt e he hpre
      obtain ⟨d, hd, rfl⟩ := mem_map.mp he
      have hd' : codepoints (encode d) ≠ [] := by
        rw [codepoints_encode]
        intro hnil
        exact hne (map_eq_nil_iff.mp hnil ▸ hd)
      obtain ⟨a, b, hab, rfl, hb⟩ := touches_of_occurs he hd' hp hpre
      obtain ⟨more, rfl⟩ := h.stop_le (by rw [hab]) hb
      simp only [encode_append, length_append] at hlt
      omega
    · obtain rfl | ⟨d, hd, hp⟩ := hleft
      · left
        rw [append_nil]
      · right
        rw [hdrop]
        exact ⟨encode d, mem_map_of_mem hd, encode_prefix_iff.mpr hp⟩

theorem StopsBehind.finished_iff (hne : [] ∉ delimiters)
    (h : StopsBehind (Touches ((delimiters.map encode).map codepoints)) read left) :
    (left = [] ∨ ∃ d ∈ delimiters, d <+: left) ↔ NoneUnfinished delimiters (read ++ left) := by
  have hpassed : ∀ y, y <:+ read → y ≠ [] → ∀ d ∈ delimiters,
      ¬ d <+: y ++ left ∧ ¬ y ++ left <+: d := by
    intro y hy hy' d hd
    have hno := h.passed y hy hy'
    rw [touches_texts hne] at hno
    exact ⟨fun hp => hno ⟨d, hd, .inl hp⟩, fun hp => hno ⟨d, hd, .inr hp⟩⟩
  constructor
  · intro hleft x hx hxne hd
    have hxleft : x <:+ left := by
      obtain hle | ⟨y, rfl⟩ := suffix_or_suffix_of_suffix hx (suffix_append read left)
      · exact hle
      · by_cases hy : y = []
        · rw [hy, nil_append]
        · -- the scan did not pass such an `x`
          obtain ⟨d, hd, hp⟩ := hd
          exact absurd hp (hpassed y (suffix_append_self_iff.mp hx) hy d hd).2
    obtain rfl | hleft := hleft
    · exact absurd (suffix_nil.mp hxleft) hxne
    · exact ⟨left, hxleft, suffix_append read left, hleft⟩
  · intro hall
    by_cases hleft : left = []
    · exact .inl hleft
    obtain ⟨d, hd, hp | hp⟩ := (touches_texts hne).mp (h.stops hleft)
    · exact .inr ⟨d, hd, hp⟩
    · obtain ⟨y, ⟨z, rfl⟩, hy, e, he, hpe⟩ := hall left (suffix_append read left) hleft ⟨d, hd, hp⟩
      by_cases hz : z = []
      · rw [hz, nil_append] at hpe
        exact .inr ⟨e, he, hpe⟩
      · exact absurd hpe (hpassed z (suffix_append_self_iff.mp hy) hz e he).1

/-- The strict parser stops at the first delimiter, or at the end of a text without one,
exactly when the text does not end in the beginning of a delimiter that no delimiter comes
before. -/
theorem until_stops_at_first_iff {delimiters : List (List Char)} (hne : [] ∉ delimiters)
    (done w : List Char) :
    ∃ r, (untilArena (delimiters.map encode)).Returns ⟨encode (done ++ w), false⟩
        (encode done).length r ∧
      r.type = .success ∧
      (StopsAtFirst (encode (done ++ w)) (delimiters.map encode) (encode done).length r.stop ↔
        NoneUnfinished delimiters w) := by
  have hn : (encode w).length ≤ (encode (done ++ w)).length := by simp
  obtain ⟨read, left, rfl, hstop, hr⟩ :=
    untilFrom_ofWords (delimiters.map encode) false (encode done).length done w hn
  refine ⟨_, ⟨1, congrArg Except.ok hr⟩, by simp, ?_⟩
  exact (hstop.atFirst_iff hne done).trans (hstop.finished_iff hne)

theorem until_stops_at_first_iff_tag :
    ∃ r, (untilArena [encode ['<', '/']]).Returns ⟨encode ['a', '<', 'b', '<', '/'], false⟩ 1 r ∧
      r.type = .success ∧
      (StopsAtFirst (encode ['a', '<', 'b', '<', '/']) [encode ['<', '/']] 1 r.stop ↔
        NoneUnfinished [['<', '/']] ['<', 'b', '<', '/']) :=
  until_stops_at_first_iff (show [] ∉ [['<', '/']] by decide) ['a'] ['<', 'b', '<', '/']

/-- On `a` the strict parser for the delimiter `ab` consumes nothing, and no delimiter
occurs there. -/
theorem strict_until_stops_early :
    (untilArena [encode ['a', 'b']]).Returns ⟨encode ['a'], false⟩ 0 ⟨.success, 0, 0, []⟩ ∧
      ¬ StopsAtFirst (encode ['a']) [encode ['a', 'b']] 0 0 := by
  refine ⟨⟨1, rfl⟩, fun h => ?_⟩
  obtain hend | ⟨d, hd, hp⟩ := h.here
  · revert hend
    decide
  · rw [mem_singleton.mp hd] at hp
    revert hp
    decide

/-- The bytes that a result stands for. -/
def Context.consumed (ctx : Context) (r : Result) : List UInt8 :=
  (ctx.input.take r.stop).drop r.start

/-- On more and more of a text the parser consumes more and more of it, never more than the
strict parser consumes of the whole text, and nothing of a delimiter in the text that begins
with a code point. -/
theorem lenient_until_grows (delimiters : List (List UInt8)) (done : List Char)
    {w₁ w₂ w : List Char} (h₁ : w₁ <+: w₂) (h₂ : w₂ <+: w) :
    ∃ r₁ r₂ r, (untilArena delimiters).Returns ⟨encode (done ++ w₁), true⟩ (encode done).length r₁ ∧
      (untilArena delimiters).Returns ⟨encode (done ++ w₂), true⟩ (encode done).length r₂ ∧
      (untilArena delimiters).Returns ⟨encode (done ++ w), false⟩ (encode done).length r ∧
      r₁.type ≠ .fail ∧ r₂.type ≠ .fail ∧ r.type = .success ∧
      Context.consumed ⟨encode (done ++ w₁), true⟩ r₁ <+:
        Context.consumed ⟨encode (done ++ w₂), true⟩ r₂ ∧
      Context.consumed ⟨encode (done ++ w₂), true⟩ r₂ <+:
        Context.consumed ⟨encode (done ++ w), false⟩ r ∧
      ∀ d ∈ delimiters, codepoints d ≠ [] → ∀ p, (encode done).length ≤ p →
        d <+: (encode (done ++ w)).drop p → r₁.stop ≤ p ∧ r₂.stop ≤ p ∧ r.stop ≤ p := by
  have hn : ∀ u, (encode u).length ≤ (encode (done ++ u)).length := by simp
  have hconsumed : ∀ lenient type read left,
      Context.consumed ⟨encode (done ++ (read ++ left)), lenient⟩
        ⟨type, (encode done).length, (encode (done ++ read)).length, []⟩ = encode read := by
    intro lenient type read left
    unfold Context.consumed
    dsimp only
    rw [← append_assoc, encode_append (done ++ read), take_left, encode_append, drop_left]
  obtain ⟨read₁, left₁, rfl, hs₁, hr₁⟩ :=
    untilFrom_ofWords delimiters true (encode done).length done w₁ (hn w₁)
  obtain ⟨read₂, left₂, rfl, hs₂, hr₂⟩ :=
    untilFrom_ofWords delimiters true (encode done).length done w₂ (hn w₂)
  obtain ⟨read, left, rfl, hs, hr⟩ :=
    untilFrom_ofWords delimiters false (encode done).length done w (hn w)
  refine ⟨_, _, _, ⟨1, congrArg Except.ok hr₁⟩, ⟨1, congrArg Except.ok hr₂⟩,
    ⟨1, congrArg Except.ok hr⟩, ?_, ?_, by simp, ?_, ?_, ?_⟩
  · dsimp only
    split <;> simp
  · dsimp only
    split <;> simp
  · rw [hconsumed, hconsumed]
    exact encode_prefix_iff.mpr (hs₁.grows hs₂ h₁)
  · rw [hconsumed, hconsumed]
    exact encode_prefix_iff.mpr (hs₂.grows hs h₂)
  · intro d hd hcp p hp hocc
    obtain ⟨a, b, hab, rfl, hb⟩ := touches_of_occurs hd hcp hp hocc
    have hle : ∀ {x}, x <+: a → (encode (done ++ x)).length ≤ (encode (done ++ a)).length := by
      intro x hx
      exact (encode_prefix_iff.mpr ((prefix_append_right_inj done).mpr hx)).length_le
    rw [hab] at h₂
    exact ⟨hle (hs₁.stop_le (h₁.trans h₂) hb), hle (hs₂.stop_le h₂ hb),
      hle (hs.stop_le (by rw [hab]) hb)⟩

theorem lenient_until_grows_tag :
    ∃ r₁ r₂ r, (untilArena [encode ['<', '/']]).Returns ⟨encode ['a', '<'], true⟩ 0 r₁ ∧
      (untilArena [encode ['<', '/']]).Returns ⟨encode ['a', '<', 'b'], true⟩ 0 r₂ ∧
      (untilArena [encode ['<', '/']]).Returns ⟨encode ['a', '<', 'b', '<', '/'], false⟩ 0 r ∧
      r₁.type ≠ .fail ∧ r₂.type ≠ .fail ∧ r.type = .success ∧
      Context.consumed ⟨encode ['a', '<'], true⟩ r₁ <+:
        Context.consumed ⟨encode ['a', '<', 'b'], true⟩ r₂ ∧
      Context.consumed ⟨encode ['a', '<', 'b'], true⟩ r₂ <+:
        Context.consumed ⟨encode ['a', '<', 'b', '<', '/'], false⟩ r ∧
      ∀ d ∈ [encode ['<', '/']], codepoints d ≠ [] → ∀ p, 0 ≤ p →
        d <+: (encode ['a', '<', 'b', '<', '/']).drop p → r₁.stop ≤ p ∧ r₂.stop ≤ p ∧ r.stop ≤ p :=
  lenient_until_grows [encode ['<', '/']] [] (show ['a', '<'] <+: ['a', '<', 'b'] by decide)
    (show ['a', '<', 'b'] <+: ['a', '<', 'b', '<', '/'] by decide)

/-- A delimiter of which no code point can be read is never found: the empty one, and the
second byte of `é`. -/
theorem unreadable_delimiter_consumed :
    ((untilArena [[]]).Returns ⟨encode ['a'], true⟩ 0 ⟨.needMoreInput, 0, 1, []⟩ ∧
        [] <+: (encode ['a']).drop 0) ∧
      (untilArena [[0xa9]]).Returns ⟨encode ['é'], true⟩ 0 ⟨.needMoreInput, 0, 2, []⟩ ∧
        [0xa9] <+: (encode ['é']).drop 1 ∧ ¬ [0xa9] <+: (encode ['é']).drop 0 :=
  ⟨⟨⟨1, rfl⟩, nil_prefix⟩, ⟨1, rfl⟩, by decide, by decide⟩

end Llama.Peg
