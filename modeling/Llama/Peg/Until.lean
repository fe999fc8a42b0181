import Llama.Peg.Lookup
import Llama.Peg.Sound

/-!
# The `until` parser on text

On valid UTF-8 the parser moves from character to character. It consumes the whole input
exactly when the trie answers "no match" at every character.
-/

namespace Llama.Peg

open List

variable {n : Nat} {delimiters : List (List Char)}

theorem codepointsFrom_encode (cs : List Char) (hn : (encode cs).length ≤ n) :
    codepointsFrom n (encode cs) = cs.map Char.toNat := by
  induction cs generalizing n with
  | nil =>
    cases n with
    | zero => rfl
    | succ n => simp [codepointsFrom, decodeCodepoint]
  | cons c cs ih =>
    have hpos : 0 < (String.utf8EncodeChar c).length :=
      length_pos_iff.mpr String.utf8EncodeChar_ne_nil
    rw [encode_cons, length_append] at hn
    obtain ⟨n, rfl⟩ : ∃ m, n = m + 1 := ⟨n - 1, by omega⟩
    rw [encode_cons, codepointsFrom, decode_encodeChar]
    simp only [drop_left, map_cons]
    rw [ih (by omega)]

/-- The trie reads a text as the code points of its characters. -/
@[simp] theorem codepoints_encode (cs : List Char) : codepoints (encode cs) = cs.map Char.toNat :=
  codepointsFrom_encode cs (Nat.le_refl _)

theorem codepoints_map_encode (delimiters : List (List Char)) :
    (delimiters.map encode).map codepoints = delimiters.map (·.map Char.toNat) := by
  simp

/-- The nodes of the trie are the beginnings of the delimiters, read as code points. -/
theorem ofWords_encode_holds (delimiters : List (List Char)) :
    ∃ paths, (Trie.ofWords (delimiters.map encode)).Holds paths
      (delimiters.map (·.map Char.toNat)) := by
  rw [← codepoints_map_encode]
  exact Trie.ofWords_holds _

/-- The trie answers "no match" at every character of `cs`. -/
def Trie.Clear (t : Trie) (cs : List Char) : Prop :=
  ∀ x, x <:+ cs → x ≠ [] → t.checkFrom 0 (x.map Char.toNat) = .noMatch

/-- The scan of `read ++ left` stops behind `read`: no earlier end of the text is touched,
and this one is unless the text is at its end. -/
structure StopsBehind (touched : List Nat → Prop) (read left : List Char) : Prop where
  passed : ∀ y, y <:+ read → y ≠ [] → ¬ touched ((y ++ left).map Char.toNat)
  stops : left ≠ [] → touched (left.map Char.toNat)

theorem untilFrom_stops (t : Trie) (lenient : Bool) (start : Nat) (done rest : List Char)
    (hn : (encode rest).length ≤ n) :
    ∃ read left, rest = read ++ left ∧
      StopsBehind (fun x => t.checkFrom 0 x ≠ .noMatch) read left ∧
      Context.untilFrom ⟨encode (done ++ rest), lenient⟩ t start n (encode done).length =
        ⟨if left = [] ∧ lenient = true then .needMoreInput else .success, start,
          (encode (done ++ read)).length, []⟩ := by
  induction rest generalizing done n with
  | nil =>
    refine ⟨[], [], rfl, ⟨?_, fun h => absurd rfl h⟩, ?_⟩
    · intro y hy hne
      exact absurd (suffix_nil.mp hy) hne
    · have hend : Context.untilEnd ⟨encode done, lenient⟩ start (encode done).length =
          ⟨if lenient = true then .needMoreInput else .success, start, (encode done).length,
            []⟩ := by
        unfold Context.untilEnd
        cases lenient <;> simp
      cases n with
      | zero => simpa [Context.untilFrom] using hend
      | succ n => simpa [Context.untilFrom] using hend
  | cons c rest ih =>
    have hpos : 0 < (String.utf8EncodeChar c).length :=
      length_pos_iff.mpr String.utf8EncodeChar_ne_nil
    have hdrop : (encode (done ++ c :: rest)).drop (encode done).length = encode (c :: rest) := by
      rw [encode_append, drop_left]
    rw [encode_cons, length_append] at hn
    obtain ⟨n, rfl⟩ : ∃ m, n = m + 1 := ⟨n - 1, by omega⟩
    unfold Context.untilFrom
    have hlt : (encode done).length < (encode (done ++ c :: rest)).length := by
      simp only [encode_append, encode_cons, length_append]
      omega
    rw [if_pos hlt]
    simp only [parseUtf8Codepoint, Trie.checkAt, hdrop, codepoints_encode]
    rw [encode_cons, decode_encodeChar]
    dsimp only
    -- the answer of the trie at `c`
    by_cases hm : t.checkFrom 0 ((c :: rest).map Char.toNat) = .noMatch
    · rw [hm]
      dsimp only
      have hnext : (encode done).length + (String.utf8EncodeChar c).length =
          (encode (done ++ [c])).length := by simp
      rw [hnext, append_cons]
      obtain ⟨read, left, rfl, hstop, hr⟩ := ih (done ++ [c]) (n := n) (by omega)
      refine ⟨c :: read, left, rfl, ⟨?_, hstop.stops⟩, ?_⟩
      · intro y hy hne
        obtain rfl | hy := suffix_cons_iff.mp hy
        · exact not_not_intro hm
        · exact hstop.passed y hy hne
      · rw [hr, append_cons done c read]
    · refine ⟨[], c :: rest, rfl, ⟨?_, fun _ => hm⟩, ?_⟩
      · intro y hy hne
        exact absurd (suffix_nil.mp hy) hne
      · rw [append_nil]
        split
        next h => exact absurd h hm
        next => simp

theorem StopsBehind.left_eq_nil_iff {t : Trie} {read left : List Char}
    (h : StopsBehind (fun x => t.checkFrom 0 x ≠ .noMatch) read left) :
    left = [] ↔ t.Clear (read ++ left) := by
  constructor
  · rintro rfl x hx hne
    rw [append_nil] at hx
    have := h.passed x hx hne
    rwa [append_nil, not_not] at this
  · intro hclear
    by_contra hne
    exact h.stops hne (hclear left (suffix_append read left) hne)

theorem untilFrom_encode (t : Trie) (start : Nat) (done rest : List Char)
    (hn : (encode rest).length ≤ n) {r : Result}
    (hr : Context.untilFrom ⟨encode (done ++ rest), false⟩ t start n (encode done).length = r) :
    r.type = .success ∧ (r.stop = (encode (done ++ rest)).length ↔ t.Clear rest) := by
  obtain ⟨read, left, rfl, hstop, hscan⟩ := untilFrom_stops t false start done rest hn
  rw [← hr, hscan]
  refine ⟨by simp, ?_⟩
  rw [← hstop.left_eq_nil_iff]
  cases left with
  | nil => simp
  | cons c left =>
    have hpos : 0 < (String.utf8EncodeChar c).length :=
      length_pos_iff.mpr String.utf8EncodeChar_ne_nil
    simp only [encode_append, encode_cons, length_append, reduceCtorEq, iff_false]
    omega

theorem prefix_map_toNat {a b : List Char} : a.map Char.toNat <+: b.map Char.toNat ↔ a <+: b :=
  prefix_map_iff_of_injective fun _ _ h => Char.toNat_inj.mp h

/-- No delimiter starts in the text, and no end of the text starts a delimiter. -/
def Untouched (delimiters : List (List Char)) (w : List Char) : Prop :=
  ∀ x, x <:+ w → x ≠ [] → ∀ d ∈ delimiters, ¬ d <+: x ∧ ¬ x <+: d

theorem Trie.clear_ofWords (hne : [] ∉ delimiters) (w : List Char) :
    (Trie.ofWords (delimiters.map encode)).Clear w ↔ Untouched delimiters w := by
  obtain ⟨paths, hpaths⟩ := ofWords_encode_holds delimiters
  apply forall_congr'
  intro x
  apply imp_congr_right
  intro _
  apply imp_congr_right
  intro hx
  rw [Trie.checkFrom_root hpaths (by simpa using hx) (by simpa using hne)]
  simp only [forall_mem_map, prefix_map_toNat]

/-- The arena of one `until` parser. -/
def untilArena (delimiters : List (List UInt8)) : Arena := ⟨[.untilOneOf delimiters], [], some 0⟩

/-- The strict `until` parser on a text: it succeeds, and consumes everything exactly when
the delimiters leave the text untouched. -/
theorem until_returns (hne : [] ∉ delimiters) (w : List Char) :
    ∃ r, (untilArena (delimiters.map encode)).Returns ⟨encode w, false⟩ 0 r ∧
      r.type = .success ∧ (r.stop = (encode w).length ↔ Untouched delimiters w) := by
  obtain ⟨h1, h2⟩ := untilFrom_encode (Trie.ofWords (delimiters.map encode)) 0 [] w
    (Nat.le_refl _) rfl
  exact ⟨_, ⟨1, rfl⟩, h1, h2.trans (Trie.clear_ofWords hne w)⟩

end Llama.Peg
