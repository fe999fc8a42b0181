import Mathlib.Algebra.Order.Group.Nat
import Llama.Peg.Unicode
import Llama.Server.Token

/-!
# Searching for stop words

What the two searches of `find_stopping_strings` find, and which texts `validate_utf8` takes for
complete.
-/

namespace Llama.Server

open List

open Llama.Peg (encode encode_cons)

section Complete

theorem charLength_le (b : UInt8) : charLength b ≤ 4 := by
  unfold charLength
  grind

/-- Every character that begins in the text ends in it. -/
def Complete (text : Bytes) : Prop :=
  ∀ front b back, text = front ++ b :: back → charLength b ≤ back.length + 1

theorem validateUtf8_eq_iff (text : Bytes) : validateUtf8 text = text.length ↔ Complete text := by
  have hget : ∀ (front back : Bytes) (b : UInt8),
      (front ++ b :: back).getD ((front ++ b :: back).length - (back.length + 1)) 0 = b := by
    intro front back b
    have hlen : (front ++ b :: back).length - (back.length + 1) = front.length := by
      rw [length_append, length_cons]
      omega
    rw [hlen, getD_eq_getElem?_getD, getElem?_append_right (Nat.le_refl _),
      Nat.sub_self, getElem?_cons_zero]
    rfl
  unfold validateUtf8
  constructor
  · rintro h front b back rfl
    by_contra hlt
    have hle := charLength_le b
    split at h
    · next i hfind =>
      obtain ⟨-, hmem, -⟩ := find?_range'_eq_some.mp hfind
      have hi := mem_range'_1.mp hmem
      omega
    · next hnone =>
      have hall := find?_range'_eq_none.mp hnone (back.length + 1) (by omega) (by
        rw [length_append, length_cons]
        omega)
      rw [hget] at hall
      simp only [Bool.not_eq_true', decide_eq_false_iff_not] at hall
      omega
  · intro h
    split
    · next i hfind =>
      obtain ⟨hlt, hmem, -⟩ := find?_range'_eq_some.mp hfind
      have hi := mem_range'_1.mp hmem
      have hpos : text.length - i < text.length := by omega
      have hsplit : text = text.take (text.length - i) ++
          text[text.length - i] :: text.drop (text.length - i + 1) := by
        rw [← drop_eq_getElem_cons hpos, take_append_drop]
      have hle := h _ _ _ hsplit
      have hgetD : text.getD (text.length - i) 0 = text[text.length - i] := by
        rw [getD_eq_getElem?_getD, getElem?_eq_getElem hpos]
        rfl
      rw [hgetD, decide_eq_true_eq] at hlt
      rw [length_drop] at hle
      omega
    · rfl

end Complete

section Search

variable {text word : Bytes} {words : List Bytes} {n pos i : Nat}

/-- The word stands there. -/
def OccursAt (text word : Bytes) (i : Nat) : Prop := word <+: text.drop i

theorem OccursAt.length_le (h : OccursAt text word i) (hne : word ≠ []) :
    i + word.length ≤ text.length := by
  have hlen := List.IsPrefix.length_le h
  have hpos := length_pos_of_ne_nil hne
  rw [length_drop] at hlen
  omega

/-- The text ends in a beginning of the stop word. -/
theorem findPartialStop_ne_none {len : Nat} (hpos : 0 < len) (hlen : len ≤ word.length)
    (h : word.take len <:+ text) : findPartialStop text word ≠ none := by
  have htake : (word.take len).length = len := by rw [length_take, Nat.min_eq_left hlen]
  have hle : len ≤ text.length := htake ▸ h.length_le
  have hlast : word.getD (len - 1) 0 = text.getLastD 0 := by
    obtain ⟨front, rfl⟩ := h
    have hne : word.take len ≠ [] := ne_nil_of_length_pos (by omega)
    rw [getLastD_eq_getLast?, getLast?_append_of_ne_nil _ hne,
      getLast?_eq_getElem?, htake, getElem?_take_of_lt (by omega),
      getD_eq_getElem?_getD]
  intro hnone
  rw [findPartialStop, Option.map_eq_none_iff, find?_eq_none] at hnone
  apply hnone len
  · rw [mem_reverse, mem_range'_1]
    omega
  · rw [hlast, beq_self_eq_true, Bool.true_and]
    exact isSuffixOf_iff_suffix.mpr h

theorem findStoppingStrings_concat (words : List Bytes) (word text : Bytes) (n : Nat)
    (full : Bool) : findStoppingStrings (words ++ [word]) text n full =
      match stopPos text n full word, findStoppingStrings words text n full with
      | some pos, some (stop, w) => if pos < stop then some (pos, word) else some (stop, w)
      | some pos, none => some (pos, word)
      | none, best => best := by
  rw [findStoppingStrings, foldl_append]
  rfl

/-- The search over all words keeps the first place. -/
theorem findStoppingStrings_spec (words : List Bytes) (text : Bytes) (n : Nat) (full : Bool) :
    (∀ pos w, findStoppingStrings words text n full = some (pos, w) →
      (w ∈ words ∧ stopPos text n full w = some pos) ∧
      ∀ w' ∈ words, ∀ pos', stopPos text n full w' = some pos' → pos ≤ pos') ∧
    (findStoppingStrings words text n full = none →
      ∀ w ∈ words, stopPos text n full w = none) := by
  induction words using List.reverseRecOn with
  | nil =>
    refine ⟨fun pos w h => ?_, fun _ w hw => ?_⟩
    · cases h
    · cases hw
  | append_singleton words word ih =>
    obtain ⟨hsome, hnone⟩ := ih
    have hsplit : ∀ {w : Bytes}, w ∈ words ++ [word] ↔ w ∈ words ∨ w = word := by simp
    rw [findStoppingStrings_concat]
    simp only [hsplit]
    cases hword : stopPos text n full word with
    | none =>
      constructor
      · intro pos w h
        obtain ⟨⟨hmem, hpos⟩, hle⟩ := hsome pos w h
        refine ⟨⟨.inl hmem, hpos⟩, ?_⟩
        rintro w' (hw' | rfl) pos' hpos'
        · exact hle w' hw' pos' hpos'
        · rw [hword] at hpos'
          cases hpos'
      · rintro h w (hw | rfl)
        · exact hnone h w hw
        · exact hword
    | some pos0 =>
      cases hbest : findStoppingStrings words text n full with
      | none =>
        refine ⟨fun pos w h => ?_, fun h => by cases h⟩
        cases h
        refine ⟨⟨.inr rfl, hword⟩, ?_⟩
        rintro w' (hw' | rfl) pos' hpos'
        · rw [hnone hbest w' hw'] at hpos'
          cases hpos'
        · rw [hword] at hpos'
          exact Nat.le_of_eq (Option.some.inj hpos')
      | some best =>
        obtain ⟨stop, w0⟩ := best
        obtain ⟨⟨hmem, hpos⟩, hle⟩ := hsome stop w0 hbest
        simp only
        split
        · next hlt =>
          refine ⟨fun pos w h => ?_, fun h => by cases h⟩
          cases h
          refine ⟨⟨.inr rfl, hword⟩, ?_⟩
          rintro w' (hw' | rfl) pos' hpos'
          · exact Nat.le_trans (Nat.le_of_lt hlt) (hle w' hw' pos' hpos')
          · rw [hword] at hpos'
            exact Nat.le_of_eq (Option.some.inj hpos')
        · next hge =>
          refine ⟨fun pos w h => ?_, fun h => by cases h⟩
          cases h
          refine ⟨⟨.inl hmem, hpos⟩, ?_⟩
          rintro w' (hw' | rfl) pos' hpos'
          · exact hle w' hw' pos' hpos'
          · rw [hword] at hpos'
            cases hpos'
            exact Nat.le_of_not_lt hge

end Search

end Llama.Server
