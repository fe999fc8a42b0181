import Mathlib.Data.List.Infix

/-!
# Parts of a text
-/

namespace Llama.Vocab

open List

/-- The `length` bytes of a text from an offset on. -/
def slice (text : List UInt8) (offset length : Nat) : List UInt8 := (text.drop offset).take length

variable {text : List UInt8}

variable {length offset : Nat}

theorem slice_length (h : offset + length ≤ text.length) :
    (slice text offset length).length = length := by
  rw [slice, length_take, length_drop]
  omega

theorem slice_split (text : List UInt8) (offset : Nat) {k : Nat} (h : k ≤ length) :
    slice text offset length = slice text offset k ++ slice text (offset + k) (length - k) := by
  obtain ⟨m, rfl⟩ := Nat.exists_eq_add_of_le h
  rw [slice, slice, slice, take_add, drop_drop, Nat.add_sub_cancel_left]

/-- A part divided into what is left of a match, the match and what is right of it. -/
theorem slice_around {base m : Nat} {pat : List UInt8} (hbm : base ≤ m)
    (hme : m + pat.length ≤ base + length) (hms : slice text m pat.length = pat) :
    slice text base length = slice text base (m - base) ++
      (pat ++ slice text (m + pat.length) (length - ((m - base) + pat.length))) := by
  have hat : base + (m - base) = m := Nat.add_sub_cancel' hbm
  have hrest : length - (m - base) - pat.length = length - ((m - base) + pat.length) := by omega
  rw [slice_split text base (show m - base ≤ length by omega), hat,
    slice_split text m (show pat.length ≤ length - (m - base) by omega), hms, hrest]

theorem slice_isInfix {o n : Nat} (h1 : offset ≤ o) (h2 : o + n ≤ offset + length) :
    slice text o n <:+: slice text offset length := by
  obtain ⟨k, rfl⟩ := Nat.exists_eq_add_of_le h1
  rw [slice_split text offset (show k ≤ length by omega),
    slice_split text (offset + k) (show n ≤ length - k by omega)]
  exact ⟨_, _, append_assoc _ _ _⟩

theorem slice_one {b : UInt8} (h : text[offset]? = some b) : slice text offset 1 = [b] := by
  rw [slice, drop_eq_getElem?_toList_append, h]
  rfl

end Llama.Vocab
