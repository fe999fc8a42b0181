import Mathlib.Data.List.TakeWhile
import Mathlib.Algebra.Order.Ring.Int

/-!
# Texts

What the sources in `common` use of `std::string`: a string is the list of its characters.
-/

namespace Llama.Common

open List

/-- A `std::string`. -/
abbrev Str := List Char

/-- A string literal of the source. -/
def str (s : String) : Str := s.toList

/-- `std::to_string` of a natural number. -/
def natText (n : Nat) : Str := Nat.toDigits 10 n

/-- `std::to_string`. -/
def intText (n : Int) : Str := if n < 0 then '-' :: natText n.natAbs else natText n.natAbs

def stringJoin (values : List Str) (separator : Str) : Str := separator.intercalate values

def stringRepeat (s : Str) (n : Nat) : Str := (replicate n s).flatten

/-- `std::numeric_limits<int>::max()`. -/
def intMax : Int := 2 ^ 31 - 1

/-- The exceptions of `std::stoi`. -/
inductive StoiError where
  | invalidArgument
  | outOfRange
  deriving DecidableEq, Repr

/-- `std::isspace` in the C locale. -/
def isSpace (c : Char) : Bool := c = ' ' || ('\t' ≤ c && c ≤ '\r')

/-- The value of decimal digits. -/
def digitsValue (s : Str) : Nat := s.foldl (fun n c => n * 10 + (c.toNat - '0'.toNat)) 0

/-- The sign of a number, and what follows it. -/
def readSign : Str → Int × Str
  | '-' :: s => (-1, s)
  | '+' :: s => (1, s)
  | s => (1, s)

/-- `std::stoi`: leading space, a sign and the digits; what follows them is not looked at. -/
def stoi (s : Str) : Except StoiError Int :=
  let (sign, s) := readSign (s.dropWhile isSpace)
  let digits := s.takeWhile Char.isDigit
  if digits = [] then .error .invalidArgument
  else
    let n := sign * digitsValue digits
    if -(2 ^ 31) ≤ n ∧ n ≤ intMax then .ok n else .error .outOfRange

theorem natText_injective : Function.Injective natText := by
  intro a b h
  have := congrArg (fun s => Nat.ofDigitChars 10 s 0) h
  simpa only [natText, Nat.ofDigitChars_ten_toDigits] using this

theorem isDigit_natText {n : Nat} {c : Char} (h : c ∈ natText n) : c.isDigit = true :=
  Nat.isDigit_of_mem_toDigits (by decide) (by decide) h

theorem natText_ne_nil (n : Nat) : natText n ≠ [] := Nat.toDigits_ne_nil

theorem digitsValue_natText (n : Nat) : digitsValue (natText n) = n := by
  have h : Nat.ofDigitChars 10 (natText n) 0 = n := Nat.ofDigitChars_ten_toDigits
  rw [Nat.ofDigitChars_eq_foldl] at h
  rw [digitsValue]
  simpa only [Nat.mul_comm] using h

/-- `stoi` reads what `to_string` writes. -/
theorem stoi_natText {n : Nat} (hn : (n : Int) ≤ intMax) : stoi (natText n) = .ok n := by
  have hdigits : ∀ c ∈ natText n, c.isDigit = true := fun c => isDigit_natText
  cases htext : natText n with
  | nil => exact absurd htext (natText_ne_nil n)
  | cons c s =>
    rw [htext] at hdigits
    have hc := hdigits c mem_cons_self
    have hspace : isSpace c = false := by
      simp only [Char.isDigit, Bool.and_eq_true, decide_eq_true_eq] at hc
      rw [isSpace, Bool.or_eq_false_iff, Bool.and_eq_false_iff, decide_eq_false_iff_not,
        decide_eq_false_iff_not, decide_eq_false_iff_not]
      constructor
      · rintro rfl
        exact absurd hc.1 (by decide)
      · right
        intro hle
        exact absurd (Nat.le_trans hc.1 hle) (by decide)
    have hsign : readSign (c :: s) = (1, c :: s) := by
      unfold readSign
      split
      next heq =>
        obtain ⟨rfl, -⟩ := List.cons.inj heq
        exact absurd hc (by decide)
      next heq =>
        obtain ⟨rfl, -⟩ := List.cons.inj heq
        exact absurd hc (by decide)
      next => rfl
    have hvalue : digitsValue (c :: s) = n := by rw [← htext, digitsValue_natText]
    rw [stoi, dropWhile_cons_of_neg (by simp [hspace]), hsign]
    dsimp only
    rw [takeWhile_eq_self_iff.mpr hdigits, if_neg (by simp), hvalue, Int.one_mul, if_pos]
    exact ⟨by omega, hn⟩

end Llama.Common
