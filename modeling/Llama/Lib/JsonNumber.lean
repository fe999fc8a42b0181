import Llama.Lib.JsonDump

/-!
# Numbers of 64 bits in JSON

A program holds the number of a JSON text as an integer of 64 bits, with a sign or without,
or as the bits of a double. How a double is spelled is not fixed here: `FloatText` says what
is known of a spelling that can be read back.
-/

namespace Llama.Json

open List

/-- A number as a program holds it: an integer in one of the two types of 64 bits, or a
double by its bits. -/
inductive Number where
  | int (n : Int) (lo : -2 ^ 63 ≤ n) (hi : n < 2 ^ 64)
  | float (bits : UInt64)

/-- The double is not infinite and not a NaN. -/
def finite (bits : UInt64) : Bool := (bits >>> 52) &&& 0x7ff != 0x7ff

/-- The spelling of an integer: digits and a sign. -/
def isInteger (lexeme : List Char) : Bool := lexeme.all fun c => isDigit c || c = '-'

/-- The integer that is spelled. -/
def integerOf : List Char → Int
  | '-' :: digits => -(Nat.ofDigitChars 10 digits 0 : Nat)
  | digits => (Nat.ofDigitChars 10 digits 0 : Nat)

/-- How doubles are spelled. What is written has a point or an exponent and is read back. -/
structure FloatText where
  print : UInt64 → List Char
  read : List Char → UInt64
  isNumber : ∀ b, finite b = true → IsNumber (print b)
  isInteger_print : ∀ b, finite b = true → isInteger (print b) = false
  read_print : ∀ b, finite b = true → read (print b) = b

/-- The digits of an integer. -/
def intText (n : Int) : List Char :=
  if n < 0 then '-' :: Nat.toDigits 10 n.natAbs else Nat.toDigits 10 n.natAbs

/-- The number of a spelling: an integer when it fits, and a double otherwise. -/
def FloatText.num (F : FloatText) (lexeme : List Char) : Number :=
  if isInteger lexeme then
    if h : -2 ^ 63 ≤ integerOf lexeme ∧ integerOf lexeme < 2 ^ 64 then
      .int (integerOf lexeme) h.1 h.2
    else .float (F.read lexeme)
  else .float (F.read lexeme)

/-- The spelling of a number. A double that is not finite has none. -/
def FloatText.text (F : FloatText) : Number → Option (List Char)
  | .int n _ _ => some (intText n)
  | .float b => if finite b then some (F.print b) else none

theorem isDigit_of_mem_toDigits {n : Nat} {c : Char} (h : c ∈ Nat.toDigits 10 n) :
    isDigit c = true := by
  have hc := Nat.isDigit_of_mem_toDigits (by omega) (by omega) h
  simpa [Char.isDigit, isDigit, Char.le_def] using hc

/-- Only zero begins with the digit zero. -/
theorem toDigits_head (n : Nat) : ∃ c cs, Nat.toDigits 10 n = c :: cs ∧ (c = '0' → cs = []) := by
  induction n using Nat.base_induction 10 (by omega) with
  | single m hm => exact ⟨_, [], Nat.toDigits_of_lt_base hm, fun _ => rfl⟩
  | digit m k hk hm ih =>
    obtain ⟨c, cs, hcs, hzero⟩ := ih
    refine ⟨c, cs ++ Nat.toDigits 10 k, ?_, ?_⟩
    · rw [← Nat.toDigits_append_toDigits (by omega) hm hk, hcs, cons_append]
    · rintro rfl
      rw [hzero rfl] at hcs
      have hzeroed := congrArg (fun l => Nat.ofDigitChars 10 l 0) hcs
      simp [Nat.ofDigitChars_ten_toDigits, Nat.ofDigitChars_cons] at hzeroed
      omega

theorem foldlM_next_digits {cs : List Char} (h : ∀ c ∈ cs, isDigit c = true) :
    cs.foldlM Phase.next .int = some .int := by
  induction cs with
  | nil => rfl
  | cons c cs ih =>
    have hc : Phase.int.next c = some .int := by simp [Phase.next, h c (by simp)]
    rw [foldlM_cons, hc]
    exact ih fun d hd => h d (by simp [hd])

/-- Digits without a leading zero are read up to their end, from any place where they may
begin. -/
theorem foldlM_digits (start : Char → Option Phase) (hzero : start '0' = some .zero)
    (hdigit : ∀ c, isDigit c = true → c ≠ '0' → start c = some .int) (n : Nat) :
    ∃ c cs p, Nat.toDigits 10 n = c :: cs ∧
      (start c).bind (fun q => cs.foldlM Phase.next q) = some p ∧ p.complete = true := by
  obtain ⟨c, cs, hcs, hhead⟩ := toDigits_head n
  have hmem : ∀ d ∈ c :: cs, isDigit d = true := fun d hd =>
    isDigit_of_mem_toDigits (hcs ▸ hd)
  by_cases hc : c = '0'
  · refine ⟨c, cs, .zero, hcs, ?_, rfl⟩
    rw [hhead hc, hc, hzero]
    rfl
  · refine ⟨c, cs, .int, hcs, ?_, rfl⟩
    rw [hdigit c (hmem c (by simp)) hc]
    exact foldlM_next_digits fun d hd => hmem d (by simp [hd])

theorem isNumber_intText (n : Int) : IsNumber (intText n) := by
  unfold intText
  split
  · obtain ⟨c, cs, p, hcs, hp, hcomplete⟩ := foldlM_digits Phase.minus.next rfl
      (fun c hc hne => by simp [Phase.next, hc, hne]) n.natAbs
    rw [hcs]
    exact ⟨p, hp, hcomplete⟩
  · have hminus : isDigit '-' = false := rfl
    obtain ⟨c, cs, p, hcs, hp, hcomplete⟩ := foldlM_digits Phase.start rfl
      (fun c hc hne => by
        have hm : c ≠ '-' := by
          rintro rfl
          rw [hminus] at hc
          cases hc
        simp [Phase.start, hc, hne, hm]) n.natAbs
    rw [hcs]
    exact ⟨p, hp, hcomplete⟩

theorem isInteger_intText (n : Int) : isInteger (intText n) = true := by
  have hdigits : ∀ c ∈ Nat.toDigits 10 n.natAbs, (isDigit c || c = '-') = true := fun c hc => by
    simp [isDigit_of_mem_toDigits hc]
  unfold intText isInteger
  split
  · simpa using hdigits
  · exact all_eq_true.mpr hdigits

theorem integerOf_intText (n : Int) : integerOf (intText n) = n := by
  unfold intText
  split
  · rw [integerOf, Nat.ofDigitChars_ten_toDigits]
    omega
  · obtain ⟨c, cs, hcs, -⟩ := toDigits_head n.natAbs
    have hc : c ≠ '-' := by
      rintro rfl
      have hdigit := isDigit_of_mem_toDigits (n := n.natAbs) (c := '-') (hcs ▸ by simp)
      cases hdigit
    have hint : integerOf (Nat.toDigits 10 n.natAbs) =
        (Nat.ofDigitChars 10 (Nat.toDigits 10 n.natAbs) 0 : Nat) := by
      rw [hcs]
      unfold integerOf
      split
      · rename_i h
        exact absurd (List.cons.inj h).1 hc
      · rfl
    rw [hint, Nat.ofDigitChars_ten_toDigits]
    omega

/-- The value has no double without a spelling. -/
inductive Value.Finite : Value Number → Prop
  | null : Finite .null
  | bool (b : Bool) : Finite (.bool b)
  | int (n : Int) (lo : -2 ^ 63 ≤ n) (hi : n < 2 ^ 64) : Finite (.number (.int n lo hi))
  | float {b : UInt64} (h : finite b = true) : Finite (.number (.float b))
  | string (s : List Char) : Finite (.string s)
  | array {items : List (Value Number)} (h : ∀ v ∈ items, Finite v) : Finite (.array items)
  | object {members : List (List Char × Value Number)} (h : ∀ m ∈ members, Finite m.2) :
      Finite (.object members)

mutual

/-- What is written of a value: a double without a spelling becomes null. -/
def Value.kept : Value Number → Value Number
  | .number (.float b) => if finite b then .number (.float b) else .null
  | .array items => .array (keptItems items)
  | .object members => .object (keptMembers members)
  | v => v

/-- What is written of the items of an array. -/
def keptItems : List (Value Number) → List (Value Number)
  | [] => []
  | v :: rest => v.kept :: keptItems rest

/-- What is written of the members of an object. -/
def keptMembers : List (List Char × Value Number) → List (List Char × Value Number)
  | [] => []
  | (k, v) :: rest => (k, v.kept) :: keptMembers rest

end

theorem keptItems_eq_map (items : List (Value Number)) :
    keptItems items = items.map Value.kept := by
  induction items with
  | nil => rfl
  | cons v rest ih => exact congrArg (v.kept :: ·) ih

theorem keptMembers_eq_map (members : List (List Char × Value Number)) :
    keptMembers members = members.map fun m => (m.1, m.2.kept) := by
  induction members with
  | nil => rfl
  | cons m rest ih => exact congrArg ((m.1, m.2.kept) :: ·) ih

theorem Value.kept_array (items : List (Value Number)) :
    (Value.array items).kept = .array (items.map Value.kept) :=
  congrArg Value.array (keptItems_eq_map items)

theorem Value.kept_object (members : List (List Char × Value Number)) :
    (Value.object members).kept = .object (members.map fun m => (m.1, m.2.kept)) :=
  congrArg Value.object (keptMembers_eq_map members)

theorem Value.kept_float (b : UInt64) : (Value.number (.float b)).kept =
    if finite b then .number (.float b) else .null := rfl

theorem Value.finite_kept (v : Value Number) : v.kept.Finite := by
  induction v with
  | null => exact .null
  | bool b => exact .bool b
  | number x =>
    cases x with
    | int n lo hi => exact .int n lo hi
    | float b =>
      rw [Value.kept_float]
      split
      · rename_i hb
        exact .float hb
      · exact .null
  | string s => exact .string s
  | array items ih =>
    rw [Value.kept_array]
    refine .array fun v hv => ?_
    obtain ⟨u, hu, rfl⟩ := mem_map.mp hv
    exact ih u hu
  | object members ih =>
    rw [Value.kept_object]
    refine .object fun m hm => ?_
    obtain ⟨u, hu, rfl⟩ := mem_map.mp hm
    exact ih u hu

theorem Value.Finite.kept_eq {v : Value Number} (h : v.Finite) : v.kept = v := by
  induction h with
  | null | bool | int | string => rfl
  | float hb => exact if_pos hb
  | @array items h ih => rw [Value.kept_array, map_congr_left ih, map_id']
  | @object members h ih =>
    rw [Value.kept_object, map_congr_left fun m hm => congrArg (Prod.mk m.1) (ih m hm)]
    exact congrArg _ (map_id members)

theorem Value.Sorted.kept {v : Value Number} (h : v.Sorted) : v.kept.Sorted := by
  induction h with
  | null => exact .null
  | bool b => exact .bool b
  | number x =>
    cases x with
    | int n lo hi => exact .number _
    | float b =>
      rw [Value.kept_float]
      split
      · exact .number _
      · exact .null
  | string s => exact .string s
  | array h ih =>
    rw [Value.kept_array]
    refine .array fun v hv => ?_
    obtain ⟨u, hu, rfl⟩ := mem_map.mp hv
    exact ih u hu
  | object hk h ih =>
    rw [Value.kept_object]
    refine .object (pairwise_map.mpr hk) fun m hm => ?_
    obtain ⟨u, hu, rfl⟩ := mem_map.mp hm
    exact ih u hu

theorem Value.tree_kept (F : FloatText) (v : Value Number) :
    v.kept.tree F.text = v.tree F.text := by
  induction v with
  | null | bool | string => rfl
  | number x =>
    cases x with
    | int n lo hi => rfl
    | float b =>
      rw [Value.kept_float]
      split
      · rfl
      · rename_i hb
        simp only [Value.tree, FloatText.text, if_neg hb]
  | array items ih =>
    rw [Value.kept_array, Value.tree, Value.tree]
    congr 1
    induction items with
    | nil => rfl
    | cons v rest ihr =>
      rw [map_cons, itemTrees, itemTrees, ih v (by simp), ihr fun u hu => ih u (by simp [hu])]
  | object members ih =>
    rw [Value.kept_object, Value.tree, Value.tree]
    congr 1
    induction members with
    | nil => rfl
    | cons m rest ihr =>
      rw [map_cons, memberTrees, memberTrees, ih m (by simp), ihr fun u hu => ih u (by simp [hu])]

/-- A finite value whose keys are in order is read back. -/
theorem Value.Finite.faithful (F : FloatText) {v : Value Number} (h : v.Finite)
    (hs : v.Sorted) : v.Faithful F.num F.text := by
  induction h with
  | null => exact .null
  | bool b => exact .bool b
  | int n lo hi =>
    refine .number rfl (isNumber_intText n) ?_
    unfold FloatText.num
    rw [if_pos (isInteger_intText n), dif_pos (by rw [integerOf_intText]; exact ⟨lo, hi⟩)]
    congr 1
    exact integerOf_intText n
  | @float b hb =>
    refine .number (by simp only [FloatText.text, hb, if_true]) (F.isNumber b hb) ?_
    rw [FloatText.num, if_neg (by simp [F.isInteger_print b hb]), F.read_print b hb]
  | string s => exact .string s
  | array h ih =>
    cases hs with
    | array hs => exact .array fun v hv => ih v hv (hs v hv)
  | object h ih =>
    cases hs with
    | object hk hs => exact .object hk.nodup fun m hm => ih m hm (hs m hm)

/-- A value whose keys are in order is read back up to the doubles without a spelling. -/
theorem Value.Sorted.parse_dump (F : FloatText) {v : Value Number} (h : v.Sorted) :
    parse F.num (dump F.text v) = some v.kept := by
  rw [dump, ← v.tree_kept F]
  exact Json.parse_dump (v.finite_kept.faithful F h.kept)

end Llama.Json
