import Llama.Schema.Spelling

/-!
# Rules for bounded integers

`build_min_max_int` writes a rule for the integers between two bounds, digit by digit. A bound
that is missing is the least or the greatest 64-bit number.
-/

namespace Llama.Schema

open Common

/-- `std::numeric_limits<int64_t>::min()`. -/
def int64Min : Int := -2 ^ 63

/-- `std::numeric_limits<int64_t>::max()`. -/
def int64Max : Int := 2 ^ 63 - 1

def succChar (c : Char) : Char := Char.ofNat (c.toNat + 1)

def predChar (c : Char) : Char := Char.ofNat (c.toNat - 1)

def digitRange (from_ to_ : Char) : Str :=
  str "[" ++ (if from_ = to_ then [from_] else [from_] ++ str "-" ++ [to_]) ++ str "]"

def moreDigits (minDigits maxDigits : Nat) : Str :=
  str "[0-9]" ++
    if minDigits = maxDigits ∧ minDigits = 1 then []
    else str "\x7b" ++ natText minDigits ++
      (if maxDigits ≠ minDigits then
        str "," ++ (if (maxDigits : Int) ≠ intMax then natText maxDigits else [])
      else []) ++ str "\x7d"

/-- The first loop of `uniform_range`: how many characters agree. -/
def commonLength : Str → Str → Nat
  | a :: s, b :: t => if a = b then commonLength s t + 1 else 0
  | _, _ => 0

/-- `uniform_range`. The first argument bounds the depth; the texts get shorter. -/
def uniformRangeFrom : Nat → Str → Str → Str
  | 0, _, _ => []
  | fuel + 1, from_, to_ =>
    let i := commonLength from_ to_
    (if 0 < i then str "\"" ++ from_.take i ++ str "\"" else []) ++
      match from_.drop i, to_.drop i with
      | a :: fromSub, b :: toSub =>
        let subLen := from_.length - i - 1
        let subZeros := stringRepeat (str "0") subLen
        let subNines := stringRepeat (str "9") subLen
        (if 0 < i then str " " else []) ++
          if 0 < subLen then
            let last :=
              str " | " ++ digitRange b b ++ str " " ++ uniformRangeFrom fuel subZeros toSub
            str "(" ++
              (if fromSub = subZeros then
                digitRange a (predChar b) ++ str " " ++ moreDigits subLen subLen ++ last
              else
                str "[" ++ [a] ++ str "] " ++ str "(" ++ uniformRangeFrom fuel fromSub subNines ++
                  str ")" ++
                  if a < predChar b then
                    str " | " ++
                      if toSub = subNines then
                        digitRange (succChar a) b ++ str " " ++ moreDigits subLen subLen
                      else
                        digitRange (succChar a) (predChar b) ++ str " " ++
                          moreDigits subLen subLen ++ last
                  else last) ++
              str ")"
          else str "[" ++ [a] ++ str "-" ++ [b] ++ str "]"
      | _, _ => []

def uniformRange (from_ to_ : Str) : Str := uniformRangeFrom (from_.length + 1) from_ to_

/-- The loop over the numbers of digits, and what follows it: `n` numbers of digits are left. -/
def digitsLoop (maxS : Str) : Nat → Nat → Str → Str
  | 0, _, minS => uniformRange minS maxS
  | n + 1, digits, minS =>
    uniformRange minS (stringRepeat (str "9") digits) ++ str " | " ++
      digitsLoop maxS n (digits + 1) (str "1" ++ stringRepeat (str "0") digits)

/-- What `build_min_max_int` throws. -/
inductive BuildError where
  | noBound
  /-- The depth of the model was not enough; the source has no such error. -/
  | fuel
  deriving DecidableEq, Repr

/-- `build_min_max_int`. The first argument bounds the depth of the calls. -/
def buildMinMaxIntFrom : Nat → Int → Int → Nat → Bool → Except BuildError Str
  | 0, _, _, _, _ => .error .fuel
  | fuel + 1, minValue, maxValue, decimalsLeft, topLevel =>
    let hasMin := minValue ≠ int64Min
    let hasMax := maxValue ≠ int64Max
    if hasMin ∧ hasMax then
      if minValue < 0 ∧ maxValue < 0 then
        (buildMinMaxIntFrom fuel (-maxValue) (-minValue) decimalsLeft true).map fun inner =>
          str "\"-\" (" ++ inner ++ str ")"
      else if minValue < 0 then
        (buildMinMaxIntFrom fuel 0 (-minValue) decimalsLeft true).map fun inner =>
          let maxS := natText maxValue.toNat
          str "\"-\" (" ++ inner ++ str ") | " ++
            digitsLoop maxS (maxS.length - (natText 0).length) (natText 0).length (natText 0)
      else
        let minS := natText minValue.toNat
        let maxS := natText maxValue.toNat
        .ok (digitsLoop maxS (maxS.length - minS.length) minS.length minS)
    else
      let lessDecimals := max (decimalsLeft - 1) 1
      if hasMin then
        if minValue < 0 then
          (buildMinMaxIntFrom fuel int64Min (-minValue) decimalsLeft false).map fun inner =>
            str "\"-\" (" ++ inner ++ str ") | [0] | [1-9] " ++ moreDigits 0 (decimalsLeft - 1)
        else if minValue = 0 then
          if topLevel then .ok (str "[0] | [1-9] " ++ moreDigits 0 lessDecimals)
          else .ok (moreDigits 1 decimalsLeft)
        else if minValue ≤ 9 then
          let c := Char.ofNat ('0'.toNat + minValue.toNat)
          let rangeStart := if topLevel then '1' else '0'
          .ok ((if rangeStart < c then
              digitRange rangeStart (predChar c) ++ str " " ++
                moreDigits 1 lessDecimals ++ str " | "
            else []) ++
            digitRange c '9' ++ str " " ++ moreDigits 0 lessDecimals)
        else
          let minS := natText minValue.toNat
          let len := minS.length
          let c := minS.headD '0'
          (buildMinMaxIntFrom fuel (digitsValue minS.tail) int64Max lessDecimals false).map
            fun inner =>
              (if '1' < c then
                digitRange (if topLevel then '1' else '0') (predChar c) ++ str " " ++
                  moreDigits len lessDecimals ++ str " | "
              else []) ++
              digitRange c c ++ str " (" ++ inner ++ str ")" ++
              if c < '9' then
                str " | " ++ digitRange (succChar c) '9' ++ str " " ++
                  moreDigits (len - 1) lessDecimals
              else []
      else if hasMax then
        if 0 ≤ maxValue then
          (buildMinMaxIntFrom fuel 0 maxValue decimalsLeft true).map fun inner =>
            (if topLevel then str "\"-\" [1-9] " ++ moreDigits 0 lessDecimals ++ str " | "
              else []) ++
              inner
        else
          (buildMinMaxIntFrom fuel (-maxValue) int64Max decimalsLeft false).map fun inner =>
            str "\"-\" (" ++ inner ++ str ")"
      else .error .noBound

/-- `build_min_max_int` with its defaults. A 64-bit number has at most 19 digits, and a call takes
away a sign or a digit. -/
def buildMinMaxInt (minValue maxValue : Int) : Except BuildError Str :=
  buildMinMaxIntFrom 24 minValue maxValue 16 true

example : buildMinMaxInt 15 300 = .ok (str
    "([1] ([5-9]) | [2-9] [0-9]) | ([1-2] [0-9]\x7b2\x7d | [3] \"00\")") := by
  decide

end Llama.Schema
