import Llama.Grammar.Accept
import Llama.Grammar.Parsed
import Llama.Peg.Exclude

/-!
# Character classes

Two parsers read the text `[...]` of a character class: `parse_char_classes` for the PEG
parser, byte by byte, and `parse_sequence` for the grammar, character by character. A third
function writes the text of a class. On ASCII the two parsers see the same items.
-/

namespace Llama.Peg

open List

open Grammar (Text ParseError Element GreType Item Terminal FollowsClass parseChar parseClass
  parseHexLoop hexValue byte peek)

/-- The loop of `parse_hex_escape`; `is_hex_digit` says that a digit has a value. -/
def hexEscapeFrom (hexCount : Nat) : Nat → List UInt8 → Nat → Nat × Nat
  | 0, _, value => (value, hexCount)
  | _ + 1, [], _ => (0, 0)
  | n + 1, c :: str, value =>
    match hexValue c with
    | some d => hexEscapeFrom hexCount n str (value * 16 + d)
    | none => (0, 0)

/-- `parse_hex_escape` on the bytes from `pos` on: the value and the number of digits. -/
def parseHexEscape (str : List UInt8) (hexCount : Nat) : Nat × Nat :=
  if str.length < hexCount then (0, 0) else hexEscapeFrom hexCount hexCount str 0

/-- The escapes `\\x`, `\\u` and `\\U`: without their digits they are the letter itself. -/
def hexOrLetter (letter : UInt8) (str : List UInt8) (hexCount : Nat) : Nat × Nat :=
  let result := parseHexEscape str hexCount
  if 0 < result.2 then (result.1, 2 + result.2) else (letter.toNat, 2)

/-- `static_cast<uint32_t>(c)` of a signed `char`. -/
def signedCast (c : UInt8) : Nat := if c < 0x80 then c.toNat else 2 ^ 32 - 256 + c.toNat

/-- `parse_char_class_char` on the bytes from `pos` on: the value and the bytes read. -/
def parseCharClassChar : List UInt8 → Nat × Nat
  | [] => (0, 1)
  | [b] => (b.toNat, 1)
  | b :: c :: rest =>
    if b = byte '\\' then
      if c = byte 'x' then hexOrLetter c rest 2
      else if c = byte 'u' then hexOrLetter c rest 4
      else if c = byte 'U' then hexOrLetter c rest 8
      else if c = byte 'n' then (10, 2)
      else if c = byte 't' then (9, 2)
      else if c = byte 'r' then (13, 2)
      else (signedCast c, 2)
    else (b.toNat, 1)

/-- The loop of `parse_char_classes`. Each turn reads a byte or more. -/
def charRangesFrom : Nat → List UInt8 → List CharRange
  | 0, _ => []
  | _ + 1, [] => []
  | n + 1, b :: bs =>
    let start := parseCharClassChar (b :: bs)
    match (b :: bs).drop start.2 with
    | d :: e :: rest =>
      if d = byte '-' then
        let stop := parseCharClassChar (e :: rest)
        ⟨start.1, stop.1⟩ :: charRangesFrom n ((e :: rest).drop stop.2)
      else ⟨start.1, start.1⟩ :: charRangesFrom n (d :: e :: rest)
    | rest => ⟨start.1, start.1⟩ :: charRangesFrom n rest

/-- `parse_char_classes`: the ranges, and whether the class is negated. -/
def parseCharClasses (classes : List UInt8) : List CharRange × Bool :=
  let content := if classes.head? = some (byte '[') then classes.tail else classes
  let content := if content.getLast? = some (byte ']') then content.dropLast else content
  if content.head? = some (byte '^') then
    (charRangesFrom content.tail.length content.tail, true)
  else (charRangesFrom content.length content, false)

/-- The branch of `parse_sequence` for a class: the elements and the text behind it. -/
def gbnfClass (text : Text) : Except ParseError (List Element × Text) :=
  let pos := text.tail
  if peek pos = byte '^' then parseClass (pos.length + 1) .charNot pos.tail
  else parseClass (pos.length + 1) .char pos

private theorem gbnfClass_cons (pos : Text) : gbnfClass (byte '[' :: pos) =
    if peek pos = byte '^' then parseClass (pos.length + 1) .charNot pos.tail
    else parseClass (pos.length + 1) .char pos := rfl

private theorem parseItem_gbnfClass (vocab : Option (Text → List Nat))
    (alternates : Text → Nat → Grammar.ParserM Text) (ruleName : Text) (isNested : Bool)
    (s : Grammar.Sequence) {text : Text} (h : peek text = byte '[') :
    Grammar.parseItem vocab alternates ruleName isNested s text =
      Grammar.ParserM.lift (gbnfClass text) >>= fun r =>
        pure (some (s.push r.1, Grammar.parseSpace r.2 isNested)) := by
  have hq : peek text ≠ byte '"' := by
    rw [h]
    decide
  rw [Grammar.parseItem]
  simp only [if_neg hq, if_pos h]
  rfl

/-- The code points that the matcher accepts at the elements of a rule. -/
def gbnfMatches (es : List Element) (cp : Nat) : Bool :=
  match Grammar.matchChar [es ++ [⟨.end_, 0⟩]] ⟨0, 0⟩ cp with
  | .ok r => r.1
  | .error _ => false

/-- The elements of the items of a class whose first one has the type `type`. -/
def classElements (type : GreType) : List Item → List Element
  | [] => []
  | first :: rest => first.elements type ++ rest.flatMap (Item.elements .charAlt)

private theorem classElements_charAlt (items : List Item) :
    classElements .charAlt items = items.flatMap (Item.elements .charAlt) := by
  cases items <;> rfl

/-- The type of the first element of a class. -/
def classType (negated : Bool) : GreType := if negated then .charNot else .char

/-- The matcher accepts what the items hold, or what they do not hold; a class without
items is no element, and nothing is read by it. -/
theorem gbnfMatches_classElements (negated : Bool) (items : List Item) (cp : Nat) :
    gbnfMatches (classElements (classType negated) items) cp =
      (decide (items ≠ []) && (items.any (Item.holds cp) != negated)) := by
  unfold gbnfMatches
  cases items with
  | nil => rfl
  | cons first rest =>
    have hne : classType negated ≠ .charAny := by cases negated <;> simp [classType]
    have hend : FollowsClass ⟨.end_, 0⟩ := by simp [FollowsClass]
    have hloop : Grammar.matchLoop cp false (first.elements (classType negated) ++
        rest.flatMap (Item.elements .charAlt) ++ [⟨.end_, 0⟩]) = _ :=
      Grammar.matchLoop_items cp rest first hne false hend
    have hfrom : Grammar.Rules.from [classElements (classType negated) (first :: rest) ++
        [⟨.end_, 0⟩]] ⟨0, 0⟩ = classElements (classType negated) (first :: rest) ++
          [⟨.end_, 0⟩] := rfl
    have htype : (Grammar.Rules.elem [classElements (classType negated) (first :: rest) ++
        [⟨.end_, 0⟩]] ⟨0, 0⟩).type = classType negated := by
      rw [Grammar.Rules.elem, hfrom]
      cases first <;> rfl
    simp only [Grammar.matchChar, Grammar.isPositiveChar, htype]
    rw [hfrom, classElements, hloop]
    cases negated
    · simp [classType]
    · have hpos : (GreType.charNot == GreType.char || GreType.charNot == GreType.charAny) = false :=
        rfl
      simp [classType, hpos]

def itemRange : Item → CharRange
  | .char c => ⟨c, c⟩
  | .range lo hi => ⟨lo, hi⟩

private theorem itemRange_contains (i : Item) (cp : Nat) :
    (itemRange i).contains cp = i.holds cp := by
  cases i with
  | char c =>
    rw [itemRange, CharRange.contains, Item.holds, Bool.eq_iff_iff]
    simp only [Bool.and_eq_true, decide_eq_true_eq, beq_iff_eq]
    omega
  | range lo hi => rfl

variable {n v value fuel w c : Nat} {pos pos' tail : Text} {b : UInt8} {es : List Element}
  {content taken : List UInt8} {cs : List Nat}

private theorem hexEscapeFrom_of_parseHexLoop (h : parseHexLoop n pos value = some (v, pos'))
    (hexCount : Nat) :
    ∃ digits, pos = digits ++ pos' ∧ digits.length = n ∧
      ∀ tail, hexEscapeFrom hexCount n (digits ++ tail) value = (v, hexCount) := by
  induction n generalizing pos value with
  | zero =>
    cases h
    exact ⟨[], rfl, rfl, fun tail => rfl⟩
  | succ n ih =>
    cases pos with
    | nil => cases h
    | cons c pos =>
      rw [parseHexLoop] at h
      cases hd : hexValue c with
      | none =>
        rw [hd] at h
        cases h
      | some d =>
        rw [hd] at h
        obtain ⟨digits, rfl, hlen, htail⟩ := ih h
        refine ⟨c :: digits, rfl, by simp [hlen], fun tail => ?_⟩
        rw [cons_append, hexEscapeFrom, hd]
        exact htail tail

private theorem hexOrLetter_of_parseHex (hn : 0 < n) (h : Grammar.parseHex pos n = .ok (v, pos'))
    (letter : UInt8) :
    ∃ digits, pos = digits ++ pos' ∧
      ∀ tail, hexOrLetter letter (digits ++ tail) n = (v, 2 + digits.length) := by
  rw [Grammar.parseHex] at h
  split at h
  next r hr =>
    cases h
    obtain ⟨digits, rfl, hlen, htail⟩ := hexEscapeFrom_of_parseHexLoop hr n
    refine ⟨digits, rfl, fun tail => ?_⟩
    have hlong : ¬ (digits ++ tail).length < n := by
      rw [length_append]
      omega
    rw [hexOrLetter, parseHexEscape, if_neg hlong, htail, if_pos hn, hlen]
  next => cases h

private theorem decodeUtf8Char_ascii (h : b.toNat < 0x80) (bs : Text) :
    Grammar.decodeUtf8Char b bs = (b.toNat, bs) := by
  have h12 : b.toNat / 16 < 12 := by omega
  rw [Grammar.decodeUtf8Char]
  simp only [if_pos h12]
  change Grammar.decodeTail 0 bs (b.toNat % 128) = _
  rw [Nat.mod_eq_of_lt h]
  cases bs <;> rfl

/-- On ASCII a character is one byte or an escape that both parsers know. -/
theorem parseChar_ascii (hascii : ∀ b ∈ pos, b < 0x80) (h : parseChar pos = .ok (v, pos')) :
    ∃ b taken, pos = b :: taken ++ pos' ∧
      ∀ tail, parseCharClassChar (b :: taken ++ tail) = (v, (b :: taken).length) := by
  cases pos with
  | nil => cases h
  | cons b bs =>
    unfold parseChar at h
    dsimp only at h
    by_cases hb : b = byte '\\'
    · rw [if_pos hb] at h
      cases bs with
      | nil => cases h
      | cons c bs =>
        dsimp only at h
        -- the escapes with digits
        have hex : ∀ n, 0 < n → Grammar.parseHex bs n = .ok (v, pos') →
            (∀ rest, parseCharClassChar (b :: c :: rest) = hexOrLetter c rest n) →
            ∃ b' taken, b :: c :: bs = b' :: taken ++ pos' ∧
              ∀ tail, parseCharClassChar (b' :: taken ++ tail) = (v, (b' :: taken).length) := by
          intro n hn hp hclass
          obtain ⟨digits, rfl, htail⟩ := hexOrLetter_of_parseHex hn hp c
          refine ⟨b, c :: digits, rfl, fun tail => ?_⟩
          rw [cons_append, cons_append, hclass, htail]
          simp only [length_cons]
          congr 1
          omega
        have one : ∀ value, (.ok (value, bs) : Except ParseError (Nat × Text)) = .ok (v, pos') →
            (∀ rest, parseCharClassChar (b :: c :: rest) = (value, 2)) →
            ∃ b' taken, b :: c :: bs = b' :: taken ++ pos' ∧
              ∀ tail, parseCharClassChar (b' :: taken ++ tail) = (v, (b' :: taken).length) := by
          intro value hv hclass
          cases hv
          exact ⟨b, [c], rfl, fun tail => hclass tail⟩
        simp only [parseCharClassChar, if_pos hb] at hex one
        by_cases hx : c = byte 'x'
        · rw [if_pos hx] at h
          exact hex 2 (by omega) h fun rest => by rw [if_pos hx]
        rw [if_neg hx] at h
        simp only [if_neg hx] at hex one
        by_cases hu : c = byte 'u'
        · rw [if_pos hu] at h
          exact hex 4 (by omega) h fun rest => by rw [if_pos hu]
        rw [if_neg hu] at h
        simp only [if_neg hu] at hex one
        by_cases hU : c = byte 'U'
        · rw [if_pos hU] at h
          exact hex 8 (by omega) h fun rest => by rw [if_pos hU]
        rw [if_neg hU] at h
        simp only [if_neg hU] at one
        by_cases ht : c = byte 't'
        · rw [if_pos ht] at h
          exact one 9 h fun rest => by rw [if_neg (by rw [ht]; decide), if_pos ht]
        rw [if_neg ht] at h
        by_cases hr : c = byte 'r'
        · rw [if_pos hr] at h
          exact one 13 h fun rest => by
            rw [if_neg (by rw [hr]; decide), if_neg ht, if_pos hr]
        rw [if_neg hr] at h
        by_cases hn : c = byte 'n'
        · rw [if_pos hn] at h
          exact one 10 h fun rest => by rw [if_pos hn]
        rw [if_neg hn] at h
        split at h
        next =>
          have hc : c < 0x80 := hascii c (by simp)
          exact one c.toNat h fun rest => by
            rw [if_neg hn, if_neg ht, if_neg hr, signedCast, if_pos hc]
        next => cases h
    · rw [if_neg hb] at h
      have hlt : b.toNat < 0x80 := hascii b (by simp)
      rw [decodeUtf8Char_ascii hlt] at h
      cases h
      refine ⟨b, [], rfl, fun tail => ?_⟩
      cases tail with
      | nil => rfl
      | cons c tail =>
        rw [cons_append, nil_append, parseCharClassChar, if_neg hb]
        rfl

/-- A `-` in front of a bracket is an item of its own, and the bracket is the end. -/
theorem parseClass_dash {type : GreType} {more : Text}
    (h : parseClass fuel type (byte '-' :: byte ']' :: more) = .ok (es, [])) : more = [] := by
  cases fuel with
  | zero => cases h
  | succ fuel =>
    have hread : parseChar (byte '-' :: byte ']' :: more) = .ok (45, byte ']' :: more) := rfl
    rw [parseClass] at h
    have hpeek : peek (byte '-' :: byte ']' :: more) ≠ byte ']' := (by decide : byte '-' ≠ byte ']')
    rw [if_neg hpeek, if_neg (by simp), hread] at h
    cases fuel with
    | zero => cases h
    | succ fuel =>
      cases h
      rfl

private theorem charRangesFrom_single
    (hfirst : parseCharClassChar (b :: taken ++ content) = (value, (b :: taken).length))
    (hdash : ∀ e rest, content ≠ byte '-' :: e :: rest) (n : Nat) :
    charRangesFrom (n + 1) (b :: taken ++ content) =
      ⟨value, value⟩ :: charRangesFrom n content := by
  rw [cons_append] at hfirst
  rw [cons_append, charRangesFrom, hfirst]
  simp only [← cons_append, drop_left]
  split
  next d e rest =>
    have hd : d ≠ byte '-' := by
      rintro rfl
      exact hdash e rest rfl
    rw [if_neg hd]
  next => rfl

private theorem charRangesFrom_range {e : UInt8} {taken₂ : List UInt8} {upper : Nat}
    (hfirst : parseCharClassChar (b :: taken ++ byte '-' :: (e :: taken₂ ++ content)) =
      (value, (b :: taken).length))
    (hsecond : parseCharClassChar (e :: taken₂ ++ content) = (upper, (e :: taken₂).length))
    (n : Nat) :
    charRangesFrom (n + 1) (b :: taken ++ byte '-' :: (e :: taken₂ ++ content)) =
      ⟨value, upper⟩ :: charRangesFrom n content := by
  rw [cons_append] at hfirst
  rw [cons_append, charRangesFrom, hfirst]
  simp only [← cons_append, drop_left]
  change (if byte '-' = byte '-' then
    CharRange.mk value (parseCharClassChar (e :: taken₂ ++ content)).1 :: charRangesFrom n
      ((e :: taken₂ ++ content).drop (parseCharClassChar (e :: taken₂ ++ content)).2)
    else _) = _
  rw [if_pos rfl, hsecond, drop_left]

/-- On ASCII both parsers read the same items up to the bracket at the end. -/
theorem parseClass_ascii {type : GreType} (hascii : ∀ b ∈ pos, b < 0x80)
    (h : parseClass fuel type pos = .ok (es, [])) :
    ∃ content items, pos = content ++ [byte ']'] ∧ es = classElements type items ∧
      ∀ n, content.length ≤ n → charRangesFrom n content = items.map itemRange := by
  induction fuel generalizing type pos es with
  | zero => cases h
  | succ fuel ih =>
    rw [parseClass] at h
    by_cases hend : peek pos = byte ']'
    · rw [if_pos hend] at h
      cases pos with
      | nil => cases hend
      | cons b bs =>
        cases hend
        cases h
        refine ⟨[], [], rfl, rfl, fun n hn => ?_⟩
        cases n <;> rfl
    rw [if_neg hend] at h
    by_cases hnil : pos = []
    · rw [if_pos hnil] at h
      cases h
    rw [if_neg hnil] at h
    obtain ⟨⟨value, pos₁⟩, hread, hbody⟩ := Loop.bind_ok.mp h
    clear h
    obtain ⟨b, taken, rfl, hclass⟩ := parseChar_ascii hascii hread
    dsimp only at hbody
    have hascii₁ : ∀ b ∈ pos₁, b < 0x80 := fun b hb => hascii b (by simp [hb])
    by_cases hdash : peek pos₁ = byte '-' ∧ peek pos₁.tail ≠ byte ']'
    · -- a range
      rw [if_pos hdash] at hbody
      split at hbody
      next => cases hbody
      obtain ⟨⟨upper, pos₂⟩, hread₂, hbody⟩ := Loop.bind_ok.mp hbody
      obtain ⟨⟨es', pos₃⟩, hrest, hbody⟩ := Loop.bind_ok.mp hbody
      cases hbody
      cases pos₁ with
      | nil => exact absurd hdash.1 (by decide)
      | cons d pos₁ =>
        obtain ⟨hd, -⟩ := hdash
        obtain rfl : d = byte '-' := hd
        have hascii₂ : ∀ b ∈ pos₁, b < 0x80 := fun b hb => hascii₁ b (mem_cons_of_mem _ hb)
        obtain ⟨e, taken₂, hpos₁, hclass₂⟩ := parseChar_ascii hascii₂ hread₂
        obtain rfl : pos₁ = e :: taken₂ ++ pos₂ := hpos₁
        obtain ⟨content, items, rfl, hes, hranges⟩ :=
          ih (fun b hb => hascii₂ b (by simp [hb])) hrest
        refine ⟨b :: taken ++ byte '-' :: (e :: taken₂ ++ content), .range value upper :: items,
          by simp, ?_, fun n hn => ?_⟩
        · rw [hes, classElements_charAlt]
          rfl
        · obtain ⟨n, rfl⟩ : ∃ m, n = m + 1 := ⟨n - 1, by simp at hn; omega⟩
          have hn' : content.length ≤ n := by
            simp at hn
            omega
          rw [charRangesFrom_range (hclass _) (hclass₂ content), hranges n hn']
          rfl
    · -- a single character
      rw [if_neg hdash] at hbody
      obtain ⟨⟨es', pos₃⟩, hrest, hbody⟩ := Loop.bind_ok.mp hbody
      cases hbody
      obtain ⟨content, items, rfl, hes, hranges⟩ := ih hascii₁ hrest
      refine ⟨b :: taken ++ content, .char value :: items, by simp, ?_, fun n hn => ?_⟩
      · rw [hes, classElements_charAlt]
        rfl
      · obtain ⟨n, rfl⟩ : ∃ m, n = m + 1 := ⟨n - 1, by simp at hn; omega⟩
        have hn' : content.length ≤ n := by
          simp at hn
          omega
        have hno : ∀ e rest, content ≠ byte '-' :: e :: rest := by
          rintro e rest rfl
          obtain rfl : e = byte ']' := by
            by_contra he
            exact hdash ⟨rfl, he⟩
          have := parseClass_dash hrest
          simp at this
        rw [charRangesFrom_single (hclass content) hno, hranges n hn']
        rfl

private theorem any_itemRange (items : List Item) (cp : Nat) :
    ((items.map itemRange).any fun r => r.contains cp) = items.any (Item.holds cp) := by
  rw [any_map]
  congr 1
  funext i
  exact itemRange_contains i cp

/-- The class parser of the PEG parser on the text of a class. -/
theorem parseCharClasses_bracketed (content : List UInt8) (negated : Bool)
    (hhat : negated = false → content.head? ≠ some (byte '^')) :
    parseCharClasses (byte '[' :: (if negated then [byte '^'] else []) ++ content ++ [byte ']']) =
      (charRangesFrom content.length content, negated) := by
  unfold parseCharClasses
  cases negated with
  | false =>
    have hlast : (content ++ [byte ']']).getLast? = some (byte ']') := getLast?_concat
    simp only [Bool.false_eq_true, if_false, cons_append, nil_append, head?_cons,
      if_true, tail_cons, hlast, dropLast_concat, if_neg (hhat rfl)]
  | true =>
    have hlast : (byte '^' :: content ++ [byte ']']).getLast? = some (byte ']') := getLast?_concat
    have hfront : (byte '^' :: content ++ [byte ']']).dropLast = byte '^' :: content :=
      dropLast_concat
    simp only [if_true, cons_append, nil_append, head?_cons, tail_cons] at *
    rw [if_pos hlast, hfront]
    simp

/-- On ASCII the two parsers take a class for the same items. -/
theorem gbnfClass_ascii {text : Text} {es : List Element} (hstart : text.head? = some (byte '['))
    (hascii : ∀ b ∈ text, b < 0x80) (h : gbnfClass text = .ok (es, [])) :
    ∃ items negated, es = classElements (classType negated) items ∧
      parseCharClasses text = (items.map itemRange, negated) ∧
      (items = [] → negated = true → text = encode "[^]".toList) := by
  cases text with
  | nil => cases hstart
  | cons b pos =>
    obtain rfl : b = byte '[' := by simpa using hstart
    have hascii' : ∀ b ∈ pos, b < 0x80 := fun b hb => hascii b (mem_cons_of_mem _ hb)
    rw [gbnfClass_cons] at h
    by_cases hhat : peek pos = byte '^'
    · rw [if_pos hhat] at h
      cases pos with
      | nil => exact absurd hhat (by decide)
      | cons c pos =>
        obtain rfl : c = byte '^' := hhat
        obtain ⟨content, items, hpos, hes, hranges⟩ :=
          parseClass_ascii (fun b hb => hascii' b (mem_cons_of_mem _ hb)) h
        obtain rfl : pos = content ++ [byte ']'] := hpos
        refine ⟨items, true, hes, ?_, ?_⟩
        · have := parseCharClasses_bracketed content true (by simp)
          rw [hranges _ (Nat.le_refl _)] at this
          simpa using this
        · rintro rfl -
          have hnil := hranges _ (Nat.le_refl _)
          cases content with
          | nil => rfl
          | cons c content =>
            rw [length_cons, charRangesFrom] at hnil
            split at hnil
            · split at hnil <;> simp at hnil
            · simp at hnil
    · rw [if_neg hhat] at h
      obtain ⟨content, items, rfl, hes, hranges⟩ := parseClass_ascii hascii' h
      refine ⟨items, false, hes, ?_, fun _ hn => by simp at hn⟩
      have hhead : content.head? ≠ some (byte '^') := by
        cases content with
        | nil => simp
        | cons c content =>
          intro hc
          obtain rfl : c = byte '^' := by simpa using hc
          exact hhat rfl
      have := parseCharClasses_bracketed content false fun _ => hhead
      rw [hranges _ (Nat.le_refl _)] at this
      simpa using this

private theorem encodeChar_byte {c : Char} (h : c.toNat < 0x80) :
    String.utf8EncodeChar c = [byte c] := by
  have hle : c.toNat ≤ 127 := by omega
  simp only [String.utf8EncodeChar, byte]
  exact if_pos hle

private theorem encode_ascii {cs : List Char} (h : ∀ c ∈ cs, c.toNat < 0x80) :
    encode cs = cs.map byte := by
  induction cs with
  | nil => rfl
  | cons c cs ih =>
    rw [encode_cons, encodeChar_byte (h c mem_cons_self), ih fun d hd => h d (mem_cons_of_mem _ hd)]
    rfl

private theorem hexDigitsOf_digit : ∀ d < 16,
    hexValue (byte ("0123456789ABCDEF".toList.getD d '0')) = some d ∧
      ("0123456789ABCDEF".toList.getD d '0').toNat < 0x80 := by
  decide

private theorem hexDigitsOf_ascii (w n : Nat) : ∀ c ∈ hexDigitsOf w n, c.toNat < 0x80 := by
  induction w generalizing n with
  | zero => simp [hexDigitsOf]
  | succ w ih =>
    intro c hc
    rw [hexDigitsOf, mem_append, mem_singleton] at hc
    obtain hc | rfl := hc
    · exact ih _ c hc
    · exact (hexDigitsOf_digit (n % 16) (Nat.mod_lt _ (by decide))).2

/-- The digits are read back, and more of them behind. -/
theorem parseHexLoop_hexDigitsOf (w k n value : Nat) (tail : Text) :
    parseHexLoop (w + k) ((hexDigitsOf w n).map byte ++ tail) value =
      parseHexLoop k tail (value * 16 ^ w + n % 16 ^ w) := by
  induction w generalizing k n tail with
  | zero => simp [hexDigitsOf, Nat.mod_one]
  | succ w ih =>
    have hdigit := (hexDigitsOf_digit (n % 16) (Nat.mod_lt _ (by decide))).1
    rw [hexDigitsOf, map_append, append_assoc, Nat.add_assoc, Nat.add_comm 1 k,
      ih (k + 1) (n / 16), map_singleton, singleton_append, parseHexLoop, hdigit]
    dsimp only
    congr 1
    have hmod : n % 16 ^ (w + 1) = n % 16 + 16 * (n / 16 % 16 ^ w) := by
      rw [Nat.pow_succ, Nat.mul_comm, Nat.mod_mul]
    rw [hmod, Nat.pow_succ, Nat.add_mul, Nat.mul_assoc]
    omega

private theorem parseHex_hexDigitsOf (h : n < 16 ^ w) (tail : Text) :
    Grammar.parseHex ((hexDigitsOf w n).map byte ++ tail) w = .ok (n, tail) := by
  have hloop := parseHexLoop_hexDigitsOf w 0 n 0 tail
  rw [Nat.add_zero, Nat.mod_eq_of_lt h, Nat.zero_mul, Nat.zero_add] at hloop
  rw [Grammar.parseHex, hloop]
  rfl

/-- The text begins with one character of a class, which is neither its end nor a dash. -/
structure ReadsItem (c : Nat) (text tail : Text) : Prop where
  read : parseChar text = .ok (c, tail)
  bracket : peek text ≠ byte ']'
  dash : peek text ≠ byte '-'
  nonempty : text ≠ []

private theorem readsItem_escape {rest : Text} (h : parseChar (byte '\\' :: rest) = .ok (c, tail)) :
    ReadsItem c (byte '\\' :: rest) tail where
  read := h
  bracket := (by decide : byte '\\' ≠ byte ']')
  dash := (by decide : byte '\\' ≠ byte '-')
  nonempty := by simp

private theorem readsItem_hex {letter : Char} (hletter : letter.toNat < 0x80) (hw : c < 16 ^ w)
    (hparse : ∀ rest, parseChar (byte '\\' :: byte letter :: rest) = Grammar.parseHex rest w)
    (tail : Text) : ReadsItem c (encode (['\\', letter] ++ hexDigitsOf w c) ++ tail) tail := by
  have hbytes : encode (['\\', letter] ++ hexDigitsOf w c) ++ tail =
      byte '\\' :: byte letter :: ((hexDigitsOf w c).map byte ++ tail) := by
    rw [encode_ascii]
    · rfl
    · intro d hd
      simp only [cons_append, nil_append, mem_cons] at hd
      obtain rfl | rfl | hd := hd
      · decide
      · exact hletter
      · exact hexDigitsOf_ascii w c d hd
  rw [hbytes]
  apply readsItem_escape
  rw [hparse, parseHex_hexDigitsOf hw]

/-- A printable character stands for itself. -/
theorem readsItem_printable (hlow : 0x20 ≤ c) (hhigh : c ≤ 0x7e)
    (hspecial : ¬ (c = '-'.toNat ∨ c = ']'.toNat ∨ c = '['.toNat ∨ c = '\\'.toNat)) (tail : Text) :
    ReadsItem c (encode [Char.ofNat c] ++ tail) tail := by
  have hchar : (Char.ofNat c).toNat = c := toNat_ofNat hhigh
  have hbyte : (byte (Char.ofNat c)).toNat = c := by
    rw [byte, hchar, UInt8.toNat_ofNat', Nat.mod_eq_of_lt (by omega)]
  have hne : ∀ d : Char, c ≠ (byte d).toNat → byte (Char.ofNat c) ≠ byte d := by
    intro d hd heq
    rw [← heq, hbyte] at hd
    exact hd rfl
  have htext : encode [Char.ofNat c] ++ tail = byte (Char.ofNat c) :: tail := by
    rw [encode_cons, encodeChar_byte (by omega)]
    rfl
  rw [htext]
  refine ⟨?_, hne ']' fun h => hspecial (.inr (.inl h)), hne '-' fun h => hspecial (.inl h),
    by simp⟩
  unfold parseChar
  dsimp only
  rw [if_neg (hne '\\' fun h => hspecial (.inr (.inr (.inr h)))),
    decodeUtf8Char_ascii (by omega), hbyte]

/-- The text of a code point that is not `-` reads back. -/
theorem readsItem_gbnfEscape (hdash : c ≠ '-'.toNat) (hc : c < 2 ^ 32) (tail : Text) :
    ReadsItem c (encode (gbnfEscapeCharClass c) ++ tail) tail := by
  unfold gbnfEscapeCharClass
  split
  next h =>
    obtain h | rfl | rfl | rfl := h
    · exact absurd h hdash
    · exact readsItem_escape rfl
    · exact readsItem_escape rfl
    · exact readsItem_escape rfl
  next hspecial =>
    split
    next h =>
      subst h
      exact readsItem_escape rfl
    split
    next h =>
      subst h
      exact readsItem_escape rfl
    split
    next h =>
      subst h
      exact readsItem_escape rfl
    split
    next h => exact readsItem_printable h.1 h.2 hspecial tail
    split
    next h => exact readsItem_hex (by decide) (by omega) (fun rest => rfl) tail
    split
    next h => exact readsItem_hex (by decide) (by omega) (fun rest => rfl) tail
    next => exact readsItem_hex (by decide) hc (fun rest => rfl) tail

def excludingClass (cs : List Nat) : Text :=
  encode ("[^".toList ++ cs.flatMap gbnfEscapeCharClass ++ [']'])

private theorem encode_excludingClass (cs : List Nat) : excludingClass cs =
    byte '[' :: byte '^' :: (encode (cs.flatMap gbnfEscapeCharClass) ++ [byte ']']) := by
  rw [excludingClass, encode_append, encode_append]
  rfl

private theorem parseClass_item {text : Text} (h : ReadsItem c text tail)
    (hno : peek tail ≠ byte '-')
    (fuel : Nat) (type : GreType) :
    parseClass (fuel + 1) type text =
      parseClass fuel .charAlt tail >>= fun r => pure (⟨type, c⟩ :: r.1, r.2) := by
  rw [parseClass, if_neg h.bracket, if_neg h.nonempty, h.read]
  dsimp only [bind, Except.bind]
  rw [if_neg fun hd => hno hd.1]

private theorem peek_escapes (hcs : ∀ c ∈ cs, c < 2 ^ 32) (tail : Text) :
    peek (encode (cs.flatMap gbnfEscapeCharClass) ++ byte ']' :: tail) ≠ byte '-' := by
  cases cs with
  | nil => exact (by decide : byte ']' ≠ byte '-')
  | cons d cs =>
    rw [flatMap_cons, encode_append, append_assoc]
    by_cases hd : d = '-'.toNat
    · subst hd
      exact (by decide : byte '\\' ≠ byte '-')
    · exact (readsItem_gbnfEscape hd (hcs d mem_cons_self) _).dash

/-- The class loop takes the text of code points other than `-` for one item each. -/
theorem parseClass_escapes (hdash : '-'.toNat ∉ cs) (hcs : ∀ c ∈ cs, c < 2 ^ 32) (type : GreType)
    (hfuel : cs.length < fuel) :
    parseClass fuel type (encode (cs.flatMap gbnfEscapeCharClass) ++ [byte ']']) =
      .ok (classElements type (cs.map Item.char), []) := by
  induction cs generalizing fuel type with
  | nil =>
    obtain ⟨fuel, rfl⟩ : ∃ m, fuel = m + 1 := ⟨fuel - 1, by omega⟩
    rfl
  | cons c cs ih =>
    rw [length_cons] at hfuel
    obtain ⟨fuel, rfl⟩ : ∃ m, fuel = m + 1 := ⟨fuel - 1, by omega⟩
    rw [mem_cons, not_or] at hdash
    have hcs' : ∀ d ∈ cs, d < 2 ^ 32 := fun d hd => hcs d (mem_cons_of_mem _ hd)
    have hitem := readsItem_gbnfEscape (Ne.symm hdash.1) (hcs c mem_cons_self)
      (encode (cs.flatMap gbnfEscapeCharClass) ++ [byte ']'])
    rw [flatMap_cons, encode_append, append_assoc,
      parseClass_item hitem (peek_escapes hcs' []), ih hdash.2 hcs' .charAlt (by omega),
      classElements_charAlt]
    rfl

/-- The class loop does not know the escape of `-`. -/
theorem parseClass_dash_error (hdash : '-'.toNat ∈ cs) (hcs : ∀ c ∈ cs, c < 2 ^ 32) (fuel : Nat)
    (type : GreType) (r : List Element × Text) :
    parseClass fuel type (encode (cs.flatMap gbnfEscapeCharClass) ++ [byte ']']) ≠ .ok r := by
  induction cs generalizing fuel type r with
  | nil => cases hdash
  | cons c cs ih =>
    cases fuel with
    | zero => simp [parseClass]
    | succ fuel =>
      rw [flatMap_cons, encode_append, append_assoc]
      by_cases hc : c = '-'.toNat
      · subst hc
        change parseClass (fuel + 1) type (byte '\\' :: byte '-' ::
          (encode (cs.flatMap gbnfEscapeCharClass) ++ [byte ']'])) ≠ .ok r
        have hread : parseChar (byte '\\' :: byte '-' ::
            (encode (cs.flatMap gbnfEscapeCharClass) ++ [byte ']'])) =
          .error (.unknownEscape _) := rfl
        have hpeek : ∀ rest, peek (byte '\\' :: rest) ≠ byte ']' :=
          fun rest => (by decide : byte '\\' ≠ byte ']')
        rw [parseClass, if_neg (hpeek _), if_neg (by simp), hread]
        simp [bind, Except.bind]
      · have hcs' : ∀ d ∈ cs, d < 2 ^ 32 := fun d hd => hcs d (mem_cons_of_mem _ hd)
        have hitem := readsItem_gbnfEscape hc (hcs c mem_cons_self)
          (encode (cs.flatMap gbnfEscapeCharClass) ++ [byte ']'])
        have hmem : '-'.toNat ∈ cs := (mem_cons.mp hdash).resolve_left (Ne.symm hc)
        rw [parseClass_item hitem (peek_escapes hcs' [])]
        intro hr
        obtain ⟨a, ha, -⟩ := Loop.bind_ok.mp hr
        exact ih hmem hcs' fuel .charAlt a ha

/-- The text is one class, and the matcher accepts at it the code points of `accepted`. -/
def Denotes (text : Text) (accepted : Nat → Bool) : Prop :=
  ∃ es, gbnfClass text = .ok (es, []) ∧ ∀ cp, gbnfMatches es cp = accepted cp

private theorem escapes_length (cs : List Nat) :
    cs.length ≤ (encode (cs.flatMap gbnfEscapeCharClass)).length := by
  induction cs with
  | nil => exact Nat.zero_le _
  | cons c cs ih =>
    have hne : gbnfEscapeCharClass c ≠ [] := by
      unfold gbnfEscapeCharClass
      repeat' split
      all_goals simp
    obtain ⟨d, ds, hd⟩ := exists_cons_of_ne_nil hne
    have hpos : 0 < (String.utf8EncodeChar d).length :=
      length_pos_iff.mpr String.utf8EncodeChar_ne_nil
    rw [flatMap_cons, encode_append, hd, encode_cons]
    simp only [length_cons, length_append]
    omega

/-- A class of the writer denotes the complement of its code points exactly when it has one
and `-` is not among them. -/
theorem excludingClass_denotes_iff (hcs : ∀ c ∈ cs, c < 2 ^ 32) :
    Denotes (excludingClass cs) (fun cp => decide (cp ∉ cs)) ↔ cs ≠ [] ∧ '-'.toNat ∉ cs := by
  have hclass : gbnfClass (excludingClass cs) =
      parseClass ((encode (cs.flatMap gbnfEscapeCharClass) ++ [byte ']']).length + 2) .charNot
        (encode (cs.flatMap gbnfEscapeCharClass) ++ [byte ']']) := by
    rw [encode_excludingClass, gbnfClass_cons]
    exact if_pos rfl
  unfold Denotes
  rw [hclass]
  by_cases hdash : '-'.toNat ∈ cs
  · refine iff_of_false ?_ fun h => h.2 hdash
    rintro ⟨es, hes, -⟩
    exact parseClass_dash_error hdash hcs _ _ _ hes
  · have hlen := escapes_length cs
    rw [parseClass_escapes hdash hcs .charNot (by rw [length_append]; omega)]
    have hmatch := gbnfMatches_classElements true (cs.map Item.char)
    rw [show classType true = .charNot from rfl] at hmatch
    constructor
    · rintro ⟨es, hes, hall⟩
      cases hes
      refine ⟨?_, hdash⟩
      rintro rfl
      exact absurd ((hmatch 0).symm.trans (hall 0)) (by decide)
    · rintro ⟨hne, -⟩
      refine ⟨_, rfl, fun cp => ?_⟩
      have hany : (cs.map Item.char).any (Item.holds cp) = decide (cp ∈ cs) := by
        rw [any_map, Bool.eq_iff_iff, any_eq_true, decide_eq_true_eq]
        simp [Item.holds]
      rw [hmatch cp, hany]
      simp [hne]

/-- On ASCII a class that the grammar reads is the class that the PEG parser reads, except
for `[^]`; and what the writer writes is read as the complement of its code points unless
there are none or `-` is one of them. -/
theorem char_classes_alike (text : Text) (es : List Element) (cs : List Nat) :
    (text.head? = some (byte '[') → gbnfClass text = .ok (es, []) →
      (∀ b ∈ text, b < 0x80) → text ≠ encode "[^]".toList →
      ∀ cp, gbnfMatches es cp =
        Context.inClass (parseCharClasses text).1 (parseCharClasses text).2 cp) ∧
    ((∀ c ∈ cs, c < 2 ^ 32) →
      (Denotes (excludingClass cs) (fun cp => decide (cp ∉ cs)) ↔ cs ≠ [] ∧ '-'.toNat ∉ cs)) := by
  refine ⟨?_, fun hcs => excludingClass_denotes_iff hcs⟩
  intro hstart hread hascii hhat cp
  obtain ⟨items, negated, rfl, hclass, hempty⟩ := gbnfClass_ascii hstart hascii hread
  rw [gbnfMatches_classElements, hclass, Context.inClass, any_itemRange]
  by_cases hnil : items = []
  · subst hnil
    cases negated with
    | false => rfl
    | true => exact absurd (hempty rfl rfl) hhat
  · simp [hnil]

set_option maxRecDepth 10000 in
/-- The classes `[0-9]` and `[^<]`. -/
theorem char_classes_alike_digits :
    (∀ cp, gbnfMatches [⟨.char, 48⟩, ⟨.charRngUpper, 57⟩] cp =
      Context.inClass (parseCharClasses (encode "[0-9]".toList)).1
        (parseCharClasses (encode "[0-9]".toList)).2 cp) ∧
    (Denotes (excludingClass ['<'.toNat]) (fun cp => decide (cp ∉ ['<'.toNat])) ↔
      ['<'.toNat] ≠ [] ∧ '-'.toNat ∉ ['<'.toNat]) :=
  ⟨(char_classes_alike (encode "[0-9]".toList) _ []).1 (by decide) (by decide)
      (by decide) (by decide),
    (char_classes_alike [] [] ['<'.toNat]).2 (by decide)⟩

/-- The class `[é]` is the character to the grammar and two bytes to the PEG parser, and the
grammar does not read `[^\-]`. -/
theorem char_classes_differ :
    (gbnfClass (encode "[é]".toList) = .ok ([⟨.char, 0xe9⟩], []) ∧
      gbnfMatches [⟨.char, 0xe9⟩] 0xe9 = true ∧
      Context.inClass (parseCharClasses (encode "[é]".toList)).1
        (parseCharClasses (encode "[é]".toList)).2 0xe9 = false) ∧
    excludingClass ['-'.toNat] = encode "[^\\-]".toList ∧
      gbnfClass (excludingClass ['-'.toNat]) = .error (.unknownEscape (encode "\\-]".toList)) := by
  decide

end Llama.Peg
