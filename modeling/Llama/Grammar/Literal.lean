import Llama.Grammar.Correct
import Llama.Grammar.Parser
import Llama.Grammar.Partial

/-!
# Literals of generated grammars

`format_literal` writes a text as a literal of a grammar. The bytes it escapes are ASCII, so no
longer character is touched, and the parser reads back the code points of the text. By a rule
of literals the matcher accepts their texts.
-/

namespace Llama.Grammar

open List

/-- `GRAMMAR_LITERAL_ESCAPE_RE`. -/
def grammarLiteralEscapeRe (b : UInt8) : Bool :=
  b == byte '\r' || b == byte '\n' || b == byte '"' || b == byte '\\'

/-- `GRAMMAR_LITERAL_ESCAPES` at the bytes of the pattern. -/
def grammarLiteralEscapes (b : UInt8) : Text :=
  [byte '\\', if b = byte '\r' then byte 'r' else if b = byte '\n' then byte 'n' else b]

/-- `replacePattern` for a pattern of one byte: the search goes on behind each match. -/
def replacePattern (regex : UInt8 → Bool) (replacement : UInt8 → Text) : Text → Text
  | [] => []
  | b :: input =>
    if regex b then replacement b ++ replacePattern regex replacement input
    else b :: replacePattern regex replacement input

/-- The text between the quotes. -/
def escaped (literal : Text) : Text :=
  replacePattern grammarLiteralEscapeRe grammarLiteralEscapes literal

/-- `format_literal`. -/
def formatLiteral (literal : Text) : Text := byte '"' :: escaped literal ++ [byte '"']

/-- The bytes of a text. -/
def utf8 (cs : List Char) : Text := cs.flatMap String.utf8EncodeChar

/-- The elements of a literal. -/
def charElements (cs : List Char) : List Element :=
  cs.map fun c => { type := .char, value := c.toNat }

/-- What the loop decodes when the bytes end with a character, it reads in front of others. -/
theorem decodeTail_of_decodeFrom {tail : Text} {value v n : Nat} {cps : List Nat}
    (h : decodeFrom tail value tail.length = some (cps, v, n)) (rest : Text) :
    decodeTail tail.length (tail ++ rest) value = (v, rest) := by
  induction tail generalizing value cps with
  | nil =>
    cases h
    rfl
  | cons b tail ih =>
    obtain ⟨r, hr, he⟩ := Option.map_eq_some_iff.mp h
    obtain ⟨-, he⟩ := Prod.mk.inj he
    exact ih (hr.trans (congrArg (fun v => some (r.1, v)) he))

/-- The first byte of a character decides how many follow. -/
theorem decodeUtf8Char_char (c : Char) : ∃ b tail, String.utf8EncodeChar c = b :: tail ∧
    ∀ rest, decodeUtf8Char b (tail ++ rest) = (c.toNat, rest) := by
  obtain ⟨⟨b, tail, hbytes, hwidth, -⟩, hdecoded, -, -⟩ := encodedAs c
  refine ⟨b, tail, hbytes, fun rest => ?_⟩
  rw [hbytes, decodeFrom, hwidth] at hdecoded
  obtain ⟨r, hr, he⟩ := Option.map_eq_some_iff.mp hdecoded
  obtain ⟨-, he⟩ := Prod.mk.inj he
  have htail := decodeTail_of_decodeFrom (hr.trans (congrArg (fun v => some (r.1, v)) he)) rest
  have hb := b.toNat_lt
  rw [width, utf8Lookup] at hwidth
  have hlen : (if b.toNat / 16 < 12 then 1 else if b.toNat / 16 < 14 then 2
      else if b.toNat / 16 = 14 then 3 else 4) = tail.length + 1 := by
    split at hwidth
    · rw [if_pos (by omega)]
      exact hwidth
    · split at hwidth
      · cases hwidth
      · rw [if_neg ‹_›, ← hwidth]
        split
        · rfl
        · split <;> rfl
  simp only [decodeUtf8Char, hlen, Nat.add_sub_cancel]
  rw [show 8 - (tail.length + 1) = 7 - tail.length by omega]
  exact htail

variable {b : UInt8} {regex : UInt8 → Bool} {s : Text} {cs : List Char}

/-- A longer character has no byte of ASCII. -/
theorem utf8EncodeChar_ascii {c : Char} (hb : b ∈ String.utf8EncodeChar c)
    (hascii : b.toNat < 0x80) :
    String.utf8EncodeChar c = [b] ∧ c.toNat = b.toNat := by
  obtain ⟨⟨b', tail, hbytes, hwidth, htail⟩, hdecoded, -, -⟩ := encodedAs c
  rw [hbytes] at hb
  rcases mem_cons.mp hb with rfl | hb
  · rw [width, utf8Lookup, if_pos (by omega)] at hwidth
    obtain rfl := length_eq_zero_iff.mp (Nat.succ.inj hwidth).symm
    rw [hbytes, decodeFrom, width, utf8Lookup, if_pos (by omega)] at hdecoded
    have hvalue : b.toNat % 2 ^ 7 = c.toNat := by
      simpa [decodeFrom, emit] using hdecoded
    exact ⟨hbytes, by omega⟩
  · have hcont := htail b hb
    rw [isContinuation, beq_iff_eq] at hcont
    omega

theorem replacePattern_append (regex : UInt8 → Bool) (replacement : UInt8 → Text) (s t : Text) :
    replacePattern regex replacement (s ++ t) =
      replacePattern regex replacement s ++ replacePattern regex replacement t := by
  induction s with
  | nil => rfl
  | cons b s ih =>
    rw [cons_append, replacePattern, replacePattern, ih]
    split
    · rw [append_assoc]
    · rfl

theorem replacePattern_none (h : ∀ b ∈ s, regex b = false) (replacement : UInt8 → Text) :
    replacePattern regex replacement s = s := by
  induction s with
  | nil => rfl
  | cons b s ih =>
    rw [replacePattern, if_neg (by simp [h b]), ih fun x hx => h x (mem_cons_of_mem _ hx)]

theorem escape_cases (h : grammarLiteralEscapeRe b = true) :
    b = byte '\r' ∨ b = byte '\n' ∨ b = byte '"' ∨ b = byte '\\' := by
  simpa [grammarLiteralEscapeRe, or_assoc] using h

/-- A character of a literal is read back. -/
theorem parseChar_escaped (c : Char) : ∃ b text, escaped (String.utf8EncodeChar c) = b :: text ∧
    b ≠ byte '"' ∧ ∀ rest, parseChar (b :: text ++ rest) = .ok (c.toNat, rest) := by
  by_cases h : ∃ b ∈ String.utf8EncodeChar c, grammarLiteralEscapeRe b = true
  · obtain ⟨b, hb, hre⟩ := h
    have hcases := escape_cases hre
    have hascii : b.toNat < 0x80 := by
      rcases hcases with rfl | rfl | rfl | rfl <;> decide
    obtain ⟨hbytes, hc⟩ := utf8EncodeChar_ascii hb hascii
    rw [hbytes, hc]
    rcases hcases with rfl | rfl | rfl | rfl
    · exact ⟨_, _, rfl, by decide, fun _ => rfl⟩
    · exact ⟨_, _, rfl, by decide, fun _ => rfl⟩
    · exact ⟨_, _, rfl, by decide, fun _ => rfl⟩
    · exact ⟨_, _, rfl, by decide, fun _ => rfl⟩
  · have hnone : ∀ b ∈ String.utf8EncodeChar c, grammarLiteralEscapeRe b = false := by
      simpa using h
    obtain ⟨b, tail, hbytes, hdecode⟩ := decodeUtf8Char_char c
    rw [escaped, replacePattern_none hnone]
    have hb := hnone b (by rw [hbytes]; exact mem_cons_self ..)
    simp only [grammarLiteralEscapeRe, Bool.or_eq_false_iff, beq_eq_false_iff_ne] at hb
    refine ⟨b, tail, hbytes, hb.1.2, fun rest => ?_⟩
    rw [cons_append]
    simp only [parseChar, if_neg hb.2, hdecode]

theorem parseLiteral_escaped (cs : List Char) (rest : Text) (fuel : Nat)
    (hfuel : (escaped (utf8 cs)).length < fuel) :
    parseLiteral fuel (escaped (utf8 cs) ++ byte '"' :: rest) = .ok (charElements cs, rest) := by
  induction cs generalizing fuel with
  | nil =>
    obtain ⟨n, rfl⟩ : ∃ n, fuel = n + 1 := ⟨fuel - 1, by omega⟩
    rfl
  | cons c cs ih =>
    obtain ⟨b, text, hbytes, hquote, hread⟩ := parseChar_escaped c
    have htext : escaped (utf8 (c :: cs)) = (b :: text) ++ escaped (utf8 cs) := by
      rw [utf8, flatMap_cons, escaped, replacePattern_append, ← escaped, hbytes]
      rfl
    rw [htext, length_append, length_cons] at hfuel
    obtain ⟨n, rfl⟩ : ∃ n, fuel = n + 1 := ⟨fuel - 1, by omega⟩
    rw [htext, append_assoc, parseLiteral, cons_append, if_neg (by exact hquote),
      if_neg (cons_ne_nil _ _), ← cons_append, hread]
    change (parseLiteral n _ >>= _) = _
    rw [ih n (by omega)]
    rfl

theorem mem_replacePattern {replacement : UInt8 → Text}
    (h : b ∈ replacePattern regex replacement s) :
    b ∈ s ∨ ∃ x, regex x = true ∧ b ∈ replacement x := by
  induction s with
  | nil => cases h
  | cons x s ih =>
    rw [replacePattern] at h
    split at h
    · rename_i hx
      rcases mem_append.mp h with h | h
      · exact .inr ⟨x, hx, h⟩
      · exact (ih h).imp_left (mem_cons_of_mem _)
    · rcases mem_cons.mp h with rfl | h
      · exact .inl (mem_cons_self ..)
      · exact (ih h).imp_left (mem_cons_of_mem _)

/-- The text of a literal has no terminating 0 inside. -/
theorem zero_notMem_escaped (hnul : '\x00' ∉ cs) : 0 ∉ escaped (utf8 cs) := by
  intro h
  rcases mem_replacePattern h with h | ⟨x, hx, h⟩
  · obtain ⟨c, hc, hb⟩ := mem_flatMap.mp h
    have hzero := (utf8EncodeChar_ascii hb (by decide)).2
    obtain rfl : c = '\x00' := Char.ext (UInt32.toNat_inj.mp (hzero.trans rfl))
    exact hnul hc
  · rcases escape_cases hx with rfl | rfl | rfl | rfl <;> revert h <;> decide

/-- A text without the terminating 0 is written as a literal that the parser reads as the code
points of the text, up to the end of the literal. -/
theorem parseItem_formatLiteral (hnul : '\x00' ∉ cs) (vocab : Option (Text → List Nat))
    (alternates : Text → Nat → ParserM Text) (ruleName : Text) (isNested : Bool) (s : Sequence)
    (rest : Text) :
    0 ∉ formatLiteral (utf8 cs) ∧
      parseItem vocab alternates ruleName isNested s (formatLiteral (utf8 cs) ++ rest) =
        pure (some (s.push (charElements cs), parseSpace rest isNested)) := by
  have htext : formatLiteral (utf8 cs) ++ rest =
      byte '"' :: (escaped (utf8 cs) ++ byte '"' :: rest) := by
    rw [formatLiteral, cons_append, cons_append, append_assoc]
    rfl
  refine ⟨?_, ?_⟩
  · rw [formatLiteral, cons_append, mem_cons, mem_append, mem_singleton]
    rintro (h | h | h)
    · exact absurd h (by decide)
    · exact zero_notMem_escaped hnul h
    · exact absurd h (by decide)
  · have hread := parseLiteral_escaped cs rest
      ((byte '"' :: (escaped (utf8 cs) ++ byte '"' :: rest)).length + 1) (by simp; omega)
    rw [htext, parseItem]
    simp only [peek, head?_cons, Option.getD_some, if_pos, List.tail_cons, hread]
    rfl

theorem parseItem_formatLiteral_quote : 0 ∉ formatLiteral (utf8 ['"', 'é', '\n']) ∧
    parseItem none (fun pos _ => pure pos) [] false { rule := [], lastSymStart := 0 }
      (formatLiteral (utf8 ['"', 'é', '\n']) ++ [byte ' ']) =
      pure (some (Sequence.push { rule := [], lastSymStart := 0 }
        (charElements ['"', 'é', '\n']), parseSpace [byte ' '] false)) :=
  parseItem_formatLiteral (by decide) none _ [] false _ _

section Rule

open Relation Leftmost

/-- The symbols of a literal. -/
def literalSyms (cs : List Char) : List Sym :=
  cs.map fun c => .terminal (.cls false (.char c.toNat) [])

/-- One rule with an alternate for each literal. -/
def literalGrammar (cs : List Char) (ds : List (List Char)) : RuleSet where
  alts := [(cs :: ds).map literalSyms]
  defined := by simp
  closed := by simp [literalSyms]

theorem run_literalSyms {G : RuleSet} {w : List Nat} :
    G.Run (literalSyms cs) w [] ↔ w = cs.map Char.toNat := by
  induction cs generalizing w with
  | nil =>
    refine ⟨fun h => ?_, fun h => h ▸ Run.refl _⟩
    cases h with
    | refl => rfl
    | expand he => exact absurd he not_expand_nil
  | cons c cs ih =>
    constructor
    · intro h
      cases h with
      | expand he => exact absurd he not_expand_terminal
      | @read _ a _ _ _ hm hr =>
        have ha : c.toNat = a := by simpa [Terminal.accepts, Item.holds] using hm
        rw [ih.mp hr, map_cons, ha]
    · rintro rfl
      exact Run.read (by simp [Terminal.accepts, Item.holds]) (ih.mpr rfl)

theorem literalGrammar_derives {ds : List (List Char)} {w : List Nat} :
    (literalGrammar cs ds).Derives 0 w ↔ ∃ d ∈ cs :: ds, w = d.map Char.toNat := by
  rw [RuleSet.derives_iff_run]
  constructor
  · intro h
    cases h with
    | expand he hr =>
      cases he with
      | mk rest halt =>
        obtain ⟨d, hd, rfl⟩ := mem_map.mp halt
        rw [append_nil] at hr
        exact ⟨d, hd, run_literalSyms.mp hr⟩
  · rintro ⟨d, hd, hw⟩
    refine Run.expand (Expand.mk [] (mem_map_of_mem hd)) ?_
    rw [append_nil]
    exact run_literalSyms.mpr hw

theorem literalGrammar_not_leftRecursive {ds : List (List Char)} :
    ¬ LeftRecursive (literalGrammar cs ds).prods := by
  rintro ⟨a, ha⟩
  obtain ⟨b, ⟨pre, post, hmem, -⟩, -⟩ := TransGen.head'_iff.mp ha
  obtain ⟨as, has, halt⟩ := RuleSet.mem_prods hmem
  obtain rfl := mem_singleton.mp (mem_of_getElem? has)
  obtain ⟨d, -, hd⟩ := mem_map.mp halt
  have hb : (.nonterminal b : Sym) ∈ literalSyms d := hd ▸ by simp
  simp [literalSyms] at hb

/-- The alternates behind the first. -/
def moreElements (ds : List (List Char)) : List Element :=
  ds.flatMap fun d => { type := .alt, value := 0 } :: charElements d

/-- The elements of all alternates. -/
def literalsElements (cs : List Char) (ds : List (List Char)) : List Element :=
  charElements cs ++ moreElements ds ++ [{ type := .end_, value := 0 }]

theorem literalGrammar_elements (ds : List (List Char)) :
    (literalGrammar cs ds).elements = [literalsElements cs ds] := by
  have hsyms : ∀ d, altElements (literalSyms d) = charElements d := fun d => by
    rw [altElements, literalSyms, flatMap_map, charElements, map_eq_flatMap]
    rfl
  have hrule : ∀ ds d, ruleElements ((d :: ds).map literalSyms) = literalsElements d ds := by
    intro ds
    induction ds with
    | nil => simp [ruleElements, hsyms, moreElements, literalsElements]
    | cons e ds ih =>
      intro d
      have he := ih e
      rw [map_cons] at he
      simp [ruleElements, he, hsyms, moreElements, literalsElements]
  exact congrArg (fun r => [r]) (hrule ds cs)

/-- Further literals, each behind a bar of `string_join`, and the end of the line. -/
def moreLiterals (ds : List (List Char)) : Text :=
  ds.foldr (fun d rest => [' ', '|', ' '].map byte ++ (formatLiteral (utf8 d) ++ rest)) [byte '\n']

/-- The line that `format_grammar` writes for a rule with literals as alternates. -/
def literalsRule (cs : List Char) (ds : List (List Char)) : Text :=
  ['r', 'o', 'o', 't', ' ', ':', ':', '=', ' '].map byte ++
    (formatLiteral (utf8 cs) ++ moreLiterals ds)

theorem zero_notMem_formatLiteral (hnul : '\x00' ∉ cs) : 0 ∉ formatLiteral (utf8 cs) := by
  rw [formatLiteral, cons_append, mem_cons, mem_append, mem_singleton]
  rintro (h | h | h)
  · exact absurd h (by decide)
  · exact zero_notMem_escaped hnul h
  · exact absurd h (by decide)

variable (vocab : Option (Text → List Nat)) (alternates : Text → Nat → ParserM Text)
  (ruleName : Text) (rule : List Element) (ds : List (List Char))

/-- A sequence of one literal ends at the bar, or at the end of the line. -/
theorem parseSequence_literal (cs : List Char) :
    parseSequence vocab alternates ruleName false rule
      (formatLiteral (utf8 cs) ++ moreLiterals ds) =
      pure (rule ++ charElements cs, parseSpace (moreLiterals ds) false) := by
  have htext : formatLiteral (utf8 cs) ++ moreLiterals ds =
      byte '"' :: (escaped (utf8 cs) ++ byte '"' :: moreLiterals ds) := by
    rw [formatLiteral, cons_append, cons_append, append_assoc]
    rfl
  have hread := parseLiteral_escaped cs (moreLiterals ds)
    ((byte '"' :: (escaped (utf8 cs) ++ byte '"' :: moreLiterals ds)).length + 1) (by simp; omega)
  rw [parseSequence, htext, length_cons, length_append, length_cons, ← Nat.add_assoc,
    parseSequenceLoop, if_neg (cons_ne_nil _ _), parseItem]
  simp only [peek, head?_cons, Option.getD_some, if_pos, List.tail_cons, hread]
  cases ds with
  | nil => rfl
  | cons d ds => rfl

theorem parseAlternatesLoop_literals (fuel : Nat)
    (hfuel : (parseSpace (moreLiterals ds) false).length < fuel) :
    parseAlternatesLoop (parseSequence vocab alternates ruleName false) fuel rule
      (parseSpace (moreLiterals ds) false) = pure (rule ++ moreElements ds, [byte '\n']) := by
  induction ds generalizing fuel rule with
  | nil =>
    obtain ⟨n, rfl⟩ : ∃ n, fuel = n + 1 := ⟨fuel - 1, by omega⟩
    rw [moreElements, flatMap_nil, append_nil]
    rfl
  | cons d ds ih =>
    obtain ⟨n, rfl⟩ : ∃ n, fuel = n + 1 := ⟨fuel - 1, by omega⟩
    have hbar : parseSpace (moreLiterals (d :: ds)) false =
        byte '|' :: byte ' ' :: (formatLiteral (utf8 d) ++ moreLiterals ds) := rfl
    have hlen := parseSpace_length (moreLiterals ds) false
    rw [hbar, length_cons, length_cons, length_append] at hfuel
    have hrest := ih (rule ++ [{ type := .alt, value := 0 }] ++ charElements d) n (by omega)
    rw [hbar, parseAlternatesLoop, if_pos (by exact rfl)]
    change (parseSequence _ _ _ _ _ (formatLiteral (utf8 d) ++ moreLiterals ds) >>= _) = _
    rw [parseSequence_literal, pure_bind]
    simpa [moreElements] using hrest

theorem parseAlternates_literals (cs : List Char) (depth : Nat) (p : Parser) :
    parseAlternates vocab ruleName (depth + 1) false (formatLiteral (utf8 cs) ++ moreLiterals ds) 0
      p = .ok [byte '\n'] (p.addRule 0 (literalsElements cs ds)) := by
  rw [parseAlternates]
  simp only [parseSequence_literal, nil_append, pure_bind,
    parseAlternatesLoop_literals _ _ _ _ _ _ (Nat.lt_succ_self _)]
  rfl

/-- The parser after a rule of literals. -/
def literalsParser (cs : List Char) (ds : List (List Char)) : Parser where
  symbolIds := [(['r', 'o', 'o', 't'].map byte, 0)]
  rules := (literalGrammar cs ds).elements

theorem parseRule_literals (cs : List Char) :
    parseRule vocab (literalsRule cs ds) Parser.empty = .ok [] (literalsParser cs ds) := by
  have hdrop : (literalsRule cs ds).dropWhile isWordChar = [' ', ':', ':', '=', ' '].map byte ++
      (formatLiteral (utf8 cs) ++ moreLiterals ds) := rfl
  have hname : parseName (literalsRule cs ds) = .ok ([' ', ':', ':', '=', ' '].map byte ++
      (formatLiteral (utf8 cs) ++ moreLiterals ds)) := by
    rw [parseName, hdrop, if_neg]
    simp [literalsRule]
  have hbetween := between_dropWhile isWordChar (literalsRule cs ds)
  rw [hdrop] at hbetween
  rw [parseRule, hname]
  simp only [ParserM.lift, pure_bind, hbetween]
  change EStateM.bind (parseAlternates vocab (['r', 'o', 'o', 't'].map byte) _ false
    (formatLiteral (utf8 cs) ++ moreLiterals ds) 0) _ _ = _
  rw [EStateM.bind, parseAlternates_literals, literalsParser, literalGrammar_elements]
  rfl

theorem forM_pure {α : Type} {l : List α} {f : α → Except ParseError Unit}
    (h : ∀ a ∈ l, f a = .ok ()) : l.forM f = .ok () := by
  induction l with
  | nil => rfl
  | cons a l ih =>
    change (f a >>= fun _ => l.forM f) = .ok ()
    rw [h a mem_cons_self]
    exact ih fun b hb => h b (mem_cons_of_mem a hb)

theorem parse_literals (cs : List Char) :
    parse vocab (literalsRule cs ds) = (true, literalsParser cs ds) := by
  have href : ∀ e ∈ literalsElements cs ds, e.type ≠ .ruleRef := by
    grind [literalsElements, charElements, moreElements]
  have hcheck : (literalsParser cs ds).rules.forM (checkRule (literalsParser cs ds)) = .ok () := by
    refine forM_pure fun l hl => ?_
    rw [literalsParser, literalGrammar_elements, mem_singleton] at hl
    rw [checkRule, if_neg (by simp [hl, literalsElements])]
    exact forM_pure fun e he => if_neg fun h => href e (hl ▸ he) h.1
  have hrules : parseRules vocab ((literalsRule cs ds).length + 1) (literalsRule cs ds)
      Parser.empty = .ok () (literalsParser cs ds) := by
    rw [parseRules, if_neg (by exact cons_ne_nil _ _)]
    simp only [bind, EStateM.bind, parseRule_literals]
    rfl
  have htext :
    parseText vocab (literalsRule cs ds) Parser.empty = .ok () (literalsParser cs ds) := by
    change EStateM.bind (parseRules vocab ((literalsRule cs ds).length + 1) (literalsRule cs ds)) _
      _ = _
    rw [EStateM.bind, hrules]
    change ParserM.lift ((literalsParser cs ds).rules.forM _) _ = _
    rw [hcheck]
    rfl
  rw [parse, htext]

/-- The rule is read, and the matcher accepts by it exactly the texts of the literals. -/
theorem literalsRule_matches (hnul : ∀ d ∈ cs :: ds, '\x00' ∉ d) :
    0 ∉ literalsRule cs ds ∧ ∃ p, parse vocab (literalsRule cs ds) = (true, p) ∧
      p.symbolIds.lookup (['r', 'o', 'o', 't'].map byte) = some 0 ∧
      ∀ w, ∃ n, ∀ fuel ≥ n, ∃ sts, matchWord p.rules fuel 0 w = .ok (some sts) ∧
        ([] ∈ sts ↔ ∃ d ∈ cs :: ds, w = d.map Char.toNat) := by
  refine ⟨?_, _, parse_literals vocab ds cs, rfl, fun w => ?_⟩
  · have hmore : ∀ ds : List (List Char), (∀ d ∈ ds, '\x00' ∉ d) → 0 ∉ moreLiterals ds := by
      intro ds h
      induction ds with
      | nil => decide
      | cons d ds ih =>
        rw [moreLiterals, foldr_cons, ← moreLiterals, mem_append, mem_append, not_or, not_or]
        exact ⟨by decide, zero_notMem_formatLiteral (h d mem_cons_self),
          ih fun e he => h e (mem_cons_of_mem d he)⟩
    rw [literalsRule, mem_append, mem_append, not_or, not_or]
    exact ⟨by decide, zero_notMem_formatLiteral (hnul cs mem_cons_self),
      hmore ds fun d hd => hnul d (mem_cons_of_mem cs hd)⟩
  · have hleft := @literalGrammar_not_leftRecursive cs ds
    obtain ⟨m, hcheck⟩ := passesCheck_of_not_leftRecursive hleft
    obtain ⟨n1, sts, hinit, htr⟩ := exists_initialStacks hleft Nat.zero_lt_one
    obtain ⟨n2, sts', hword, htr'⟩ := htr.exists_word hleft w
    refine ⟨max n1 n2, fun fuel hfuel => ⟨sts', ?_, htr'.nil_mem_iff.trans literalGrammar_derives⟩⟩
    have hi := initialStacks_mono (le_trans (le_max_left _ _) hfuel) hinit
    simp only [matchWord, initImpl, literalsParser, RuleSet.map_copyRule, hcheck, hi, bind,
      Except.bind, hword fuel (le_trans (le_max_right _ _) hfuel)]

/-- `root ::= "é" | "\""` -/
theorem literalsRule_matches_quote :
    0 ∉ literalsRule ['é'] [['"']] ∧ ∃ p, parse none (literalsRule ['é'] [['"']]) = (true, p) ∧
      p.symbolIds.lookup (['r', 'o', 'o', 't'].map byte) = some 0 ∧
      ∀ w, ∃ n, ∀ fuel ≥ n, ∃ sts, matchWord p.rules fuel 0 w = .ok (some sts) ∧
        ([] ∈ sts ↔ ∃ d ∈ [['é'], ['"']], w = d.map Char.toNat) :=
  literalsRule_matches none [['"']] (by decide)

end Rule

end Llama.Grammar
