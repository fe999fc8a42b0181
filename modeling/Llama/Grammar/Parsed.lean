import Llama.Grammar.Built

/-!
# Every parse builds rules

The functions of the parser one after the other: each reads on, keeps the state a built one and
returns the elements of symbols. Induction is on the turns of the loops and on the depth of the
groups; the text left bounds both.
-/

namespace Llama.Grammar

open Wp List

variable {p p' : Parser} {alts : List (List (List Sym))} {α β : Type}

/-- A literal is a sequence of characters. -/
theorem parseLiteral_reads (fuel : Nat) (pos : Text) (h : pos.length < fuel) :
    Reads (parseLiteral fuel pos) fun r => r.2.length ≤ pos.length ∧
      ∃ cs : List Nat, r.1 = altElements (cs.map fun c => .terminal (.cls false (.char c) [])) := by
  induction fuel generalizing pos with
  | zero => exact absurd h (Nat.not_lt_zero _)
  | succ fuel ih =>
    refine Reads.ite (fun _ => reads_pure ⟨by simp, [], rfl⟩) fun _ =>
      Reads.ite (fun _ => reads_throw (by simp)) fun _ => ?_
    refine (parseChar_reads pos).bind fun r hr => ?_
    obtain ⟨value, pos1⟩ := r
    simp only at hr ⊢
    refine (ih pos1 (by omega)).bind fun r hr' => ?_
    obtain ⟨es, pos2⟩ := r
    obtain ⟨hlen, cs, hcs⟩ := hr'
    refine reads_pure ⟨by simp only at hlen ⊢; omega, value :: cs, ?_⟩
    simp only at hcs
    simp [hcs, altElements, symElements, Terminal.elements, Item.elements]

/-- A class is its first item and further ones, or it is empty. -/
theorem parseClass_reads (fuel : Nat) (type : GreType) (pos : Text) (h : pos.length < fuel) :
    Reads (parseClass fuel type pos) fun r => r.2.length ≤ pos.length ∧
      (r.1 = [] ∨ ∃ (first : Item) (rest : List Item),
        r.1 = first.elements type ++ rest.flatMap (Item.elements .charAlt)) := by
  induction fuel generalizing type pos with
  | zero => exact absurd h (Nat.not_lt_zero _)
  | succ fuel ih =>
    -- the items behind the first are a list, whichever way they end
    have hrest : ∀ pos', pos'.length < fuel → Reads (parseClass fuel .charAlt pos') fun r =>
        r.2.length ≤ pos'.length ∧ ∃ rest : List Item,
          r.1 = rest.flatMap (Item.elements .charAlt) := by
      intro pos' hpos'
      refine (ih .charAlt pos' hpos').mono fun r hr => ⟨hr.1, ?_⟩
      rcases hr.2 with hnil | ⟨first, rest, hes⟩
      · exact ⟨[], hnil⟩
      · exact ⟨first :: rest, hes⟩
    refine Reads.ite (fun _ => reads_pure ⟨by simp, .inl rfl⟩) fun _ =>
      Reads.ite (fun _ => reads_throw (by simp)) fun _ => ?_
    refine (parseChar_reads pos).bind fun r hr => ?_
    obtain ⟨value, pos1⟩ := r
    simp only at hr ⊢
    refine Reads.ite (fun _ => Reads.unless (by simp) fun _ => ?_) fun _ => ?_
    · refine (parseChar_reads pos1.tail).bind fun r hr' => ?_
      obtain ⟨upper, pos2⟩ := r
      have htail : pos1.tail.length ≤ pos1.length := by simp
      simp only at hr' ⊢
      refine (hrest pos2 (by omega)).bind fun r hr'' => ?_
      obtain ⟨es, pos3⟩ := r
      obtain ⟨hlen, rest, hes⟩ := hr''
      simp only at hlen hes
      exact reads_pure
        ⟨by simp only; omega, .inr ⟨.range value upper, rest, by simp [hes, Item.elements]⟩⟩
    · refine (hrest pos1 (by omega)).bind fun r hr'' => ?_
      obtain ⟨es, pos3⟩ := r
      obtain ⟨hlen, rest, hes⟩ := hr''
      simp only at hlen hes
      exact reads_pure ⟨by simp only; omega, .inr ⟨.char value, rest, by simp [hes, Item.elements]⟩⟩

theorem tail_length (pos : Text) : pos.tail.length ≤ pos.length := by simp

theorem parseBound_reads (pos : Text) (isNested : Bool) :
    Reads (parseBound pos isNested) fun r => r.2.length ≤ pos.length := by
  refine (parseInt_reads pos).bind fun intEnd hint => ?_
  refine (stoull_reads _).bind fun n _ => reads_pure ?_
  exact (parseSpace_length _ _).trans hint.le

theorem parseUpper_reads (pos : Text) (isNested : Bool) :
    Reads (parseUpper pos isNested) fun r => r.2.length ≤ pos.length :=
  Reads.ite (fun _ => parseBound_reads pos isNested) fun _ => reads_pure (le_refl _)

theorem parseMaxTimes_reads (minTimes : Nat) (pos : Text) (isNested : Bool) :
    Reads (parseMaxTimes minTimes pos isNested) fun r => r.2.length ≤ pos.length := by
  have hspace : ∀ pos : Text, (parseSpace pos.tail isNested).length ≤ pos.length := fun pos =>
    (parseSpace_length _ _).trans (tail_length pos)
  refine Reads.ite (fun _ => reads_pure (hspace pos)) fun _ =>
    Reads.ite (fun _ => ?_) fun _ => reads_throw (by simp)
  refine (parseUpper_reads _ _).bind fun r hr => ?_
  obtain ⟨maxTimes, pos1⟩ := r
  dsimp only at hr ⊢
  exact Reads.unless (by simp) fun _ => reads_pure ((hspace pos1).trans (hr.trans (hspace pos)))

theorem parseBounds_reads (pos : Text) (isNested : Bool) :
    Reads (parseBounds pos isNested) fun r => r.1 ≤ maxRepetitionThreshold ∧
      (r.2.1 = uint64Max ∨ r.2.1 ≤ maxRepetitionThreshold) ∧ r.2.2.length ≤ pos.length := by
  rw [parseBounds]
  dsimp only
  refine Reads.unless (by simp) fun _ => ?_
  refine (parseBound_reads _ _).bind fun r hr => ?_
  obtain ⟨minTimes, pos1⟩ := r
  refine (parseMaxTimes_reads _ _ _).bind fun r hr' => ?_
  obtain ⟨maxTimes, pos2⟩ := r
  dsimp only at hr hr' ⊢
  refine Reads.unless (by simp) fun hcheck => reads_pure ?_
  simp only [not_or, not_and, Nat.not_lt] at hcheck
  exact ⟨hcheck.1, or_iff_not_imp_left.mpr hcheck.2,
    hr'.trans (hr.trans (parseSpace_length pos isNested))⟩

theorem parseLineEnd_reads (pos : Text) :
    Reads (parseLineEnd pos) fun pos' => pos'.length ≤ pos.length := by
  refine Reads.ite (fun _ => ?_) fun _ => Reads.ite (fun _ => reads_pure (tail_length pos)) fun _ =>
    Reads.ite (fun _ => reads_throw (by simp)) fun _ => reads_pure (le_refl _)
  refine reads_pure ?_
  split
  · simp
  · exact tail_length pos

/-- A call keeps the state a built one, and returns as wanted. -/
def Keeps (p : Parser) (Q : α → Parser → Prop) (a : α) (p' : Parser) : Prop :=
  Grows Set.univ p p' ∧ (∃ alts, Built p' alts) ∧ Q a p'

variable {f : α → Except ParseError Unit} {Q : α → Parser → Prop} {a : List Sym} {s : Sequence}
  {front : List Element} {n : Nat} {pos pos' ruleName src : Text}
  {alternates : Text → Nat → ParserM Text} {vocab : Option (Text → List Nat)} {l : List α}

theorem wp_keeps {x : ParserM α} {f : α → ParserM β} {R : β → Parser → Prop}
    (h : wp x (Keeps p Q) Failed p)
    (hf : ∀ a p' alts, Grows Set.univ p p' → Built p' alts → Q a p' →
      wp (f a) (Keeps p' R) Failed p') :
    wp (x >>= f) (Keeps p R) Failed p := by
  refine wp_then h fun a p' ⟨hg, ⟨alts, hb⟩, hQ⟩ =>
    wp_mono (hf a p' alts hg hb hQ) ?_ fun _ _ h => h
  exact fun b p'' ⟨hg', hb', hR⟩ => ⟨hg.trans hg', hb', hR⟩

section

variable (hb : Built p alts)
include hb

theorem wp_keeps_pure {a : α} (h : Q a p) :
    wp (pure a) (Keeps p Q) Failed p := wp_pure ⟨Grows.refl _ p, ⟨alts, hb⟩, h⟩

theorem wp_keeps_lift {x : Except ParseError α} {Q : α → Prop} (hx : Reads x Q) :
    wp (ParserM.lift x) (Keeps p fun a _ => Q a) Failed p :=
  wp_lift hx fun _ h => ⟨Grows.refl _ p, ⟨alts, hb⟩, h⟩

/-- A name of the text gets a number that no made-up name has. -/
theorem getSymbolId_keeps {name : Text} (hu : byte '_' ∉ name) :
    wp (getSymbolId name)
      (Keeps p fun id p' => id < p'.symbolIds.length ∧ ¬ Generated p'.symbolIds id) Failed p := by
  obtain ⟨id, l, hok, hl, hn, hmem⟩ := getSymbolId_ok hb.numbered hu
  exact wp_of_ok hok ⟨grows_number hl, ⟨alts, hb.number hl hn⟩, hn.lt hmem,
    hn.not_generated hu hmem⟩

/-- A group gets a new number. -/
theorem generateSymbolId_grows {base : Text} (hu : byte '_' ∉ base) :
    (p.generateSymbolId base).1 = p.symbolIds.length ∧
      (p.generateSymbolId base).2.symbolIds.length = p.symbolIds.length + 1 ∧
      Grows Set.univ p (p.generateSymbolId base).2 ∧ Built (p.generateSymbolId base).2 alts := by
  have hl : p.symbolIds <+: p.symbolIds ++
      [(generatedName base p.symbolIds.length, p.symbolIds.length)] := prefix_append _ _
  rw [Parser.generateSymbolId_eq hb.numbered hu]
  exact ⟨rfl, by simp, grows_number hl, hb.number hl (hb.numbered.push (.inr ⟨base, hu, rfl⟩))⟩

end

/-- The rule of the sequence is what came before, the items read, and the last item. -/
def Sequence.Reading (s : Sequence) (front : List Element) (n : Nat) : Prop :=
  ∃ done item, s.rule = front ++ altElements done ++ altElements item ∧
    s.lastSymStart = (front ++ altElements done).length ∧ RefsBelow n done ∧ RefsBelow n item

theorem Sequence.Reading.mono {s : Sequence} {front : List Element} {n m : Nat}
    (h : s.Reading front n) (hle : n ≤ m) : s.Reading front m := by
  obtain ⟨done, item, h1, h2, h3, h4⟩ := h
  exact ⟨done, item, h1, h2, h3.mono hle, h4.mono hle⟩

theorem reading_start (front : List Element) (n : Nat) :
    Sequence.Reading { rule := front, lastSymStart := front.length } front n :=
  ⟨[], [], by simp [altElements], by simp [altElements], refsBelow_nil n, refsBelow_nil n⟩

theorem Sequence.Reading.push {s : Sequence} {front : List Element} {n : Nat}
    (h : s.Reading front n) {sy : List Sym} (hsy : RefsBelow n sy) {es : List Element}
    (hes : es = altElements sy) : (s.push es).Reading front n := by
  obtain ⟨done, item, hrule, hlast, hdone, hitem⟩ := h
  refine ⟨done ++ item, sy, ?_, ?_, hdone.append hitem, hsy⟩
  · rw [Sequence.push, hrule, hes, altElements_append, append_assoc front]
  · rw [Sequence.push, hrule, altElements_append, append_assoc front]

theorem Sequence.Reading.symbols (h : s.Reading front n) :
    ∃ sy, s.rule = front ++ altElements sy ∧ RefsBelow n sy := by
  obtain ⟨done, item, hrule, -, hdone, hitem⟩ := h
  exact ⟨done ++ item, by rw [hrule, altElements_append, append_assoc], hdone.append hitem⟩

/-- The result of a turn: the sequence read so far and less text. -/
def Turned (front : List Element) (pos : Text) (r : Option (Sequence × Text)) (p : Parser) : Prop :=
  ∀ s pos', r = some (s, pos') → s.Reading front p.symbolIds.length ∧ pos'.length < pos.length

theorem repeatLast_keeps (hb : Built p alts) (hu : byte '_' ∉ ruleName)
    (hs : s.Reading front p.symbolIds.length) (hlt : pos'.length < pos.length)
    {minTimes maxTimes : Nat} (hmin : minTimes ≤ maxRepetitionThreshold)
    (hmax : maxTimes = uint64Max ∨ maxTimes ≤ maxRepetitionThreshold) :
    wp (repeatLast ruleName s pos' minTimes maxTimes) (Keeps p (Turned front pos)) Failed p := by
  obtain ⟨done, item, hrule, hlast, hdone, hitem⟩ := hs
  rw [repeatLast, hrule, hlast]
  refine wp_then (handleRepetitions_built hb pos' hu _ hitem hmin hmax) ?_
  rintro rule p' ⟨rfl, hrep⟩
  have hg := hrep.grows hb
  refine wp_pure ⟨hg, hrep.rules.built, ?_⟩
  rintro s' pos'' he
  obtain ⟨rfl, rfl⟩ := Prod.mk.inj (Option.some.inj he)
  exact ⟨⟨done, _, rfl, rfl, hdone.mono hg.length_le, hrep.refsBelow hitem⟩, hlt⟩

/-- An item that is read ends the turn with the item in the rule. -/
theorem turned_push (hs : s.Reading front p.symbolIds.length) {sy : List Sym}
    (hsy : RefsBelow p.symbolIds.length sy) {es : List Element} (hes : es = altElements sy)
    (hlt : pos'.length < pos.length) (isNested : Bool) :
    Turned front pos (some (s.push es, parseSpace pos' isNested)) p := by
  rintro s' pos'' he
  obtain ⟨rfl, rfl⟩ := Prod.mk.inj (Option.some.inj he)
  exact ⟨hs.push hsy hes, (parseSpace_length _ _).trans_lt hlt⟩

/-- Alternates are read: their rule is defined, and the others with made-up names stay. -/
def Defines (p : Parser) (pos : Text) (id : Nat) (pos' : Text) (p' : Parser) : Prop :=
  Grows (fun j => j ≠ id) p p' ∧ (∃ alts, Built p' alts) ∧ pos'.length ≤ pos.length

/-- A group is read below a bound on the text. -/
def GroupKeeps (alternates : Text → Nat → ParserM Text) (n : Nat) : Prop :=
  ∀ pos id p alts, pos.length < n → Built p alts → id < p.symbolIds.length →
    wp (alternates pos id) (Defines p pos id) Failed p

theorem refsBelow_terminals (h : ∀ s ∈ a, ∃ t, s = .terminal t) : RefsBelow n a := by
  intro r hr
  obtain ⟨t, ht⟩ := h _ hr
  cases ht

section Item

variable {vocab : Option (Text → List Nat)} {alternates : Text → Nat → ParserM Text}
  {ruleName : Text} {isNested : Bool} {s : Sequence} {front : List Element} {pos : Text}

theorem parseItem_literal (hb : Built p alts) (hs : s.Reading front p.symbolIds.length)
    (hc : peek pos = byte '"') :
    wp (parseItem vocab alternates ruleName isNested s pos) (Keeps p (Turned front pos))
      Failed p := by
  have hlt := tail_length_lt hc (by decide)
  simp only [parseItem, if_pos hc]
  refine wp_keeps (wp_keeps_lift hb (parseLiteral_reads _ _ (by omega))) ?_
  rintro ⟨es, pos'⟩ p' alts' hg hb' ⟨hlen, cs, hes⟩
  exact wp_keeps_pure hb' (turned_push (hs.mono hg.length_le) (refsBelow_terminals (by simp)) hes
    (lt_of_le_of_lt hlen hlt) isNested)

theorem parseItem_class (hb : Built p alts) (hs : s.Reading front p.symbolIds.length)
    (hq : peek pos ≠ byte '"') (hc : peek pos = byte '[') :
    wp (parseItem vocab alternates ruleName isNested s pos) (Keeps p (Turned front pos))
      Failed p := by
  have hlt := tail_length_lt hc (by decide)
  have htail := tail_length pos.tail
  simp only [parseItem, if_neg hq, if_pos hc]
  have hread : Reads (if peek pos.tail = byte '^' then
      parseClass (pos.tail.length + 1) .charNot pos.tail.tail
      else parseClass (pos.tail.length + 1) .char pos.tail) fun r =>
      r.2.length ≤ pos.tail.length ∧ ∃ sy : List Sym, r.1 = altElements sy ∧
        ∀ x ∈ sy, ∃ t, x = .terminal t := by
    refine Reads.ite (fun _ => ?_) fun _ => ?_
    · refine (parseClass_reads _ _ _ (by omega)).mono fun r hr => ⟨hr.1.trans htail, ?_⟩
      rcases hr.2 with hnil | ⟨first, rest, hes⟩
      · exact ⟨[], hnil, by simp⟩
      · exact ⟨[.terminal (.cls true first rest)], by simp [hes, altElements, symElements,
          Terminal.elements], by simp⟩
    · refine (parseClass_reads _ _ _ (by omega)).mono fun r hr => ⟨hr.1, ?_⟩
      rcases hr.2 with hnil | ⟨first, rest, hes⟩
      · exact ⟨[], hnil, by simp⟩
      · exact ⟨[.terminal (.cls false first rest)], by simp [hes, altElements, symElements,
          Terminal.elements], by simp⟩
  refine wp_keeps (wp_keeps_lift hb hread) ?_
  rintro ⟨es, pos'⟩ p' alts' hg hb' ⟨hlen, sy, hes, hsy⟩
  exact wp_keeps_pure hb' (turned_push (hs.mono hg.length_le) (refsBelow_terminals hsy) hes
    (lt_of_le_of_lt hlen hlt) isNested)

theorem token_keeps (hb : Built p alts) (hs : s.Reading front p.symbolIds.length) (neg : Bool)
    {pos' : Text} (hle : pos'.length ≤ pos.length) :
    wp (do
      let (token, tokenEnd) ← ParserM.lift (parseToken vocab pos')
      pure (some (s.push [{ type := if neg then .tokenNot else .token, value := token }],
        parseSpace tokenEnd isNested))) (Keeps p (Turned front pos)) Failed p := by
  refine wp_keeps (wp_keeps_lift hb (parseToken_reads vocab pos')) ?_
  rintro ⟨token, tokenEnd⟩ p' alts' hg hb' hlen
  refine wp_keeps_pure hb' (@turned_push _ s front pos tokenEnd
    (hs.mono hg.length_le) [.terminal (.token neg token)] (refsBelow_terminals (by simp)) _ ?_
    (lt_of_lt_of_le hlen hle) isNested)
  simp [altElements, symElements, Terminal.elements]

theorem parseItem_token (hb : Built p alts) (hs : s.Reading front p.symbolIds.length)
    (hq : peek pos ≠ byte '"') (hr : peek pos ≠ byte '[')
    (hc : peek pos = byte '<' ∨ peek pos = byte '!') :
    wp (parseItem vocab alternates ruleName isNested s pos) (Keeps p (Turned front pos))
      Failed p := by
  simp only [parseItem, if_neg hq, if_neg hr, if_pos hc]
  by_cases hneg : peek pos = byte '!'
  · simp only [if_pos hneg]
    exact token_keeps hb hs true (tail_length pos)
  · simp only [if_neg hneg]
    exact token_keeps hb hs false (le_refl _)

theorem parseItem_name (hb : Built p alts) (hs : s.Reading front p.symbolIds.length)
    (hq : peek pos ≠ byte '"') (hr : peek pos ≠ byte '[')
    (ht : ¬ (peek pos = byte '<' ∨ peek pos = byte '!')) (hc : isWordChar (peek pos) = true) :
    wp (parseItem vocab alternates ruleName isNested s pos) (Keeps p (Turned front pos))
      Failed p := by
  simp only [parseItem, if_neg hq, if_neg hr, if_neg ht, if_pos hc]
  refine wp_keeps (wp_keeps_lift hb (parseName_reads pos)) ?_
  rintro nameEnd p1 alts1 hg1 hb1 ⟨hlen, hname⟩
  rw [hname]
  refine wp_keeps (getSymbolId_keeps hb1 (underscore_notMem_takeWhile pos)) ?_
  rintro id p2 alts2 hg2 hb2 ⟨hid, -⟩
  exact wp_keeps_pure hb2 (turned_push (hs.mono (hg1.trans hg2).length_le) (refsBelow_ref hid) rfl
    hlen isNested)

theorem parseItem_group (hb : Built p alts) (hs : s.Reading front p.symbolIds.length)
    (hu : byte '_' ∉ ruleName) (hgroup : GroupKeeps alternates pos.length)
    (hq : peek pos ≠ byte '"') (hr : peek pos ≠ byte '[')
    (ht : ¬ (peek pos = byte '<' ∨ peek pos = byte '!')) (hw : ¬ isWordChar (peek pos) = true)
    (hc : peek pos = byte '(') :
    wp (parseItem vocab alternates ruleName isNested s pos) (Keeps p (Turned front pos))
      Failed p := by
  have hlt := tail_length_lt hc (by decide)
  have hspace := parseSpace_length pos.tail true
  simp only [parseItem, if_neg hq, if_neg hr, if_neg ht, if_neg hw, if_pos hc]
  obtain ⟨hid, hone, hg1, hb1⟩ := generateSymbolId_grows hb hu
  refine wp_bind (wp_modifyGet (wp_then (hgroup _ _ _ alts (by omega) hb1 (by omega)) ?_))
  rintro pos' p2 ⟨hg2, hb2, hlen⟩
  refine wp_unless (fun _ => by simp [Failed]) fun _ => wp_pure ?_
  have hg := hg1.append hg2 fun j _ h => by
    obtain ⟨base, hmem⟩ := h
    exact (hid ▸ hb.numbered.lt hmem).ne
  have htail := tail_length pos'
  have hle := hg2.length_le
  exact ⟨hg, hb2, turned_push (hs.mono hg.length_le) (refsBelow_ref (by omega)) rfl (by omega)
    isNested⟩

theorem parseItem_any (hb : Built p alts) (hs : s.Reading front p.symbolIds.length)
    (hq : peek pos ≠ byte '"') (hr : peek pos ≠ byte '[')
    (ht : ¬ (peek pos = byte '<' ∨ peek pos = byte '!')) (hw : ¬ isWordChar (peek pos) = true)
    (hp : peek pos ≠ byte '(') (hc : peek pos = byte '.') :
    wp (parseItem vocab alternates ruleName isNested s pos) (Keeps p (Turned front pos))
      Failed p := by
  have hlt := tail_length_lt hc (by decide)
  simp only [parseItem, if_neg hq, if_neg hr, if_neg ht, if_neg hw, if_neg hp, if_pos hc]
  exact wp_keeps_pure hb (@turned_push _ s front pos pos.tail hs [.terminal .any]
    (refsBelow_terminals (by simp)) _ rfl hlt isNested)

/-- What is left are the repetitions, and the end of the loop. -/
theorem parseItem_repetition (hb : Built p alts) (hs : s.Reading front p.symbolIds.length)
    (hu : byte '_' ∉ ruleName) (hq : peek pos ≠ byte '"') (hr : peek pos ≠ byte '[')
    (ht : ¬ (peek pos = byte '<' ∨ peek pos = byte '!')) (hw : ¬ isWordChar (peek pos) = true)
    (hp : peek pos ≠ byte '(') (hd : peek pos ≠ byte '.') :
    wp (parseItem vocab alternates ruleName isNested s pos) (Keeps p (Turned front pos))
      Failed p := by
  have hfixed : ∀ (c : Char) (minTimes maxTimes : Nat), byte c ≠ 0 → peek pos = byte c →
      minTimes ≤ maxRepetitionThreshold →
      (maxTimes = uint64Max ∨ maxTimes ≤ maxRepetitionThreshold) →
      wp (repeatLast ruleName s (parseSpace pos.tail isNested) minTimes maxTimes)
        (Keeps p (Turned front pos)) Failed p := by
    intro c minTimes maxTimes h0 hc hmin hmax
    have hlt := tail_length_lt hc h0
    exact repeatLast_keeps hb hu hs ((parseSpace_length _ _).trans_lt hlt) hmin hmax
  simp only [parseItem, if_neg hq, if_neg hr, if_neg ht, if_neg hw, if_neg hp, if_neg hd]
  refine wp_ite (fun hc => hfixed '*' 0 uint64Max (by decide) hc (by decide) (.inl rfl)) fun _ => ?_
  refine wp_ite (fun hc => hfixed '+' 1 uint64Max (by decide) hc (by decide) (.inl rfl)) fun _ => ?_
  refine wp_ite (fun hc => hfixed '?' 0 1 (by decide) hc (by decide) (.inr (by decide))) fun _ => ?_
  refine wp_ite (fun hc => ?_) fun _ => wp_keeps_pure hb (by rintro s' pos' he; cases he)
  have hlt := tail_length_lt hc (by decide)
  refine wp_keeps (wp_keeps_lift hb (parseBounds_reads pos.tail isNested)) ?_
  rintro ⟨minTimes, maxTimes, pos'⟩ p' alts' hg hb' ⟨hmin, hmax, hlen⟩
  exact repeatLast_keeps hb' hu (hs.mono hg.length_le) (lt_of_le_of_lt hlen hlt) hmin hmax

/-- One turn of the loop of `parse_sequence`. -/
theorem parseItem_keeps (hb : Built p alts) (hs : s.Reading front p.symbolIds.length)
    (hu : byte '_' ∉ ruleName) (hgroup : GroupKeeps alternates pos.length) :
    wp (parseItem vocab alternates ruleName isNested s pos) (Keeps p (Turned front pos))
      Failed p := by
  by_cases hq : peek pos = byte '"'
  · exact parseItem_literal hb hs hq
  by_cases hr : peek pos = byte '['
  · exact parseItem_class hb hs hq hr
  by_cases ht : peek pos = byte '<' ∨ peek pos = byte '!'
  · exact parseItem_token hb hs hq hr ht
  by_cases hw : isWordChar (peek pos) = true
  · exact parseItem_name hb hs hq hr ht hw
  by_cases hp : peek pos = byte '('
  · exact parseItem_group hb hs hu hgroup hq hr ht hw hp
  by_cases hd : peek pos = byte '.'
  · exact parseItem_any hb hs hq hr ht hw hp hd
  · exact parseItem_repetition hb hs hu hq hr ht hw hp hd

end Item

/-- What a sequence adds to the elements in front of it, and less text. -/
def SequenceRead (front : List Element) (pos : Text) (r : List Element × Text)
    (p : Parser) : Prop :=
  (∃ sy, r.1 = front ++ altElements sy ∧ RefsBelow p.symbolIds.length sy) ∧ r.2.length ≤ pos.length

theorem GroupKeeps.mono {m : Nat} (h : GroupKeeps alternates n) (hle : m ≤ n) :
    GroupKeeps alternates m :=
  fun pos id p alts hpos => h pos id p alts (lt_of_lt_of_le hpos hle)

theorem parseSequenceLoop_keeps (hu : byte '_' ∉ ruleName) (isNested : Bool) (front : List Element)
    (fuel : Nat) (s : Sequence) (pos : Text) (hpos : pos.length < fuel)
    (hgroup : GroupKeeps alternates pos.length) (p : Parser) (alts : List (List (List Sym)))
    (hb : Built p alts) (hs : s.Reading front p.symbolIds.length) :
    wp (parseSequenceLoop vocab alternates ruleName isNested fuel s pos)
      (Keeps p (SequenceRead front pos)) Failed p := by
  induction fuel generalizing s pos p alts with
  | zero => exact absurd hpos (Nat.not_lt_zero _)
  | succ fuel ih =>
    refine wp_ite (fun _ => wp_keeps_pure hb ⟨hs.symbols, le_refl _⟩) fun _ => ?_
    refine wp_keeps (parseItem_keeps hb hs hu hgroup) ?_
    intro r p' alts' hg hb' hturn
    match r with
    | none => exact wp_keeps_pure hb' ⟨(hs.mono hg.length_le).symbols, le_refl _⟩
    | some (s', pos') =>
      obtain ⟨hs', hlt⟩ := hturn s' pos' rfl
      refine wp_mono (ih s' pos' (by omega) (hgroup.mono hlt.le) p' alts' hb' hs') ?_ fun _ _ h => h
      exact fun r p'' ⟨hg', hb'', hsy, hlen⟩ => ⟨hg', hb'', hsy, hlen.trans hlt.le⟩

/-- `parse_sequence` adds an alternate. -/
theorem parseSequence_keeps (hu : byte '_' ∉ ruleName) (isNested : Bool) (front : List Element)
    (hgroup : GroupKeeps alternates pos.length) (hb : Built p alts) :
    wp (parseSequence vocab alternates ruleName isNested front pos)
      (Keeps p (SequenceRead front pos)) Failed p :=
  parseSequenceLoop_keeps hu isNested front _ _ pos (Nat.lt_succ_self _) hgroup p alts hb
    (reading_start front _)

/-- The alternates read so far, without the closing `END`. -/
def AlternatesRead (pos : Text) (r : List Element × Text) (p : Parser) : Prop :=
  (∃ as a, r.1 = closedElements as ++ altElements a ∧
    ∀ b ∈ as ++ [a], RefsBelow p.symbolIds.length b) ∧ r.2.length ≤ pos.length

theorem parseAlternatesLoop_keeps
    {sequence : List Element → Text → ParserM (List Element × Text)} (n : Nat)
    (hseq : ∀ front pos p alts, pos.length < n → Built p alts →
      wp (sequence front pos) (Keeps p (SequenceRead front pos)) Failed p)
    (fuel : Nat) (as : List (List Sym)) (a : List Sym) (pos : Text) (hpos : pos.length < fuel)
    (hn : pos.length ≤ n) (p : Parser) (alts : List (List (List Sym))) (hb : Built p alts)
    (hrefs : ∀ b ∈ as ++ [a], RefsBelow p.symbolIds.length b) :
    wp (parseAlternatesLoop sequence fuel (closedElements as ++ altElements a) pos)
      (Keeps p (AlternatesRead pos)) Failed p := by
  induction fuel generalizing as a pos p alts with
  | zero => exact absurd hpos (Nat.not_lt_zero _)
  | succ fuel ih =>
    refine wp_ite (fun hc => ?_) fun _ => wp_keeps_pure hb ⟨⟨as, a, rfl, hrefs⟩, le_refl _⟩
    have hlt := (parseSpace_length pos.tail true).trans_lt (tail_length_lt hc (by decide))
    rw [← closedElements_concat]
    refine wp_keeps (hseq _ _ p alts (by omega) hb) ?_
    rintro ⟨rule, pos'⟩ p' alts' hg hb' ⟨⟨sy, hrule, hsy⟩, hlen⟩
    dsimp only at hrule hlen ⊢
    rw [hrule]
    refine wp_mono (ih (as ++ [a]) sy pos' (by omega) (by omega) p' alts' hb' ?_) ?_ fun _ _ h => h
    · intro b hb
      rcases mem_append.mp hb with hb | hb
      · exact (hrefs b hb).mono hg.length_le
      · obtain rfl := mem_singleton.mp hb
        exact hsy
    · exact fun r p'' ⟨hg', hb'', has, hlen'⟩ => ⟨hg', hb'', has, hlen'.trans (by omega)⟩

section

variable (vocab : Option (Text → List Nat))

theorem parseAlternates_keeps (hu : byte '_' ∉ ruleName) (depth : Nat) (isNested : Bool)
    (src : Text) (ruleId : Nat) (hsrc : src.length < depth) (p : Parser)
    (alts : List (List (List Sym))) (hb : Built p alts) (hid : ruleId < p.symbolIds.length) :
    wp (parseAlternates vocab ruleName depth isNested src ruleId) (Defines p src ruleId) Failed
      p := by
  induction depth generalizing isNested src ruleId p alts with
  | zero => exact absurd hsrc (Nat.not_lt_zero _)
  | succ depth ih =>
    have hgroup : GroupKeeps (parseAlternates vocab ruleName depth true) src.length :=
      fun pos id p alts hpos hb hid => ih true pos id (by omega) p alts hb hid
    have hseq : ∀ front pos p alts, pos.length ≤ src.length → Built p alts →
        wp (parseSequence vocab (parseAlternates vocab ruleName depth true) ruleName isNested front
          pos) (Keeps p (SequenceRead front pos)) Failed p :=
      fun front pos p alts hpos hb => parseSequence_keeps hu isNested front (hgroup.mono hpos) hb
    refine wp_then (hseq [] src p alts (le_refl _) hb) ?_
    rintro ⟨rule, pos⟩ p1 ⟨hg1, ⟨alts1, hb1⟩, ⟨sy, hrule, hsy⟩, hlen⟩
    dsimp only at hrule hlen ⊢
    rw [hrule]
    refine wp_then (parseAlternatesLoop_keeps src.length
      (fun front pos p alts hpos => hseq front pos p alts hpos.le) _ [] sy pos (Nat.lt_succ_self _)
      hlen p1 alts1 hb1 (by simpa using hsy)) ?_
    rintro ⟨rule, pos'⟩ p2 ⟨hg2, ⟨alts2, hb2⟩, ⟨as, a, hrule, hrefs⟩, hlen'⟩
    dsimp only at hrule hlen' ⊢
    rw [hrule, ← ruleElements_concat]
    have hgrow := hg1.trans hg2
    refine wp_bind (wp_modify (wp_pure ⟨?_, ⟨_, hb2.addRule (by simp)
      (lt_of_lt_of_le hid hgrow.length_le) hrefs⟩, hlen'.trans hlen⟩))
    exact (hgrow.mono fun _ _ => trivial).append (grows_addRule _ _) fun _ hj _ => hj

theorem parseRule_keeps (hb : Built p alts) :
    wp (parseRule vocab src) (Keeps p fun pos _ => pos.length < src.length) Failed p := by
  refine wp_keeps (wp_keeps_lift hb (parseName_reads src)) ?_
  rintro nameEnd p1 alts1 hg1 hb1 ⟨hlt, hname⟩
  have hu : byte '_' ∉ between src nameEnd := hname ▸ underscore_notMem_takeWhile src
  refine wp_keeps (getSymbolId_keeps hb1 hu) ?_
  rintro ruleId p2 alts2 hg2 hb2 ⟨hid, hnot⟩
  refine wp_unless (fun _ => by simp [Failed]) fun _ => ?_
  have hspace := parseSpace_length nameEnd false
  have hspace' := parseSpace_length ((parseSpace nameEnd false).drop 3) true
  have hdrop : ((parseSpace nameEnd false).drop 3).length ≤ (parseSpace nameEnd false).length := by
    simp
  refine wp_then (parseAlternates_keeps vocab hu _ false _ ruleId (Nat.lt_succ_self _) p2 alts2 hb2
    hid) ?_
  rintro pos p3 ⟨hg3, ⟨alts3, hb3⟩, hlen⟩
  have hg : Grows Set.univ p2 p3 := (Grows.refl _ p2).append hg3 fun j _ hj he => hnot (he ▸ hj)
  refine wp_bind (wp_lift (parseLineEnd_reads pos) fun pos' hlen' => wp_pure ⟨hg, ⟨alts3, hb3⟩, ?_⟩)
  have hspace'' := parseSpace_length pos' true
  omega

theorem parseRules_keeps (fuel : Nat) (pos : Text) (hpos : pos.length < fuel) (p : Parser)
    (alts : List (List (List Sym))) (hb : Built p alts) :
    wp (parseRules vocab fuel pos) (Keeps p fun _ _ => True) Failed p := by
  induction fuel generalizing pos p alts with
  | zero => exact absurd hpos (Nat.not_lt_zero _)
  | succ fuel ih =>
    refine wp_ite (fun _ => wp_keeps_pure hb trivial) fun _ => ?_
    refine wp_keeps (parseRule_keeps vocab hb) ?_
    exact fun pos' p' alts' _ hb' hlt => ih pos' (by omega) p' alts' hb'

end

theorem forM_ok (h : l.forM f = .ok ()) : ∀ a ∈ l, f a = .ok () := by
  induction l with
  | nil => simp
  | cons a l ih =>
    change (f a >>= fun _ => l.forM f) = .ok () at h
    cases ha : f a with
    | error e =>
      rw [ha] at h
      cases h
    | ok u =>
      rw [ha] at h
      intro b hmem
      rcases mem_cons.mp hmem with rfl | hmem
      · exact ha
      · exact ih h b hmem

theorem forM_reads (h : ∀ a ∈ l, Reads (f a) fun _ => True) : Reads (l.forM f) fun _ => True := by
  induction l with
  | nil => exact trivial
  | cons a l ih =>
    exact (h a mem_cons_self).bind fun _ _ => ih fun b hb => h b (mem_cons_of_mem a hb)

theorem checkRule_reads (p : Parser) (rule : List Element) :
    Reads (checkRule p rule) fun _ => True := by
  rw [checkRule]
  refine Reads.unless (by simp) fun _ => forM_reads fun e _ => ?_
  refine Reads.ite (fun _ => ?_) fun _ => reads_pure trivial
  split
  · exact reads_throw (by simp)
  · exact reads_pure trivial

/-- A rule that passes has elements, and the named rules it refers to have some. -/
theorem checkRule_ok {rule : List Element} (h : checkRule p rule = .ok ()) :
    rule ≠ [] ∧ ∀ e ∈ rule, e.type = .ruleRef → (∃ key, (key, e.value) ∈ p.symbolIds) →
      p.rules.rule e.value ≠ [] := by
  rw [checkRule] at h
  by_cases hnil : rule = []
  · rw [if_pos hnil] at h
    cases h
  · rw [if_neg hnil] at h
    refine ⟨hnil, fun e he href ⟨key, hkey⟩ hempty => ?_⟩
    have hcheck := forM_ok h e he
    rw [if_pos ⟨href, hempty⟩] at hcheck
    split at hcheck
    · cases hcheck
    · rename_i hnone
      have := find?_eq_none.mp hnone _ hkey
      simp at this

theorem parseText_keeps (vocab : Option (Text → List Nat)) (src : Text) :
    wp (parseText vocab src) (fun _ p => (∃ alts, Built p alts) ∧
      ∀ rule ∈ p.rules, checkRule p rule = .ok ()) Failed Parser.empty := by
  refine wp_then (parseRules_keeps vocab _ _ (Nat.lt_succ_self _) _ _ built_empty) ?_
  rintro - p ⟨-, ⟨alts, hb⟩, -⟩
  refine wp_bind (wp_get ?_)
  have hreads : Reads (p.rules.forM (checkRule p)) fun _ => True :=
    forM_reads fun rule _ => checkRule_reads p rule
  cases hcheck : p.rules.forM (checkRule p) with
  | ok u => exact ⟨⟨alts, hb⟩, forM_ok hcheck⟩
  | error e =>
    rw [hcheck] at hreads
    exact hreads

theorem mem_ruleElements {as : List (List Sym)} {s : Sym} (ha : a ∈ as) (hs : s ∈ a) {e : Element}
    (he : e ∈ symElements s) : e ∈ ruleElements as := by
  have halt : e ∈ altElements a := mem_flatMap.mpr ⟨s, hs, he⟩
  induction as with
  | nil => cases ha
  | cons b as ih =>
    cases as with
    | nil =>
      obtain rfl := mem_singleton.mp ha
      exact mem_append_left _ halt
    | cons c as =>
      rw [ruleElements]
      · rcases mem_cons.mp ha with rfl | ha
        · exact mem_append_left _ halt
        · exact mem_append_right _ (mem_cons_of_mem _ (ih ha))
      · simp

/-- The rules of a parser whose validation succeeded are those of a grammar. -/
theorem Built.exists_ruleSet (hb : Built p alts)
    (hcheck : ∀ rule ∈ p.rules, checkRule p rule = .ok ()) :
    ∃ G : RuleSet, Built p G.alts ∧ p.rules = G.elements := by
  have hdefined : ∀ as ∈ alts, as ≠ [] := by
    intro as has hnil
    have hmem : layout as ∈ p.rules := hb.rules_eq ▸ mem_map_of_mem has
    exact (checkRule_ok (hcheck _ hmem)).1 (layout_eq_nil.mpr hnil)
  have hlayout : p.rules = alts.map ruleElements :=
    hb.rules_eq.trans (map_congr_left fun as has => layout_of_ne_nil (hdefined as has))
  have hclosed : ∀ as ∈ alts, ∀ a ∈ as, ∀ r, .nonterminal r ∈ a → r < alts.length := by
    intro as has a ha r hr
    have hmem : ruleElements as ∈ p.rules := hlayout ▸ mem_map_of_mem has
    have href : refTo r ∈ ruleElements as := mem_ruleElements ha hr (by simp [symElements, refTo])
    have hne := (checkRule_ok (hcheck _ hmem)).2 _ href rfl
      (hb.numbered.exists_key (hb.closed as has a ha r hr))
    by_contra hle
    refine hne ?_
    have hlen : p.rules.length ≤ r := by
      rw [hlayout, length_map]
      exact Nat.not_lt.mp hle
    simp [Rules.rule, refTo, getElem?_eq_none hlen]
  exact ⟨⟨alts, hdefined, hclosed⟩, hb, hlayout⟩

/-- A parse that returns true has built a grammar. -/
theorem parse_ruleSet (h : parse vocab src = (true, p)) :
    ∃ G : RuleSet, Built p G.alts ∧ p.rules = G.elements := by
  rw [parse] at h
  split at h
  · rename_i hok
    obtain ⟨-, rfl⟩ := Prod.mk.inj h
    obtain ⟨⟨alts, hb⟩, hcheck⟩ := (parseText_keeps vocab src).ok hok
    exact hb.exists_ruleSet hcheck
  · cases (Prod.mk.inj h).1

end Llama.Grammar
