import Llama.Grammar.Parsed

/-!
# The turns of a parse

The turns of the loops of `parse_sequence` that a parse comes to, through rules, alternates and
groups. The state at each is a built one, and the rules that a turn adds under new numbers are
still there when the calls around it have ended.
-/

namespace Llama.Grammar

open Wp List

/-- Where a sequence stands: the name of its rule, how deep groups may still go, and whether it
is in one. -/
structure Place where
  ruleName : Text
  depth : Nat
  isNested : Bool

/-- `parse_alternates` of a group of the place. -/
def Place.group (vocab : Option (Text → List Nat)) (c : Place) : Text → Nat → ParserM Text :=
  parseAlternates vocab c.ruleName c.depth true

/-- `parse_sequence` at the place. -/
def Place.sequence (vocab : Option (Text → List Nat)) (c : Place) :
    List Element → Text → ParserM (List Element × Text) :=
  parseSequence vocab (c.group vocab) c.ruleName c.isNested

/-- A turn of the loop of `parse_sequence`. -/
structure Turn where
  place : Place
  s : Sequence
  pos : Text
  /-- The parser when the turn begins. -/
  parser : Parser

/-- The body of the loop. -/
def Turn.item (vocab : Option (Text → List Nat)) (t : Turn) :
    EStateM.Result ParseError Parser (Option (Sequence × Text)) :=
  parseItem vocab (t.place.group vocab) t.place.ruleName t.place.isNested t.s t.pos t.parser

/-- The calls that lead to turns. -/
inductive Call where
  /-- The loop of `parse`. -/
  | rules (fuel : Nat) (pos : Text)
  /-- `parse_alternates`. -/
  | alternates (c : Place) (src : Text) (ruleId : Nat)
  /-- Its loop over further alternates. -/
  | more (c : Place) (fuel : Nat) (rule : List Element) (pos : Text)
  /-- The loop of `parse_sequence`. -/
  | sequence (c : Place) (fuel : Nat) (s : Sequence) (pos : Text)

/-- `parse_sequence` behind the elements of a rule. -/
def Call.ofSequence (c : Place) (rule : List Element) (src : Text) : Call :=
  .sequence c (src.length + 1) { rule := rule, lastSymStart := rule.length } src

/-- From the state `p` the call returns in the state `q`. -/
def Call.Ends (vocab : Option (Text → List Nat)) : Call → Parser → Parser → Prop
  | .rules fuel pos, p, q => ∃ u, parseRules vocab fuel pos p = .ok u q
  | .alternates c src id, p, q =>
    ∃ r, parseAlternates vocab c.ruleName (c.depth + 1) c.isNested src id p = .ok r q
  | .more c fuel rule pos, p, q =>
    ∃ r, parseAlternatesLoop (c.sequence vocab) fuel rule pos p = .ok r q
  | .sequence c fuel s pos, p, q =>
    ∃ r, parseSequenceLoop vocab (c.group vocab) c.ruleName c.isNested fuel s pos p = .ok r q

/-- The call, begun in the state `p`, comes to the turn. -/
inductive Comes (vocab : Option (Text → List Nat)) : Call → Parser → Turn → Prop
  | turn {c fuel s pos p} (hpos : pos ≠ []) :
    Comes vocab (.sequence c (fuel + 1) s pos) p ⟨c, s, pos, p⟩
  | next {c fuel s pos p s' pos' p' t} (hpos : pos ≠ [])
      (hitem : Turn.item vocab ⟨c, s, pos, p⟩ = .ok (some (s', pos')) p')
      (h : Comes vocab (.sequence c fuel s' pos') p' t) :
    Comes vocab (.sequence c (fuel + 1) s pos) p t
  | group {c depth fuel s pos p t} (hpos : peek pos = byte '(') (hdepth : c.depth = depth + 1)
      (h : Comes vocab (.alternates ⟨c.ruleName, depth, true⟩ (parseSpace pos.tail true)
        (p.generateSymbolId c.ruleName).1) (p.generateSymbolId c.ruleName).2 t) :
    Comes vocab (.sequence c (fuel + 1) s pos) p t
  | first {c src id p t} (h : Comes vocab (.ofSequence c [] src) p t) :
    Comes vocab (.alternates c src id) p t
  | more {c src id p rule pos p' t} (hseq : c.sequence vocab [] src p = .ok (rule, pos) p')
      (h : Comes vocab (.more c (pos.length + 1) rule pos) p' t) :
    Comes vocab (.alternates c src id) p t
  | alternate {c fuel rule pos p t} (hpos : peek pos = byte '|')
      (h : Comes vocab (.ofSequence c (rule ++ [{ type := .alt, value := 0 }])
        (parseSpace pos.tail true)) p t) :
    Comes vocab (.more c (fuel + 1) rule pos) p t
  | nextAlternate {c fuel rule pos p rule' pos' p' t} (hpos : peek pos = byte '|')
      (hseq : c.sequence vocab (rule ++ [{ type := .alt, value := 0 }])
        (parseSpace pos.tail true) p =
        .ok (rule', pos') p')
      (h : Comes vocab (.more c fuel rule' pos') p' t) :
    Comes vocab (.more c (fuel + 1) rule pos) p t
  | rule {fuel pos nameEnd p id p' def' t} (hpos : pos ≠ []) (hname : parseName pos = .ok nameEnd)
      (hid : getSymbolId (between pos nameEnd) p = .ok id p')
      (hdef : [byte ':', byte ':', byte '='] ++ def' = parseSpace nameEnd false)
      (h : Comes vocab (.alternates ⟨between pos nameEnd, (parseSpace def' true).length, false⟩
        (parseSpace def' true) id) p' t) :
    Comes vocab (.rules (fuel + 1) pos) p t
  | nextRule {fuel pos p pos' p' t} (hpos : pos ≠ []) (hrule : parseRule vocab pos p = .ok pos' p')
      (h : Comes vocab (.rules fuel pos') p' t) :
    Comes vocab (.rules (fuel + 1) pos) p t

/-- The parse of the text comes to the turn. -/
def TurnOf (vocab : Option (Text → List Nat)) (src : Text) (t : Turn) : Prop :=
  Comes vocab (.rules ((parseSpace src true).length + 1) (parseSpace src true)) Parser.empty t

variable {vocab : Option (Text → List Nat)} {c : Place} {call : Call} {p p' q : Parser} {t : Turn}
  {alts : List (List (List Sym))} {fuel depth id : Nat} {s : Sequence} {pos src : Text}
  {rule : List Element} {α β : Type}

theorem ok_bind {x : ParserM α} {f : α → ParserM β} {b : β} (h : (x >>= f) p = .ok b q) :
    ∃ a p', x p = .ok a p' ∧ f a p' = .ok b q := by
  simp only [bind, EStateM.bind] at h
  cases hx : x p with
  | ok a p' =>
    rw [hx] at h
    exact ⟨a, p', rfl, h⟩
  | error e p' =>
    rw [hx] at h
    cases h

theorem ok_lift {x : Except ParseError α} {a : α} (h : ParserM.lift x p = .ok a q) :
    x = .ok a ∧ q = p := by
  cases x with
  | ok b =>
    cases h
    exact ⟨rfl, rfl⟩
  | error e => cases h

/-- The loop of a sequence goes through its first turn. -/
theorem sequence_ends (hpos : pos ≠ []) (h : Call.Ends vocab (.sequence c (fuel + 1) s pos) p q) :
    ∃ r p', Turn.item vocab ⟨c, s, pos, p⟩ = .ok r p' ∧
      ((r = none ∧ q = p') ∨ ∃ s' pos', r = some (s', pos') ∧
        Call.Ends vocab (.sequence c fuel s' pos') p' q) := by
  obtain ⟨u, h⟩ := h
  rw [parseSequenceLoop, if_neg hpos] at h
  obtain ⟨r, p', hr, h⟩ := ok_bind h
  refine ⟨r, p', hr, ?_⟩
  match r with
  | none =>
    cases h
    exact .inl ⟨rfl, rfl⟩
  | some (s', pos') => exact .inr ⟨s', pos', rfl, u, h⟩

theorem more_ends (hpos : peek pos = byte '|')
    (h : Call.Ends vocab (.more c (fuel + 1) rule pos) p q) :
    ∃ rule' pos' p', c.sequence vocab (rule ++ [{ type := .alt, value := 0 }])
      (parseSpace pos.tail true) p = .ok (rule', pos') p' ∧
        Call.Ends vocab (.more c fuel rule' pos') p' q := by
  obtain ⟨u, h⟩ := h
  rw [parseAlternatesLoop, if_pos hpos] at h
  obtain ⟨⟨rule', pos'⟩, p', hr, h⟩ := ok_bind h
  exact ⟨rule', pos', p', hr, u, h⟩

theorem alternates_ends (h : Call.Ends vocab (.alternates c src id) p q) :
    ∃ rule pos p' p'', c.sequence vocab [] src p = .ok (rule, pos) p' ∧
      Call.Ends vocab (.more c (pos.length + 1) rule pos) p' p'' ∧
        ∃ rule', q = p''.addRule id rule' := by
  obtain ⟨u, h⟩ := h
  obtain ⟨⟨rule, pos⟩, p', hseq, h⟩ := ok_bind h
  obtain ⟨⟨rule', pos'⟩, p'', hmore, h⟩ := ok_bind h
  cases h
  exact ⟨rule, pos, p', p'', hseq, ⟨_, hmore⟩, _, rfl⟩

theorem rules_ends (hpos : pos ≠ []) (h : Call.Ends vocab (.rules (fuel + 1) pos) p q) :
    ∃ pos' p', parseRule vocab pos p = .ok pos' p' ∧ Call.Ends vocab (.rules fuel pos') p' q := by
  obtain ⟨u, h⟩ := h
  rw [parseRules, if_neg hpos] at h
  obtain ⟨pos', p', hr, h⟩ := ok_bind h
  exact ⟨pos', p', hr, u, h⟩

/-- A rule ends as its alternates do. -/
theorem rule_ends {nameEnd def' : Text} (hname : parseName pos = .ok nameEnd)
    (hid : getSymbolId (between pos nameEnd) p = .ok id p')
    (hdef : [byte ':', byte ':', byte '='] ++ def' = parseSpace nameEnd false) {u : Text}
    (h : parseRule vocab pos p = .ok u q) :
    Call.Ends vocab (.alternates ⟨between pos nameEnd, (parseSpace def' true).length, false⟩
      (parseSpace def' true) id) p' q := by
  rw [parseRule, hname] at h
  obtain ⟨_, _, hlift, h⟩ := ok_bind h
  obtain ⟨he, rfl⟩ := ok_lift hlift
  cases he
  obtain ⟨_, _, hid', h⟩ := ok_bind h
  rw [hid] at hid'
  cases hid'
  have hcheck : ¬ (peek ([byte ':', byte ':', byte '='] ++ def') ≠ byte ':' ∨
      peek ([byte ':', byte ':', byte '='] ++ def').tail ≠ byte ':' ∨
      peek ([byte ':', byte ':', byte '='] ++ def').tail.tail ≠ byte '=') := by
    rw [not_or, not_or, not_not, not_not, not_not]
    exact ⟨rfl, rfl, rfl⟩
  simp only [← hdef, if_neg hcheck] at h
  obtain ⟨pos', p2, halt, hend⟩ := ok_bind h
  obtain ⟨_, p3, hlift, hpure⟩ := ok_bind hend
  obtain ⟨-, rfl⟩ := ok_lift hlift
  cases hpure
  exact ⟨_, halt⟩

/-- A turn at a group ends as its alternates do. -/
theorem group_ends (hpos : peek pos = byte '(') (hdepth : c.depth = depth + 1)
    {r : Option (Sequence × Text)} (h : Turn.item vocab ⟨c, s, pos, p⟩ = .ok r q) :
    Call.Ends vocab (.alternates ⟨c.ruleName, depth, true⟩ (parseSpace pos.tail true)
      (p.generateSymbolId c.ruleName).1) (p.generateSymbolId c.ruleName).2 q := by
  have hword : ¬ isWordChar (byte '(') = true := by decide
  have hclass : ¬ byte '(' = byte '[' := by decide
  have htoken : ¬ (byte '(' = byte '<' ∨ byte '(' = byte '!') := by decide
  have hquote : ¬ byte '(' = byte '"' := by decide
  simp only [Turn.item, parseItem, hpos, if_neg hquote, if_neg hclass, if_neg htoken, if_neg hword,
    if_true] at h
  obtain ⟨_, _, hgen, h⟩ := ok_bind h
  cases hgen
  obtain ⟨pos', p', halt, h⟩ := ok_bind h
  rw [Place.group, hdepth] at halt
  split at h
  · cases h
  · cases h
    exact ⟨_, halt⟩

/-- What the lemmas on the functions of the parser ask of a call. -/
def Call.Ready (p : Parser) : Call → Prop
  | .rules fuel pos => pos.length < fuel
  | .alternates c src id =>
    byte '_' ∉ c.ruleName ∧ src.length ≤ c.depth ∧ id < p.symbolIds.length
  | .more c fuel rule pos =>
    byte '_' ∉ c.ruleName ∧ pos.length ≤ c.depth ∧ pos.length < fuel ∧ ∃ as a,
      rule = closedElements as ++ altElements a ∧ ∀ b ∈ as ++ [a], RefsBelow p.symbolIds.length b
  | .sequence c fuel s pos =>
    byte '_' ∉ c.ruleName ∧ pos.length ≤ c.depth ∧ pos.length < fuel ∧
      ∃ front, s.Reading front p.symbolIds.length

/-- The parser is a built one at the turn, and the elements of the sequence are those of symbols. -/
structure Turn.Ready (t : Turn) : Prop where
  name : byte '_' ∉ t.place.ruleName
  left : t.pos.length ≤ t.place.depth
  reading : ∃ front, t.s.Reading front t.parser.symbolIds.length
  built : ∃ alts, Built t.parser alts

/-- The turn ends, and what it adds under new numbers is there in the state `q`. -/
def Turn.Lasts (vocab : Option (Text → List Nat)) (t : Turn) (q : Parser) : Prop :=
  ∃ r p', t.item vocab = .ok r p' ∧ Grows (fun id => t.parser.symbolIds.length ≤ id) p' q

theorem Turn.Lasts.append {ids : Set Nat} (h : t.Lasts vocab p) (hg : Grows ids p q)
    (hids : ∀ id, t.parser.symbolIds.length ≤ id → id ∈ ids) : t.Lasts vocab q := by
  obtain ⟨r, p', hitem, hgrows⟩ := h
  exact ⟨r, p', hitem, hgrows.append hg fun id hid _ => hids id hid⟩

section

variable (hu : byte '_' ∉ c.ruleName) (hb : Built p alts)
include hu hb

theorem item_keeps (hle : pos.length ≤ c.depth) {front : List Element}
    (hs : s.Reading front p.symbolIds.length) :
    wp (parseItem vocab (c.group vocab) c.ruleName c.isNested s pos) (Keeps p (Turned front pos))
      Failed p :=
  parseItem_keeps hb hs hu fun pos id p alts hpos hb hid =>
    parseAlternates_keeps vocab hu c.depth true pos id (by omega) p alts hb hid

theorem sequence_keeps (hle : pos.length ≤ c.depth) (front : List Element) :
    wp (c.sequence vocab front pos) (Keeps p (SequenceRead front pos)) Failed p :=
  parseSequence_keeps hu c.isNested front (fun pos id p alts hpos hb hid =>
    parseAlternates_keeps vocab hu c.depth true pos id (by omega) p alts hb hid) hb

end

/-- A call that returns keeps the rules with made-up names; alternates define theirs. -/
theorem Call.Ready.grows (h : call.Ready p) (hb : Built p alts) (hq : call.Ends vocab p q)
    (hids : ∀ c src id, call ≠ .alternates c src id) : Grows Set.univ p q := by
  match call, h, hq with
  | .rules fuel pos, h, ⟨_, hq⟩ => exact ((parseRules_keeps vocab fuel pos h p alts hb).ok hq).1
  | .alternates c src id, _, _ => exact (hids c src id rfl).elim
  | .more c fuel rule pos, ⟨hu, hle, hpos, as, a, hrule, hrefs⟩, ⟨_, hq⟩ =>
    rw [hrule] at hq
    exact ((parseAlternatesLoop_keeps (c.depth + 1) (fun front pos p alts hpos hb =>
      sequence_keeps hu hb (Nat.lt_succ_iff.mp hpos) front) fuel as a pos hpos (by omega) p alts hb
        hrefs).ok hq).1
  | .sequence c fuel s pos, ⟨hu, hle, hpos, front, hs⟩, ⟨_, hq⟩ =>
    exact ((parseSequenceLoop_keeps hu c.isNested front fuel s pos hpos
      (fun pos id p alts hpos hb hid =>
        parseAlternates_keeps vocab hu c.depth true pos id (by omega) p alts hb hid) p alts hb
        hs).ok hq).1

/-- One more alternate is read. -/
theorem more_ready (hu : byte '_' ∉ c.ruleName) (hb : Built p alts) (hle : pos.length ≤ c.depth)
    (hlt : pos.length < fuel + 1) {as : List (List Sym)} {a : List Sym}
    (hrefs : ∀ b ∈ as ++ [a], RefsBelow p.symbolIds.length b) (hpos : peek pos = byte '|')
    {rule' : List Element} {pos' : Text} (hseq : c.sequence vocab (closedElements as ++
      altElements a ++ [{ type := .alt, value := 0 }]) (parseSpace pos.tail true) p =
        .ok (rule', pos') p') :
    p.symbolIds.length ≤ p'.symbolIds.length ∧ (∃ alts', Built p' alts') ∧
      Call.Ready p' (.more c fuel rule' pos') := by
  have htail := tail_length_lt hpos (by decide)
  have hspace := parseSpace_length pos.tail true
  obtain ⟨hg, hb', ⟨sy, hrule, hsy⟩, hlen⟩ := (sequence_keeps hu hb (by omega) _).ok hseq
  rw [← closedElements_concat] at hrule
  dsimp only at hrule hlen
  refine ⟨hg.length_le, hb', hu, by omega, by omega, as ++ [a], sy, hrule, fun b hmem => ?_⟩
  rcases mem_append.mp hmem with hmem | hmem
  · exact (hrefs b hmem).mono hg.length_le
  · obtain rfl := mem_singleton.mp hmem
    exact hsy

/-- One more turn of a sequence is made. -/
theorem sequence_ready (hr : Call.Ready p (.sequence c (fuel + 1) s pos)) (hb : Built p alts)
    {s' : Sequence} {pos' : Text}
    (hitem : Turn.item vocab ⟨c, s, pos, p⟩ = .ok (some (s', pos')) p') :
    p.symbolIds.length ≤ p'.symbolIds.length ∧ (∃ alts', Built p' alts') ∧
      Call.Ready p' (.sequence c fuel s' pos') := by
  obtain ⟨hu, hle, hlt, front, hs⟩ := hr
  obtain ⟨hg, hb', hturned⟩ := (item_keeps hu hb hle hs).ok hitem
  obtain ⟨hs', hlt'⟩ := hturned s' pos' rfl
  exact ⟨hg.length_le, hb', hu, by omega, by omega, front, hs'⟩

/-- Every turn that a call comes to begins in a built state, and what it adds is still there when
the call has returned. -/
theorem Comes.spec (h : Comes vocab call p t) (hb : Built p alts) (hr : call.Ready p) :
    t.Ready ∧ p.symbolIds.length ≤ t.parser.symbolIds.length ∧
      ∀ q, call.Ends vocab p q → t.Lasts vocab q := by
  induction h generalizing alts with
  | @turn c fuel s pos p hpos =>
    refine ⟨⟨hr.1, hr.2.1, hr.2.2.2, ⟨alts, hb⟩⟩, le_rfl, fun q hq => ?_⟩
    obtain ⟨r, p', hitem, hrest⟩ := sequence_ends hpos hq
    refine ⟨r, p', hitem, ?_⟩
    rcases hrest with ⟨-, rfl⟩ | ⟨s', pos', rfl, hrest⟩
    · exact Grows.refl _ _
    · obtain ⟨-, ⟨alts', hb'⟩, hr'⟩ := sequence_ready hr hb hitem
      exact (hr'.grows hb' hrest (by simp)).mono fun _ _ => trivial
  | @next c fuel s pos p s' pos' p' t hpos hitem _ ih =>
    obtain ⟨hlen, ⟨alts', hb'⟩, hr'⟩ := sequence_ready hr hb hitem
    obtain ⟨hready, hnum, hends⟩ := ih hb' hr'
    refine ⟨hready, hlen.trans hnum, fun q hq => ?_⟩
    obtain ⟨r, p1, hitem', hrest⟩ := sequence_ends hpos hq
    rw [hitem] at hitem'
    cases hitem'
    rcases hrest with ⟨hnone, -⟩ | ⟨s1, pos1, hsome, hrest⟩
    · cases hnone
    · cases hsome
      exact hends q hrest
  | @group c depth fuel s pos p t hpos hdepth _ ih =>
    obtain ⟨hu, hle, -⟩ := id hr
    obtain ⟨hid, hone, hg, hb'⟩ := generateSymbolId_grows hb hu
    have htail := tail_length_lt hpos (by decide)
    have hspace := parseSpace_length pos.tail true
    obtain ⟨hready, hnum, hends⟩ := ih hb' ⟨hu, by simp only; omega, by omega⟩
    refine ⟨hready, by omega, fun q hq => ?_⟩
    have hne : pos ≠ [] := by
      rintro rfl
      simp at htail
    obtain ⟨r, p', hitem, hrest⟩ := sequence_ends hne hq
    have hlasts := hends p' (group_ends hpos hdepth hitem)
    rcases hrest with ⟨-, rfl⟩ | ⟨s', pos', rfl, hrest⟩
    · exact hlasts
    · obtain ⟨-, ⟨alts', hb'⟩, hr'⟩ := sequence_ready hr hb hitem
      exact hlasts.append (hr'.grows hb' hrest (by simp)) fun _ _ => trivial
  | @first c src id p t _ ih =>
    obtain ⟨hu, hle, hid⟩ := hr
    obtain ⟨hready, hnum, hends⟩ := ih hb ⟨hu, hle, Nat.lt_succ_self _, [], reading_start _ _⟩
    refine ⟨hready, hnum, fun q hq => ?_⟩
    obtain ⟨rule, pos, p', p'', hseq, hmore, rule', rfl⟩ := alternates_ends hq
    obtain ⟨hg, ⟨alts', hb'⟩, ⟨sy, hrule, hsy⟩, hlen⟩ := (sequence_keeps hu hb hle []).ok hseq
    have hr' : Call.Ready p' (.more c (pos.length + 1) rule pos) :=
      ⟨hu, hlen.trans hle, Nat.lt_succ_self _, [], sy, hrule, by simpa using hsy⟩
    have hlasts := (hends p' ⟨_, hseq⟩).append (hr'.grows hb' hmore (by simp)) fun _ _ => trivial
    exact hlasts.append (grows_addRule id rule') fun j hj => by
      rintro rfl
      omega
  | @more c src id p rule pos p' t hseq _ ih =>
    obtain ⟨hu, hle, hid⟩ := hr
    obtain ⟨hg, ⟨alts', hb'⟩, ⟨sy, hrule, hsy⟩, hlen⟩ := (sequence_keeps hu hb hle []).ok hseq
    obtain ⟨hready, hnum, hends⟩ := ih hb'
      ⟨hu, hlen.trans hle, Nat.lt_succ_self _, [], sy, hrule, by simpa using hsy⟩
    have hnum' := hg.length_le.trans hnum
    refine ⟨hready, hnum', fun q hq => ?_⟩
    obtain ⟨rule1, pos1, p1, p2, hseq', hmore, rule', rfl⟩ := alternates_ends hq
    rw [hseq] at hseq'
    cases hseq'
    exact (hends p2 hmore).append (grows_addRule id rule') fun j hj => by
      rintro rfl
      omega
  | @alternate c fuel rule pos p t hpos _ ih =>
    obtain ⟨hu, hle, hlt, as, a, rfl, hrefs⟩ := hr
    have htail := tail_length_lt hpos (by decide)
    have hspace := parseSpace_length pos.tail true
    obtain ⟨hready, hnum, hends⟩ := ih hb ⟨hu, by omega, Nat.lt_succ_self _, _, reading_start _ _⟩
    refine ⟨hready, hnum, fun q hq => ?_⟩
    obtain ⟨rule', pos', p', hseq, hmore⟩ := more_ends hpos hq
    obtain ⟨-, hb', hr'⟩ := more_ready hu hb hle hlt hrefs hpos hseq
    exact (hends p' ⟨_, hseq⟩).append (hr'.grows hb'.choose_spec hmore (by simp)) fun _ _ => trivial
  | @nextAlternate c fuel rule pos p rule' pos' p' t hpos hseq _ ih =>
    obtain ⟨hu, hle, hlt, as, a, rfl, hrefs⟩ := hr
    obtain ⟨hnum', ⟨alts', hb'⟩, hr'⟩ := more_ready hu hb hle hlt hrefs hpos hseq
    obtain ⟨hready, hnum, hends⟩ := ih hb' hr'
    refine ⟨hready, hnum'.trans hnum, fun q hq => ?_⟩
    obtain ⟨rule1, pos1, p1, hseq', hmore⟩ := more_ends hpos hq
    rw [hseq] at hseq'
    cases hseq'
    exact hends q hmore
  | @rule fuel pos nameEnd p id p' def' t hpos hname hid hdef _ ih =>
    have hreads := parseName_reads pos
    rw [hname] at hreads
    have hu : byte '_' ∉ between pos nameEnd := hreads.2 ▸ underscore_notMem_takeWhile pos
    obtain ⟨hg, ⟨alts', hb'⟩, hlt, -⟩ := (getSymbolId_keeps hb hu).ok hid
    obtain ⟨hready, hnum, hends⟩ := ih hb' ⟨hu, le_rfl, hlt⟩
    refine ⟨hready, hg.length_le.trans hnum, fun q hq => ?_⟩
    obtain ⟨pos1, p1, hrule, hrest⟩ := rules_ends hpos hq
    obtain ⟨-, ⟨alts1, hb1⟩, hlt1⟩ := (parseRule_keeps vocab hb).ok hrule
    have hr1 : Call.Ready p1 (.rules fuel pos1) := by
      change pos.length < fuel + 1 at hr
      change pos1.length < fuel
      omega
    exact (hends p1 (rule_ends hname hid hdef hrule)).append (hr1.grows hb1 hrest (by simp))
      fun _ _ => trivial
  | @nextRule fuel pos p pos' p' t hpos hrule _ ih =>
    obtain ⟨hg, ⟨alts', hb'⟩, hlt⟩ := (parseRule_keeps vocab hb).ok hrule
    obtain ⟨hready, hnum, hends⟩ := ih hb' (show pos'.length < fuel by
      change pos.length < fuel + 1 at hr
      omega)
    refine ⟨hready, hg.length_le.trans hnum, fun q hq => ?_⟩
    obtain ⟨pos1, p1, hrule', hrest⟩ := rules_ends hpos hq
    rw [hrule] at hrule'
    cases hrule'
    exact hends q hrest

end Llama.Grammar
