import Llama.Grammar.Correct
import Llama.Grammar.Filter

/-!
# The filter and the acceptor

A token that the filter keeps is one that some stack consumes code point by code point, or one
whose identifier matches a token element on the way. The acceptor compares identifiers only
before it reads the piece, so the two agree as long as no matching token element is met inside
the piece and no code point of it is 0.
-/

namespace Llama.Grammar

open Relation Leftmost List

variable {G : RuleSet}

theorem decodeRest_length (bs : List UInt8) (value : Nat) (n : Int) :
    (decodeRest bs value n).1.length ≤ bs.length := by
  induction bs generalizing value n with
  | nil => simp [decodeRest]
  | cons b bs ih =>
    rw [decodeRest]
    split
    · exact (ih _ _).trans (by simp)
    · exact le_refl _

/-- The code points end with a 0, and without code points the piece ends in an incomplete or
invalid sequence. -/
theorem decodeLoop_spec (turns : Nat) (bs : List UInt8) (cps : List Nat) (value : Nat) (n : Int)
    (hlen : bs.length ≤ turns) (h : cps ≠ [] ∨ n ≠ 0 ∨ bs.head?.getD 0 ≠ 0) :
    ∃ out, (decodeLoop turns bs cps value n).1 = out ++ [0] ∧
      (out = [] → (decodeLoop turns bs cps value n).2.nRemain ≠ 0) := by
  induction turns generalizing bs cps value n with
  | zero =>
    obtain rfl := length_eq_zero_iff.mp (Nat.le_zero.mp hlen)
    exact ⟨cps, rfl, fun hc => (h.resolve_left (by simp [hc])).resolve_right (by simp)⟩
  | succ turns ih =>
    cases bs with
    | nil => exact ⟨cps, rfl, fun hc => (h.resolve_left (by simp [hc])).resolve_right (by simp)⟩
    | cons b bs =>
      rw [decodeLoop]
      by_cases hb : b = 0
      · rw [if_pos hb]
        exact ⟨cps, rfl, fun hc => (h.resolve_left (by simp [hc])).resolve_right (by simp [hb])⟩
      · rw [if_neg hb]
        simp only
        split
        · rename_i hn
          exact ⟨[], rfl, fun _ => by simp only; omega⟩
        · refine ih _ _ _ _ ?_ ?_
          · refine (decodeRest_length _ _ _).trans ?_
            simpa using hlen
          · split
            · exact Or.inl (by simp)
            · rename_i hn
              exact Or.inr (Or.inl hn)

/-- The token element matches the identifier. -/
def tokenMatches (neg : Bool) (x id : Nat) : Bool := (x == id) != neg

theorem matchToken_terminal {p : Pos} {neg : Bool} {x : Nat} {sy : List Sym}
    (h : Points G p (.terminal (.token neg x) :: sy)) (id : Nat) :
    matchToken G.elements p id = .ok (tokenMatches neg x id) := by
  obtain ⟨es, hes⟩ := h.elem_mem
  simp only [symElements, Terminal.elements, List.cons.injEq] at hes
  rw [matchToken, ← hes.1]
  cases neg <;> simp [tokenMatches, bne]

theorem Points.token_or_char {p : Pos} {t : Terminal} {sy : List Sym}
    (h : Points G p (.terminal t :: sy)) :
    ((G.elements.elem p).type = .token ∨ (G.elements.elem p).type = .tokenNot) ↔
      t.isChar = false := by
  rw [h.elem_terminal]
  cases t with
  | any => simp [Terminal.greType, Terminal.isChar]
  | cls neg first rest => cases neg <;> simp [Terminal.greType, Terminal.isChar]
  | token neg id => cases neg <;> simp [Terminal.greType, Terminal.isChar]

/-- The form starts with a class of characters. -/
def CharFront : List Sym → Prop
  | .terminal t :: _ => t.isChar = true
  | _ => False

/-- How a candidate with the given code points is kept in front of a form. -/
inductive Kept (G : RuleSet) (id : Nat) (utf8 : PartialUtf8) : List Sym → List Nat → Prop
  | stop {f : List Sym} (h : utf8.nRemain = 0 ∨ CharFront f) : Kept G id utf8 f []
  | token {neg : Bool} {x : Nat} {rest : List Sym} {cps : List Nat} (hne : cps ≠ [])
      (hm : tokenMatches neg x id = true) : Kept G id utf8 (.terminal (.token neg x) :: rest) cps
  | char {t : Terminal} {rest g : List Sym} {c : Nat} {cps : List Nat}
      (hc : t.accepts c = true) (hg : ReflTransGen (Expand G.prods) rest g) (hready : FormReady g)
      (hk : Kept G id utf8 g cps) : Kept G id utf8 (.terminal t :: rest) (c :: cps)

/-- The code points that a candidate still has. -/
def Candidate.Left (tok : Candidate) (cps : List Nat) : Prop :=
  tok.codePoints.drop tok.offset = cps ++ [0] ∧ 0 ∉ cps

/-- What advancing leaves stands for a form that is ready. -/
theorem advanceStack_sound {fuel : Nat} {s : Stack} {f : List Sym} (hs : Represents G s f)
    {acc acc' : Stacks} (h : advanceStack G.elements fuel s acc = .ok acc') {t : Stack}
    (ht : t ∈ acc') : t ∈ acc ∨ ∃ g, ReflTransGen (Expand G.prods) f g ∧ Represents G t g ∧
      FormReady g := by
  have hfuel : HaltsIn G.prods fuel f := by
    by_contra hn
    rw [advanceStack_fuel hs hn acc] at h
    cases h
  obtain ⟨acc'', hok, hmem⟩ := advanceStack_ok hs hfuel acc
  rw [h] at hok
  cases hok
  rcases (hmem t).mp ht with hacc | ⟨hgen, hready⟩
  · exact Or.inl hacc
  · obtain ⟨g, hg, hrep⟩ := hs.expands hgen
    exact Or.inr ⟨g, hg, hrep, hrep.ready_iff.mp hready⟩

end Llama.Grammar
