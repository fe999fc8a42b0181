import Mathlib.Data.Nat.Find
import Llama.Lib.OnePass
import Llama.Server.ServerTokens

/-!
# Activation of an adapter

`launch_slot_with_task` looks for the last occurrence of the invocation sequence of an activated
adapter in the prompt. The scan runs backwards over the prompt in one pass: a token that breaks a
match is not compared again with the end of the sequence.
-/

namespace Llama.Server

open List

/-- The scale of an adapter: only its comparisons with zero matter. -/
inductive Scale where
  | zero
  | positive
  | other
deriving DecidableEq

/-- `common_adapter_lora_info`, with the invocation tokens of the adapter. -/
structure Lora where
  scale : Scale
  invocation : List LlamaToken
deriving DecidableEq

def loraAllAlora (loras : List Lora) : Bool :=
  (loras.all fun lora => lora.scale = .zero ∨ lora.invocation.length ≠ 0) ∧
    loras.any fun lora => lora.scale ≠ .zero

def loraGetEnabledIds (loras : List Lora) : List Nat :=
  (range loras.length).filter fun i => (loras[i]?.map Lora.scale) = some .positive

/-- `slot.lora[id].scale = 0.0f`. -/
def disableLora (loras : List Lora) (id : Nat) : List Lora :=
  loras.modify id fun lora => { lora with scale := .zero }

/-- The scan from the end of the prompt: `i` tokens are left, and the next one is compared with
the invocation token at `matchIdx`. -/
def scanInvocation (invocation tokens : List LlamaToken) : Nat → Nat → Option Nat
  | 0, _ => none
  | i + 1, matchIdx =>
    if tokens[i]? = invocation[matchIdx]? then
      if matchIdx = 0 then some i
      else scanInvocation invocation tokens i (matchIdx - 1)
    else scanInvocation invocation tokens i (invocation.length - 1)

/-- What `launch_slot_with_task` does with the adapters of the slot: the new list of adapters and
`alora_invocation_start`, or the error `Cannot run multiple aLoRAs in a single request`. -/
def launchAlora (loras : List Lora) (start : Int) (tokens : List LlamaToken) :
    Option (List Lora × Int) :=
  if loraAllAlora loras then
    match loraGetEnabledIds loras with
    | [id] =>
      let invocation := (loras[id]?.map Lora.invocation).getD []
      match scanInvocation invocation tokens tokens.length (invocation.length - 1) with
      | some i => some (loras, i)
      | none => some (disableLora loras id, start)
    | _ => none
  else some (loras, start)

/-- The invocation sequence stands in the prompt from that index on. -/
def Occurs (invocation tokens : List LlamaToken) (k : Nat) : Prop :=
  ∃ before after, tokens = before ++ (invocation ++ after) ∧ before.length = k

/-- It does not stand further to the right. -/
def OccursLast (invocation tokens : List LlamaToken) (k : Nat) : Prop :=
  Occurs invocation tokens k ∧ ∀ j, Occurs invocation tokens j → j ≤ k

/-- Read from their end on, the tokens are ends of the sequence, each with the token in front of
it that does not continue it. -/
def Passed (invocation after : List LlamaToken) : Prop :=
  OnePass.Splits invocation.reverse after.reverse

variable {invocation tokens : List LlamaToken} {i k matchIdx : Nat}

/-- The scan is the search for the reversed sequence in the reversed prompt. -/
theorem scanInvocation_eq (hi : i ≤ tokens.length) (hm : matchIdx < invocation.length) :
    scanInvocation invocation tokens i matchIdx =
      (OnePass.search invocation.reverse (invocation.take (matchIdx + 1)).reverse
        (tokens.take i).reverse).map List.length := by
  induction i generalizing matchIdx with
  | zero => simp [scanInvocation, OnePass.search]
  | succ i ih =>
    have hlast : 0 < invocation.length := by omega
    have htoks : (tokens.take (i + 1)).reverse = tokens[i] :: (tokens.take i).reverse := by
      rw [take_succ_eq_append_getElem hi, reverse_concat]
    have hleft : (invocation.take (matchIdx + 1)).reverse =
        invocation[matchIdx] :: (invocation.take matchIdx).reverse := by
      rw [take_succ_eq_append_getElem hm, reverse_concat]
    rw [scanInvocation, htoks, hleft, OnePass.search, getElem?_eq_getElem hi,
      getElem?_eq_getElem hm]
    simp only [Option.some.injEq]
    by_cases heq : tokens[i] = invocation[matchIdx]
    · rw [if_pos heq, if_pos heq]
      by_cases hzero : matchIdx = 0
      · subst hzero
        rw [if_pos rfl, if_pos (by simp)]
        simp only [Option.map_some, length_reverse, length_take]
        rw [Nat.min_eq_left (by omega)]
      · have hne : (invocation.take matchIdx).reverse ≠ [] := by
          rw [Ne, reverse_eq_nil_iff, take_eq_nil_iff]
          rintro (h | h)
          · exact hzero h
          · rw [h] at hlast
            exact absurd hlast (by decide)
        rw [if_neg hzero, if_neg hne, ih (by omega) (by omega), Nat.sub_add_cancel (by omega)]
    · rw [if_neg heq, if_neg heq, ih (by omega) (by omega), Nat.sub_add_cancel hlast, take_length]

/-- The scan finds the occurrences behind which the tokens are passed. -/
theorem scanInvocation_eq_some (hne : invocation ≠ []) :
    scanInvocation invocation tokens tokens.length (invocation.length - 1) = some k ↔
      ∃ before after, tokens = before ++ (invocation ++ after) ∧ before.length = k ∧
        Passed invocation after := by
  have hpos := length_pos_iff.mpr hne
  have hrev : invocation.reverse ≠ [] := by simpa using hne
  rw [scanInvocation_eq le_rfl (by omega), Nat.sub_add_cancel hpos, take_length,
    take_length, Option.map_eq_some_iff]
  simp only [OnePass.search_pattern hrev]
  constructor
  · rintro ⟨rest, ⟨s, hs, htoks⟩, rfl⟩
    refine ⟨rest.reverse, s.reverse, ?_, by simp, ?_⟩
    · rw [← reverse_reverse tokens, htoks]
      simp
    · rw [Passed, reverse_reverse]
      exact hs
  · rintro ⟨before, after, rfl, rfl, hpassed⟩
    exact ⟨before.reverse, ⟨after.reverse, hpassed, by simp⟩, by simp⟩

theorem Occurs.le (h : Occurs invocation tokens k) : k ≤ tokens.length := by
  obtain ⟨before, after, rfl, rfl⟩ := h
  simp

/-- A sequence that occurs has a last occurrence. -/
theorem Occurs.exists_last (h : Occurs invocation tokens k) :
    ∃ l, OccursLast invocation tokens l := by
  classical
  refine ⟨Nat.findGreatest (Occurs invocation tokens) tokens.length,
    Nat.findGreatest_spec h.le h, ?_⟩
  intro j hj
  exact Nat.le_findGreatest hj.le hj

/-- The scan finds an occurrence just if the tokens behind it are passed. -/
theorem OccursLast.scan_iff (hne : invocation ≠ []) (hk : OccursLast invocation tokens k) :
    scanInvocation invocation tokens tokens.length (invocation.length - 1) = some k ↔
      Passed invocation (tokens.drop (k + invocation.length)) := by
  rw [scanInvocation_eq_some hne]
  have hdrop : ∀ before after : List LlamaToken,
      (before ++ (invocation ++ after)).drop (before.length + invocation.length) = after := by
    intro before after
    rw [← append_assoc, ← length_append, drop_left]
  constructor
  · rintro ⟨before, after, rfl, rfl, hpassed⟩
    rwa [hdrop]
  · intro hpassed
    obtain ⟨before, after, rfl, rfl⟩ := hk.1
    rw [hdrop] at hpassed
    exact ⟨before, after, rfl, rfl, hpassed⟩

variable {loras : List Lora} {id : Nat} {lora : Lora}

theorem scale_of_enabled (hids : loraGetEnabledIds loras = [id]) (hget : loras[id]? = some lora) :
    lora.scale = .positive := by
  have hmem : id ∈ loraGetEnabledIds loras := by rw [hids]; exact mem_singleton_self id
  have hscale := (mem_filter.mp hmem).2
  rw [hget] at hscale
  simpa using hscale

/-- An enabled adapter is one with invocation tokens where all enabled ones are. -/
theorem invocation_ne_nil (hall : loraAllAlora loras = true)
    (hids : loraGetEnabledIds loras = [id]) (hget : loras[id]? = some lora) :
    lora.invocation ≠ [] := by
  rintro hnil
  have hscale := scale_of_enabled hids hget
  have hmem := mem_of_getElem? hget
  rw [loraAllAlora, decide_eq_true_eq] at hall
  have := all_eq_true.mp hall.1 lora hmem
  simp [hscale, hnil] at this

theorem disableLora_ne (hids : loraGetEnabledIds loras = [id]) (hget : loras[id]? = some lora) :
    loras ≠ disableLora loras id := by
  intro heq
  have hscale := scale_of_enabled hids hget
  have hsame := congrArg (fun l : List Lora => (l[id]?).map Lora.scale) heq
  simp [disableLora, hget, hscale] at hsame

/-- The launch sets the start of the last occurrence, and disables the adapter exactly when there
is none, just if behind the last occurrence the tokens are passed. -/
theorem launchAlora_exact_iff (start : Int) (tokens : List LlamaToken)
    (hall : loraAllAlora loras = true) (hids : loraGetEnabledIds loras = [id])
    (hget : loras[id]? = some lora) :
    (∃ out st, launchAlora loras start tokens = some (out, st) ∧
      (∀ k : Nat, OccursLast lora.invocation tokens k → st = k) ∧
      (out = disableLora loras id ↔ ¬∃ k, Occurs lora.invocation tokens k)) ↔
    ∀ k, OccursLast lora.invocation tokens k →
      Passed lora.invocation (tokens.drop (k + lora.invocation.length)) := by
  have hne := invocation_ne_nil hall hids hget
  have hdisable := disableLora_ne hids hget
  have hlaunch : launchAlora loras start tokens =
      match scanInvocation lora.invocation tokens tokens.length (lora.invocation.length - 1) with
      | some i => some (loras, (i : Int))
      | none => some (disableLora loras id, start) := by
    rw [launchAlora, if_pos hall, hids]
    simp only [hget, Option.map_some, Option.getD_some]
  rw [hlaunch]
  cases hscan : scanInvocation lora.invocation tokens tokens.length
      (lora.invocation.length - 1) with
  | none =>
    constructor
    · rintro ⟨out, st, heq, -, hnone⟩ k hk
      obtain ⟨rfl, rfl⟩ := Prod.mk.inj (Option.some.inj heq)
      exact absurd ⟨k, hk.1⟩ (hnone.mp rfl)
    · intro hpassed
      refine ⟨_, _, rfl, fun k hk => ?_, iff_of_true rfl ?_⟩
      · cases hscan.symm.trans ((hk.scan_iff hne).mpr (hpassed k hk))
      · rintro ⟨j, hj⟩
        obtain ⟨k, hk⟩ := hj.exists_last
        cases hscan.symm.trans ((hk.scan_iff hne).mpr (hpassed k hk))
  | some i =>
    obtain ⟨before, after, htoks, hlen, -⟩ := (scanInvocation_eq_some hne).mp hscan
    have hoccurs : Occurs lora.invocation tokens i := ⟨before, after, htoks, hlen⟩
    constructor
    · rintro ⟨out, st, heq, hlast, -⟩ k hk
      obtain ⟨rfl, rfl⟩ := Prod.mk.inj (Option.some.inj heq)
      have hik : i = k := by exact_mod_cast hlast k hk
      exact (hk.scan_iff hne).mp (hik ▸ hscan)
    · intro hpassed
      refine ⟨_, _, rfl, fun k hk => ?_, iff_of_false hdisable (fun hno => hno ⟨i, hoccurs⟩)⟩
      have hk' := (hk.scan_iff hne).mpr (hpassed k hk)
      rw [Option.some.inj (hscan.symm.trans hk')]

/-- The sequence `[5, 6]` in front of a text token. -/
theorem launchAlora_exact_iff_one :
    (∃ out st, launchAlora [⟨.positive, [5, 6]⟩] (-1) [5, 6, 9] = some (out, st) ∧
      (∀ k : Nat, OccursLast [5, 6] [5, 6, 9] k → st = k) ∧
      (out = disableLora [⟨.positive, [5, 6]⟩] 0 ↔ ¬∃ k, Occurs [5, 6] [5, 6, 9] k)) ↔
    ∀ k, OccursLast [5, 6] [5, 6, 9] k →
      Passed [5, 6] ([5, 6, 9].drop (k + ([5, 6] : List LlamaToken).length)) :=
  @launchAlora_exact_iff [⟨.positive, [5, 6]⟩] 0 ⟨.positive, [5, 6]⟩ (-1) [5, 6, 9] (by decide)
    (by decide) rfl

/-- A token that repeats the end of the sequence behind it hides the occurrence. -/
theorem launchAlora_repeated_end :
    Occurs [5, 6] [5, 6, 6] 0 ∧
      launchAlora [⟨.positive, [5, 6]⟩] (-1) [5, 6, 6] =
        some (disableLora [⟨.positive, [5, 6]⟩] 0, -1) :=
  ⟨⟨[], [6], rfl, rfl⟩, by decide⟩

end Llama.Server
