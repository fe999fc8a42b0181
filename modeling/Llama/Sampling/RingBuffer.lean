import Mathlib.Data.List.Basic

/-!
# The ring buffer of the samplers

`ring_buffer` keeps the newest elements in a vector of fixed length. It is compared with the
list of its elements, the oldest first, which drops its first element when a full one is
extended.
-/

namespace Llama.Sampling

open List Function

/-- `ring_buffer`. The slots of `data` are numbered below `capacity`. -/
structure RingBuffer (α : Type) where
  capacity : Nat
  sz : Nat
  first : Nat
  pos : Nat
  data : Nat → α

namespace RingBuffer

variable {α : Type}

/-- The constructor. -/
def init [Inhabited α] (cap : Nat) : RingBuffer α :=
  { capacity := cap, sz := 0, first := 0, pos := 0, data := fun _ => default }

def front (r : RingBuffer α) : Except String α :=
  if r.sz = 0 then .error "ring buffer is empty" else .ok (r.data r.first)

/-- `back`, which reads the slot that is written next. -/
def back (r : RingBuffer α) : Except String α :=
  if r.sz = 0 then .error "ring buffer is empty" else .ok (r.data r.pos)

def pushBack (r : RingBuffer α) (value : α) : RingBuffer α :=
  { r with
    first := if r.sz = r.capacity then (r.first + 1) % r.capacity else r.first
    sz := if r.sz = r.capacity then r.sz else r.sz + 1
    data := update r.data r.pos value
    pos := (r.pos + 1) % r.capacity }

def popFront (r : RingBuffer α) : Except String (α × RingBuffer α) :=
  if r.sz = 0 then .error "ring buffer is empty"
  else .ok (r.data r.first, { r with first := (r.first + 1) % r.capacity, sz := r.sz - 1 })

def rat (r : RingBuffer α) (i : Nat) : Except String α :=
  if r.sz ≤ i then .error "ring buffer: index out of bounds"
  else .ok (r.data ((r.first + r.sz - i - 1) % r.capacity))

def toVector (r : RingBuffer α) : List α :=
  (range r.sz).map fun i => r.data ((r.first + i) % r.capacity)

def clear (r : RingBuffer α) : RingBuffer α := { r with sz := 0, first := 0, pos := 0 }

/-- The indices are in range, and the next slot is behind the newest element. -/
structure Inv (r : RingBuffer α) : Prop where
  capacity : 0 < r.capacity
  sz : r.sz ≤ r.capacity
  first : r.first < r.capacity
  pos : r.pos = (r.first + r.sz) % r.capacity

variable {cap : Nat}

theorem init_inv [Inhabited α] (h : 0 < cap) : (init cap : RingBuffer α).Inv :=
  ⟨h, Nat.zero_le _, h, (Nat.zero_mod _).symm⟩

variable {r : RingBuffer α}

@[simp] theorem length_toVector : r.toVector.length = r.sz := by simp [toVector]

theorem getElem?_toVector {i : Nat} (h : i < r.sz) :
    r.toVector[i]? = some (r.data ((r.first + i) % r.capacity)) := by
  simp [toVector, h]

theorem tail_toVector : r.toVector.tail =
    (range (r.sz - 1)).map fun i =>
      r.data (((r.first + 1) % r.capacity + i) % r.capacity) := by
  unfold toVector
  cases r.sz with
  | zero => rfl
  | succ n =>
    rw [range_succ_eq_map, map_cons, map_map, List.tail_cons]
    refine map_congr_left fun i _ => ?_
    rw [Nat.mod_add_mod, Nat.add_assoc, Nat.add_comm 1]
    rfl

namespace Inv

/-- Offsets below the capacity lead to different slots. -/
theorem slot_ne {first i j : Nat} (hij : i < j) (hj : j < cap) :
    (first + i) % cap ≠ (first + j) % cap := by
  intro he
  have hdvd := Nat.dvd_of_mod_eq_zero (Nat.sub_mod_eq_zero_of_mod_eq he.symm)
  rw [Nat.add_sub_add_left] at hdvd
  exact absurd (Nat.le_of_dvd (by omega) hdvd) (by omega)

/-- In a full buffer the next slot holds the oldest element. -/
theorem pos_of_full (h : r.Inv) (hfull : r.sz = r.capacity) : r.pos = r.first := by
  rw [h.pos, hfull, Nat.add_mod_right, Nat.mod_eq_of_lt h.first]

theorem pushBack (h : r.Inv) (value : α) : (r.pushBack value).Inv := by
  have hsz := h.sz
  by_cases hfull : r.sz = r.capacity
  · simp only [RingBuffer.pushBack, if_pos hfull]
    refine ⟨h.capacity, hsz, Nat.mod_lt _ h.capacity, ?_⟩
    rw [h.pos_of_full hfull]
    change _ = ((r.first + 1) % r.capacity + r.sz) % r.capacity
    rw [hfull, Nat.add_mod_right, Nat.mod_mod]
  · simp only [RingBuffer.pushBack, if_neg hfull]
    refine ⟨h.capacity, by change r.sz + 1 ≤ r.capacity; omega, h.first, ?_⟩
    change (r.pos + 1) % r.capacity = (r.first + (r.sz + 1)) % r.capacity
    rw [h.pos, Nat.mod_add_mod, Nat.add_assoc]

theorem toVector_pushBack (h : r.Inv) (value : α) : (r.pushBack value).toVector =
    (if r.sz = r.capacity then r.toVector.tail else r.toVector) ++ [value] := by
  have hsz := h.sz
  by_cases hfull : r.sz = r.capacity
  · have hpos := h.capacity
    have hsucc : r.sz - 1 + 1 = r.sz := by omega
    rw [if_pos hfull, tail_toVector, toVector]
    simp only [RingBuffer.pushBack, if_pos hfull, h.pos_of_full hfull]
    conv_lhs => rw [← hsucc, range_succ, map_append]
    congr 1
    · refine map_congr_left fun i hi => update_of_ne ?_ ..
      have hne : (r.first + 0) % r.capacity ≠ (r.first + (i + 1)) % r.capacity :=
        slot_ne (by omega) (by have := mem_range.mp hi; omega)
      rw [Nat.add_zero, Nat.mod_eq_of_lt h.first] at hne
      rw [Nat.mod_add_mod, Nat.add_assoc, Nat.add_comm 1]
      exact hne.symm
    · rw [map_singleton, Nat.mod_add_mod, Nat.add_assoc, Nat.add_comm 1, hsucc, hfull,
        Nat.add_mod_right, Nat.mod_eq_of_lt h.first, update_self]
  · rw [if_neg hfull]
    simp only [toVector, RingBuffer.pushBack, if_neg hfull]
    rw [range_succ, map_append, h.pos]
    congr 1
    · refine map_congr_left fun i hi => update_of_ne (slot_ne (mem_range.mp hi) ?_) ..
      omega
    · rw [map_singleton, update_self]

theorem front_eq (h : r.Inv) : r.front.toOption = r.toVector.head? := by
  unfold RingBuffer.front
  by_cases h0 : r.sz = 0
  · simp [toVector, h0, Except.toOption]
  · rw [if_neg h0, head?_eq_getElem?, getElem?_toVector (by omega), Nat.add_zero,
      Nat.mod_eq_of_lt h.first]
    rfl

theorem rat_eq (r : RingBuffer α) (i : Nat) : (r.rat i).toOption = r.toVector.reverse[i]? := by
  unfold rat
  by_cases hi : r.sz ≤ i
  · rw [if_pos hi, getElem?_eq_none (by simpa using hi)]
    rfl
  · rw [if_neg hi, getElem?_reverse (by simpa using hi), length_toVector,
      getElem?_toVector (Nat.lt_of_le_of_lt (Nat.sub_le _ _) (by omega))]
    have hi' := Nat.lt_of_not_le hi
    rw [Nat.sub_sub, Nat.add_sub_assoc (by omega), Nat.sub_sub, Nat.add_comm i 1]
    rfl

theorem back_of_full (h : r.Inv) (hfull : r.sz = r.capacity) :
    r.back.toOption = r.toVector.head? := by
  rw [← h.front_eq, back, front, h.pos_of_full hfull]

theorem popFront_eq (h : r.Inv) :
    r.popFront.toOption.map Prod.fst = r.toVector.head? ∧
    ∀ v r', r.popFront = .ok (v, r') →
      r'.Inv ∧ r'.capacity = r.capacity ∧ r'.toVector = r.toVector.tail := by
  have hsz := h.sz
  refine ⟨?_, fun v r' hr => ?_⟩
  · rw [← h.front_eq, popFront, front]
    split <;> rfl
  · unfold popFront at hr
    split at hr
    · cases hr
    · rename_i h0
      obtain ⟨n, hn⟩ : ∃ n, r.sz = n + 1 := ⟨r.sz - 1, by omega⟩
      obtain ⟨-, rfl⟩ := Prod.mk.inj (Except.ok.inj hr)
      refine ⟨⟨h.capacity, Nat.le_trans (Nat.sub_le _ _) hsz, Nat.mod_lt _ h.capacity, ?_⟩, rfl, ?_⟩
      · change r.pos = ((r.first + 1) % r.capacity + (r.sz - 1)) % r.capacity
        rw [h.pos, Nat.mod_add_mod, hn]
        congr 1
        omega
      · rw [tail_toVector]
        rfl

theorem clear (h : r.Inv) : r.clear.Inv :=
  ⟨h.capacity, Nat.zero_le _, h.capacity, (Nat.zero_mod _).symm⟩

end Inv

/-- The calls of a run. -/
inductive Call (α : Type) where
  | pushBack (value : α)
  | popFront
  | clear
  | front
  | back
  | rat (i : Nat)
  | size
  | empty
  | toVector

/-- What a call returns; `elem none` is an exception. -/
inductive Answer (α : Type) where
  | done
  | elem (value : Option α)
  | size (n : Nat)
  | empty (b : Bool)
  | elems (values : List α)
deriving DecidableEq

def call : Call α → RingBuffer α → Answer α × RingBuffer α
  | .pushBack value, r => (.done, r.pushBack value)
  | .popFront, r =>
    match r.popFront with
    | .ok (value, r') => (.elem (some value), r')
    | .error _ => (.elem none, r)
  | .clear, r => (.done, r.clear)
  | .front, r => (.elem r.front.toOption, r)
  | .back, r => (.elem r.back.toOption, r)
  | .rat i, r => (.elem (r.rat i).toOption, r)
  | .size, r => (.size r.sz, r)
  | .empty, r => (.empty (r.sz == 0), r)
  | .toVector, r => (.elems r.toVector, r)

/-- The same call of a list that holds at most `cap` elements, the oldest first. -/
def dequeCall (cap : Nat) : Call α → List α → Answer α × List α
  | .pushBack value, l => (.done, (if l.length = cap then l.tail else l) ++ [value])
  | .popFront, l => (.elem l.head?, l.tail)
  | .clear, _ => (.done, [])
  | .front, l => (.elem l.head?, l)
  | .back, l => (.elem l.getLast?, l)
  | .rat i, l => (.elem l.reverse[i]?, l)
  | .size, l => (.size l.length, l)
  | .empty, l => (.empty l.isEmpty, l)
  | .toVector, l => (.elems l, l)

/-- The answers of a run. -/
def answers {σ : Type} (call : Call α → σ → Answer α × σ) : List (Call α) → σ → List (Answer α)
  | [], _ => []
  | c :: cs, s => (call c s).1 :: answers call cs (call c s).2

/-- A call of `back` finds no element, or a full buffer whose oldest element is equal to the
newest. -/
def BackFits (cap : Nat) : Call α → List α → Prop
  | .back, l => l = [] ∨ l.length = cap ∧ l.head? = l.getLast?
  | _, _ => True

/-- Every call of the run does. -/
def AllBackFit (cap : Nat) : List (Call α) → List α → Prop
  | [], _ => True
  | c :: cs, l => BackFits cap c l ∧ AllBackFit cap cs (dequeCall cap c l).2

/-- A call answers as the list does and keeps its elements. -/
theorem call_eq (h : r.Inv) {c : Call α} (hback : BackFits r.capacity c r.toVector) :
    (call c r).1 = (dequeCall r.capacity c r.toVector).1 ∧ (call c r).2.Inv ∧
      (call c r).2.capacity = r.capacity ∧
      (call c r).2.toVector = (dequeCall r.capacity c r.toVector).2 := by
  cases c with
  | pushBack value =>
    refine ⟨rfl, h.pushBack value, rfl, ?_⟩
    rw [dequeCall, length_toVector]
    exact h.toVector_pushBack value
  | popFront =>
    obtain ⟨helem, hrest⟩ := h.popFront_eq
    simp only [call, dequeCall]
    split
    · rename_i v r' hr
      rw [hr] at helem
      exact ⟨congrArg _ helem, hrest v r' hr⟩
    · rename_i e hr
      rw [hr] at helem
      refine ⟨congrArg _ helem, h, rfl, ?_⟩
      rw [head?_eq_none_iff.mp helem.symm, List.tail_nil]
  | clear => exact ⟨rfl, h.clear, rfl, rfl⟩
  | front => exact ⟨congrArg _ h.front_eq, h, rfl, rfl⟩
  | back =>
    refine ⟨congrArg Answer.elem ?_, h, rfl, rfl⟩
    rcases hback with hnil | ⟨hfull, heq⟩
    · have h0 : r.sz = 0 := by rw [← length_toVector, hnil, length_nil]
      rw [hnil, back, if_pos h0]
      rfl
    · rw [← heq]
      exact h.back_of_full (length_toVector.symm.trans hfull)
  | rat i => exact ⟨congrArg _ (Inv.rat_eq r i), h, rfl, rfl⟩
  | size => exact ⟨congrArg _ length_toVector.symm, h, rfl, rfl⟩
  | empty =>
    refine ⟨congrArg Answer.empty ?_, h, rfl, rfl⟩
    rw [Bool.eq_iff_iff, beq_iff_eq, List.isEmpty_iff, ← length_eq_zero_iff, length_toVector]
  | toVector => exact ⟨rfl, h, rfl, rfl⟩

theorem answers_from (h : r.Inv) {cs : List (Call α)}
    (hback : AllBackFit r.capacity cs r.toVector) :
    answers call cs r = answers (dequeCall r.capacity) cs r.toVector := by
  induction cs generalizing r with
  | nil => rfl
  | cons c cs ih =>
    obtain ⟨hanswer, hinv, hcap, hvec⟩ := call_eq h hback.1
    rw [answers, answers, hanswer, ih hinv (by rw [hcap, hvec]; exact hback.2), hcap, hvec]

/-- Every run answers as the list does, unless `back` is called where the slot that is written
next does not hold the newest element. -/
theorem answers_eq [Inhabited α] (hcap : 0 < cap) (cs : List (Call α))
    (hback : AllBackFit cap cs []) : answers call cs (init cap) = answers (dequeCall cap) cs [] :=
  answers_from (init_inv hcap) hback

theorem answers_eq_wrapped :
    answers call [.pushBack 1, .pushBack 2, .pushBack 2, .back, .rat 1, .popFront] (init 2) =
      answers (dequeCall 2)
        [.pushBack 1, .pushBack 2, .pushBack 2, .back, .rat 1, .popFront] ([] : List Nat) :=
  answers_eq (by decide) _ (by simp [AllBackFit, BackFits, dequeCall])

/-- Two elements in a buffer for two: the newest one that is returned is the oldest. -/
theorem back_is_oldest :
    answers call [.pushBack 1, .pushBack 2, .back] (init 2) ≠
      answers (dequeCall 2) [.pushBack 1, .pushBack 2, .back] ([] : List Nat) := by
  decide

end RingBuffer

end Llama.Sampling
