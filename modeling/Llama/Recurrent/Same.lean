import Llama.Recurrent.Track

/-!
# Positions do not matter to `find_slot`

Two memories that differ only in the positions and in the count of used cells take the same
branches, so that what is known of memories with valid positions holds of all.
-/

namespace Llama.Recurrent

open List

variable {m m' : Memory}

/-- Records that agree but for the position. -/
structure Cell.Same (x y : Cell) : Prop where
  src : y.src = x.src
  src0 : y.src0 = x.src0
  tail : y.tail = x.tail
  seqId : y.seqId = x.seqId

/-- Memories that agree but for positions and the count of used cells. -/
structure Same (m m' : Memory) : Prop where
  size : m'.size = m.size
  head : m'.head = m.head
  n : m'.n = m.n
  rsZ : m'.rsZ = m.rsZ
  cell : ∀ c, (m.cells c).Same (m'.cells c)

/-- Ranges found in such memories. -/
structure SameRange (r q : Range) : Prop where
  m : Same r.m q.m
  next : q.next = r.next
  min : q.min = r.min
  max : q.max = r.max

theorem Cell.Same.isEmpty {x y : Cell} (h : x.Same y) : y.isEmpty = x.isEmpty := by
  rw [Cell.isEmpty, Cell.isEmpty, h.seqId]

theorem Cell.Same.ite {p q : Prop} [Decidable p] [Decidable q] {a b x y : Cell} (hpq : p ↔ q)
    (ha : a.Same x) (hb : b.Same y) : (if p then a else b).Same (if q then x else y) := by
  by_cases hp : p
  · rw [if_pos hp, if_pos (hpq.mp hp)]
    exact ha
  · rw [if_neg hp, if_neg fun hq => hp (hpq.mpr hq)]
    exact hb

theorem Same.modify (h : Same m m') (c : Nat) {f g : Cell → Cell}
    (hfg : ∀ x y, x.Same y → (f x).Same (g y)) : Same (m.modify c f) (m'.modify c g) where
  size := h.size
  head := h.head
  n := h.n
  rsZ := h.rsZ
  cell d := by
    rw [Memory.modify_cells, Memory.modify_cells]
    split
    · exact hfg _ _ (h.cell c)
    · exact h.cell d

theorem rel_bind {α β γ δ : Type} {r : α → β → Prop} {t : γ → δ → Prop} {o : Option α}
    {o' : Option β} {f : α → Option γ} {g : β → Option δ} (h : Option.Rel r o o')
    (hfg : ∀ a b, r a b → Option.Rel t (f a) (g b)) : Option.Rel t (o >>= f) (o' >>= g) := by
  cases h with
  | some h => exact hfg _ _ h
  | none => exact Option.Rel.none

theorem Same.wrap (h : Same m m') (c : Nat) : m'.wrap c = m.wrap c := by
  rw [Memory.wrap, Memory.wrap, h.size]

theorem Same.firstEmpty (h : Same m m') : ∀ k c, m'.firstEmpty k c = m.firstEmpty k c
  | 0, _ => rfl
  | k + 1, c => by
    rw [Memory.firstEmpty, Memory.firstEmpty, h.wrap, (h.cell _).isEmpty, h.firstEmpty k]

theorem Same.nextEmpty (h : Same m m') : ∀ k c, m'.nextEmpty k c = m.nextEmpty k c
  | 0, _ => rfl
  | k + 1, c => by
    rw [Memory.nextEmpty, Memory.nextEmpty, h.wrap, (h.cell _).isEmpty, h.nextEmpty k]

theorem Same.split (h : Same m m') (s next : Nat) :
    Option.Rel Same (m.split s next) (m'.split s next) := by
  rw [Memory.split, Memory.split, h.size, (h.cell next).isEmpty, (h.cell s).tail]
  split
  · cases (m.cells s).tail with
    | none =>
      apply Option.Rel.some
      exact h.modify s fun x y hxy => ⟨hxy.src, hxy.src0, rfl, hxy.seqId⟩
    | some t =>
      dsimp only
      have h1 := ((h.modify next (f := fun x => { x with
          pos := (m.cells t).pos, src := (m.cells t).src }) (g := fun x => { x with
          pos := (m'.cells t).pos, src := (m'.cells t).src })
        fun x y hxy => ⟨(h.cell t).src, hxy.src0, hxy.tail, hxy.seqId⟩).modify t
        (f := fun x => { x with seqId := x.seqId.erase s })
        (g := fun x => { x with seqId := x.seqId.erase s })
        fun x y hxy => ⟨hxy.src, hxy.src0, hxy.tail, by rw [hxy.seqId]⟩).modify next
        (f := fun x => { x with seqId := insert s x.seqId })
        (g := fun x => { x with seqId := insert s x.seqId })
        fun x y hxy => ⟨hxy.src, hxy.src0, hxy.tail, by rw [hxy.seqId]⟩
      rw [(h1.cell t).isEmpty]
      split
      · exact Option.Rel.none
      · apply Option.Rel.some
        exact h1.modify s fun x y hxy => ⟨hxy.src, hxy.src0, rfl, hxy.seqId⟩
  · exact Option.Rel.none

theorem SameRange.grow {r q : Range} (h : SameRange r q) (t : Nat) :
    SameRange (r.grow t) (q.grow t) := by
  refine ⟨h.m, h.next, ?_, ?_⟩
  · simp only [Range.grow, h.min]
  · simp only [Range.grow, h.max]

theorem SameRange.move {r q : Range} (h : SameRange r q) (s : Nat) (last : Bool) :
    Option.Rel SameRange (r.move s last) (q.move s last) := by
  rw [Range.move, Range.move, h.next]
  apply rel_bind (h.m.split s r.next)
  intro m1 m2 h1
  apply Option.Rel.some
  apply SameRange.grow
  refine ⟨h1, ?_, h.min, h.max⟩
  dsimp only
  rw [h1.nextEmpty, h1.size]

theorem SameRange.turn {r q : Range} (h : SameRange r q) (s : Nat) (last : Bool) :
    Option.Rel SameRange (r.turn s last) (q.turn s last) := by
  rw [Range.turn, Range.turn, (h.m.cell s).tail]
  cases (r.m.cells s).tail with
  | none => exact h.move s last
  | some t =>
    dsimp only
    rw [(h.m.cell t).seqId]
    split
    · split
      · exact Option.Rel.some (h.grow t)
      · exact h.move s last
    · exact Option.Rel.none

theorem SameRange.find : ∀ (ss : List Nat) {r q : Range}, SameRange r q →
    Option.Rel SameRange (r.find ss) (q.find ss)
  | [], _, _, h => Option.Rel.some h
  | s :: ss, r, q, h => by
    rw [Range.find, Range.find]
    apply rel_bind (h.turn s ss.isEmpty)
    exact fun r1 q1 h1 => SameRange.find ss h1

theorem Same.swap (h : Same m m') (dst src : Nat) : Same (m.swap dst src) (m'.swap dst src) := by
  have h1 := (h.modify dst (f := fun x => { x with
      pos := (m.cells src).pos, src := (m.cells src).src, seqId := (m.cells src).seqId })
      (g := fun x => { x with
      pos := (m'.cells src).pos, src := (m'.cells src).src, seqId := (m'.cells src).seqId })
    fun x y hxy => ⟨(h.cell src).src, hxy.src0, hxy.tail, (h.cell src).seqId⟩).modify src
    (f := fun y => { y with
      pos := (m.cells dst).pos, src := (m.cells dst).src, seqId := (m.cells dst).seqId })
    (g := fun y => { y with
      pos := (m'.cells dst).pos, src := (m'.cells dst).src, seqId := (m'.cells dst).seqId })
    fun x y hxy => ⟨(h.cell dst).src, hxy.src0, hxy.tail, (h.cell dst).seqId⟩
  refine ⟨h.size, h.head, h.n, h.rsZ, fun c => ?_⟩
  apply Cell.Same.ite
  · change c < m.size ↔ c < m'.size
    rw [h.size]
  · exact ⟨(h1.cell c).src, (h1.cell c).src0, by simp only [(h1.cell c).tail], (h1.cell c).seqId⟩
  · exact h1.cell c

theorem Same.gather : ∀ (ss : List Nat) {m m' : Memory} (dst : Nat), Same m m' →
    Option.Rel Same (m.gather dst ss) (m'.gather dst ss)
  | [], _, _, _, h => Option.Rel.some h
  | s :: ss, m, m', dst, h => by
    rw [Memory.gather, Memory.gather, (h.cell s).tail]
    cases (m.cells s).tail with
    | none => exact Option.Rel.none
    | some src =>
      dsimp only
      rw [h.size]
      split
      · apply Same.gather ss
        split
        · exact h.swap dst src
        · exact h
      · exact Option.Rel.none

theorem Same.placeIds (c : Nat) : ∀ (ids : List Int) {m m' : Memory}, Same m m' →
    Same (ids.foldl (fun m id => (m.modify c fun y =>
        { y with seqId := insert id.toNat y.seqId }).modify id.toNat fun y =>
        { y with tail := some c }) m)
      (ids.foldl (fun m id => (m.modify c fun y =>
        { y with seqId := insert id.toNat y.seqId }).modify id.toNat fun y =>
        { y with tail := some c }) m')
  | [], _, _, h => h
  | id :: ids, m, m', h => by
    rw [foldl_cons, foldl_cons]
    apply Same.placeIds c ids
    have h1 := h.modify c (f := fun y => { y with seqId := insert id.toNat y.seqId })
      (g := fun y => { y with seqId := insert id.toNat y.seqId })
      fun x y hxy => ⟨hxy.src, hxy.src0, hxy.tail, by rw [hxy.seqId]⟩
    exact h1.modify id.toNat fun x y hxy => ⟨hxy.src, hxy.src0, rfl, hxy.seqId⟩

/-- Sets without their positions. -/
def SetInfo.unplaced (x : SetInfo) : SetInfo := { x with lastPos := 0 }

theorem Same.placeAll : ∀ (xs : List SetInfo) {m m' : Memory} (c : Nat), Same m m' →
    Same (m.placeAll c xs) (m'.placeAll c (xs.map SetInfo.unplaced))
  | [], _, _, _, h => h
  | x :: xs, m, m', c, h => by
    rw [map_cons, Memory.placeAll, Memory.placeAll]
    apply Same.placeAll xs
    apply Same.placeIds c x.ids
    exact h.modify c fun y z hyz => ⟨hyz.src, hyz.src0, hyz.tail, rfl⟩

theorem Same.refcount (h : Same m m') (c : Nat) : m'.refcount c = m.refcount c := by
  simp only [Memory.refcount, h.size, (h.cell _).src]

theorem Same.stage (h : Same m m') (min max : Nat) :
    Option.Rel Same (m.stage min max) (m'.stage min max) := by
  simp only [Memory.stage, h.refcount, (h.cell _).src]
  split
  · apply Option.Rel.some
    refine ⟨h.size, h.head, h.n, rfl, fun c => ?_⟩
    dsimp only
    split
    · exact ⟨rfl, rfl, (h.cell c).tail, (h.cell c).seqId⟩
    · exact h.cell c
  · exact Option.Rel.none

/-- Placing sets, with and without positions. -/
theorem Same.placeSets (h : Same m m') (xs : List SetInfo) :
    Option.Rel (fun a b => b.1 = a.1 ∧ Same a.2 b.2) (m.placeSets xs)
      (m'.placeSets (xs.map SetInfo.unplaced)) := by
  have hfirst : (xs.map SetInfo.unplaced).map SetInfo.first = xs.map SetInfo.first := by
    rw [map_map]
    rfl
  rw [Memory.placeSets, Memory.placeSets, hfirst]
  dsimp only
  rw [h.size, h.head, h.firstEmpty]
  have hrange : SameRange
      { m := m, next := m.firstEmpty m.size m.head, min := m.size - 1, max := 0 }
      { m := m', next := m.firstEmpty m.size m.head, min := m.size - 1, max := 0 } :=
    ⟨h, rfl, rfl, rfl⟩
  apply rel_bind (hrange.find (xs.map SetInfo.first))
  intro r q hrq
  rw [hrq.min, hrq.max]
  apply rel_bind (hrq.m.gather (xs.map SetInfo.first) r.min)
  intro m2 m2' h2
  apply rel_bind ((h2.placeAll xs r.min).stage r.min r.max)
  intro m4 m4' h4
  apply Option.Rel.some
  refine ⟨by rw [length_map], h4.size, rfl, rfl, h4.rsZ, h4.cell⟩

end Llama.Recurrent
