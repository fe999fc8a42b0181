import Llama.Alloc.TallocInv

/-!
# How good the best fit is

The search over the blocks besides the last ones keeps its best size per chunk, while the
chosen block survives from chunk to chunk. So the choice is the smallest fitting block of the
last chunk that has one, which need not be the smallest of all chunks.
-/

namespace Llama.Alloc

open List Option

/-- Block `i` of chunk `c` is a block besides the last one. -/
def Besides (chunks : List Chunk) (c i : Nat) (b : Span) : Prop :=
  ∃ ch, chunks[c]? = some ch ∧ i + 1 < ch.free.length ∧ ch.free[i]? = some b

/-- Chunk `c` has the block `b` besides its last one, and `size` bytes fit into it. -/
def Fits (chunks : List Chunk) (size c : Nat) (b : Span) : Prop :=
  size ≤ b.size ∧ ∃ i, Besides chunks c i b

/-- A block whose size is minimal among the fitting blocks of all chunks. -/
def Smallest (chunks : List Chunk) (size : Nat) (b : Span) : Prop :=
  ∀ d x, Fits chunks size d x → b.size ≤ x.size

/-- The last chunk with a fitting block has a smallest one. -/
def LastHasSmallest (chunks : List Chunk) (size : Nat) : Prop :=
  ∀ c y, Fits chunks size c y → (∀ d x, Fits chunks size d x → d ≤ c) →
    ∃ b, Fits chunks size c b ∧ Smallest chunks size b

/-- The allocator takes the space from a smallest fitting block. -/
def TakesSmallest (a : Talloc) (n : Nat) : Prop :=
  ∃ c i b, Besides a.chunks c i b ∧ alignedOffset n a.alignment ≤ b.size ∧
    Smallest a.chunks (alignedOffset n a.alignment) b ∧
    a.alloc n = some (a.carve c i (alignedOffset n a.alignment))

variable {chunks : List Chunk} {blocks : List Span} {size c i k : Nat} {b : Span}

/-- The state after `k` blocks of chunk `c`: unchanged, or at a smallest fitting block. -/
def BlocksSeen (size c : Nat) (blocks : List Span) (best : Option (Nat × Nat)) (k : Nat)
    (st : Option (Nat × Nat) × Nat) : Prop :=
  (st = (best, sizeMax) ∧ ∀ i b, i < k → blocks[i]? = some b → b.size < size) ∨
  ∃ i b, i < k ∧ blocks[i]? = some b ∧ size ≤ b.size ∧ st = (some (c, i), b.size) ∧
    ∀ j x, j < k → blocks[j]? = some x → size ≤ x.size → b.size ≤ x.size

variable {best : Option (Nat × Nat)}

/-- One more block keeps the smallest fitting one. -/
theorem BlocksSeen.step {st : Option (Nat × Nat) × Nat} (hw : ∀ b ∈ blocks, b.size ≤ sizeMax)
    (h : BlocksSeen size c blocks best k st) :
    BlocksSeen size c blocks best (k + 1) (fitStep size c blocks st k) := by
  unfold fitStep
  cases hb : blocks[k]? with
  | none =>
    -- past the end nothing is seen
    have hold : ∀ j x, j < k + 1 → blocks[j]? = some x → j < k := by
      intro j x hj hx
      rcases Nat.lt_succ_iff_lt_or_eq.mp hj with hlt | rfl
      · exact hlt
      · rw [hb] at hx
        cases hx
    rcases h with ⟨he, hno⟩ | ⟨i, b, hi, hib, hfit, he, hmin⟩
    · exact .inl ⟨he, fun j x hj hx => hno j x (hold j x hj hx) hx⟩
    · exact .inr ⟨i, b, by omega, hib, hfit, he, fun j x hj hx => hmin j x (hold j x hj hx) hx⟩
  | some y =>
    have hlast : ∀ {P : Span → Prop} (j x), (∀ j x, j < k → blocks[j]? = some x → P x) → P y →
        j < k + 1 → blocks[j]? = some x → P x := by
      intro P j x hP hy hj hx
      rcases Nat.lt_succ_iff_lt_or_eq.mp hj with hlt | rfl
      · exact hP j x hlt hx
      · rw [hb] at hx
        cases hx
        exact hy
    have hyw : y.size ≤ sizeMax := hw y (mem_of_getElem? hb)
    simp only
    rcases h with ⟨rfl, hno⟩ | ⟨i, b, hi, hib, hfit, rfl, hmin⟩
    · split
      · rename_i hy
        refine .inr ⟨k, y, by omega, hb, hy.1, rfl, fun j x hj hx => ?_⟩
        exact hlast (P := fun x => size ≤ x.size → y.size ≤ x.size) j x
          (fun j x hj hx hs => absurd (hno j x hj hx) (by omega)) (fun _ => le_refl _) hj hx
      · rename_i hy
        have hsmall : y.size < size := by
          by_contra hge
          exact hy ⟨by omega, hyw⟩
        exact .inl ⟨rfl, fun j x hj hx => hlast (P := fun x => x.size < size) j x hno hsmall hj hx⟩
    · split
      · rename_i hy
        refine .inr ⟨k, y, by omega, hb, hy.1, rfl, fun j x hj hx => ?_⟩
        exact hlast (P := fun x => size ≤ x.size → y.size ≤ x.size) j x
          (fun j x hj hx hs => hy.2.trans (hmin j x hj hx hs)) (fun _ => le_refl _) hj hx
      · rename_i hy
        have hge : size ≤ y.size → b.size ≤ y.size := by
          intro hs
          by_contra hlt
          exact hy ⟨hs, by simp only; omega⟩
        exact .inr ⟨i, b, by omega, hib, hfit, rfl, fun j x hj hx =>
          hlast (P := fun x => size ≤ x.size → b.size ≤ x.size) j x hmin hge hj hx⟩

/-- What the loop over the blocks of a chunk leaves behind. -/
theorem blocksSeen_range (hw : ∀ b ∈ blocks, b.size ≤ sizeMax) (best : Option (Nat × Nat))
    (k : Nat) : BlocksSeen size c blocks best k
      ((range k).foldl (fitStep size c blocks) (best, sizeMax)) := by
  induction k with
  | zero => exact .inl ⟨rfl, by simp⟩
  | succ k ih =>
    rw [range_succ, foldl_append]
    exact ih.step hw

/-- The choice after `k` chunks: a smallest fitting block of the last chunk that has one. -/
def ChunksSeen (chunks : List Chunk) (size k : Nat) (best : Option (Nat × Nat)) : Prop :=
  (best = none ∧ ∀ d x, d < k → ¬ Fits chunks size d x) ∨
  ∃ c i b, c < k ∧ best = some (c, i) ∧ Besides chunks c i b ∧ size ≤ b.size ∧
    (∀ x, Fits chunks size c x → b.size ≤ x.size) ∧
    ∀ d x, c < d → d < k → ¬ Fits chunks size d x

section

variable (hw : ∀ ch ∈ chunks, ∀ b ∈ ch.free, b.size ≤ sizeMax)
include hw

/-- One more chunk overrides the choice exactly when it has a fitting block. -/
theorem ChunksSeen.step {ch : Chunk} (hc : chunks[k]? = some ch)
    (h : ChunksSeen chunks size k best) :
    ChunksSeen chunks size (k + 1)
      ((range (ch.free.length - 1)).foldl (fitStep size k ch.free) (best, sizeMax)).1 := by
  have hseen : BlocksSeen size k ch.free best (ch.free.length - 1) _ :=
    blocksSeen_range (hw ch (mem_of_getElem? hc)) best _
  rcases hseen with ⟨he, hno⟩ | ⟨i, b, hi, hb, hfit, he, hmin⟩
  · -- the chunk has no fitting block: the old choice stays
    have hnone : ∀ x, ¬ Fits chunks size k x := by
      rintro x ⟨hs, i, ch', hc', hi, hx⟩
      rw [hc] at hc'
      cases hc'
      exact absurd (hno i x (by omega) hx) (by omega)
    rw [he]
    rcases h with ⟨hb, hall⟩ | ⟨c, i, b, hck, hb, hbes, hfit, hmin, hlater⟩
    · refine .inl ⟨hb, fun d x hd => ?_⟩
      rcases Nat.lt_succ_iff_lt_or_eq.mp hd with hlt | rfl
      · exact hall d x hlt
      · exact hnone x
    · refine .inr ⟨c, i, b, by omega, hb, hbes, hfit, hmin, fun d x hcd hd => ?_⟩
      rcases Nat.lt_succ_iff_lt_or_eq.mp hd with hlt | rfl
      · exact hlater d x hcd hlt
      · exact hnone x
  · -- it has one: its smallest is the choice, however small the old one was
    rw [he]
    refine .inr ⟨k, i, b, by omega, rfl, ⟨ch, hc, by omega, hb⟩, hfit, ?_, by omega⟩
    rintro x ⟨hs, j, ch', hc', hj, hx⟩
    rw [hc] at hc'
    cases hc'
    exact hmin j x (by omega) hx hs

/-- What the whole search leaves behind. -/
theorem bestFit_seen (size : Nat) : ChunksSeen chunks size chunks.length (bestFit chunks size) := by
  obtain ⟨turn, hfold, hturn⟩ : ∃ turn : Option (Nat × Nat) → Nat → Option (Nat × Nat),
      bestFit chunks size = (range chunks.length).foldl turn none ∧
        ∀ best c ch, chunks[c]? = some ch → turn best c =
          ((range (ch.free.length - 1)).foldl (fitStep size c ch.free) (best, sizeMax)).1 :=
    ⟨_, rfl, fun best c ch hc => by simp only [hc]⟩
  have hrun : ∀ k ≤ chunks.length, ChunksSeen chunks size k ((range k).foldl turn none) := by
    intro k
    induction k with
    | zero => exact fun _ => .inl ⟨rfl, by omega⟩
    | succ k ih =>
      intro hk
      have hc : chunks[k]? = some chunks[k] := getElem?_eq_getElem (by omega)
      rw [range_succ, foldl_append, foldl_cons, foldl_nil, hturn _ k _ hc]
      exact (ih (by omega)).step hw hc
  rw [hfold]
  exact hrun _ le_rfl

end

theorem Fits.lt_length (h : Fits chunks size c b) : c < chunks.length := by
  obtain ⟨-, i, ch, hc, -⟩ := h
  exact (List.getElem?_eq_some_iff.mp hc).1

/-- The chunk of the result is the chunk of the block. -/
theorem carve_chunk (a : Talloc) (c i size : Nat) : (a.carve c i size).2.chunk = c := by
  unfold Talloc.carve
  split <;> rfl

/-- A request that fits besides the last blocks is served from a smallest fitting block exactly
when the last chunk with a fitting block has a smallest one. -/
theorem alloc_takes_smallest_iff (a : Talloc) (n : Nat)
    (hw : ∀ ch ∈ a.chunks, ∀ b ∈ ch.free, b.size ≤ sizeMax) :
    ((∃ c b, Fits a.chunks (alignedOffset n a.alignment) c b) → TakesSmallest a n) ↔
      LastHasSmallest a.chunks (alignedOffset n a.alignment) := by
  generalize hsize : alignedOffset n a.alignment = size
  rcases bestFit_seen hw size with ⟨-, hno⟩ | ⟨c, i, b, -, hbest, hbes, hfit, hmin, hlater⟩
  · -- no fitting block: nothing is promised
    have hnone : ∀ d x, ¬ Fits a.chunks size d x := fun d x h => hno d x h.lt_length h
    exact ⟨fun _ d x h => absurd h (hnone d x), fun _ ⟨d, x, h⟩ => absurd h (hnone d x)⟩
  · have halloc : a.alloc n = some (a.carve c i size) := by
      simp only [Talloc.alloc, hsize, hbest, some_or]
    have hfits : Fits a.chunks size c b := ⟨hfit, i, hbes⟩
    have hlast : ∀ d x, Fits a.chunks size d x → d ≤ c := by
      intro d x h
      by_contra hlt
      exact hlater d x (by omega) h.lt_length h
    constructor
    · intro htakes d y hd hdlast
      obtain rfl : d = c := Nat.le_antisymm (hlast d y hd) (hdlast c b hfits)
      obtain ⟨c', i', b', hbes', hfit', hsm', halloc'⟩ := htakes ⟨d, b, hfits⟩
      rw [hsize] at hfit' hsm' halloc'
      -- the two descriptions of the result agree on the chunk
      rw [halloc, some.injEq] at halloc'
      have hchunk : d = c' := by
        rw [← carve_chunk a d i size, halloc', carve_chunk]
      subst hchunk
      exact ⟨b', ⟨hfit', i', hbes'⟩, hsm'⟩
    · intro h _
      obtain ⟨b', hb', hsm⟩ := h c b hfits hlast
      refine ⟨c, i, b, hbes, hsize ▸ hfit, ?_, hsize ▸ halloc⟩
      rw [hsize]
      exact fun d x hx => (hmin b' hb').trans (hsm d x hx)

/-- Two full chunks of 96 bytes of which the first and the third range were freed again. -/
def twoHoles : Option Talloc := do
  let (a, a₀) ← (Talloc.new 16 96).alloc 16
  let (a, _) ← a.alloc 16
  let (a, a₂) ← a.alloc 64
  let (a, b₀) ← a.alloc 32
  let (a, _) ← a.alloc 16
  let (a, b₂) ← a.alloc 48
  let a ← a.freeBytes a₀ 16
  let a ← a.freeBytes a₂ 64
  let a ← a.freeBytes b₀ 32
  a.freeBytes b₂ 48

/-- The allocator with these holes. -/
def twoHolesState : Talloc :=
  { alignment := 16, maxChunkSize := 96
    chunks := [
      { free := [{ offset := 0, size := 16 }, { offset := 32, size := 64 }], maxSize := 96 },
      { free := [{ offset := 0, size := 32 }, { offset := 48, size := 48 }], maxSize := 96 }] }

theorem alloc_takes_smallest_iff_twoHoles :
    ((∃ c b, Fits twoHolesState.chunks (alignedOffset 20 16) c b) →
      TakesSmallest twoHolesState 20) ↔
      LastHasSmallest twoHolesState.chunks (alignedOffset 20 16) :=
  alloc_takes_smallest_iff twoHolesState 20 (by decide)

/-- Sixteen bytes fit exactly into the hole of the first chunk and are taken from the hole of
32 bytes in the second one. -/
theorem exact_hole_passed_over : twoHoles = some twoHolesState ∧
    ¬ ((∃ c b, Fits twoHolesState.chunks (alignedOffset 16 16) c b) →
      TakesSmallest twoHolesState 16) := by
  refine ⟨by decide, fun h => ?_⟩
  have hfit : Fits twoHolesState.chunks (alignedOffset 16 16) 0 { offset := 0, size := 16 } :=
    ⟨by decide, 0, _, rfl, by decide, rfl⟩
  obtain ⟨c, i, b, ⟨ch, hc, hi, hb⟩, -, hsm, halloc⟩ := h ⟨0, _, hfit⟩
  have hrun : (twoHolesState.alloc 16).map (fun r => r.2.chunk) = some 1 := by decide
  rw [halloc, map_some, carve_chunk, some.injEq] at hrun
  subst hrun
  cases hc
  have hb16 : b.size ≤ 16 := hsm 0 _ hfit
  match i, hi, hb with
  | 0, _, hb =>
    cases hb
    exact absurd hb16 (by decide)
  | i + 1, hi, _ => exact absurd hi (by simp)

end Llama.Alloc
