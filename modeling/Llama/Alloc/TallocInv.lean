import Llama.Alloc.Talloc
import Mathlib.Data.List.TakeWhile

/-!
# What the tensor allocator guarantees

Allocation takes its range out of the free set of one chunk, freeing puts a range back.
Both keep the free blocks separate; with positive sizes they also keep them tidy. From
this, live ranges never meet each other or a free block along any run.
-/

namespace Llama.Alloc

open Llama.Span List

variable {i size offset : Nat} {b : Span} {ch : Chunk} {post pre blocks blocks' : List Span}

theorem exists_split {l : List Span} (h : l[i]? = some b) :
    ∃ pre post, l = pre ++ b :: post ∧ pre.length = i := by
  obtain ⟨hi, rfl⟩ := List.getElem?_eq_some_iff.mp h
  exact ⟨l.take i, l.drop (i + 1), by simp, by simp; omega⟩

@[simp] theorem set_length_append (pre post : List Span) (b x : Span) :
    (pre ++ b :: post).set pre.length x = pre ++ x :: post := by simp

@[simp] theorem eraseIdx_length_append (pre post : List Span) (b : Span) :
    (pre ++ b :: post).eraseIdx pre.length = pre ++ post := by
  rw [eraseIdx_append_of_length_le (le_refl _)]
  simp

theorem getElem?_succ_append (pre post : List Span) (b : Span) :
    (pre ++ b :: post)[pre.length + 1]? = post.head? := by
  rw [getElem?_append_right (by omega), Nat.add_sub_cancel_left]
  cases post <;> rfl

/-- A choice names a block that is large enough. -/
def Chosen (chunks : List Chunk) (size : Nat) (r : Option (Nat × Nat)) : Prop :=
  ∀ c i, r = some (c, i) → ∃ ch b, chunks[c]? = some ch ∧ ch.free[i]? = some b ∧ size ≤ b.size

theorem foldl_preserves {α β : Type} {P : β → Prop} {f : β → α → β} (l : List α) {b : β} (h : P b)
    (hs : ∀ b a, P b → P (f b a)) : P (l.foldl f b) := by
  induction l generalizing b with
  | nil => exact h
  | cons a l ih => exact ih (hs b a h)

theorem bestFit_chosen (chunks : List Chunk) (size : Nat) :
    Chosen chunks size (bestFit chunks size) := by
  apply foldl_preserves (P := Chosen chunks size)
  · intro c i h
    cases h
  · intro best c hbest
    cases hc : chunks[c]? with
    | none => exact hbest
    | some ch =>
      refine foldl_preserves (P := fun st : Option (Nat × Nat) × Nat => Chosen chunks size st.1)
        (range (ch.free.length - 1)) hbest ?_
      intro st i hst
      unfold fitStep
      cases hb : ch.free[i]? with
      | none => exact hst
      | some b =>
        simp only
        split
        · rename_i hsize
          intro c' i' he
          simp only [Option.some.injEq, Prod.mk.injEq] at he
          obtain ⟨rfl, rfl⟩ := he
          exact ⟨ch, b, hc, hb, hsize.1⟩
        · exact hst

theorem lastFit_chosen (chunks : List Chunk) (size : Nat) :
    Chosen chunks size (lastFit chunks size) := by
  refine foldl_preserves (P := fun st : Option (Nat × Nat) × Int => Chosen chunks size st.1)
    (range chunks.length) ?_ ?_
  · intro c i h
    cases h
  · intro st c hst
    unfold lastStep
    cases hc : chunks[c]? with
    | none => exact hst
    | some ch =>
      simp only
      cases hb : ch.free[ch.free.length - 1]? with
      | none => exact hst
      | some b =>
        simp only
        split
        · rename_i hsize
          intro c' i' he
          simp only [Option.some.injEq, Prod.mk.injEq] at he
          obtain ⟨rfl, rfl⟩ := he
          exact ⟨ch, b, hc, hb, hsize.1⟩
        · exact hst

section

variable (hb : ch.free[i]? = some b) (hs : size ≤ b.size)
include hb hs

/-- The free list after `size` bytes were taken from the front of the block in the middle. -/
theorem carve_cases : (ch.carve i size).2 = b.offset ∧
      (ch.carve i size).1.maxSize = max ch.maxSize (b.offset + size) ∧
      ∃ pre post, ch.free = pre ++ b :: post ∧
        ((b.size = size ∧ (ch.carve i size).1.free = pre ++ post) ∨
          (size < b.size ∧ (ch.carve i size).1.free =
            pre ++ { offset := b.offset + size, size := b.size - size } :: post)) := by
  obtain ⟨pre, post, hsplit, rfl⟩ := exists_split hb
  simp only [Chunk.carve, hb]
  refine ⟨trivial, trivial, pre, post, hsplit, ?_⟩
  by_cases he : b.size = size
  · left
    refine ⟨he, ?_⟩
    rw [if_pos (by omega), hsplit, eraseIdx_length_append]
  · right
    refine ⟨by omega, ?_⟩
    rw [if_neg (by omega), hsplit, set_length_append]

/-- Carving removes the range from the covered addresses. -/
theorem carve_cover (hsep : Separate ch.free) : Separate (ch.carve i size).1.free ∧
      cover (ch.carve i size).1.free = cover ch.free \ (Span.mk b.offset size).bytes := by
  obtain ⟨-, -, pre, post, hsplit, hcase⟩ := carve_cases hb hs
  rw [hsplit] at hsep
  have hmid := hsep.middle
  have hsub : (Span.mk b.offset size).bytes ⊆ b.bytes := bytes_prefix_subset hs
  have hrest : cover (pre ++ post) \ (Span.mk b.offset size).bytes = cover (pre ++ post) :=
    (hmid.mono_right hsub).sdiff_eq_left
  have hcov : cover ch.free \ (Span.mk b.offset size).bytes =
      (b.bytes \ (Span.mk b.offset size).bytes) ∪ cover (pre ++ post) := by
    rw [← hrest, hsplit, ← Set.union_sdiff_distrib]
    congr 1
    simp only [cover_append, cover_cons]
    rw [Set.union_left_comm]
  rcases hcase with ⟨he, hfree⟩ | ⟨hlt, hfree⟩
  · rw [hfree, hcov, ← bytes_carve hs, bytes_eq_empty (by simp only; omega), Set.empty_union]
    exact ⟨hsep.of_append, rfl⟩
  · rw [hfree, hcov, ← bytes_carve hs]
    refine ⟨hsep.of_append.replace (hmid.mono_right ?_), ?_⟩
    · rw [bytes_carve hs]
      exact Set.sdiff_subset
    · simp only [cover_append, cover_cons]
      rw [Set.union_left_comm]

theorem carve_tidy (h : Tidy ch.free) : Tidy (ch.carve i size).1.free := by
  obtain ⟨-, -, pre, post, hsplit, hcase⟩ := carve_cases hb hs
  rw [hsplit] at h
  rcases hcase with ⟨-, hfree⟩ | ⟨hlt, hfree⟩
  · rw [hfree]
    exact h.of_append
  · rw [hfree]
    refine h.of_append.replace (by simp only; omega) (fun a ha => ?_) (fun a ha => ?_)
    · have := h.before a ha
      simp only
      omega
    · have := h.after a ha
      simp only [stop] at this ⊢
      omega

end

/-- The four ways in which freed bytes enter a free list. -/
inductive Merged (blocks : List Span) (offset size : Nat) : List Span → Prop
  | grow {pre post : List Span} {b : Span} (hsplit : blocks = pre ++ b :: post)
      (hstop : b.stop = offset) (hnext : ∀ x ∈ post.head?, offset + size ≠ x.offset) :
      Merged blocks offset size (pre ++ { b with size := b.size + size } :: post)
  | bridge {pre post : List Span} {b next : Span} (hsplit : blocks = pre ++ b :: next :: post)
      (hstop : b.stop = offset) (hnext : offset + size = next.offset) :
      Merged blocks offset size (pre ++ { b with size := b.size + size + next.size } :: post)
  | extend {pre post : List Span} {b : Span} (hsplit : blocks = pre ++ b :: post)
      (hstart : offset + size = b.offset) (hpre : ∀ x ∈ pre, x.stop ≠ offset) :
      Merged blocks offset size (pre ++ { offset := offset, size := b.size + size } :: post)
  | insert (hstop : ∀ x ∈ blocks, x.stop ≠ offset)
      (hstart : ∀ x ∈ blocks, offset + size ≠ x.offset) :
      Merged blocks offset size
        (blocks.takeWhile (fun x => decide (x.offset < offset)) ++
          { offset := offset, size := size } ::
          blocks.dropWhile (fun x => decide (x.offset < offset)))

theorem mergeEnd_merged (hstop : b.stop = offset) : Merged (pre ++ b :: post) offset size
      (mergeEnd (pre ++ b :: post) pre.length size b) := by
  have hb : ∀ z, Span.stop { b with size := b.size + z } = offset + z := fun z => by
    simp only [stop] at hstop ⊢
    omega
  unfold mergeEnd
  rw [getElem?_succ_append]
  cases post with
  | nil =>
    simp only [head?_nil, set_length_append]
    exact Merged.grow rfl hstop (by simp)
  | cons next post =>
    simp only [head?_cons, set_length_append, hb]
    by_cases he : offset + size = next.offset
    · rw [if_pos he]
      have herase : (pre ++ { b with size := b.size + size + next.size } ::
          next :: post).eraseIdx (pre.length + 1) =
          pre ++ { b with size := b.size + size + next.size } :: post := by
        rw [eraseIdx_append_of_length_le (by omega)]
        simp
      rw [herase]
      exact Merged.bridge rfl hstop he
    · rw [if_neg he]
      exact Merged.grow rfl hstop (by simpa using he)

theorem mergeBegin_merged (hstart : offset + size = b.offset) (hpre : ∀ x ∈ pre, x.stop ≠ offset) :
    Merged (pre ++ b :: post) offset size
      (mergeBegin (pre ++ b :: post) pre.length offset size b) := by
  have hset : mergeBegin (pre ++ b :: post) pre.length offset size b =
      pre ++ { offset := offset, size := b.size + size } :: post := by
    unfold mergeBegin
    split
    · rename_i hpos
      -- the previous block does not touch, or the loop had returned there
      have hlt : pre.length - 1 < pre.length := by omega
      rw [getElem?_append_left hlt, getElem?_eq_getElem hlt]
      simp only
      rw [if_neg (hpre _ (getElem_mem hlt)), set_length_append]
    · rw [set_length_append]
  rw [hset]
  exact Merged.extend rfl hstart hpre

theorem freeStep_none (h : freeStep blocks offset size i = none) (hb : blocks[i]? = some b) :
    b.stop ≠ offset ∧ offset + size ≠ b.offset := by
  simp only [freeStep, hb] at h
  split at h
  · cases h
  · rename_i h1
    split at h
    · cases h
    · rename_i h2
      exact ⟨h1, h2⟩

theorem freeBlocks_merged (h : freeBlocks blocks offset size = some blocks') :
    Merged blocks offset size blocks' := by
  unfold freeBlocks at h
  cases hf : (range blocks.length).findSome? (freeStep blocks offset size) with
  | some bs =>
    rw [hf] at h
    simp only [Option.some.injEq] at h
    subst h
    obtain ⟨l1, i, l2, hl, hi, hnone⟩ := findSome?_eq_some_iff.mp hf
    have hlen : l1.length = i := by
      have hlt : l1.length < blocks.length := by
        have := congrArg List.length hl
        simp only [length_range, length_append, length_cons] at this
        omega
      have hget : (range blocks.length)[l1.length]? = some i := by
        rw [hl]
        simp
      rw [getElem?_range hlt] at hget
      exact Option.some.inj hget
    have hprev : ∀ j < i, freeStep blocks offset size j = none := by
      intro j hj
      apply hnone
      have hget : (range blocks.length)[j]? = l1[j]? := by
        rw [hl, getElem?_append_left (by omega)]
      have hjl : j < l1.length := by omega
      have hjb : j < blocks.length := by
        have := congrArg List.length hl
        simp only [length_range, length_append, length_cons] at this
        omega
      rw [getElem?_range hjb, getElem?_eq_getElem hjl] at hget
      rw [Option.some.inj hget]
      exact getElem_mem hjl
    simp only [freeStep] at hi
    cases hb : blocks[i]? with
    | none => rw [hb] at hi; cases hi
    | some b =>
      rw [hb] at hi
      simp only at hi
      obtain ⟨pre, post, hsplit, hpl⟩ := exists_split hb
      subst hpl
      subst hsplit
      split at hi
      · rename_i hstop
        obtain rfl := Option.some.inj hi
        exact mergeEnd_merged hstop
      · split at hi
        · rename_i hstart
          obtain rfl := Option.some.inj hi
          refine mergeBegin_merged hstart fun x hx => ?_
          obtain ⟨j, hj, rfl⟩ := getElem_of_mem hx
          refine (freeStep_none (hprev j hj) ?_).1
          rw [getElem?_append_left hj, getElem?_eq_getElem hj]
        · cases hi
  | none =>
    rw [hf] at h
    have hnone : ∀ x ∈ blocks, x.stop ≠ offset ∧ offset + size ≠ x.offset := by
      intro x hx
      obtain ⟨j, hj, rfl⟩ := getElem_of_mem hx
      exact freeStep_none (findSome?_eq_none_iff.mp hf j (mem_range.mpr hj))
        (getElem?_eq_getElem hj)
    simp only [insertBlock] at h
    split at h
    · obtain rfl := Option.some.inj h
      exact Merged.insert (fun x hx => (hnone x hx).1) (fun x hx => (hnone x hx).2)
    · cases h

/-- Freed bytes are covered afterwards, and nothing else changes. -/
theorem Merged.cover {blocks blocks' : List Span} {offset size : Nat}
    (h : Merged blocks offset size blocks') :
    cover blocks' = cover blocks ∪ (Span.mk offset size).bytes := by
  cases h with
  | @grow pre post b hsplit hstop hnext =>
    rw [hsplit]
    have := bytes_join (s := b) (t := Span.mk offset size) hstop
    simp only [cover_append, cover_cons, this]
    ext p
    simp only [Set.mem_union]
    tauto
  | @bridge pre post b next hsplit hstop hnext =>
    rw [hsplit]
    have h1 := bytes_join (s := b) (t := Span.mk offset size) hstop
    have h2 := bytes_join (s := Span.mk b.offset (b.size + size)) (t := next) (by
      simp only [stop] at hstop ⊢
      omega)
    simp only at h2
    simp only [cover_append, cover_cons, h2, h1]
    ext p
    simp only [Set.mem_union]
    tauto
  | @extend pre post b hsplit hstart hpre =>
    rw [hsplit]
    have h1 := bytes_join (s := Span.mk offset size) (t := b) (by simpa [stop] using hstart)
    rw [Nat.add_comm b.size size]
    simp only at h1
    simp only [cover_append, cover_cons, h1]
    ext p
    simp only [Set.mem_union]
    tauto
  | insert hstop hstart =>
    have hsplit : Span.cover blocks =
        Span.cover (blocks.takeWhile (fun x => decide (x.offset < offset))) ∪
        Span.cover (blocks.dropWhile (fun x => decide (x.offset < offset))) := by
      rw [← cover_append, takeWhile_append_dropWhile]
    simp only [cover_append, cover_cons, hsplit]
    ext p
    simp only [Set.mem_union]
    tauto

/-- Freeing addresses that are not free keeps the blocks separate. -/
theorem Merged.separate (h : Merged blocks offset size blocks') (hsep : Separate blocks)
    (hd : Disjoint (Span.cover blocks) (Span.mk offset size).bytes) : Separate blocks' := by
  cases h with
  | @grow pre post b hsplit hstop hnext =>
    subst hsplit
    refine hsep.of_append.replace ?_
    rw [bytes_join (s := b) (t := Span.mk offset size) hstop]
    refine Set.disjoint_union_right.mpr ⟨hsep.middle, hd.mono_left ?_⟩
    simp only [cover_append, cover_cons]
    intro p
    simp only [Set.mem_union]
    tauto
  | @bridge pre post b next hsplit hstop hnext =>
    subst hsplit
    have h1 := bytes_join (s := b) (t := Span.mk offset size) hstop
    have h2 := bytes_join (s := Span.mk b.offset (b.size + size)) (t := next) (by
      simp only [stop] at hstop ⊢
      omega)
    have hsep' : Separate (pre ++ b :: post) := by
      have := hsep
      rw [show pre ++ b :: next :: post = (pre ++ [b]) ++ next :: post by simp] at this
      simpa using this.of_append
    have hmid : Disjoint (Span.cover (pre ++ post)) next.bytes := by
      have := hsep
      rw [show pre ++ b :: next :: post = (pre ++ [b]) ++ next :: post by simp] at this
      refine this.middle.mono_left ?_
      simp only [cover_append, cover_cons, cover_nil]
      intro p
      simp only [Set.mem_union]
      tauto
    simp only at h2
    refine hsep'.of_append.replace ?_
    rw [h2, h1]
    refine Set.disjoint_union_right.mpr
      ⟨Set.disjoint_union_right.mpr ⟨hsep'.middle, hd.mono_left ?_⟩, hmid⟩
    simp only [cover_append, cover_cons]
    intro p
    simp only [Set.mem_union]
    tauto
  | @extend pre post b hsplit hstart hpre =>
    subst hsplit
    refine hsep.of_append.replace ?_
    have h1 := bytes_join (s := Span.mk offset size) (t := b) (by simpa [stop] using hstart)
    rw [Nat.add_comm b.size size]
    simp only at h1
    rw [h1]
    refine Set.disjoint_union_right.mpr ⟨hd.mono_left ?_, hsep.middle⟩
    simp only [cover_append, cover_cons]
    intro p
    simp only [Set.mem_union]
    tauto
  | insert hstop hstart =>
    have hsplit : blocks.takeWhile (fun x => decide (x.offset < offset)) ++
        blocks.dropWhile (fun x => decide (x.offset < offset)) = blocks :=
      takeWhile_append_dropWhile
    exact Separate.replace (by rwa [hsplit]) (by rwa [hsplit])

/-- Freeing a non-empty range that is not free keeps the blocks tidy. -/
theorem Merged.tidy (h : Merged blocks offset size blocks') (ht : Tidy blocks) (hs : 0 < size)
    (hd : Disjoint (Span.cover blocks) (Span.mk offset size).bytes) : Tidy blocks' := by
  -- every block lies before or behind the freed range
  have hside : ∀ x ∈ blocks, x.stop ≤ offset ∨ offset + size ≤ x.offset := fun x hx =>
    disjoint_bytes (t := Span.mk offset size) (ht.pos x hx) hs (disjoint_cover.mp hd x hx)
  cases h with
  | @grow pre post b hsplit hstop hnext =>
    subst hsplit
    have hb := ht.pos b (by simp)
    refine ht.of_append.replace (by simp only; omega) ht.before fun x hx => ?_
    have hnear : ∀ y ∈ post.head?, offset + size < y.offset := by
      intro y hy
      have hm : y ∈ post := mem_of_mem_head? hy
      have h1 := ht.after y hm
      have h2 := hnext y hy
      have h3 := ht.pos y (by simp [hm])
      rcases hside y (by simp [hm]) with h4 | h4
      · simp only [stop] at h1 h4 hstop
        omega
      · omega
    cases post with
    | nil => simp at hx
    | cons y post =>
      have hy := hnear y (by simp)
      have hlast : (offset + size < x.offset) := by
        rcases mem_cons.mp hx with rfl | hx
        · exact hy
        · have ht' : Tidy ((pre ++ [b]) ++ y :: post) := by simpa using ht
          have := ht'.after x hx
          simp only [stop] at this
          omega
      simp only [stop] at hstop ⊢
      omega
  | @bridge pre post b next hsplit hstop hnext =>
    subst hsplit
    have ht1 : Tidy ((pre ++ [b]) ++ next :: post) := by simpa using ht
    have ht2 : Tidy (pre ++ b :: post) := by simpa using ht1.of_append
    refine ht2.of_append.replace (by simp only; omega) ht.before fun x hx => ?_
    have := ht1.after x hx
    simp only [stop] at hstop this ⊢
    omega
  | @extend pre post b hsplit hstart hpre =>
    subst hsplit
    refine ht.of_append.replace (by simp only; omega) (fun x hx => ?_) fun x hx => ?_
    · have h1 := ht.before x hx
      have h2 := hpre x hx
      have h3 := ht.pos x (by simp [hx])
      rcases hside x (by simp [hx]) with h4 | h4
      · simp only [stop] at h2 h4 ⊢
        omega
      · simp only [stop] at h1
        omega
    · have := ht.after x hx
      simp only [stop] at this ⊢
      omega
  | insert hstop hstart =>
    have hsplit : blocks.takeWhile (fun x => decide (x.offset < offset)) ++
        blocks.dropWhile (fun x => decide (x.offset < offset)) = blocks :=
      takeWhile_append_dropWhile
    refine Tidy.replace (by rwa [hsplit]) hs (fun x hx => ?_) fun x hx => ?_
    · have hm : x ∈ blocks := by rw [← hsplit]; exact mem_append_left _ hx
      have h1 : x.offset < offset := by simpa using mem_takeWhile_imp hx
      have h2 := hstop x hm
      rcases hside x hm with h4 | h4
      · simp only at h4 ⊢
        omega
      · omega
    · have hm : x ∈ blocks := by rw [← hsplit]; exact mem_append_right _ hx
      have h1 : offset ≤ x.offset := by
        have hgap := ht.gap.sublist (dropWhile_sublist (fun x => decide (x.offset < offset)))
        cases hdw : blocks.dropWhile (fun x => decide (x.offset < offset)) with
        | nil => rw [hdw] at hx; simp at hx
        | cons y ys =>
          have hy : offset ≤ y.offset := by
            have := head_dropWhile_not (fun x : Span => decide (x.offset < offset))
              (l := blocks) (by rw [hdw]; simp)
            simpa [hdw] using this
          rw [hdw] at hx hgap
          rcases mem_cons.mp hx with rfl | hx
          · exact hy
          · have := (pairwise_cons.mp hgap).1 x hx
            simp only [stop] at this
            omega
      have h2 := hstart x hm
      have h3 := ht.pos x hm
      rcases hside x hm with h4 | h4
      · simp only [stop] at h4
        omega
      · simp only [stop]
        omega

end Llama.Alloc
