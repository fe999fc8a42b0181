import Mathlib.Data.List.Pairwise
import Mathlib.Data.Set.Lattice
import Mathlib.Order.CompletePartialOrder

/-!
# Lists of address ranges

A range is an offset and a size; a list of ranges covers a set of addresses. Separate
ranges are pairwise disjoint. Tidy ranges are non-empty, sorted and never touch.
-/

namespace Llama

open List hiding Disjoint

/-- The addresses from `offset` on, `size` many. -/
structure Span where
  /-- First address. -/
  offset : Nat
  /-- Number of addresses. -/
  size : Nat
  deriving DecidableEq, Repr

namespace Span

variable {s t : Span} {l l' : List Span}

/-- First address behind the range. -/
def stop (s : Span) : Nat := s.offset + s.size

/-- The addresses of a range. -/
def bytes (s : Span) : Set Nat := Set.Ico s.offset s.stop

/-- The addresses of a list of ranges. -/
def cover (l : List Span) : Set Nat := {p | ∃ s ∈ l, p ∈ s.bytes}

/-- Pairwise disjoint ranges. -/
def Separate (l : List Span) : Prop := l.Pairwise fun s t => Disjoint s.bytes t.bytes

/-- Non-empty ranges, sorted, with gaps between them. -/
structure Tidy (l : List Span) : Prop where
  pos : ∀ s ∈ l, 0 < s.size
  gap : l.Pairwise fun s t => s.stop < t.offset

variable {p n : Nat}

theorem mem_bytes : p ∈ s.bytes ↔ s.offset ≤ p ∧ p < s.offset + s.size := Iff.rfl

theorem mem_cover : p ∈ cover l ↔ ∃ s ∈ l, p ∈ s.bytes := Iff.rfl

@[simp] theorem cover_nil : cover [] = ∅ := by
  ext p
  simp [mem_cover]

@[simp] theorem cover_cons : cover (s :: l) = s.bytes ∪ cover l := by
  ext p
  simp [mem_cover]

@[simp] theorem cover_append : cover (l ++ l') = cover l ∪ cover l' := by
  ext p
  simp only [mem_cover, mem_append, Set.mem_union]
  constructor
  · rintro ⟨s, hs | hs, hp⟩
    · exact .inl ⟨s, hs, hp⟩
    · exact .inr ⟨s, hs, hp⟩
  · rintro (⟨s, hs, hp⟩ | ⟨s, hs, hp⟩)
    · exact ⟨s, .inl hs, hp⟩
    · exact ⟨s, .inr hs, hp⟩

theorem bytes_join (h : s.stop = t.offset) :
    (Span.mk s.offset (s.size + t.size)).bytes = s.bytes ∪ t.bytes := by
  ext p
  simp only [stop] at h
  simp only [Set.mem_union, mem_bytes]
  omega

/-- Taking addresses from the front of a range. -/
theorem bytes_carve (h : n ≤ s.size) :
    (Span.mk (s.offset + n) (s.size - n)).bytes = s.bytes \ (Span.mk s.offset n).bytes := by
  ext p
  simp only [Set.mem_sdiff, mem_bytes]
  omega

theorem bytes_prefix_subset (h : n ≤ s.size) : (Span.mk s.offset n).bytes ⊆ s.bytes := by
  intro p
  simp only [mem_bytes]
  omega

theorem bytes_eq_empty (h : s.size = 0) : s.bytes = ∅ := by
  ext p
  simp only [mem_bytes, Set.mem_empty_iff_false, iff_false]
  omega

theorem bytes_subset_cover (h : s ∈ l) : s.bytes ⊆ cover l := fun _ hp => ⟨s, h, hp⟩

theorem disjoint_cover {a : Set Nat} : Disjoint (cover l) a ↔ ∀ s ∈ l, Disjoint s.bytes a := by
  simp only [Set.disjoint_left, mem_cover]
  constructor
  · intro h s hs p hp
    exact h ⟨s, hs, hp⟩
  · rintro h p ⟨s, hs, hp⟩
    exact h s hs hp

/-- Disjoint non-empty ranges lie before or behind each other. -/
theorem disjoint_bytes (hs : 0 < s.size) (ht : 0 < t.size) (h : Disjoint s.bytes t.bytes) :
    s.stop ≤ t.offset ∨ t.stop ≤ s.offset := by
  rw [Set.disjoint_left] at h
  by_contra hc
  simp only [stop] at hc
  have := @h (max s.offset t.offset)
  simp only [mem_bytes] at this
  omega

theorem Tidy.separate (h : Tidy l) : Separate l := by
  refine h.gap.imp ?_
  intro s t hst
  rw [Set.disjoint_left]
  intro p
  simp only [stop] at hst
  simp only [mem_bytes]
  omega

/-- The range in the middle of separate ranges is disjoint from the rest. -/
theorem Separate.middle (h : Separate (l ++ s :: l')) : Disjoint (cover (l ++ l')) s.bytes := by
  rw [Separate, pairwise_append, pairwise_cons] at h
  obtain ⟨-, ⟨h2, -⟩, h3⟩ := h
  rw [disjoint_cover]
  intro t ht
  rcases mem_append.mp ht with ht | ht
  · exact h3 t ht s mem_cons_self
  · exact (h2 t ht).symm

theorem Separate.of_append (h : Separate (l ++ s :: l')) : Separate (l ++ l') := h.sublist (by simp)

/-- Replacing the middle range by one that is disjoint from the rest. -/
theorem Separate.replace (h : Separate (l ++ l')) (ht : Disjoint (cover (l ++ l')) t.bytes) :
    Separate (l ++ t :: l') := by
  rw [Separate, pairwise_append] at h
  rw [disjoint_cover] at ht
  rw [Separate, pairwise_append, pairwise_cons]
  refine ⟨h.1, ⟨fun a ha => (ht a (mem_append_right l ha)).symm, h.2.1⟩, fun a ha b hb => ?_⟩
  rcases mem_cons.mp hb with rfl | hb
  · exact ht a (mem_append_left l' ha)
  · exact h.2.2 a ha b hb

theorem Tidy.of_append (h : Tidy (l ++ s :: l')) : Tidy (l ++ l') :=
  ⟨fun t ht => h.pos t (by simp only [mem_append, mem_cons] at ht ⊢; tauto),
    h.gap.sublist (by simp)⟩

/-- Replacing the middle range of tidy ranges. -/
theorem Tidy.replace (h : Tidy (l ++ l')) (ht : 0 < t.size) (h1 : ∀ a ∈ l, a.stop < t.offset)
    (h2 : ∀ b ∈ l', t.stop < b.offset) : Tidy (l ++ t :: l') := by
  have hg := pairwise_append.mp h.gap
  refine ⟨fun a ha => ?_, ?_⟩
  · simp only [mem_append, mem_cons] at ha
    rcases ha with ha | rfl | ha
    · exact h.pos a (mem_append_left l' ha)
    · exact ht
    · exact h.pos a (mem_append_right l ha)
  · rw [pairwise_append, pairwise_cons]
    refine ⟨hg.1, ⟨h2, hg.2.1⟩, fun a ha b hb => ?_⟩
    rcases mem_cons.mp hb with rfl | hb
    · exact h1 a ha
    · exact hg.2.2 a ha b hb

theorem Tidy.before (h : Tidy (l ++ s :: l')) : ∀ a ∈ l, a.stop < s.offset := fun a ha =>
  (pairwise_append.mp h.gap).2.2 a ha s mem_cons_self

theorem Tidy.after (h : Tidy (l ++ s :: l')) : ∀ b ∈ l', s.stop < b.offset :=
  (pairwise_cons.mp (pairwise_append.mp h.gap).2.1).1

/-- Tidy ranges that cover the numbers below `n` are one range. -/
theorem Tidy.eq_singleton (h : Tidy l) (hn : 0 < n) (hc : cover l = Set.Iio n) :
    l = [{ offset := 0, size := n }] := by
  have hmem : ∀ p, p < n ↔ p ∈ cover l := fun p => by rw [hc, Set.mem_Iio]
  cases l with
  | nil =>
    rw [hmem] at hn
    simp at hn
  | cons s l =>
    have hgap : ∀ t ∈ l, s.stop < t.offset := (pairwise_cons.mp h.gap).1
    have hpos := h.pos s mem_cons_self
    -- a number in front of the second range is in the first one
    have hfirst : ∀ p < n, p ≤ s.stop → s.offset ≤ p ∧ p < s.stop := by
      intro p hp hle
      obtain ⟨t, ht, hin⟩ := (hmem p).mp hp
      rcases mem_cons.mp ht with rfl | ht
      · exact hin
      · have := hgap t ht
        have := hin.1
        omega
    have hstart := hfirst 0 hn (Nat.zero_le _)
    have hstop : ¬ s.stop < n := fun hlt => absurd (hfirst _ hlt le_rfl).2 (lt_irrefl _)
    have hlast : s.stop - 1 < n := by
      rw [hmem]
      refine ⟨s, mem_cons_self, ?_⟩
      rw [mem_bytes, stop]
      omega
    have hnil : l = [] := by
      cases l with
      | nil => rfl
      | cons t l =>
        have hpost := h.pos t (by simp)
        have ht := hgap t mem_cons_self
        have hin : t.offset < n := by
          rw [hmem]
          refine ⟨t, by simp, ?_⟩
          rw [mem_bytes]
          omega
        omega
    obtain ⟨offset, size⟩ := s
    simp only [stop] at *
    obtain rfl : offset = 0 := by omega
    obtain rfl : size = n := by omega
    rw [hnil]

end Span

end Llama
