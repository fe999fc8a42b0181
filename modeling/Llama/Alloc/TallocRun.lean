import Llama.Alloc.TallocInv

/-!
# Runs of the tensor allocator

`Allocated` and `Freed` say what the two operations do to the free sets of the chunks, for
any caller. `Held` relates a list of ranges to an allocator. A run starts with an empty
allocator, allocates positive sizes and frees live ranges or aligned suffixes of them.
-/

namespace Llama.Alloc

open Llama.Span List

namespace Talloc

/-- The free addresses of a chunk. -/
def freeSet (a : Talloc) (c : Nat) : Set Nat :=
  match a.chunks[c]? with
  | some ch => cover ch.free
  | none => ∅

/-- The high-water mark of a chunk, `ggml_dyn_tallocr_max_size`. -/
def maxSize (a : Talloc) (c : Nat) : Nat :=
  match a.chunks[c]? with
  | some ch => ch.maxSize
  | none => 0

/-- The free blocks of every chunk are separate. -/
def Sound (a : Talloc) : Prop := ∀ ch ∈ a.chunks, Separate ch.free

/-- The free blocks of every chunk are tidy and no address exceeds `SIZE_MAX/2`. -/
structure Neat (a : Talloc) : Prop where
  tidy : ∀ ch ∈ a.chunks, Tidy ch.free
  /-- Offsets stay in the range where `size_t` arithmetic is exact. -/
  bound : ∀ ch ∈ a.chunks, ch.maxSize ≤ sizeMax / 2 ∧ ∀ b ∈ ch.free, b.stop ≤ sizeMax / 2
  maxChunk : a.maxChunkSize ≤ sizeMax / 2

theorem Neat.sound {a : Talloc} (h : a.Neat) : a.Sound := fun ch hch => (h.tidy ch hch).separate

variable {a a' : Talloc} {addr : Addr} {size n : Nat}

/-- Effect of an allocation. -/
structure Allocated (a a' : Talloc) (addr : Addr) (size : Nat) : Prop where
  alignment : a'.alignment = a.alignment
  length : a.chunks.length ≤ a'.chunks.length
  chunk : addr.chunk < a'.chunks.length
  sound : a'.Sound
  fresh : addr.chunk < a.chunks.length → (Span.mk addr.offset size).bytes ⊆ a.freeSet addr.chunk
  free : ∀ c < a.chunks.length, a'.freeSet c ⊆ a.freeSet c
  apart : Disjoint (a'.freeSet addr.chunk) (Span.mk addr.offset size).bytes
  below : addr.offset + size ≤ a'.maxSize addr.chunk
  mono : ∀ c, a.maxSize c ≤ a'.maxSize c

/-- Effect of giving bytes back. -/
structure Freed (a a' : Talloc) (addr : Addr) (size : Nat) : Prop where
  alignment : a'.alignment = a.alignment
  length : a'.chunks.length = a.chunks.length
  sound : a'.Sound
  free : a'.freeSet addr.chunk = a.freeSet addr.chunk ∪ (Span.mk addr.offset size).bytes
  other : ∀ c, c ≠ addr.chunk → a'.freeSet c = a.freeSet c
  marks : ∀ c, a'.maxSize c = a.maxSize c

variable {c i d m : Nat} {ch : Chunk} {b : Span}

theorem carve_eq (hc : a.chunks[c]? = some ch) :
    a.carve c i size = ({ a with chunks := a.chunks.set c (ch.carve i size).1 },
      { chunk := c, offset := (ch.carve i size).2 }) := by
  simp only [Talloc.carve, hc]

theorem freeSet_set (hc : c < a.chunks.length) :
    ({ a with chunks := a.chunks.set c ch } : Talloc).freeSet d =
      if d = c then cover ch.free else a.freeSet d := by
  simp only [freeSet, getElem?_set]
  by_cases h : c = d
  · subst h
    simp [hc]
  · simp [h, Ne.symm h]

theorem maxSize_set (hc : c < a.chunks.length) :
    ({ a with chunks := a.chunks.set c ch } : Talloc).maxSize d =
      if d = c then ch.maxSize else a.maxSize d := by
  simp only [maxSize, getElem?_set]
  by_cases h : c = d
  · subst h
    simp [hc]
  · simp [h, Ne.symm h]

/-- Carving a block that is large enough. -/
theorem carve_allocated (hs : a.Sound) (hc : a.chunks[c]? = some ch) (hb : ch.free[i]? = some b)
    (hsize : size ≤ b.size) :
    Allocated a (a.carve c i size).1 (a.carve c i size).2 size ∧
      (a.carve c i size).2.chunk = c := by
  obtain ⟨hclt, hcget⟩ := List.getElem?_eq_some_iff.mp hc
  have hmem : ch ∈ a.chunks := hcget ▸ getElem_mem hclt
  obtain ⟨hoff, hmax, -⟩ := carve_cases hb hsize
  obtain ⟨hsep, hcov⟩ := carve_cover hb hsize (hs ch hmem)
  have hfree : a.freeSet c = cover ch.free := by simp only [freeSet, hc]
  have hmaxc : a.maxSize c = ch.maxSize := by simp only [maxSize, hc]
  rw [carve_eq hc]
  refine ⟨⟨rfl, by simp, by simpa using hclt, ?_, fun _ => ?_, fun d _ => ?_, ?_, ?_, fun d => ?_⟩,
    rfl⟩
  · intro x hx
    rcases mem_or_eq_of_mem_set hx with hx | rfl
    · exact hs x hx
    · exact hsep
  · simp only [hoff, hfree]
    exact (bytes_prefix_subset hsize).trans (bytes_subset_cover (mem_of_getElem? hb))
  · rw [freeSet_set hclt]
    split
    · rename_i he
      rw [he, hfree, hcov]
      exact Set.sdiff_subset
    · exact subset_rfl
  · simp only [freeSet_set hclt, if_true, hoff, hcov]
    exact Set.disjoint_sdiff_left
  · simp only [maxSize_set hclt, if_true, hoff, hmax]
    exact le_max_right _ _
  · rw [maxSize_set hclt]
    split
    · rename_i he
      rw [he, hmaxc, hmax]
      exact le_max_left _ _
    · exact le_refl _

theorem newChunk_getElem? (a : Talloc) (minSize : Nat) :
    (a.newChunk minSize).chunks[a.chunks.length]? = some
      { free := [{ offset := 0, size := if a.chunks.length = maxChunks - 1 then sizeMax / 2
                                        else max minSize a.maxChunkSize }], maxSize := 0 } := by
  simp [newChunk]

theorem newChunk_old (a : Talloc) (minSize : Nat) (hc : c < a.chunks.length) :
    (a.newChunk minSize).chunks[c]? = a.chunks[c]? := by
  simp [newChunk, getElem?_append_left hc]

theorem newChunk_sound (hs : a.Sound) (minSize : Nat) : (a.newChunk minSize).Sound := by
  intro ch hch
  rcases mem_append.mp hch with h | h
  · exact hs ch h
  · rw [mem_singleton.mp h]
    exact pairwise_singleton _ _

/-- What `ggml_dyn_tallocr_alloc` does when it returns. -/
theorem alloc_cases (h : a.alloc n = some (a', addr))
    (hn : alignedOffset n a.alignment ≤ sizeMax / 2) :
    (∃ c i ch b, a.chunks[c]? = some ch ∧ ch.free[i]? = some b ∧
      alignedOffset n a.alignment ≤ b.size ∧
      (a', addr) = a.carve c i (alignedOffset n a.alignment)) ∨
    (∃ ch b, (a.newChunk (alignedOffset n a.alignment)).chunks[a.chunks.length]? = some ch ∧
      ch.free[0]? = some b ∧ b.offset = 0 ∧ alignedOffset n a.alignment ≤ b.size ∧
      (a', addr) =
        (a.newChunk (alignedOffset n a.alignment)).carve a.chunks.length 0
          (alignedOffset n a.alignment)) := by
  simp only [alloc] at h
  cases hsel : (bestFit a.chunks (alignedOffset n a.alignment)).or
      (lastFit a.chunks (alignedOffset n a.alignment)) with
  | some r =>
    obtain ⟨c, i⟩ := r
    rw [hsel] at h
    left
    have hch : Chosen a.chunks (alignedOffset n a.alignment) (some (c, i)) := by
      rw [← hsel]
      cases hbest : bestFit a.chunks (alignedOffset n a.alignment) with
      | some r =>
        rw [Option.some_or, ← hbest]
        exact bestFit_chosen _ _
      | none =>
        rw [Option.none_or]
        exact lastFit_chosen _ _
    obtain ⟨ch, b, h1, h2, h3⟩ := hch c i rfl
    exact ⟨c, i, ch, b, h1, h2, h3, (Option.some.inj h).symm⟩
  | none =>
    rw [hsel] at h
    right
    simp only at h
    split at h
    · cases h
    · refine ⟨_, _, newChunk_getElem? a _, rfl, rfl, ?_, (Option.some.inj h).symm⟩
      simp only
      split
      · exact hn
      · exact le_max_left _ _

theorem alloc_allocated (hs : a.Sound) (h : a.alloc n = some (a', addr))
    (hn : alignedOffset n a.alignment ≤ sizeMax / 2) :
    Allocated a a' addr (alignedOffset n a.alignment) := by
  rcases alloc_cases h hn with ⟨c, i, ch, b, h1, h2, h3, he⟩ | ⟨ch, b, h1, h2, -, h3, he⟩
  · obtain ⟨rfl, rfl⟩ := Prod.mk.inj he
    exact (carve_allocated hs h1 h2 h3).1
  · generalize alignedOffset n a.alignment = size at *
    obtain ⟨hal, hc⟩ := carve_allocated (newChunk_sound hs size) h1 h2 h3
    rw [← he] at hal hc
    simp only at hal hc
    have hlen : (a.newChunk size).chunks.length = a.chunks.length + 1 := by simp [newChunk]
    have hold : ∀ d < a.chunks.length, (a.newChunk size).freeSet d = a.freeSet d := fun d hd => by
      simp only [freeSet, newChunk_old a size hd]
    refine ⟨hal.alignment, ?_, hal.chunk, hal.sound, fun hlt => ?_, fun d hd => ?_, hal.apart,
      hal.below, fun d => ?_⟩
    · have := hal.length
      omega
    · rw [hc] at hlt
      omega
    · rw [← hold d hd]
      exact hal.free d (by omega)
    · refine le_trans ?_ (hal.mono d)
      by_cases hd : d < a.chunks.length
      · simp only [maxSize, newChunk_old a size hd]
        exact le_refl _
      · have : a.chunks[d]? = none := getElem?_eq_none (by omega)
        simp only [maxSize, this]
        exact Nat.zero_le _

theorem freeBytes_freed (hs : a.Sound) (h : a.freeBytes addr n = some a')
    (hd : Disjoint (a.freeSet addr.chunk)
      (Span.mk addr.offset (alignedOffset n a.alignment)).bytes) :
    Freed a a' addr (alignedOffset n a.alignment) := by
  simp only [freeBytes] at h
  cases hc : a.chunks[addr.chunk]? with
  | none => rw [hc] at h; cases h
  | some ch =>
    rw [hc] at h
    obtain ⟨bs, hbs, h⟩ := Option.bind_eq_some_iff.mp h
    obtain rfl := Option.some.inj h
    obtain ⟨hclt, hcget⟩ := List.getElem?_eq_some_iff.mp hc
    have hmem : ch ∈ a.chunks := hcget ▸ getElem_mem hclt
    have hmerged := freeBlocks_merged hbs
    have hfree : a.freeSet addr.chunk = cover ch.free := by simp only [freeSet, hc]
    have hmax : a.maxSize addr.chunk = ch.maxSize := by simp only [maxSize, hc]
    rw [hfree] at hd
    refine ⟨rfl, by simp, ?_, ?_, fun c hne => ?_, fun c => ?_⟩
    · intro x hx
      rcases mem_or_eq_of_mem_set hx with hx | rfl
      · exact hs x hx
      · exact hmerged.separate (hs ch hmem) hd
    · rw [freeSet_set hclt, if_pos rfl, hfree]
      exact hmerged.cover
    · rw [freeSet_set hclt, if_neg hne]
    · rw [maxSize_set hclt]
      split
      · rename_i he
        rw [he, hmax]
      · rfl

theorem carve_stop (hb : ch.free[i]? = some b) (hs : size ≤ b.size)
    (hm : ch.maxSize ≤ m ∧ ∀ x ∈ ch.free, x.stop ≤ m) :
    (ch.carve i size).1.maxSize ≤ m ∧ ∀ x ∈ (ch.carve i size).1.free, x.stop ≤ m := by
  obtain ⟨-, hmax, pre, post, hsplit, hcase⟩ := carve_cases hb hs
  have hbm := hm.2 b (mem_of_getElem? hb)
  simp only [stop] at hbm
  constructor
  · rw [hmax]
    exact max_le hm.1 (by omega)
  · intro x hx
    have hold : ∀ y ∈ pre ++ post, y.stop ≤ m := fun y hy => hm.2 y (by
      rw [hsplit]
      simp only [mem_append, mem_cons] at hy ⊢
      tauto)
    rcases hcase with ⟨-, hfree⟩ | ⟨-, hfree⟩
    · exact hold x (hfree ▸ hx)
    · rw [hfree] at hx
      simp only [mem_append, mem_cons] at hx
      rcases hx with hx | rfl | hx
      · exact hold x (mem_append_left _ hx)
      · simp only [stop]
        omega
      · exact hold x (mem_append_right _ hx)

theorem Neat.carve (h : a.Neat) (hc : a.chunks[c]? = some ch) (hb : ch.free[i]? = some b)
    (hsize : size ≤ b.size) : (a.carve c i size).1.Neat := by
  have hmem : ch ∈ a.chunks := mem_of_getElem? hc
  rw [carve_eq hc]
  refine ⟨fun x hx => ?_, fun x hx => ?_, h.maxChunk⟩
  · rcases mem_or_eq_of_mem_set hx with hx | rfl
    · exact h.tidy x hx
    · exact carve_tidy hb hsize (h.tidy ch hmem)
  · rcases mem_or_eq_of_mem_set hx with hx | rfl
    · exact h.bound x hx
    · exact carve_stop hb hsize (h.bound ch hmem)

theorem Neat.newChunk (h : a.Neat) {minSize : Nat} (hpos : 0 < minSize)
    (hm : minSize ≤ sizeMax / 2) : (a.newChunk minSize).Neat := by
  have hcap : 0 < (if a.chunks.length = maxChunks - 1 then sizeMax / 2
      else max minSize a.maxChunkSize) ∧ (if a.chunks.length = maxChunks - 1 then sizeMax / 2
      else max minSize a.maxChunkSize) ≤ sizeMax / 2 := by
    have := h.maxChunk
    split <;> omega
  refine ⟨fun ch hch => ?_, fun ch hch => ?_, h.maxChunk⟩
  · rcases mem_append.mp hch with hch | hch
    · exact h.tidy ch hch
    · rw [mem_singleton.mp hch]
      refine ⟨fun s hs => ?_, pairwise_singleton _ _⟩
      rw [mem_singleton.mp hs]
      exact hcap.1
  · rcases mem_append.mp hch with hch | hch
    · exact h.bound ch hch
    · rw [mem_singleton.mp hch]
      refine ⟨Nat.zero_le _, fun s hs => ?_⟩
      rw [mem_singleton.mp hs]
      simpa [stop] using hcap.2

theorem Neat.alloc (hs : a.Neat) (h : a.alloc n = some (a', addr))
    (hpos : 0 < alignedOffset n a.alignment) (hn : alignedOffset n a.alignment ≤ sizeMax / 2) :
    a'.Neat := by
  rcases alloc_cases h hn with ⟨c, i, ch, b, h1, h2, h3, he⟩ | ⟨ch, b, h1, h2, -, h3, he⟩
  · rw [(Prod.mk.inj he).1]
    exact hs.carve h1 h2 h3
  · rw [(Prod.mk.inj he).1]
    exact (hs.newChunk hpos hn).carve h1 h2 h3

theorem Merged_stop {blocks blocks' : List Span} {offset : Nat}
    (h : Merged blocks offset size blocks') (hm : ∀ x ∈ blocks, x.stop ≤ m)
    (hf : offset + size ≤ m) : ∀ x ∈ blocks', x.stop ≤ m := by
  intro x hx
  cases h with
  | @grow pre post b hsplit hstop hnext =>
    simp only [mem_append, mem_cons] at hx
    rcases hx with hx | rfl | hx
    · exact hm x (by simp [hsplit, hx])
    · simp only [stop] at hstop ⊢
      omega
    · exact hm x (by simp [hsplit, hx])
  | @bridge pre post b next hsplit hstop hnext =>
    have hlast := hm next (by simp [hsplit])
    simp only [mem_append, mem_cons] at hx
    rcases hx with hx | rfl | hx
    · exact hm x (by simp [hsplit, hx])
    · simp only [stop] at hstop hlast ⊢
      omega
    · exact hm x (by simp [hsplit, hx])
  | @extend pre post b hsplit hstart hpre =>
    have hb := hm b (by simp [hsplit])
    simp only [mem_append, mem_cons] at hx
    rcases hx with hx | rfl | hx
    · exact hm x (by simp [hsplit, hx])
    · simp only [stop] at hb ⊢
      omega
    · exact hm x (by simp [hsplit, hx])
  | insert hstop hstart =>
    simp only [mem_append, mem_cons] at hx
    rcases hx with hx | rfl | hx
    · exact hm x ((takeWhile_sublist _).subset hx)
    · exact hf
    · exact hm x ((dropWhile_sublist _).subset hx)

theorem Neat.freeBytes (hs : a.Neat) (h : a.freeBytes addr n = some a')
    (hpos : 0 < alignedOffset n a.alignment)
    (hd : Disjoint (a.freeSet addr.chunk) (Span.mk addr.offset (alignedOffset n a.alignment)).bytes)
    (hb : addr.offset + alignedOffset n a.alignment ≤ a.maxSize addr.chunk) : a'.Neat := by
  simp only [Talloc.freeBytes] at h
  cases hc : a.chunks[addr.chunk]? with
  | none => rw [hc] at h; cases h
  | some ch =>
    rw [hc] at h
    obtain ⟨bs, hbs, h⟩ := Option.bind_eq_some_iff.mp h
    obtain rfl := Option.some.inj h
    have hmem : ch ∈ a.chunks := mem_of_getElem? hc
    have hmerged := freeBlocks_merged hbs
    have hfree : a.freeSet addr.chunk = cover ch.free := by simp only [freeSet, hc]
    have hmax : a.maxSize addr.chunk = ch.maxSize := by simp only [maxSize, hc]
    have hbound := hs.bound ch hmem
    rw [hfree] at hd
    refine ⟨fun x hx => ?_, fun x hx => ?_, hs.maxChunk⟩
    · rcases mem_or_eq_of_mem_set hx with hx | rfl
      · exact hs.tidy x hx
      · exact hmerged.tidy (hs.tidy ch hmem) hpos hd
    · rcases mem_or_eq_of_mem_set hx with hx | rfl
      · exact hs.bound x hx
      · exact ⟨hbound.1, Merged_stop hmerged hbound.2 (by omega)⟩

end Talloc

/-- A range of a chunk that is in use. -/
structure Live where
  chunk : Nat
  /-- Its addresses. -/
  span : Span
  deriving DecidableEq, Repr

/-- Two ranges do not meet. -/
def Live.Apart (r r' : Live) : Prop := r.chunk = r'.chunk → Disjoint r.span.bytes r'.span.bytes

/-- The ranges are in use: they meet neither each other nor a free block. -/
structure Held (a : Talloc) (live : List Live) : Prop where
  chunk : ∀ r ∈ live, r.chunk < a.chunks.length
  used : ∀ r ∈ live, Disjoint (a.freeSet r.chunk) r.span.bytes
  below : ∀ r ∈ live, r.span.stop ≤ a.maxSize r.chunk
  apart : live.Pairwise Live.Apart

variable {a : Talloc} {live : List Live}

/-- An allocated range joins those in use. -/
theorem Held.alloc {a' : Talloc} {addr : Addr} {size : Nat} (h : Held a live)
    (hal : Talloc.Allocated a a' addr size) :
    Held a' ({ chunk := addr.chunk, span := { offset := addr.offset, size := size } } :: live) where
  chunk r hr := by
    rcases mem_cons.mp hr with rfl | hr
    · exact hal.chunk
    · exact lt_of_lt_of_le (h.chunk r hr) hal.length
  used r hr := by
    rcases mem_cons.mp hr with rfl | hr
    · exact hal.apart
    · exact (h.used r hr).mono_left (hal.free _ (h.chunk r hr))
  below r hr := by
    rcases mem_cons.mp hr with rfl | hr
    · exact hal.below
    · exact (h.below r hr).trans (hal.mono _)
  apart := by
    refine pairwise_cons.mpr ⟨fun r hr he => ?_, h.apart⟩
    simp only at he
    have hc := h.chunk r hr
    rw [← he] at hc
    have := h.used r hr
    rw [← he] at this
    exact this.mono_left (hal.fresh hc)

/-- A range in use gives a suffix back and keeps the rest, if any. -/
theorem Held.free {a a' : Talloc} {pre post : List Live} {r : Live} {k : Nat}
    (h : Held a (pre ++ r :: post)) (hk : k ≤ r.span.size)
    (hfr : Talloc.Freed a a' { chunk := r.chunk, offset := r.span.offset + k } (r.span.size - k)) :
    Held a' (pre ++ { r with span := { r.span with size := k } } :: post) := by
  have hrest : ∀ x ∈ pre ++ post, x ∈ pre ++ r :: post := fun x hx => by
    simp only [mem_append, mem_cons] at hx ⊢
    tauto
  have hr : r ∈ pre ++ r :: post := by simp
  have hcases : ∀ x ∈ pre ++ { r with span := { r.span with size := k } } :: post,
      x = { r with span := { r.span with size := k } } ∨ x ∈ pre ++ post := fun x hx => by
    simp only [mem_append, mem_cons] at hx ⊢
    tauto
  have hpre : (Span.mk r.span.offset k).bytes ⊆ r.span.bytes := bytes_prefix_subset hk
  have hsuf : (Span.mk (r.span.offset + k) (r.span.size - k)).bytes ⊆ r.span.bytes := by
    rw [bytes_carve hk]
    exact Set.sdiff_subset
  have hpw := pairwise_append.mp h.apart
  have hpw2 := pairwise_cons.mp hpw.2.1
  have hother : ∀ x ∈ pre ++ post, Live.Apart r x ∧ Live.Apart x r := by
    intro x hx
    rcases mem_append.mp hx with hx | hx
    · have := hpw.2.2 x hx r mem_cons_self
      exact ⟨fun he => (this he.symm).symm, this⟩
    · have := hpw2.1 x hx
      exact ⟨this, fun he => (this he.symm).symm⟩
  refine ⟨fun x hx => ?_, fun x hx => ?_, fun x hx => ?_, ?_⟩
  · rw [hfr.length]
    rcases hcases x hx with rfl | hx
    · exact h.chunk r hr
    · exact h.chunk x (hrest x hx)
  · rcases hcases x hx with rfl | hx
    · simp only [hfr.free]
      refine Set.disjoint_union_left.mpr ⟨(h.used r hr).mono_right hpre, ?_⟩
      rw [bytes_carve hk]
      exact Set.disjoint_sdiff_left
    · by_cases he : x.chunk = r.chunk
      · rw [he]
        simp only [hfr.free]
        refine Set.disjoint_union_left.mpr ⟨?_, ?_⟩
        · have := h.used x (hrest x hx)
          rwa [he] at this
        · exact ((hother x hx).1 he.symm).mono_left hsuf
      · rw [hfr.other _ he]
        exact h.used x (hrest x hx)
  · rw [hfr.marks]
    rcases hcases x hx with rfl | hx
    · have := h.below r hr
      simp only [stop] at this ⊢
      omega
    · exact h.below x (hrest x hx)
  · refine pairwise_append.mpr ⟨hpw.1, pairwise_cons.mpr ⟨fun x hx he => ?_, hpw2.2⟩,
      fun x hx y hy he => ?_⟩
    · exact ((hother x (mem_append_right _ hx)).1 he).mono_left hpre
    · rcases mem_cons.mp hy with rfl | hy
      · exact ((hother x (mem_append_left _ hx)).2 he).mono_right hpre
      · exact hpw.2.2 x hx y (mem_cons_of_mem r hy) he

/-- A range that is not in use any more can be forgotten. -/
theorem Held.drop {pre post : List Live} {r : Live} (h : Held a (pre ++ r :: post)) :
    Held a (pre ++ post) := by
  have hrest : ∀ x ∈ pre ++ post, x ∈ pre ++ r :: post := fun x hx => by
    simp only [mem_append, mem_cons] at hx ⊢
    tauto
  exact ⟨fun x hx => h.chunk x (hrest x hx), fun x hx => h.used x (hrest x hx),
    fun x hx => h.below x (hrest x hx), h.apart.sublist (by simp)⟩

/-- An allocator with the ranges in use. -/
structure State where
  /-- The allocator. -/
  alloc : Talloc
  /-- The ranges in use. -/
  live : List Live

/-- One call: an allocation of a positive size, or freeing a live range or an aligned suffix
of one. The total of the live sizes stays below `SIZE_MAX/2`. -/
inductive Step : State → State → Prop
  | alloc {a a' : Talloc} {live : List Live} {n : Nat} {addr : Addr} (hn : 0 < n)
      (htotal : (live.map (·.span.size)).sum + alignedOffset n a.alignment < sizeMax / 2)
      (h : a.alloc n = some (a', addr)) :
      Step ⟨a, live⟩ ⟨a', { chunk := addr.chunk
                            span := { offset := addr.offset
                                      size := alignedOffset n a.alignment } } :: live⟩
  | free {a a' : Talloc} {pre post : List Live} {r : Live} {k n : Nat} (hk : a.alignment ∣ k)
      (hlt : k < r.span.size) (hn : alignedOffset n a.alignment = r.span.size - k)
      (h : a.freeBytes { chunk := r.chunk, offset := r.span.offset + k } n = some a') :
      Step ⟨a, pre ++ r :: post⟩ ⟨a', pre ++ (if k = 0 then []
        else [{ r with span := { r.span with size := k } }]) ++ post⟩

/-- The guarantees of the allocator in one state. -/
structure Safe (s : State) : Prop where
  /-- In every chunk the free blocks are sorted, disjoint, non-empty and coalesced. -/
  tidy : ∀ ch ∈ s.alloc.chunks, Tidy ch.free
  free : ∀ (c : Nat) (ch : Chunk), s.alloc.chunks[c]? = some ch → ∀ b ∈ ch.free,
    ∀ r ∈ s.live, r.chunk = c → Disjoint b.bytes r.span.bytes
  apart : s.live.Pairwise Live.Apart
  below : ∀ r ∈ s.live, ∃ ch, s.alloc.chunks[r.chunk]? = some ch ∧ r.span.stop ≤ ch.maxSize

theorem safe_of_held (ha : a.Neat) (h : Held a live) : Safe ⟨a, live⟩ where
  tidy := ha.tidy
  free c ch hc b hb r hr he := by
    have := h.used r hr
    rw [he] at this
    simp only [Talloc.freeSet, hc] at this
    exact this.mono_left (bytes_subset_cover hb)
  apart := h.apart
  below r hr := by
    have hlt := h.chunk r hr
    have := h.below r hr
    simp only [Talloc.maxSize, getElem?_eq_getElem hlt] at this
    exact ⟨_, getElem?_eq_getElem hlt, this⟩

theorem le_alignedOffset (n k : Nat) : n ≤ alignedOffset n k := Nat.le_add_right _ _

theorem Step.inv {s s' : State} (h : Step s s') (ha : s.alloc.Neat) (hl : Held s.alloc s.live) :
    s'.alloc.Neat ∧ Held s'.alloc s'.live := by
  cases h with
  | @alloc a a' live n addr hn htotal h =>
    have hle : alignedOffset n a.alignment ≤ sizeMax / 2 := by omega
    have hpos : 0 < alignedOffset n a.alignment := lt_of_lt_of_le hn (le_alignedOffset n _)
    exact ⟨ha.alloc h hpos hle, hl.alloc (Talloc.alloc_allocated ha.sound h hle)⟩
  | @free a a' pre post r k n hk hlt hn h =>
    have hr : r ∈ pre ++ r :: post := by simp
    have hbelow := hl.below r hr
    simp only [stop] at hbelow
    have hsuf : (Span.mk (r.span.offset + k) (r.span.size - k)).bytes ⊆ r.span.bytes := by
      rw [bytes_carve hlt.le]
      exact Set.sdiff_subset
    have hd : Disjoint (a.freeSet r.chunk)
        (Span.mk (r.span.offset + k) (alignedOffset n a.alignment)).bytes := by
      rw [hn]
      exact (hl.used r hr).mono_right hsuf
    have hfr := Talloc.freeBytes_freed ha.sound h hd
    rw [hn] at hfr
    refine ⟨ha.freeBytes h (by rw [hn]; omega) hd (by rw [hn]; simp only; omega), ?_⟩
    have hheld := hl.free hlt.le hfr
    by_cases h0 : k = 0
    · simp only [h0, if_true, append_nil]
      exact hheld.drop
    · simpa [h0] using hheld

theorem new_neat (alignment maxBufferSize : Nat) : (Talloc.new alignment maxBufferSize).Neat :=
  ⟨by simp [Talloc.new], by simp [Talloc.new], min_le_right _ _⟩

/-- Along every run of the allocator the free blocks are tidy, and live ranges meet neither each
other nor a free block and stay below the marks. -/
theorem talloc_run_safe (alignment maxBufferSize : Nat) (s : State)
    (h : Relation.ReflTransGen Step ⟨Talloc.new alignment maxBufferSize, []⟩ s) : Safe s := by
  have hinv : s.alloc.Neat ∧ Held s.alloc s.live := by
    induction h with
    | refl => exact ⟨new_neat _ _, by simp, by simp, by simp, List.Pairwise.nil⟩
    | tail _ hstep ih => exact hstep.inv ih.1 ih.2
  exact safe_of_held hinv.1 hinv.2

/-- An allocator that served two requests of 40 bytes at alignment 32. -/
def twoTensors : Talloc :=
  { alignment := 32
    maxChunkSize := 1024
    chunks := [{ free := [{ offset := 128, size := 896 }], maxSize := 128 }] }

/-- The first tensor, cut to its first 32 bytes, with the second. -/
def cutTensor : List Live :=
  [{ chunk := 0, span := { offset := 64, size := 64 } },
    { chunk := 0, span := { offset := 0, size := 32 } }]

/-- A tensor is allocated in a new allocator. -/
theorem step_tensor : Step ⟨Talloc.new 32 1024, []⟩
    ⟨{ twoTensors with chunks := [{ free := [{ offset := 64, size := 960 }], maxSize := 64 }] },
      [{ chunk := 0, span := { offset := 0, size := 64 } }]⟩ :=
  @Step.alloc _ _ _ 40 { chunk := 0, offset := 0 } (by decide) (by decide) rfl

/-- Two tensors are allocated and the second half of the first is given back. -/
theorem talloc_run_safe_cut :
    Safe ⟨{ twoTensors with
        chunks := [{ free := [{ offset := 32, size := 32 }, { offset := 128, size := 896 }]
                     maxSize := 128 }] }, cutTensor⟩ := by
  have h2 : Step
      ⟨{ twoTensors with chunks := [{ free := [{ offset := 64, size := 960 }], maxSize := 64 }] },
        [{ chunk := 0, span := { offset := 0, size := 64 } }]⟩
      ⟨twoTensors, [{ chunk := 0, span := { offset := 64, size := 64 } },
        { chunk := 0, span := { offset := 0, size := 64 } }]⟩ :=
    @Step.alloc _ _ _ 40 { chunk := 0, offset := 64 } (by decide) (by decide) rfl
  have h3 := @Step.free twoTensors _ [{ chunk := 0, span := { offset := 64, size := 64 } }] []
    { chunk := 0, span := { offset := 0, size := 64 } } 32 20 (by decide) (by decide)
    (by decide) rfl
  exact talloc_run_safe 32 1024 _ (((Relation.ReflTransGen.single step_tensor).tail h2).tail h3)

variable {ch : Chunk} {b : Span} {s s' : State} {c d i size : Nat}

/-- The addresses of a chunk that are free or in use. -/
def State.space (s : State) (c : Nat) : Set Nat :=
  s.alloc.freeSet c ∪ {p | ∃ r ∈ s.live, r.chunk = c ∧ p ∈ r.span.bytes}

/-- Every chunk consists of what is free and what is in use, and is as large as the allocator
makes chunks. -/
def State.Whole (s : State) : Prop :=
  ∀ c < s.alloc.chunks.length, ∃ n, 0 < n ∧ s.alloc.maxChunkSize ≤ n ∧ s.space c = Set.Iio n

/-- Carving a block moves addresses from one side to the other. -/
theorem State.Whole.carve {a' : Talloc} {addr : Addr} (h : State.Whole ⟨a, live⟩) (hs : a.Sound)
    (hc : a.chunks[c]? = some ch) (hb : ch.free[i]? = some b) (hsize : size ≤ b.size)
    (he : (a', addr) = a.carve c i size) :
    State.Whole ⟨a', { chunk := addr.chunk, span := ⟨addr.offset, size⟩ } :: live⟩ := by
  obtain ⟨hclt, hcget⟩ := List.getElem?_eq_some_iff.mp hc
  obtain ⟨hoff, -, -⟩ := carve_cases hb hsize
  obtain ⟨-, hcov⟩ := carve_cover hb hsize (hs ch (hcget ▸ getElem_mem hclt))
  have hfree : a.freeSet c = cover ch.free := by simp only [Talloc.freeSet, hc]
  have hsub : (Span.mk b.offset size).bytes ⊆ cover ch.free :=
    (bytes_prefix_subset hsize).trans (bytes_subset_cover (mem_of_getElem? hb))
  rw [Talloc.carve_eq hc, hoff] at he
  obtain ⟨rfl, rfl⟩ := Prod.mk.inj he
  intro d hd
  obtain ⟨n, hn, hle, hspace⟩ := h d (by simpa using hd)
  refine ⟨n, hn, hle, hspace ▸ ?_⟩
  simp only [State.space, Talloc.freeSet_set hclt, hcov]
  ext p
  have hp := @hsub p
  by_cases hdc : d = c
  · subst hdc
    simp only [if_true, hfree, Set.mem_union, Set.mem_sdiff, Set.mem_ofPred_eq, mem_cons,
      exists_eq_or_imp, true_and]
    tauto
  · simp only [if_neg hdc, Set.mem_union, Set.mem_ofPred_eq, mem_cons, exists_eq_or_imp,
      Ne.symm hdc, false_and, false_or]

/-- A new chunk is free. -/
theorem State.Whole.newChunk (h : State.Whole ⟨a, live⟩) (ha : a.Neat) (hl : Held a live)
    {minSize : Nat} (hm : 0 < minSize) : State.Whole ⟨a.newChunk minSize, live⟩ := by
  intro d hd
  rw [Talloc.newChunk, length_append, length_singleton] at hd
  by_cases hlt : d < a.chunks.length
  · obtain ⟨n, hn, hle, hspace⟩ := h d hlt
    refine ⟨n, hn, hle, ?_⟩
    rwa [State.space, Talloc.freeSet, a.newChunk_old minSize hlt]
  · obtain rfl : d = a.chunks.length := by omega
    have hnone : {p | ∃ r ∈ live, r.chunk = a.chunks.length ∧ p ∈ r.span.bytes} = ∅ := by
      refine Set.eq_empty_of_forall_notMem ?_
      rintro p ⟨r, hr, he, -⟩
      exact absurd (hl.chunk r hr) (by omega)
    rw [State.space, Talloc.freeSet, a.newChunk_getElem? minSize, hnone, Set.union_empty]
    refine ⟨if a.chunks.length = maxChunks - 1 then sizeMax / 2 else max minSize a.maxChunkSize,
      ?_, ?_, ?_⟩
    · have : 0 < sizeMax / 2 := by decide
      split <;> omega
    · have := ha.maxChunk
      simp only [Talloc.newChunk]
      split <;> omega
    · ext p
      simp [mem_bytes]

/-- A range that is given back leaves its chunk whole. -/
theorem State.Whole.free {a' : Talloc} {pre post : List Live} {r : Live} {k : Nat}
    (h : State.Whole ⟨a, pre ++ r :: post⟩) (hk : k ≤ r.span.size)
    (hfr : Talloc.Freed a a' { chunk := r.chunk, offset := r.span.offset + k } (r.span.size - k))
    (hmax : a'.maxChunkSize = a.maxChunkSize) :
    State.Whole ⟨a', pre ++ (if k = 0 then []
      else [{ r with span := { r.span with size := k } }]) ++ post⟩ := by
  intro c hc
  rw [hfr.length] at hc
  obtain ⟨n, hn, hle, hspace⟩ := h c hc
  refine ⟨n, hn, hmax ▸ hle, hspace ▸ ?_⟩
  ext p
  have hkept : (∃ x ∈ (if k = 0 then [] else [{ r with span := { r.span with size := k } }]),
      x.chunk = c ∧ p ∈ x.span.bytes) ↔
      r.chunk = c ∧ r.span.offset ≤ p ∧ p < r.span.offset + k := by
    by_cases h0 : k = 0
    · simp only [h0, if_true, not_mem_nil, false_and, exists_false, false_iff]
      omega
    · simp [h0, mem_bytes]
  have hsplit : p ∈ r.span.bytes ↔ (r.span.offset ≤ p ∧ p < r.span.offset + k) ∨
      p ∈ (Span.mk (r.span.offset + k) (r.span.size - k)).bytes := by
    simp only [mem_bytes]
    omega
  simp only [State.space, Set.mem_union, Set.mem_ofPred_eq, mem_append, or_and_right, exists_or,
    hkept, mem_cons, exists_eq_left, hsplit]
  generalize (∃ x, x ∈ pre ∧ x.chunk = c ∧ p ∈ x.span.bytes) = inPre
  generalize (∃ x, x ∈ post ∧ x.chunk = c ∧ p ∈ x.span.bytes) = inPost
  by_cases hrc : r.chunk = c
  · subst hrc
    rw [hfr.free, Set.mem_union]
    generalize (r.span.offset ≤ p ∧ p < r.span.offset + k) = inKept
    simp only [true_and, or_assoc, or_left_comm, or_comm]
  · rw [hfr.other c (Ne.symm hrc)]
    simp only [hrc, false_and, false_or, or_false]

theorem Talloc.freeBytes_maxChunkSize {a' : Talloc} {addr : Addr} {n : Nat}
    (h : a.freeBytes addr n = some a') : a'.maxChunkSize = a.maxChunkSize := by
  simp only [Talloc.freeBytes] at h
  cases hc : a.chunks[addr.chunk]? with
  | none => rw [hc] at h; cases h
  | some ch =>
    rw [hc] at h
    obtain ⟨bs, -, h⟩ := Option.bind_eq_some_iff.mp h
    exact (Option.some.inj h) ▸ rfl

theorem Talloc.alloc_maxChunkSize {a' : Talloc} {addr : Addr} {n : Nat}
    (h : a.alloc n = some (a', addr)) (hn : alignedOffset n a.alignment ≤ sizeMax / 2) :
    a'.maxChunkSize = a.maxChunkSize := by
  rcases Talloc.alloc_cases h hn with ⟨c, i, ch, b, h1, -, -, he⟩ | ⟨ch, b, h1, -, -, -, he⟩
  · rw [Talloc.carve_eq h1] at he
    exact (Prod.mk.inj he).1 ▸ rfl
  · rw [Talloc.carve_eq h1] at he
    exact (Prod.mk.inj he).1 ▸ rfl

theorem Step.maxChunkSize_eq (h : Step s s') : s'.alloc.maxChunkSize = s.alloc.maxChunkSize := by
  cases h with
  | alloc hn htotal h => exact Talloc.alloc_maxChunkSize h (Nat.le_of_add_left_le htotal.le)
  | free hk hlt hn h => exact Talloc.freeBytes_maxChunkSize h

/-- A step keeps every chunk whole. -/
theorem Step.whole (h : Step s s') (ha : s.alloc.Neat) (hl : Held s.alloc s.live) (hw : s.Whole) :
    s'.Whole := by
  cases h with
  | @alloc a a' live n addr hn htotal h =>
    have hle : alignedOffset n a.alignment ≤ sizeMax / 2 := by omega
    have hpos := lt_of_lt_of_le hn (le_alignedOffset n a.alignment)
    rcases Talloc.alloc_cases h hle with ⟨c, i, ch, b, h1, h2, h3, he⟩ | ⟨ch, b, h1, h2, -, h3, he⟩
    · exact hw.carve ha.sound h1 h2 h3 he
    · exact (hw.newChunk ha hl hpos).carve (Talloc.newChunk_sound ha.sound _) h1 h2 h3 he
  | @free a a' pre post r k n hk hlt hn h =>
    have hsuf : (Span.mk (r.span.offset + k) (r.span.size - k)).bytes ⊆ r.span.bytes := by
      rw [bytes_carve hlt.le]
      exact Set.sdiff_subset
    have hfr := Talloc.freeBytes_freed ha.sound h (hn ▸ (hl.used r (by simp)).mono_right hsuf)
    rw [hn] at hfr
    exact hw.free hlt.le hfr (Talloc.freeBytes_maxChunkSize h)

/-- Along every run a chunk without live ranges is one free block again, whatever was allocated
and given back. -/
theorem talloc_run_coalesced (alignment maxBufferSize : Nat) {s : State}
    (h : Relation.ReflTransGen Step ⟨Talloc.new alignment maxBufferSize, []⟩ s)
    (hc : s.alloc.chunks[c]? = some ch) (hidle : ∀ r ∈ s.live, r.chunk ≠ c) :
    ∃ n, 0 < n ∧ (Talloc.new alignment maxBufferSize).maxChunkSize ≤ n ∧
      ch.free = [{ offset := 0, size := n }] := by
  have hinv : s.alloc.Neat ∧ Held s.alloc s.live ∧ s.Whole ∧
      s.alloc.maxChunkSize = (Talloc.new alignment maxBufferSize).maxChunkSize := by
    clear hc hidle
    induction h with
    | refl =>
      refine ⟨new_neat _ _, ⟨by simp, by simp, by simp, .nil⟩, fun c hc => ?_, rfl⟩
      exact absurd hc (Nat.not_lt_zero c)
    | tail _ hstep ih =>
      obtain ⟨hn, hh, hw, hm⟩ := ih
      exact ⟨(hstep.inv hn hh).1, (hstep.inv hn hh).2, hstep.whole hn hh hw,
        hstep.maxChunkSize_eq.trans hm⟩
  obtain ⟨hneat, -, hwhole, hmax⟩ := hinv
  obtain ⟨hclt, hcget⟩ := List.getElem?_eq_some_iff.mp hc
  obtain ⟨n, hn, hle, hspace⟩ := hwhole c hclt
  have hnone : {p | ∃ r ∈ s.live, r.chunk = c ∧ p ∈ r.span.bytes} = ∅ := by
    refine Set.eq_empty_of_forall_notMem ?_
    rintro p ⟨r, hr, he, -⟩
    exact hidle r hr he
  rw [State.space, hnone, Set.union_empty, Talloc.freeSet, hc] at hspace
  exact ⟨n, hn, hmax ▸ hle, (hneat.tidy ch (hcget ▸ getElem_mem hclt)).eq_singleton hn hspace⟩

/-- A tensor is allocated and given back. -/
theorem talloc_run_coalesced_tensor :
    ∃ n, 0 < n ∧ 1024 ≤ n ∧ [Span.mk 0 1024] = [{ offset := 0, size := n }] := by
  have h2 : Step
      ⟨{ twoTensors with chunks := [{ free := [{ offset := 64, size := 960 }], maxSize := 64 }] },
        [{ chunk := 0, span := { offset := 0, size := 64 } }]⟩
      ⟨{ twoTensors with chunks := [{ free := [{ offset := 0, size := 1024 }], maxSize := 64 }] },
        []⟩ :=
    @Step.free _ _ [] [] { chunk := 0, span := { offset := 0, size := 64 } } 0 40 (by decide)
      (by decide) (by decide) rfl
  exact @talloc_run_coalesced { free := [{ offset := 0, size := 1024 }], maxSize := 64 } 0 32 1024 _
    ((Relation.ReflTransGen.single step_tensor).tail h2) rfl (by simp)

end Llama.Alloc
