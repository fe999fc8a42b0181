import Llama.Alloc.Graph
import Llama.Alloc.TallocRun

/-!
# Memory of the graph allocator

The ranges of the tensors that the allocator owns meet neither each other nor a free block,
whichever tensors are allocated, freed or take over the range of another tensor.
-/

namespace Llama.Alloc

open Llama.Span List Option Function

variable {k m n : Nat}

theorem dvd_alignedOffset (n : Nat) (hk : 0 < k) : k ∣ alignedOffset n k := by
  have hlt := Nat.mod_lt n hk
  apply Nat.dvd_of_mod_eq_zero
  rw [alignedOffset]
  rcases Nat.eq_zero_or_pos (n % k) with h0 | hpos
  · simp [h0]
  · rw [Nat.mod_eq_of_lt (by omega : k - n % k < k), Nat.add_mod,
      Nat.mod_eq_of_lt (by omega : k - n % k < k),
      Nat.add_sub_cancel' hlt.le, Nat.mod_self]

theorem alignedOffset_lt (n : Nat) (hk : 0 < k) : alignedOffset n k < n + k := by
  have := Nat.mod_lt (k - n % k) hk
  rw [alignedOffset]
  omega

theorem alignedOffset_le (hk : 0 < k) (hm : k ∣ m) (h : n ≤ m) : alignedOffset n k ≤ m := by
  by_contra hlt
  have h1 := Nat.le_of_dvd (by omega) (Nat.dvd_sub (dvd_alignedOffset n hk) hm)
  have h2 := alignedOffset_lt n hk
  omega

theorem alignedOffset_zero (n : Nat) : alignedOffset n 0 = n := by simp [alignedOffset]

theorem alignedOffset_mono (h : n ≤ m) : alignedOffset n k ≤ alignedOffset m k := by
  rcases Nat.eq_zero_or_pos k with rfl | hk
  · rwa [alignedOffset_zero, alignedOffset_zero]
  · exact alignedOffset_le hk (dvd_alignedOffset m hk) (h.trans (le_alignedOffset m k))

/-- A difference of aligned sizes is aligned. -/
theorem alignedOffset_sub (n m k : Nat) :
    alignedOffset (alignedOffset n k - alignedOffset m k) k =
      alignedOffset n k - alignedOffset m k := by
  rcases Nat.eq_zero_or_pos k with rfl | hk
  · rw [alignedOffset_zero]
  · apply le_antisymm
    · exact alignedOffset_le hk
        (Nat.dvd_sub (dvd_alignedOffset n hk) (dvd_alignedOffset m hk)) (le_refl _)
    · exact le_alignedOffset _ _

/-- The allocator may own the tensor: it has no data of its own and is not a view. -/
def Graph.Ownable (g : Graph) (t : Nat) : Prop :=
  (g.tensor t).data = none ∧ (g.tensor t).buffer = false ∧ (g.tensor t).viewSrc = none

instance (g : Graph) (t : Nat) : Decidable (g.Ownable t) := instDecidableAnd

/-- A buffer and an address in it. -/
abbrev Place := Nat × Addr

/-- Addresses of a tensor that starts at a place. -/
def Buffers.span (B : Buffers) (g : Graph) (t : Nat) (p : Place) : Span where
  offset := p.2.offset
  size := alignedOffset (B.allocSize (B.buft p.1) (g.tensor t)) (B.alignment (B.buft p.1))

/-- Two places lie in the same chunk of a buffer. -/
def Buffers.SameChunk (B : Buffers) (p q : Place) : Prop :=
  B.buft p.1 = B.buft q.1 ∧ p.2.chunk = q.2.chunk

/-- The tensors at their places meet neither each other nor a free block. -/
structure Mem (B : Buffers) (g : Graph) (ta : Nat → Talloc) (pl : Nat → Option Place) :
    Prop where
  /-- The blocks of every allocator are separate. -/
  sound : ∀ b, (ta b).Sound
  /-- The alignment of the type. -/
  alignment : ∀ b, (ta b).alignment = B.alignment b
  /-- Only tensors without data of their own have a place. -/
  ownable : ∀ t p, pl t = some p → g.Ownable t
  /-- The chunks exist. -/
  chunk : ∀ t p, pl t = some p → p.2.chunk < (ta (B.buft p.1)).chunks.length
  /-- No address of a tensor is free. -/
  used : ∀ t p, pl t = some p → Disjoint ((ta (B.buft p.1)).freeSet p.2.chunk) (B.span g t p).bytes
  /-- The tensors are pairwise disjoint. -/
  apart : ∀ t u p q, t ≠ u → pl t = some p → pl u = some q → B.SameChunk p q →
    Disjoint (B.span g t p).bytes (B.span g u q).bytes

/-- Sizes for which `size_t` arithmetic is exact. -/
def Buffers.Exact (B : Buffers) (g : Graph) : Prop :=
  ∀ b t, alignedOffset (B.allocSize b (g.tensor t)) (B.alignment b) ≤ sizeMax / 2

variable {B : Buffers} {g : Graph} {ta : Nat → Talloc} {pl : Nat → Option Place}

theorem Buffers.SameChunk.symm {p q : Place} (h : B.SameChunk p q) : B.SameChunk q p :=
  ⟨h.1.symm, h.2.symm⟩

theorem Mem.alloc (h : Mem B g ta pl) (hx : B.Exact g) {id : Nat} {a : Talloc} {addr : Addr}
    (hn : g.Ownable n)
    (ha : (ta (B.buft id)).alloc (B.allocSize (B.buft id) (g.tensor n)) = some (a, addr)) :
    Mem B g (update ta (B.buft id) a) (update pl n (some (id, addr))) := by
  have hal := Talloc.alloc_allocated (h.sound (B.buft id)) ha
    (by rw [h.alignment]; exact hx (B.buft id) n)
  rw [h.alignment] at hal
  have hcase : ∀ t p, update pl n (some (id, addr)) t = some p →
      (t = n ∧ p = (id, addr)) ∨ (t ≠ n ∧ pl t = some p) := by
    intro t p hp
    by_cases ht : t = n
    · subst ht
      rw [update_self] at hp
      exact .inl ⟨rfl, (some.inj hp).symm⟩
    · rw [update_of_ne ht] at hp
      exact .inr ⟨ht, hp⟩
  -- a tensor that was there before is disjoint from the new range
  have hfresh : ∀ t p, pl t = some p → B.SameChunk p (id, addr) →
      Disjoint (B.span g t p).bytes (B.span g n (id, addr)).bytes := by
    intro t p hp hsame
    have hc := h.chunk t p hp
    have hu := h.used t p hp
    rw [hsame.1, hsame.2] at hc hu
    exact (hu.mono_left (hal.fresh hc)).symm
  refine ⟨fun b => ?_, fun b => ?_, fun t p hp => ?_, fun t p hp => ?_, fun t p hp => ?_,
    fun t u p q htu hp hq hsame => ?_⟩
  · by_cases hb : b = B.buft id
    · subst hb
      rw [update_self]
      exact hal.sound
    · rw [update_of_ne hb]
      exact h.sound b
  · by_cases hb : b = B.buft id
    · subst hb
      rw [update_self, hal.alignment]
      exact h.alignment _
    · rw [update_of_ne hb]
      exact h.alignment b
  · rcases hcase t p hp with ⟨rfl, -⟩ | ⟨-, hp⟩
    · exact hn
    · exact h.ownable t p hp
  · rcases hcase t p hp with ⟨rfl, rfl⟩ | ⟨-, hp⟩
    · rw [update_self]
      exact hal.chunk
    · by_cases hb : B.buft p.1 = B.buft id
      · have hc := h.chunk t p hp
        rw [hb] at hc ⊢
        rw [update_self]
        exact hc.trans_le hal.length
      · rw [update_of_ne hb]
        exact h.chunk t p hp
  · rcases hcase t p hp with ⟨rfl, rfl⟩ | ⟨-, hp⟩
    · rw [update_self]
      exact hal.apart
    · by_cases hb : B.buft p.1 = B.buft id
      · have hc := h.chunk t p hp
        have hu := h.used t p hp
        rw [hb] at hc hu ⊢
        rw [update_self]
        exact hu.mono_left (hal.free _ hc)
      · rw [update_of_ne hb]
        exact h.used t p hp
  · rcases hcase t p hp with ⟨rfl, rfl⟩ | ⟨-, hp'⟩
    · rcases hcase u q hq with ⟨rfl, -⟩ | ⟨-, hq'⟩
      · exact (htu rfl).elim
      · exact (hfresh u q hq' hsame.symm).symm
    · rcases hcase u q hq with ⟨rfl, rfl⟩ | ⟨-, hq'⟩
      · exact hfresh t p hp' hsame
      · exact h.apart t u p q htu hp' hq' hsame

/-- A tensor gives its place to another that is not larger. -/
theorem Mem.handOver (h : Mem B g ta pl) {p : Nat} {q : Place} (hn : g.Ownable n)
    (hp : pl p = some q) (hle : (B.span g n q).size ≤ (B.span g p q).size) :
    Mem B g ta (update (update pl p none) n (some q)) := by
  have hcase : ∀ t r, update (update pl p none) n (some q) t = some r →
      (t = n ∧ r = q) ∨ (t ≠ n ∧ t ≠ p ∧ pl t = some r) := by
    intro t r hr
    by_cases ht : t = n
    · subst ht
      rw [update_self] at hr
      exact .inl ⟨rfl, (some.inj hr).symm⟩
    · rw [update_of_ne ht] at hr
      by_cases htp : t = p
      · subst htp
        rw [update_self] at hr
        cases hr
      · rw [update_of_ne htp] at hr
        exact .inr ⟨ht, htp, hr⟩
  have hsub : (B.span g n q).bytes ⊆ (B.span g p q).bytes :=
    @bytes_prefix_subset (B.span g p q) _ hle
  refine ⟨h.sound, h.alignment, fun t r hr => ?_, fun t r hr => ?_, fun t r hr => ?_,
    fun t u r v htu hr hv hsame => ?_⟩
  · rcases hcase t r hr with ⟨rfl, -⟩ | ⟨-, -, hr⟩
    · exact hn
    · exact h.ownable t r hr
  · rcases hcase t r hr with ⟨rfl, rfl⟩ | ⟨-, -, hr⟩
    · exact h.chunk p r hp
    · exact h.chunk t r hr
  · rcases hcase t r hr with ⟨rfl, rfl⟩ | ⟨-, -, hr⟩
    · exact (h.used p r hp).mono_right hsub
    · exact h.used t r hr
  · rcases hcase t r hr with ⟨rfl, rfl⟩ | ⟨-, htp, hr'⟩
    · rcases hcase u v hv with ⟨rfl, -⟩ | ⟨-, hup, hv'⟩
      · exact (htu rfl).elim
      · exact (h.apart p u r v (Ne.symm hup) hp hv' hsame).mono_left hsub
    · rcases hcase u v hv with ⟨rfl, rfl⟩ | ⟨-, -, hv'⟩
      · exact (h.apart t p r v htp hr' hp hsame).mono_right hsub
      · exact h.apart t u r v htu hr' hv' hsame

/-- Bytes in a chunk that no tensor uses are given back. -/
theorem Mem.free (h : Mem B g ta pl) {b c off size : Nat} {a : Talloc}
    (hd : Disjoint ((ta b).freeSet c) (Span.mk off (alignedOffset size (B.alignment b))).bytes)
    (hu : ∀ t p, pl t = some p → B.buft p.1 = b → p.2.chunk = c →
      Disjoint (Span.mk off (alignedOffset size (B.alignment b))).bytes (B.span g t p).bytes)
    (hf : (ta b).freeBytes ⟨c, off⟩ size = some a) : Mem B g (update ta b a) pl := by
  have hfr := Talloc.freeBytes_freed (h.sound b) hf (by rw [h.alignment]; exact hd)
  rw [h.alignment] at hfr
  refine ⟨fun d => ?_, fun d => ?_, h.ownable, fun t p hp => ?_, fun t p hp => ?_, h.apart⟩
  · by_cases hb : d = b
    · subst hb
      rw [update_self]
      exact hfr.sound
    · rw [update_of_ne hb]
      exact h.sound d
  · by_cases hb : d = b
    · subst hb
      rw [update_self, hfr.alignment]
      exact h.alignment _
    · rw [update_of_ne hb]
      exact h.alignment d
  · have hc := h.chunk t p hp
    by_cases hb : B.buft p.1 = b
    · rw [hb] at hc ⊢
      rwa [update_self, hfr.length]
    · rwa [update_of_ne hb]
  · have hused := h.used t p hp
    by_cases hb : B.buft p.1 = b
    · rw [hb] at hused ⊢
      rw [update_self]
      by_cases hc : p.2.chunk = c
      · rw [hc] at hused ⊢
        rw [hfr.free]
        exact Set.disjoint_union_left.mpr ⟨hused, hu t p hp hb hc⟩
      · rw [hfr.other _ hc]
        exact hused
    · rwa [update_of_ne hb]

namespace Galloc

variable {s s' : Galloc}

/-- Place that was given to a tensor last. -/
def spot (s : Galloc) (t : Nat) : Place := ((s.hash t).bufferId, (s.hash t).addr)

/-- Place of a tensor that the allocator owns. -/
def place (s : Galloc) (t : Nat) : Option Place := if s.isOwn t then some (s.spot t) else none

@[simp] theorem upd_tallocs (s : Galloc) (t : Nat) (f : HashNode → HashNode) :
    (s.upd t f).tallocs = s.tallocs := rfl

@[simp] theorem upd_hash_self (s : Galloc) (t : Nat) (f : HashNode → HashNode) :
    (s.upd t f).hash t = f (s.hash t) := if_pos rfl

variable {t n p id : Nat} {f : HashNode → HashNode} {s₂ : Galloc}

theorem upd_hash_of_ne (s : Galloc) {u : Nat} (f : HashNode → HashNode) (h : u ≠ t) :
    (s.upd t f).hash u = s.hash u := if_neg h

section

variable (s : Galloc) (b : Nat) (a : Talloc)

@[simp] theorem setTalloc_hash : (s.setTalloc b a).hash = s.hash := rfl

theorem setTalloc_tallocs : (s.setTalloc b a).tallocs = update s.tallocs b a := by
  funext c
  by_cases hc : c = b
  · subst hc
    simp [setTalloc]
  · simp [setTalloc, hc]

@[simp] theorem setTalloc_place : (s.setTalloc b a).place = s.place := rfl

end

theorem place_eq_some (h : s.isOwn t = true) : s.place t = some (s.spot t) := if_pos h

theorem isOwn_congr (h : s'.place = s.place) (t : Nat) : s'.isOwn t = s.isOwn t := by
  have ht := congrFun h t
  simp only [place] at ht
  cases h1 : s'.isOwn t <;> cases h2 : s.isOwn t <;> simp [h1, h2] at ht ⊢

/-- Changing the counters does not move a tensor. -/
theorem upd_place_of_keep (s : Galloc) (t : Nat)
    (hf : ∀ h, (f h).allocated = h.allocated ∧ (f h).bufferId = h.bufferId ∧
      (f h).addr = h.addr) : (s.upd t f).place = s.place ∧ (s.upd t f).spot = s.spot := by
  have hhash : ∀ u, ((s.upd t f).hash u).allocated = (s.hash u).allocated ∧
      ((s.upd t f).hash u).bufferId = (s.hash u).bufferId ∧
      ((s.upd t f).hash u).addr = (s.hash u).addr := by
    intro u
    by_cases hu : u = t
    · subst hu
      rw [upd_hash_self]
      exact hf _
    · rw [upd_hash_of_ne s f hu]
      exact ⟨rfl, rfl, rfl⟩
  constructor
  · funext u
    obtain ⟨h1, h2, h3⟩ := hhash u
    rw [place, place, isOwn, isOwn, spot, spot, h1, h2, h3]
  · funext u
    obtain ⟨-, h2, h3⟩ := hhash u
    simp only [spot, h2, h3]

theorem upd_place_drop (s : Galloc) (t : Nat) :
    (s.upd t fun h => { h with allocated := false }).place = update s.place t none := by
  funext u
  by_cases hu : u = t
  · subst hu
    rw [update_self, place, isOwn, upd_hash_self]
    rfl
  · rw [update_of_ne hu, place, place, isOwn, isOwn, spot, spot, upd_hash_of_ne _ _ hu]

theorem upd_place_give (s : Galloc) (t : Nat) (hf : (f (s.hash t)).allocated = true) :
    (s.upd t f).place = update s.place t (some ((f (s.hash t)).bufferId, (f (s.hash t)).addr)) := by
  funext u
  by_cases hu : u = t
  · subst hu
    rw [update_self, place, isOwn, spot, upd_hash_self, if_pos hf]
  · rw [update_of_ne hu, place, place, isOwn, isOwn, spot, spot, upd_hash_of_ne _ _ hu]

/-- The memory of an operand can be used in place. -/
structure Usable (g : Graph) (s : Galloc) (n p : Nat) : Prop where
  own : s.isOwn p = true
  output : (g.tensor p).output = false
  layout : (g.tensor n).layout = (g.tensor p).layout
  children : (s.hash p).children = 1
  views : (s.hash p).views = 0

/-- The node works in place on the first operand for which this is possible. -/
def Reuses (g : Graph) (s : Galloc) (n p : Nat) : Prop :=
  (g.tensor n).op.canInplace = true ∧ ∃ l₁ l₂, g.sources n = l₁ ++ p :: l₂ ∧ Usable g s n p ∧
    ∀ q ∈ l₁, ¬ Usable g s n q

theorem Reuses.source (h : Reuses g s n p) : p ∈ g.sources n := by
  obtain ⟨-, l₁, l₂, hsrc, -, -⟩ := h
  rw [hsrc]
  simp

theorem Reuses.usable (h : Reuses g s n p) : Usable g s n p := by
  obtain ⟨-, -, -, -, husable, -⟩ := h
  exact husable

/-- A tensor got a place: a new one, or that of a parent. -/
structure Obtained (B : Buffers) (g : Graph) (s s' : Galloc) (n : Nat) (taken : Option Nat) :
    Prop where
  /-- The memory is in order. -/
  mem : Mem B g s'.tallocs s'.place
  /-- The tensor is owned now. -/
  own : s'.isOwn n = true
  /-- The others stay, but for the parent. -/
  other : ∀ t, t ≠ n → s'.isOwn t = (s.isOwn t && decide (taken ≠ some t))
  /-- The others are where they were. -/
  spot : ∀ t, t ≠ n → s'.spot t = s.spot t
  /-- The counters do not change. -/
  counts : ∀ t, (s'.hash t).children = (s.hash t).children ∧ (s'.hash t).views = (s.hash t).views
  /-- The parent can be used in place. -/
  parent : ∀ p, taken = some p → Reuses g s n p

theorem isAllocated_or_isView (h : (s.isAllocated g n || g.isView n) = true) :
    g.Ownable n → s.isOwn n = true := by
  rintro ⟨h1, h2, h3⟩
  simpa [isAllocated, Graph.isView, h1, h2, h3] using h

theorem not_isAllocated (h : ¬ (s.isAllocated g n || g.isView n) = true) :
    g.Ownable n ∧ s.isOwn n = false := by
  simp only [isAllocated, Graph.isView, Bool.or_eq_true, not_or, Bool.not_eq_true,
    isSome_eq_false_iff, isNone_iff_eq_none] at h
  exact ⟨⟨h.1.1.1, h.1.1.2, h.2⟩, h.1.2⟩

section

variable (hm : Mem B g s.tallocs s.place)
include hm

/-- Views are never owned, so a parent that is used in place is not a view. -/
theorem reusable_eq_some {r : Nat × Nat} (hne : p ≠ n) :
    reusable g (s.upd n fun h => { h with allocated := true }) n (some p) = some r ↔
      Usable g s n p ∧ r = (p, p) := by
  simp only [reusable, isOwn, upd_hash_of_ne s _ hne]
  cases hown : (s.hash p).allocated with
  | false =>
    rw [if_pos rfl]
    exact ⟨nofun, fun h => absurd (hown.symm.trans h.1.own) (by decide)⟩
  | true =>
    have hview := (hm.ownable p _ (place_eq_some hown)).2.2
    rw [hview, if_neg (by decide), any_none, Bool.or_false]
    constructor
    · intro h
      split at h
      · cases h
      · rename_i hout
        split at h
        · cases h
        · rename_i hlayout
          split at h
          · rename_i hcount
            exact ⟨⟨hown, Bool.eq_false_of_not_eq_true hout, not_not.mp hlayout, hcount.1,
              hcount.2⟩,
              (some.inj h).symm⟩
          · cases h
    · rintro ⟨h, rfl⟩
      rw [if_neg (by rw [h.output]; decide), if_neg (not_not_intro h.layout),
        if_pos ⟨h.children, h.views⟩]

theorem reuse_eq_some {v : Nat}
    (h : (s.upd n fun h => { h with allocated := true }).reuse g n = some (p, v))
    (hself : n ∉ g.sources n) : v = p ∧ Reuses g s n p := by
  rw [reuse] at h
  split at h
  · rename_i hop
    obtain ⟨l₁, slot, l₂, hsrc, hr, hfirst⟩ := findSome?_eq_some_iff.mp h
    have hsources : g.sources n = l₁.filterMap id ++ slot.toList ++ l₂.filterMap id := by
      rw [Graph.sources, hsrc, filterMap_append, filterMap_cons]
      cases slot <;> simp
    cases slot with
    | none => cases hr
    | some q =>
      rw [toList_some, append_assoc, singleton_append] at hsources
      have hne : ∀ u ∈ g.sources n, u ≠ n := fun u hu he => hself (he ▸ hu)
      obtain ⟨husable, he⟩ := (reusable_eq_some hm (hne q (by rw [hsources]; simp))).mp hr
      obtain ⟨rfl, rfl⟩ := Prod.mk.inj he
      refine ⟨rfl, hop, _, _, hsources, husable, fun u hu hus => ?_⟩
      have hnone := hfirst (some u) (by simpa using hu)
      rw [(reusable_eq_some hm (hne u (hsources ▸ mem_append_left _ hu))).mpr ⟨hus, rfl⟩] at hnone
      cases hnone
  · cases h

/-- Handing a place over and giving the surplus back keeps the memory in order. -/
theorem freeExtraSpace_spec (hp : s.isOwn p = true) (hn : g.Ownable n)
    (hta : s₂.tallocs = s.tallocs)
    (hpl : s₂.place = update (update s.place p none) n (some (s.spot p)))
    (hsp : s₂.spot p = s.spot p) (hsn : s₂.spot n = s.spot p)
    (h : s₂.freeExtraSpace B g n p = some s') :
    Mem B g s'.tallocs s'.place ∧ s'.hash = s₂.hash := by
  have hpp := place_eq_some hp
  have hbp : (s₂.hash p).bufferId = (s.spot p).1 := congrArg Prod.fst hsp
  have hap : (s₂.hash p).addr = (s.spot p).2 := congrArg Prod.snd hsp
  have hbn : (s₂.hash n).bufferId = (s.spot p).1 := congrArg Prod.fst hsn
  simp only [freeExtraSpace, hbp, hap, hbn, hta, hm.alignment] at h
  split at h
  · cases h
  · rename_i hle
    rw [not_lt] at hle
    have hsize : (B.span g n (s.spot p)).size ≤ (B.span g p (s.spot p)).size :=
      alignedOffset_mono hle
    have hmem := hm.handOver hn hpp hsize
    rw [← hpl, ← hta] at hmem
    split at h
    · obtain ⟨a, ha, h⟩ := bind_eq_some_iff.mp h
      cases h
      refine ⟨?_, rfl⟩
      rw [setTalloc_tallocs, setTalloc_place]
      have hsub := alignedOffset_sub (B.allocSize (B.buft (s.spot p).1) (g.tensor p))
        (B.allocSize (B.buft (s.spot p).1) (g.tensor n)) (B.alignment (B.buft (s.spot p).1))
      have htail : (Span.mk ((s.spot p).2.offset + (B.span g n (s.spot p)).size)
          ((B.span g p (s.spot p)).size - (B.span g n (s.spot p)).size)).bytes =
          (B.span g p (s.spot p)).bytes \ (B.span g n (s.spot p)).bytes :=
        @bytes_carve (B.span g p (s.spot p)) _ hsize
      rw [hta] at hmem ⊢
      refine hmem.free ?_ ?_ ha
      · rw [hsub]
        change Disjoint _ (Span.mk ((s.spot p).2.offset + (B.span g n (s.spot p)).size)
          ((B.span g p (s.spot p)).size - (B.span g n (s.spot p)).size)).bytes
        rw [htail]
        exact (hm.used p _ hpp).mono_right Set.sdiff_subset
      · intro t q hq hb hc
        rw [hsub]
        change Disjoint (Span.mk ((s.spot p).2.offset + (B.span g n (s.spot p)).size)
          ((B.span g p (s.spot p)).size - (B.span g n (s.spot p)).size)).bytes _
        rw [htail]
        rw [hpl] at hq
        by_cases htn : t = n
        · subst htn
          rw [update_self] at hq
          obtain rfl := some.inj hq
          exact Set.disjoint_sdiff_left
        · rw [update_of_ne htn] at hq
          by_cases htp : t = p
          · subst htp
            rw [update_self] at hq
            cases hq
          · rw [update_of_ne htp] at hq
            exact (hm.apart p t _ q (Ne.symm htp) hpp hq ⟨hb.symm, hc.symm⟩).mono_left
              Set.sdiff_subset
    · cases h
      exact ⟨hmem, rfl⟩

/-- The tensor takes the place of a parent over. -/
theorem Obtained.takeOver (hn : g.Ownable n) (hpn : p ≠ n) (hre : Reuses g s n p) {s₁ : Galloc}
    (hs₁ : s₁ = s.upd n fun h => { h with allocated := true }) (hs₂ : s₂ = ((s₁.upd n fun h =>
      { h with bufferId := (s₁.hash p).bufferId, addr := (s₁.hash p).addr }).upd p
        fun h => { h with allocated := false }).upd p fun h => { h with allocated := false })
    (h : s₂.freeExtraSpace B g n p = some s') : Obtained B g s s' n (some p) := by
  have h₁p : s₁.hash p = s.hash p := by
    rw [hs₁]
    exact upd_hash_of_ne s _ hpn
  have h₂n : s₂.hash n = { s.hash n with
      allocated := true, bufferId := (s.hash p).bufferId, addr := (s.hash p).addr } := by
    rw [hs₂, upd_hash_of_ne _ _ hpn.symm, upd_hash_of_ne _ _ hpn.symm, upd_hash_self, h₁p, hs₁,
      upd_hash_self]
  have h₂p : s₂.hash p = { s.hash p with allocated := false } := by
    rw [hs₂, upd_hash_self, upd_hash_self, upd_hash_of_ne _ _ hpn, h₁p]
  have h₂ : ∀ t, t ≠ n → t ≠ p → s₂.hash t = s.hash t := by
    intro t htn htp
    rw [hs₂, upd_hash_of_ne _ _ htp, upd_hash_of_ne _ _ htp, upd_hash_of_ne _ _ htn, hs₁,
      upd_hash_of_ne _ _ htn]
  have hpl : s₂.place = update (update s.place p none) n (some (s.spot p)) := by
    funext t
    by_cases htn : t = n
    · subst htn
      simp only [update_self, place, isOwn, Galloc.spot, h₂n, if_true]
    · rw [update_of_ne htn]
      by_cases htp : t = p
      · subst htp
        rw [update_self, place, isOwn, h₂p]
        rfl
      · rw [update_of_ne htp, place, place, isOwn, isOwn, Galloc.spot, Galloc.spot, h₂ t htn htp]
  have hta : s₂.tallocs = s.tallocs := by
    rw [hs₂, hs₁]
    rfl
  obtain ⟨hmem, hhash⟩ :=
    freeExtraSpace_spec hm hre.usable.own hn hta hpl (by rw [Galloc.spot, h₂p]; rfl)
    (by rw [Galloc.spot, h₂n]; rfl) h
  -- the entries differ from the old ones only for the tensor and its parent
  have hcases : ∀ t, t ≠ n → s'.hash t = { s.hash t with
      allocated := s.isOwn t && decide (some p ≠ some t) } := by
    intro t ht
    rw [hhash]
    by_cases htp : t = p
    · subst htp
      rw [h₂p]
      simp
    · rw [h₂ t ht htp]
      simp [isOwn, Ne.symm htp]
  refine ⟨hmem, ?_, fun t ht => ?_, fun t ht => ?_, fun t => ?_, ?_⟩
  · rw [isOwn, hhash, h₂n]
  · rw [isOwn, hcases t ht]
  · rw [Galloc.spot, hcases t ht]
    rfl
  · by_cases htn : t = n
    · subst htn
      rw [hhash, h₂n]
      exact ⟨rfl, rfl⟩
    · rw [hcases t htn]
      exact ⟨rfl, rfl⟩
  · rintro _ ⟨⟩
    exact hre

theorem Obtained.fresh (hx : B.Exact g) (hn : g.Ownable n) {a : Talloc} {addr : Addr}
    (ha : (s.tallocs (B.buft id)).alloc (B.allocSize (B.buft id) (g.tensor n)) = some (a, addr)) :
    Obtained B g s (((s.upd n fun h => { h with allocated := true }).setTalloc (B.buft id) a).upd n
      fun h => { h with bufferId := id, addr := addr }) n none := by
  generalize hs₁ : (s.upd n fun h => { h with allocated := true }) = s₁
  have hta : s₁.tallocs = s.tallocs := by rw [← hs₁]; rfl
  have h₁n : s₁.hash n = { s.hash n with allocated := true } := by rw [← hs₁, upd_hash_self]
  have h₁ : ∀ t, t ≠ n → s₁.hash t = s.hash t := by
    intro t ht
    rw [← hs₁]
    exact upd_hash_of_ne s _ ht
  have hpl : ((s₁.setTalloc (B.buft id) a).upd n fun h =>
      { h with bufferId := id, addr := addr }).place =
      update s.place n (some (id, addr)) := by
    rw [upd_place_give _ _ (by rw [setTalloc_hash, h₁n]), setTalloc_place, ← hs₁,
      upd_place_give _ _ rfl, update_idem]
  refine ⟨?_, ?_, fun t ht => ?_, fun t ht => ?_, fun t => ?_, ?_⟩
  · rw [hpl, upd_tallocs, setTalloc_tallocs, hta]
    exact hm.alloc hx hn ha
  · rw [isOwn, upd_hash_self, setTalloc_hash, h₁n]
  · rw [isOwn, upd_hash_of_ne _ _ ht, setTalloc_hash, h₁ t ht]
    simp [isOwn]
  · rw [Galloc.spot, upd_hash_of_ne _ _ ht, setTalloc_hash, h₁ t ht]
    rfl
  · by_cases ht : t = n
    · subst ht
      rw [upd_hash_self, setTalloc_hash, h₁n]
      exact ⟨rfl, rfl⟩
    · rw [upd_hash_of_ne _ _ ht, setTalloc_hash, h₁ t ht]
      exact ⟨rfl, rfl⟩
  · rintro _ ⟨⟩

/-- What `ggml_gallocr_allocate_node` does when it returns. -/
theorem allocateNode_spec (hx : B.Exact g)
    (hself : (g.tensor n).op.canInplace = true → n ∉ g.sources n)
    (h : s.allocateNode B g n id = some s') : (s' = s ∧ (g.Ownable n → s.isOwn n = true)) ∨
      (g.Ownable n ∧ s.isOwn n = false ∧ ∃ taken, Obtained B g s s' n taken) := by
  rw [allocateNode] at h
  split at h
  · rename_i hskip
    cases h
    exact .inl ⟨rfl, isAllocated_or_isView hskip⟩
  · rename_i hskip
    obtain ⟨hn, hown⟩ := not_isAllocated hskip
    refine .inr ⟨hn, hown, ?_⟩
    simp only at h
    split at h
    · rename_i p v hreuse
      have hop : (g.tensor n).op.canInplace = true := by
        rw [reuse] at hreuse
        split at hreuse
        · assumption
        · cases hreuse
      obtain ⟨rfl, hre⟩ := reuse_eq_some hm hreuse (hself hop)
      have hvn : v ≠ n := fun he => hself hop (he ▸ hre.source)
      exact ⟨some v, Obtained.takeOver hm hn hvn hre rfl rfl h⟩
    · obtain ⟨⟨a, addr⟩, ha, h⟩ := bind_eq_some_iff.mp h
      cases h
      exact ⟨none, Obtained.fresh hm hx hn ha⟩

theorem freeNode_spec (hn : s.isOwn n = true) (h : s.freeNode B g n = some s') :
    Mem B g s'.tallocs s'.place ∧ (∀ t, s'.spot t = s.spot t) ∧
      (∀ t, (s'.hash t).children = (s.hash t).children ∧ (s'.hash t).views = (s.hash t).views) ∧
      ∀ t, s'.isOwn t = (s.isOwn t && (decide (t ≠ n) || (g.tensor n).output)) := by
  rw [freeNode] at h
  split at h
  · rename_i hout
    cases h
    exact ⟨hm, fun _ => rfl, fun _ => ⟨rfl, rfl⟩, fun t => by simp [hout]⟩
  · rename_i hout
    obtain ⟨a, ha, h⟩ := bind_eq_some_iff.mp h
    cases h
    have hpn := place_eq_some hn
    have hhash : ∀ t, (((s.setTalloc (B.buft (s.hash n).bufferId) a).upd n fun h =>
        { h with allocated := false }).hash t) =
        if t = n then { s.hash t with allocated := false } else s.hash t := fun t => rfl
    refine ⟨?_, fun t => ?_, fun t => ?_, fun t => ?_⟩
    · rw [upd_place_drop, setTalloc_place, upd_tallocs, setTalloc_tallocs]
      have hdrop : Mem B g s.tallocs (update s.place n none) := by
        have hcase : ∀ t p, update s.place n none t = some p →
            t ≠ n ∧ s.place t = some p := by
          intro t p hp
          by_cases ht : t = n
          · subst ht
            rw [update_self] at hp
            cases hp
          · rw [update_of_ne ht] at hp
            exact ⟨ht, hp⟩
        exact ⟨hm.sound, hm.alignment, fun t p hp => hm.ownable t p (hcase t p hp).2,
          fun t p hp => hm.chunk t p (hcase t p hp).2, fun t p hp => hm.used t p (hcase t p hp).2,
          fun t u p q htu hp hq => hm.apart t u p q htu (hcase t p hp).2 (hcase u q hq).2⟩
      refine hdrop.free (hm.used n _ hpn) (fun t p hp hb hc => ?_) ha
      by_cases ht : t = n
      · subst ht
        rw [update_self] at hp
        cases hp
      · rw [update_of_ne ht] at hp
        exact hm.apart n t _ p (Ne.symm ht) hpn hp ⟨hb.symm, hc.symm⟩
    · rw [spot, hhash]
      split <;> rfl
    · rw [hhash]
      split <;> exact ⟨rfl, rfl⟩
    · rw [isOwn, hhash]
      split
      · rename_i ht
        simp [ht, hout]
      · rename_i ht
        simp [isOwn, ht]

end

end Galloc

end Llama.Alloc
