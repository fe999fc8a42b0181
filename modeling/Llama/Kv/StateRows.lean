import Llama.Kv.State
import Llama.Kv.Run

/-!
# Rows of the saved state

The writer saves the rows of the selected cells in the order of the cells. The reader puts
them into the cells of a slot: in one piece when these are contiguous, else row by row. Both
ways write the same bytes, and only into the rows of the slot.
-/

namespace Llama.Kv.Store

open Llama.Bytes List Function

variable {size : Nat} {sel : Nat → Bool}

/-- The open range of the collecting loop after `k` cells. -/
private theorem ranges_prefix (sel : Nat → Bool) (k : Nat) (hk : k ≤ size) :
    let r := (range k).foldl (rangeStep size sel) ([], size)
    (r.2 = size ∧ r.1.flatMap rangeIdxs = (range k).filter sel) ∨
      (r.2 < k ∧ r.1.flatMap rangeIdxs ++ range' r.2 (k - r.2) =
        (range k).filter sel) := by
  induction k with
  | zero => exact .inl ⟨rfl, rfl⟩
  | succ k ih =>
    have ih := ih (by omega)
    rw [range_succ, foldl_append, foldl_cons, foldl_nil, filter_append]
    generalize (range k).foldl (rangeStep size sel) ([], size) = r at ih
    simp only at ih ⊢
    by_cases hs : sel k = true
    · have hf : [k].filter sel = [k] := by simp [hs]
      rw [rangeStep, if_pos hs, hf]
      rcases ih with ⟨h1, h2⟩ | ⟨h1, h2⟩
      · right
        simp only [h1, if_true]
        refine ⟨by omega, ?_⟩
        rw [h2, Nat.add_sub_cancel_left]
        simp
      · right
        have hne : r.2 ≠ size := by omega
        simp only [hne, if_false]
        refine ⟨by omega, ?_⟩
        rw [← h2, append_assoc, Nat.succ_sub (by omega), range'_1_concat]
        congr 3
        omega
    · have hf : [k].filter sel = [] := by simp [hs]
      rw [rangeStep, if_neg hs, hf, append_nil]
      rcases ih with ⟨h1, h2⟩ | ⟨h1, h2⟩
      · left
        rw [if_neg (by simp [h1])]
        exact ⟨h1, h2⟩
      · left
        have hne : r.2 ≠ size := by omega
        rw [if_pos hne]
        refine ⟨rfl, ?_⟩
        rw [← h2, flatMap_append]
        simp [rangeIdxs]

/-- The ranges cover exactly the selected cells, in order. -/
theorem cellRanges_idxs (size : Nat) (sel : Nat → Bool) :
    (cellRanges size sel).flatMap rangeIdxs = (range size).filter sel := by
  have h := ranges_prefix sel size (le_refl size)
  simp only [cellRanges]
  generalize (range size).foldl (rangeStep size sel) ([], size) = r at h
  simp only at h
  rcases h with ⟨h1, h2⟩ | ⟨h1, h2⟩
  · rw [if_neg (by simp [h1]), h2]
  · rw [if_pos (by omega), flatMap_append, ← h2]
    simp [rangeIdxs]

/-- Rows written range by range are the rows of the selected cells. -/
theorem writeRows_eq (m : Nat → UInt8) (w : Nat) (cr : List (Nat × Nat)) :
    writeRows m w cr = (cr.flatMap rangeIdxs).flatMap fun i => slice m ((i + 0) * w) w := by
  rw [flatMap_assoc, writeRows]
  apply flatMap_congr
  intro r _
  have := slice_blocks m w 0 (r.2 - r.1) r.1
  simpa [rangeIdxs] using this

/-- What a cell holds. -/
structure Entry where
  pos : Int
  /-- Its spatial position. -/
  ext : CellExt
  seq : Finset SeqId
  /-- Its K row in every layer. -/
  kRow : List (List UInt8)
  /-- Its V row in every layer. -/
  vRow : List (List UInt8)

theorem Entry.eq_of_fields {e e' : Entry} (hpos : e.pos = e'.pos) (hext : e.ext = e'.ext)
    (hseq : e.seq = e'.seq) (hk : e.kRow = e'.kRow) (hv : e.vRow = e'.vRow) : e = e' := by
  obtain ⟨_, _, _, _, _⟩ := e
  simp only at hpos hext hseq hk hv
  subst hpos hext hseq hk hv
  rfl

/-- The V row of a cell in one layer. -/
def vSlice (vTrans : Bool) (kvSize : Nat) (l : Layer) (m : Nat → UInt8) (i : Nat) : List UInt8 :=
  match l.v with
  | none => []
  | some v =>
    if vTrans then (range v.nEmbd).flatMap fun j => slice m ((i + j * kvSize) * v.sizeEl) v.sizeEl
    else slice m ((i + 0) * v.sizeRow) v.sizeRow

/-- The K row of a cell in one layer. -/
def kSlice (l : Layer) (m : Nat → UInt8) (i : Nat) : List UInt8 :=
  slice m ((i + 0) * l.kSizeRow) l.kSizeRow

/-- The content of cell `i` of stream `t`. -/
def entry (s : Store) (t i : Nat) : Entry :=
  { pos := ((s.cache.cells t).cell i).pos
    ext := ((s.cache.cells t).cell i).ext
    seq := ((s.cache.cells t).cell i).seq
    kRow := s.layers.zipIdx.map fun l => kSlice l.1 (s.k t l.2) i
    vRow := s.layers.zipIdx.map fun l =>
      vSlice s.vTrans (s.cache.cells t).size l.1 (s.v t l.2) i }

/-- The non-empty cells of a stream. -/
def occupied (s : Store) (t : Nat) : List Nat :=
  (range (s.cache.cells t).size).filter (selected (s.cache.cells t) none)

/-- The contents of a stream. -/
def contents (s : Store) (t : Nat) : Multiset Entry := ((s.occupied t).map (s.entry t) : List Entry)

/-- A stream without content. -/
def Empty (s : Store) (t : Nat) : Prop := s.occupied t = []

instance (s : Store) (t : Nat) : Decidable (s.Empty t) := inferInstanceAs (Decidable (_ = _))

variable {s : Store} {t w : Nat} {idxs l : List Nat} {enc : Nat → List UInt8}

theorem mem_occupied {i : Nat} :
    i ∈ s.occupied t ↔ i < (s.cache.cells t).size ∧ ((s.cache.cells t).cell i).pos ≠ -1 := by
  simp [occupied, selected, Cells.isEmpty]

theorem contents_eq_zero : s.contents t = 0 ↔ s.Empty t := by
  simp [contents, Empty]

/-- Sizes of a store that its C types can represent. -/
structure Typed (s : Store) : Prop where
  nStream : s.cache.cfg.nStream < 256 ^ 4
  kvSize : s.cache.cfg.kvSize < 256 ^ 4
  size : ∀ t < s.cache.cfg.nStream, (s.cache.cells t).size = s.cache.cfg.kvSize
  pos : ∀ t < s.cache.cfg.nStream, ∀ i ∈ s.occupied t, FitsInt 4 ((s.cache.cells t).cell i).pos
  nLayer : s.layers.length < 256 ^ 4
  kLayer : ∀ l ∈ s.layers, FitsInt 4 l.kType ∧ l.kSizeRow < 256 ^ 8
  vLayer : ∀ l ∈ s.layers, ∀ v ∈ l.v,
    FitsInt 4 v.type ∧ v.sizeRow < 256 ^ 8 ∧ v.sizeEl < 256 ^ 4 ∧ v.nEmbd < 256 ^ 4
  /-- A transposed tensor has at most 4 GiB, so that `uint32_t` holds the offsets into it. -/
  vOffset : s.vTrans = true → ∀ l ∈ s.layers, ∀ v ∈ l.v,
    v.nEmbd * s.cache.cfg.kvSize ≤ 2 ^ 32 ∧ v.nEmbd * s.cache.cfg.kvSize * v.sizeEl ≤ 2 ^ 32

/-- A store of the same configuration. -/
structure SameConfig (a b : Store) : Prop where
  cfg : b.cache.cfg = a.cache.cfg
  vTrans : b.vTrans = a.vTrans
  layers : b.layers = a.layers
  size : ∀ t < a.cache.cfg.nStream, (b.cache.cells t).size = (a.cache.cells t).size

theorem isContiguous_iff : isContiguous idxs = true ↔ idxs = range' (idxs.headD 0) idxs.length := by
  rw [isContiguous, beq_iff_eq]

/-- On contiguous cells the copy in one piece stores what the copies of single rows store. -/
theorem blit_eq_scatter {base : Nat} {src : List UInt8} (h : isContiguous idxs = true)
    (hlen : src.length = idxs.length * w) (m : Nat → UInt8) :
    blit m ((idxs.headD 0 + base) * w) src = scatter w base src idxs m := by
  rw [← scatter_range' hlen]
  rw [← isContiguous_iff.mp h]

/-- Offsets into a tensor that a word can count do not wrap around. -/
theorem word32_offset {nEmbd kvSize i j : Nat} (hi : i < kvSize) (hj : j < nEmbd)
    (h : nEmbd * kvSize * w ≤ 2 ^ 32) : word32 ((i + j * kvSize) * w) = (i + j * kvSize) * w := by
  have hlt : i + j * kvSize < nEmbd * kvSize := by
    calc i + j * kvSize < (j + 1) * kvSize := by rw [Nat.succ_mul]; omega
      _ ≤ nEmbd * kvSize := Nat.mul_le_mul_right _ hj
  refine Nat.mod_eq_of_lt ?_
  rcases Nat.eq_zero_or_pos w with rfl | hw
  · exact Nat.two_pow_pos 32
  · exact lt_of_lt_of_le (Nat.mul_lt_mul_of_pos_right hlt hw) h

theorem word32_element {nEmbd kvSize i j : Nat} (hi : i < kvSize) (hj : j < nEmbd)
    (h : nEmbd * kvSize ≤ 2 ^ 32) : word32 (i + j * kvSize) = i + j * kvSize := by
  have := @word32_offset 1 _ _ _ _ hi hj (by rwa [Nat.mul_one])
  rwa [Nat.mul_one] at this

section

variable {base : Nat} (hword : ∀ i ∈ idxs, word32 (i + base) = i + base)
include hword

theorem scatter_word32 (src : List UInt8) (m : Nat → UInt8) :
    idxs.zipIdx.foldl (fun m p => blit m (word32 (p.1 + base) * w)
      ((src.drop (p.2 * w)).take w)) m = scatter w base src idxs m :=
  foldl_ext _ _ m fun m p hp => by rw [hword p.1 (fst_mem_of_mem_zipIdx hp)]

theorem blit_word32 {src : List UInt8} (h : isContiguous idxs = true)
    (hlen : src.length = idxs.length * w) (m : Nat → UInt8) :
    blit m (word32 (idxs.headD 0 + base) * w) src = scatter w base src idxs m := by
  rw [← blit_eq_scatter h hlen m]
  cases idxs with
  | nil => rw [length_eq_zero_iff.mp (hlen.trans (Nat.zero_mul w)), blit_nil, blit_nil]
  | cons i idxs => rw [headD_cons, hword i mem_cons_self]

end

section

variable (hlen : l.length = idxs.length) (hw : ∀ i ∈ l, (enc i).length = w) (m : Nat → UInt8)
  (s : List UInt8)
include hlen hw

theorem reads_readRows :
    Reads (readRows w idxs m) (l.flatMap enc ++ s) (scatter w 0 (l.flatMap enc) idxs m) s := by
  have hbytes : (l.flatMap enc).length = idxs.length * w := by
    rw [length_flatMap_block l hw, hlen]
  apply Reads.bind (reads_bytes hbytes s)
  split
  · rename_i hc
    rw [← blit_eq_scatter hc hbytes m, Nat.add_zero]
    exact Reads.pure _ _
  · exact Reads.pure _ _

theorem reads_readVRow {kvSize j : Nat}
    (hword : ∀ i ∈ idxs, word32 (i + j * kvSize) = i + j * kvSize) :
    Reads (readVRow kvSize w idxs m j) (l.flatMap enc ++ s)
      (scatter w (j * kvSize) (l.flatMap enc) idxs m) s := by
  have hbytes : (l.flatMap enc).length = idxs.length * w := by
    rw [length_flatMap_block l hw, hlen]
  apply Reads.bind (reads_bytes hbytes s)
  split
  · rename_i hc
    rw [blit_word32 hword hc hbytes m]
    exact Reads.pure _ _
  · rw [scatter_word32 hword]
    exact Reads.pure _ _

end

/-- The memory of a K tensor after the rows of the cells `l` were stored at `idxs`. -/
def storeK (a : Nat → UInt8) (l idxs : List Nat) (ly : Layer) (m : Nat → UInt8) : Nat → UInt8 :=
  scatter ly.kSizeRow 0 (l.flatMap fun i => kSlice ly a i) idxs m

/-- The memory of a V tensor after the rows of the cells `l` were stored at `idxs`. -/
def storeV (vTrans : Bool) (kvSize : Nat) (a : Nat → UInt8) (l idxs : List Nat) (ly : Layer)
    (m : Nat → UInt8) : Nat → UInt8 :=
  match ly.v with
  | none => m
  | some v =>
    if vTrans then (range v.nEmbd).foldl (fun m j => scatter v.sizeEl (j * kvSize)
      (l.flatMap fun i => slice a ((i + j * kvSize) * v.sizeEl) v.sizeEl) idxs m) m
    else scatter v.sizeRow 0 (l.flatMap fun i => slice a ((i + 0) * v.sizeRow) v.sizeRow) idxs m

section Layer

variable {a m : Nat → UInt8} {ly : Layer} {cr : List (Nat × Nat)} {l idxs : List Nat}
  (hl : cr.flatMap rangeIdxs = l) (hlen : l.length = idxs.length)
include hl hlen

theorem reads_storeK (ht : FitsInt 4 ly.kType) (hs : ly.kSizeRow < 256 ^ 8) (s : List UInt8) :
    Reads (readK ly idxs m) (writeK a ly cr ++ s) (storeK a l idxs ly m) s := by
  simp only [writeK, writeRows_eq, hl, append_assoc]
  refine Reads.bind (reads_int ht _) (Reads.bind (reads_check (by simp) _) ?_)
  refine Reads.bind (reads_uint hs _) (Reads.bind (reads_check (by simp) _) ?_)
  exact reads_readRows hlen (by simp) m s

theorem reads_storeVTrans {v : VLayer} {kvSize : Nat} (ht : FitsInt 4 v.type)
    (hs : v.sizeEl < 256 ^ 4) (hn : v.nEmbd < 256 ^ 4)
    (hsrc : ∀ i ∈ l, i < kvSize) (hdst : ∀ i ∈ idxs, i < kvSize)
    (hoff : v.nEmbd * kvSize ≤ 2 ^ 32 ∧ v.nEmbd * kvSize * v.sizeEl ≤ 2 ^ 32) (s : List UInt8) :
    Reads (readVTrans kvSize v idxs m) (writeVTrans a kvSize v cr ++ s)
      ((range v.nEmbd).foldl (fun m j => scatter v.sizeEl (j * kvSize)
        (l.flatMap fun i => slice a ((i + j * kvSize) * v.sizeEl) v.sizeEl) idxs m) m) s := by
  simp only [writeVTrans, append_assoc]
  refine Reads.bind (reads_int ht _) (Reads.bind (reads_check (by simp) _) ?_)
  refine Reads.bind (reads_uint hs _) (Reads.bind (reads_check (by simp) _) ?_)
  refine Reads.bind (reads_uint hn _) (Reads.bind (reads_check (by simp) _) ?_)
  apply reads_foldlM
  intro m j hj s
  have hj := mem_range.mp hj
  have hblocks : (cr.flatMap fun r => slice a (word32 ((r.1 + j * kvSize) * v.sizeEl))
      ((r.2 - r.1) * v.sizeEl)) =
      l.flatMap fun i => slice a ((i + j * kvSize) * v.sizeEl) v.sizeEl := by
    rw [← hl, flatMap_assoc]
    apply flatMap_congr
    intro r hr
    rw [rangeIdxs, ← slice_blocks a v.sizeEl (j * kvSize) (r.2 - r.1) r.1]
    rcases Nat.eq_zero_or_pos (r.2 - r.1) with h0 | hpos
    · rw [h0, Nat.zero_mul]
      rfl
    · have hmem : r.1 ∈ l := hl ▸ mem_flatMap.mpr ⟨r, hr, mem_range'_1.mpr ⟨le_refl _, by omega⟩⟩
      rw [word32_offset (hsrc _ hmem) hj hoff.2]
  rw [hblocks]
  exact reads_readVRow hlen (by simp) m s fun i hi => word32_element (hdst i hi) hj hoff.1

theorem reads_storeV {il : Nat}
    (hv : ∀ v ∈ ly.v, FitsInt 4 v.type ∧ v.sizeRow < 256 ^ 8 ∧ v.sizeEl < 256 ^ 4 ∧
      v.nEmbd < 256 ^ 4)
    (hsrc : ∀ i ∈ l, i < (s.cache.cells t).size) (hdst : ∀ i ∈ idxs, i < (s.cache.cells t).size)
    (hoff : s.vTrans = true → ∀ v ∈ ly.v, v.nEmbd * (s.cache.cells t).size ≤ 2 ^ 32 ∧
      v.nEmbd * (s.cache.cells t).size * v.sizeEl ≤ 2 ^ 32) (rest : List UInt8) :
    Reads (readVLayer s.vTrans (s.cache.cells t).size ly idxs m)
      (writeVLayer s t il cr ly ++ rest)
      (storeV s.vTrans (s.cache.cells t).size (s.v t il) l idxs ly m) rest := by
  unfold readVLayer writeVLayer storeV
  cases hly : ly.v with
  | none => exact Reads.pure _ _
  | some v =>
    obtain ⟨ht, hrow, hel, hn⟩ := hv v hly
    cases hvt : s.vTrans with
    | true =>
      simp only [if_true]
      exact reads_storeVTrans hl hlen ht hel hn hsrc hdst (hoff hvt v hly) rest
    | false =>
      simp only [Bool.false_eq_true, if_false, writeV, writeRows_eq, hl, append_assoc]
      refine Reads.bind (reads_int ht _) (Reads.bind (reads_check (by simp) _) ?_)
      refine Reads.bind (reads_uint hrow _) (Reads.bind (reads_check (by simp) _) ?_)
      exact reads_readRows hlen (by simp) m rest

end Layer

section Rows

variable {a m : Nat → UInt8} {ly : Layer} {l idxs : List Nat}

variable {k i kvSize : Nat} {vTrans : Bool}

theorem kSlice_storeK (hnd : idxs.Nodup) (hlen : l.length = idxs.length) (hk : k < l.length)
    (hk' : k < idxs.length) : kSlice ly (storeK a l idxs ly m) idxs[k] = kSlice ly a l[k] := by
  rw [kSlice, storeK, slice_scatter_of_mem l m hnd hlen (by simp [kSlice]) hk hk']

theorem kSlice_storeK_of_notMem (hi : i ∉ idxs) :
    kSlice ly (storeK a l idxs ly m) i = kSlice ly m i := by
  rw [kSlice, kSlice, storeK]
  apply slice_scatter_of_notMem
  intro k hk he
  rw [Nat.add_right_cancel he] at hk
  exact hi hk

/-- Elements of a transposed tensor have different numbers. -/
theorem element_ne {i' j j' : Nat} (hi : i < kvSize) (hi' : i' < kvSize) (h : i ≠ i' ∨ j ≠ j') :
    i + j * kvSize ≠ i' + j' * kvSize := by
  intro he
  have hmod := congrArg (· % kvSize) he
  have hdiv := congrArg (· / kvSize) he
  have hpos : 0 < kvSize := by omega
  simp only [Nat.add_mul_mod_self_right, Nat.mod_eq_of_lt hi, Nat.mod_eq_of_lt hi'] at hmod
  simp only [Nat.add_mul_div_right _ _ hpos, Nat.div_eq_of_lt hi, Nat.div_eq_of_lt hi',
    Nat.zero_add] at hdiv
  rcases h with h | h
  · exact h hmod
  · exact h hdiv

section

variable (hnd : idxs.Nodup) (hlen : l.length = idxs.length) (hidxs : ∀ i ∈ idxs, i < kvSize)
include hnd hlen hidxs

/-- A transposed tensor after its first `n` rows were stored. -/
theorem slice_storeRows (n : Nat) : (∀ j < n, ∀ k (hk : k < l.length) (hk' : k < idxs.length),
      slice ((range n).foldl (fun m j => scatter w (j * kvSize)
        (l.flatMap fun i => slice a ((i + j * kvSize) * w) w) idxs m) m)
        ((idxs[k] + j * kvSize) * w) w = slice a ((l[k] + j * kvSize) * w) w) ∧
    ∀ j, ∀ i < kvSize, i ∉ idxs →
      slice ((range n).foldl (fun m j => scatter w (j * kvSize)
        (l.flatMap fun i => slice a ((i + j * kvSize) * w) w) idxs m) m)
        ((i + j * kvSize) * w) w = slice m ((i + j * kvSize) * w) w := by
  induction n with
  | zero => exact ⟨fun j hj => absurd hj (by omega), fun _ _ _ _ => rfl⟩
  | succ n ih =>
    rw [range_succ, foldl_append, foldl_cons, foldl_nil]
    refine ⟨fun j hj k hk hk' => ?_, fun j i hi hno => ?_⟩
    · by_cases he : j = n
      · subst he
        exact slice_scatter_of_mem l _ hnd hlen (by simp) hk hk'
      · rw [slice_scatter_of_notMem, ih.1 j (by omega) k hk hk']
        intro i hi
        exact element_ne (hidxs i hi) (hidxs _ (getElem_mem hk')) (.inr (Ne.symm he))
    · rw [slice_scatter_of_notMem, ih.2 j i hi hno]
      intro k hk
      apply element_ne (hidxs k hk) hi
      left
      rintro rfl
      exact hno hk

theorem vSlice_storeV (hk : k < l.length) (hk' : k < idxs.length) :
    vSlice vTrans kvSize ly (storeV vTrans kvSize a l idxs ly m) idxs[k] =
      vSlice vTrans kvSize ly a l[k] := by
  unfold vSlice storeV
  cases ly.v with
  | none => rfl
  | some v =>
    cases vTrans with
    | true =>
      simp only [if_true]
      apply flatMap_congr
      intro j hj
      exact (slice_storeRows hnd hlen hidxs v.nEmbd).1 j (mem_range.mp hj) k hk hk'
    | false =>
      simp only [Bool.false_eq_true, if_false]
      exact slice_scatter_of_mem l m hnd hlen (by simp) hk hk'

theorem vSlice_storeV_of_notMem (hi : i < kvSize) (hno : i ∉ idxs) :
    vSlice vTrans kvSize ly (storeV vTrans kvSize a l idxs ly m) i =
      vSlice vTrans kvSize ly m i := by
  unfold vSlice storeV
  cases ly.v with
  | none => rfl
  | some v =>
    cases vTrans with
    | true =>
      simp only [if_true]
      apply flatMap_congr
      intro j _
      exact (slice_storeRows hnd hlen hidxs v.nEmbd).2 j i hi hno
    | false =>
      simp only [Bool.false_eq_true, if_false]
      apply slice_scatter_of_notMem
      intro k hk he
      rw [Nat.add_right_cancel he] at hk
      exact hno hk

end

end Rows

/-- A loop over the layers replaces the memory of each layer once. -/
theorem putTensor_loop {h : Layer × Nat → (Nat → UInt8) → Nat → UInt8} (t : Nat) :
    ∀ (l : List (Layer × Nat)) (ts : Tensors), (l.map Prod.snd).Nodup → ∀ p ∈ l,
      (l.foldl (fun ts p => putTensor ts t p.2 (h p (ts t p.2))) ts) t p.2 = h p (ts t p.2)
  | x :: l, ts, hnd, p, hp => by
    rw [map_cons, nodup_cons] at hnd
    rw [foldl_cons]
    -- later turns leave the layer of this one alone
    have hkeep : ∀ (l : List (Layer × Nat)) (ts : Tensors) (n : Nat), n ∉ l.map Prod.snd →
        (l.foldl (fun ts p => putTensor ts t p.2 (h p (ts t p.2))) ts) t n = ts t n := by
      intro l
      induction l with
      | nil => intro ts n _; rfl
      | cons y l ih =>
        intro ts n hn
        rw [map_cons, mem_cons, not_or] at hn
        rw [foldl_cons, ih _ n hn.2]
        simp [putTensor, update_of_ne hn.1]
    rcases mem_cons.mp hp with rfl | hp
    · rw [hkeep l _ p.2 hnd.1]
      simp [putTensor]
    · have hne : p.2 ≠ x.2 := fun he => hnd.1 (he ▸ mem_map_of_mem hp)
      rw [putTensor_loop t l _ hnd.2 p hp]
      simp [putTensor, update_of_ne hne]

/-- A loop over the layers of one stream leaves the others alone. -/
theorem putTensor_loop_of_ne {h : Layer × Nat → (Nat → UInt8) → Nat → UInt8} {t t' : Nat}
    (hne : t' ≠ t) : ∀ (l : List (Layer × Nat)) (ts : Tensors),
      (l.foldl (fun ts p => putTensor ts t p.2 (h p (ts t p.2))) ts) t' = ts t'
  | [], _ => rfl
  | x :: l, ts => by
    rw [foldl_cons, putTensor_loop_of_ne hne l]
    simp [putTensor, update_of_ne hne]

/-- The store after the rows of the cells `l` of stream `t` of `a` were stored at the cells
`idxs` of stream `t'`. -/
def storeData (a s : Store) (t t' : Nat) (l idxs : List Nat) : Store :=
  { s with
    k := s.layers.zipIdx.foldl
      (fun k p => putTensor k t' p.2 (storeK (a.k t p.2) l idxs p.1 (k t' p.2))) s.k
    v := s.layers.zipIdx.foldl (fun v p => putTensor v t' p.2
      (storeV a.vTrans (a.cache.cells t).size (a.v t p.2) l idxs p.1 (v t' p.2))) s.v }

section Data

variable {a s : Store} {t t' : Nat} {cr : List (Nat × Nat)} {l idxs : List Nat}

theorem reads_storeData (ha : a.Typed) (hsame : a.SameConfig s) (ht : t < a.cache.cfg.nStream)
    (hsize : (s.cache.cells t').size = (a.cache.cells t).size)
    (hl : cr.flatMap rangeIdxs = l) (hlen : l.length = idxs.length)
    (hsrc : ∀ i ∈ l, i < (a.cache.cells t).size) (hdst : ∀ i ∈ idxs, i < (a.cache.cells t).size)
    (hle : l.length ≤ (a.cache.cells t).size) (rest : List UInt8) :
    Reads (readData s t' l.length idxs) (writeData a t cr ++ rest)
      (storeData a s t t' l idxs) rest := by
  have hmem : ∀ p ∈ a.layers.zipIdx, p.1 ∈ a.layers := fun p hp =>
    fst_mem_of_mem_zipIdx hp
  simp only [writeData, append_assoc, readData, storeData, hsame.vTrans, hsame.layers, hsize]
  refine Reads.bind (reads_uint (by split <;> decide) _) ?_
  refine Reads.bind (reads_uint ha.nLayer _) ?_
  refine Reads.bind (reads_check (by simp) _) ?_
  refine Reads.bind (reads_check (by simpa using hle) _) ?_
  refine Reads.bind (reads_check (by cases a.vTrans <;> rfl) _) ?_
  refine Reads.bind (reads_foldlM a.layers.zipIdx s.k _ fun k p hp s' =>
    Reads.bind (reads_storeK hl hlen (ha.kLayer _ (hmem p hp)).1 (ha.kLayer _ (hmem p hp)).2 s')
      (Reads.pure _ _)) ?_
  refine Reads.bind (reads_foldlM a.layers.zipIdx s.v _ fun v p hp s' =>
    Reads.bind (reads_storeV hl hlen (ha.vLayer _ (hmem p hp)) hsrc hdst (fun hvt => by
      rw [ha.size t ht]
      exact ha.vOffset hvt _ (hmem p hp)) s') (Reads.pure _ _)) ?_
  exact Reads.pure _ _

theorem layers_nodup (ly : List Layer) : (ly.zipIdx.map Prod.snd).Nodup := by
  rw [zipIdx_map_snd]
  exact nodup_range'

section

variable (hsame : a.SameConfig s) (hsize : (s.cache.cells t').size = (a.cache.cells t).size)
  (hnd : idxs.Nodup) (hlen : l.length = idxs.length)
  (hidxs : ∀ i ∈ idxs, i < (a.cache.cells t).size)
include hsame hsize hnd hlen hidxs

/-- A cell of the slot has the rows of its cell in `a`. -/
theorem storeData_rows {k : Nat} (hk : k < l.length) (hk' : k < idxs.length) :
    ((storeData a s t t' l idxs).entry t' idxs[k]).kRow = (a.entry t l[k]).kRow ∧
      ((storeData a s t t' l idxs).entry t' idxs[k]).vRow = (a.entry t l[k]).vRow := by
  simp only [entry, storeData, hsame.layers, hsame.vTrans, hsize]
  constructor
  · apply map_congr_left
    intro p hp
    rw [putTensor_loop (h := fun p m => storeK (a.k t p.2) l idxs p.1 m) t' _ _
      (layers_nodup _) p hp]
    exact kSlice_storeK hnd hlen hk hk'
  · apply map_congr_left
    intro p hp
    rw [putTensor_loop (h := fun p m => storeV a.vTrans (a.cache.cells t).size (a.v t p.2) l idxs
      p.1 m) t' _ _ (layers_nodup _) p hp]
    exact vSlice_storeV hnd hlen hidxs hk hk'

theorem storeData_rows_of_notMem {u i : Nat} (hi : i < (s.cache.cells u).size)
    (hno : u = t' → i ∉ idxs) : ((storeData a s t t' l idxs).entry u i).kRow = (s.entry u i).kRow ∧
      ((storeData a s t t' l idxs).entry u i).vRow = (s.entry u i).vRow := by
  simp only [entry, storeData]
  by_cases hu : u = t'
  · subst hu
    have hno := hno rfl
    rw [hsize] at hi
    simp only [hsame.layers, hsame.vTrans, hsize]
    constructor
    · apply map_congr_left
      intro p hp
      rw [putTensor_loop (h := fun p m => storeK (a.k t p.2) l idxs p.1 m) u _ _
        (layers_nodup _) p hp]
      exact kSlice_storeK_of_notMem hno
    · apply map_congr_left
      intro p hp
      rw [putTensor_loop (h := fun p m => storeV a.vTrans (a.cache.cells t).size (a.v t p.2) l idxs
        p.1 m) u _ _ (layers_nodup _) p hp]
      exact vSlice_storeV_of_notMem hnd hlen hidxs hi hno
  · rw [putTensor_loop_of_ne (h := fun p m => storeK (a.k t p.2) l idxs p.1 m) hu,
      putTensor_loop_of_ne (h := fun p m => storeV a.vTrans (a.cache.cells t).size (a.v t p.2) l
        idxs p.1 m) hu]
    exact ⟨rfl, rfl⟩

end

end Data

end Llama.Kv.Store
