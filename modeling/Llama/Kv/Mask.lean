import Llama.Kv.Cache
import Llama.Lib.Loop

/-!
# The KQ mask

`set_input_kq_mask` fills one row per token of the ubatch and one column per cell. The first token
of a sequence computes its row and records the cells whose position is close to the positions of
the ubatch; the later tokens of that sequence copy the row and compute only the recorded cells anew.
The cells that are not recorded lie more than a window before all tokens of the sequence.

A mask value is `none` for `-INFINITY`. Sums of a position, `n_swa` and 32 stay inside `int32_t`.
-/

namespace Llama.Kv

open List Function

/-- The mask, row after row. -/
abbrev MaskData := Nat → Option Int

def CellExt.is2dGt (e : CellExt) (ox oy : Int) : Bool :=
  decide (oy < e.y) || (e.y == oy && decide (ox < e.x))

def Ubatch.seqFirst (u : Ubatch) (i : Nat) : SeqId := (u.seqId i).headD 0

/-- `seq_pos_min`: the least position of each sequence in the ubatch. -/
def Ubatch.seqPosMin (u : Ubatch) : SeqId → Int :=
  (range u.nTokens).foldl
    (fun m i => update m (u.seqFirst i) (min (m (u.seqFirst i)) (u.pos i)))
    fun _ => posMax

/-- Position of a token as the mask sees it: with its spatial part for 2D positions. -/
structure MaskPos where
  p : Int
  /-- `p1_x`. -/
  x : Int
  /-- `p1_y`. -/
  y : Int

/-- The positions of token `i`. -/
def Ubatch.maskPos (u : Ubatch) (i : Nat) : MaskPos :=
  { p := u.pos i
    x := if u.isPos2d then u.pos (i + u.nTokens * 2) else 0
    y := if u.isPos2d then u.pos (i + u.nTokens) else 0 }

/-- The flags that `set_input_kq_mask_impl` is instantiated with. -/
structure MaskMode where
  /-- Mask future tokens. -/
  causal : Bool
  /-- Positions are two-dimensional. -/
  is2d : Bool
  /-- ALiBi biases instead of zeros. -/
  alibi : Bool
  deriving DecidableEq, Repr

namespace Cells

/-- The value that the body of the column loop writes for cell `j`; `swa` is instantiated with
`swa_type != LLAMA_SWA_TYPE_NONE`. -/
def maskValue (x : Cells) (f : Config) (m : MaskMode) (q : SeqId) (p1 : MaskPos) (j : Nat) :
    Option Int :=
  if x.isEmpty j then none
  else if !x.seqHas j q then none
  else
    let p0 := (x.cell j).pos
    if m.causal && (decide (p1.p < p0) ||
        (m.is2d && p0 == p1.p && (x.cell j).ext.is2dGt p1.x p1.y)) then none
    else if f.swaType != .none && isMaskedSwa f.nSwa f.swaType p0 p1.p then none
    else some (if m.alibi then -|p0 - p1.p| else 0)

/-- The column loop records cell `j` for the later tokens of the sequence. -/
def records (x : Cells) (f : Config) (m : MaskMode) (q : SeqId) (least : Int) (j : Nat) : Bool :=
  !m.alibi && !x.isEmpty j && x.seqHas j q && decide (least ≤ (x.cell j).pos + (f.nSwa + 32))

end Cells

/-- State of the loops: the mask and the bookkeeping of the current stream. -/
structure MaskState where
  data : MaskData
  /-- `seq_srct`: the first token of each sequence. -/
  srct : SeqId → Option Nat
  /-- `seq_idxs`: the recorded cells of each sequence. -/
  idxs : SeqId → List Nat

namespace Cache

/-- The cells that token `i` looks at. -/
def tokenCells (c : Cache) (u : Ubatch) (i : Nat) : Cells :=
  c.cells (c.cfg.seqToStream (u.seqFirst i))

/-- The columns of a row that is computed from scratch. -/
def maskRow (c : Cache) (u : Ubatch) (m : MaskMode) (nKv i : Nat) (st : MaskState) : MaskState :=
  let q := u.seqFirst i
  let x := c.tokenCells u i
  (range nKv).foldl (fun st j =>
    { st with
      data := update st.data (nKv * i + j) (x.maskValue c.cfg m q (u.maskPos i) j)
      idxs := if x.records c.cfg m q (u.seqPosMin q) j
        then update st.idxs q (st.idxs q ++ [j]) else st.idxs }) st

/-- `std::copy` of row `src` to row `dst`. -/
def copyRow (nKv src dst : Nat) (data : MaskData) : MaskData := fun k =>
  if nKv * dst ≤ k ∧ k < nKv * dst + nKv then data (k - nKv * dst + nKv * src) else data k

/-- The columns of a row that was copied: only the recorded cells, until they run out. -/
def maskPatch (c : Cache) (u : Ubatch) (m : MaskMode) (nKv i : Nat) (idxs : List Nat)
    (data : MaskData) : MaskData :=
  (idxs.take nKv).foldl (fun data j => update data (nKv * i + j)
    ((c.tokenCells u i).maskValue c.cfg m (u.seqFirst i) (u.maskPos i) j)) data

/-- One token. -/
def maskToken (c : Cache) (u : Ubatch) (m : MaskMode) (nKv : Nat) (st : MaskState) (i : Nat) :
    MaskState :=
  let q := u.seqFirst i
  if m.alibi then c.maskRow u m nKv i st
  else match st.srct q with
    | some src =>
      { st with data := c.maskPatch u m nKv i (st.idxs q) (copyRow nKv src i st.data) }
    | none =>
      c.maskRow u m nKv i { st with srct := update st.srct q (some i), idxs := update st.idxs q [] }

/-- One stream: the bookkeeping starts afresh. -/
def maskStream (c : Cache) (u : Ubatch) (m : MaskMode) (nKv nTps : Nat) (data : MaskData)
    (s : Nat) : MaskData :=
  ((range nTps).foldl (fun st ii => c.maskToken u m nKv st (s * nTps + ii))
    { data := data, srct := fun _ => none, idxs := fun _ => [] }).data

/-- `set_input_kq_mask(dst, ubatch, causal_attn)` for a destination of `n_kv` columns and
`n_stream` streams. -/
def setInputKqMask (c : Cache) (u : Ubatch) (causal alibi : Bool) (nKv nStream : Nat)
    (data : MaskData) : MaskData :=
  (range nStream).foldl
    (c.maskStream u { causal := causal, is2d := u.isPos2d, alibi := alibi } nKv
      (u.nTokens / nStream)) data

/-- Token `i` may attend to cell `j`: the cell is not empty, contains the first sequence of the
token, is not in its future, with the tie-break of 2D positions, and is inside its window. -/
def Attends (c : Cache) (u : Ubatch) (causal : Bool) (i j : Nat) : Prop :=
  let e := (c.tokenCells u i).cell j
  e.pos ≠ -1 ∧ u.seqFirst i ∈ e.seq ∧
    (causal = true → ¬ u.pos i < e.pos ∧ ¬ (3 ≤ u.nPos ∧ e.pos = u.pos i ∧
      (u.pos (i + u.nTokens) < e.ext.y ∨
        (e.ext.y = u.pos (i + u.nTokens) ∧ u.pos (i + u.nTokens * 2) < e.ext.x)))) ∧
    isMaskedSwa c.cfg.nSwa c.cfg.swaType e.pos (u.pos i) = false

instance (c : Cache) (u : Ubatch) (causal : Bool) (i j : Nat) :
    Decidable (c.Attends u causal i j) := instDecidableAnd

end Cache

/-- More than a window behind both tokens, a cell is masked for both or for none. -/
theorem isMaskedSwa_far {nSwa : Nat} (t : SwaType) {p0 p1 p1' : Int} (h : p0 + (nSwa + 32) < p1)
    (h' : p0 + (nSwa + 32) < p1') : isMaskedSwa nSwa t p0 p1 = isMaskedSwa nSwa t p0 p1' := by
  have hchunk : ∀ p : Int, p0 + (nSwa + 32) < p → 0 < nSwa → p0 < p / nSwa * nSwa := by
    intro p hp hn
    have hdiv := Int.mul_ediv_add_emod p nSwa
    have hmod := Int.emod_lt_of_pos p (Int.natCast_pos.mpr hn)
    rw [Int.mul_comm] at hdiv
    omega
  cases t with
  | none => rfl
  | standard =>
    simp only [isMaskedSwa]
    rw [decide_eq_true (by omega), decide_eq_true (by omega)]
  | chunked =>
    simp only [isMaskedSwa]
    rcases Nat.eq_zero_or_pos nSwa with hn | hn
    · simp [hn]
    · rw [decide_eq_true (hchunk p1 h hn), decide_eq_true (hchunk p1' h' hn)]
  | symmetric =>
    have hhalf : (((nSwa / 2 : Nat) : Int)) ≤ nSwa := by omega
    simp only [isMaskedSwa]
    rw [decide_eq_true (p := ((nSwa / 2 : Nat) : Int) < p1 - p0) (by omega),
      decide_eq_true (p := ((nSwa / 2 : Nat) : Int) < p1' - p0) (by omega), Bool.or_true,
      Bool.or_true]

/-- A cell that was not recorded has the same value in every row of its sequence. -/
theorem Cells.maskValue_far {x : Cells} {f : Config} {m : MaskMode} {q : SeqId} {least : Int}
    {j : Nat} (ha : m.alibi = false) (hr : x.records f m q least j = false) {p1 p1' : MaskPos}
    (h : least ≤ p1.p) (h' : least ≤ p1'.p) : x.maskValue f m q p1 j = x.maskValue f m q p1' j := by
  by_cases he : x.isEmpty j = true
  · simp [maskValue, he]
  · by_cases hq : x.seqHas j q = true
    · have hfar : (x.cell j).pos + (f.nSwa + 32) < least := by
        simpa [records, ha, he, hq] using hr
      have hpast : ∀ p : MaskPos, least ≤ p.p → (decide (p.p < (x.cell j).pos) ||
          (m.is2d && (x.cell j).pos == p.p && (x.cell j).ext.is2dGt p.x p.y)) = false := by
        intro p hp
        have h1 : ¬ p.p < (x.cell j).pos := by omega
        have h2 : ¬ (x.cell j).pos = p.p := by omega
        simp [h1, h2]
      simp only [maskValue, hpast p1 h, hpast p1' h', ha, Bool.false_eq_true, if_false,
        isMaskedSwa_far f.swaType (hfar.trans_le h) (hfar.trans_le h')]
    · simp [maskValue, hq]

/-- `seq_pos_min` is a lower bound of the positions of its sequence. -/
theorem Ubatch.seqPosMin_le (u : Ubatch) {i : Nat} (hi : i < u.nTokens) :
    u.seqPosMin (u.seqFirst i) ≤ u.pos i := by
  have hall : ∀ k < u.nTokens, u.seqPosMin (u.seqFirst k) ≤ u.pos k := by
    apply Loop.foldl_range_induction
      (motive := fun n (m : SeqId → Int) => ∀ k < n, m (u.seqFirst k) ≤ u.pos k)
    · intro k hk
      omega
    · intro n _ m hm k hk
      by_cases he : u.seqFirst k = u.seqFirst n
      · rw [he, update_self]
        rcases Nat.lt_succ_iff_lt_or_eq.mp hk with hlt | rfl
        · have := hm k hlt
          rw [he] at this
          exact (min_le_left _ _).trans this
        · exact min_le_right _ _
      · rw [update_of_ne he]
        refine hm k ?_
        rcases Nat.lt_succ_iff_lt_or_eq.mp hk with hlt | rfl
        · exact hlt
        · exact absurd rfl he
  exact hall i hi

namespace Cache

variable {c : Cache} {u : Ubatch} {m : MaskMode} {nKv : Nat}

/-- Row `i` is the row computed from scratch. -/
def RowDone (c : Cache) (u : Ubatch) (m : MaskMode) (nKv : Nat) (data : MaskData) (i : Nat) :
    Prop :=
  ∀ j < nKv, data (nKv * i + j) =
    (c.tokenCells u i).maskValue c.cfg m (u.seqFirst i) (u.maskPos i) j

/-- Different rows have no entry in common. -/
theorem rows_apart {i i' j j' : Nat} (hne : i ≠ i') (hj : j < nKv) (hj' : j' < nKv) :
    nKv * i + j ≠ nKv * i' + j' := by
  rcases Nat.lt_or_gt_of_ne hne with hlt | hlt
  · have := Nat.mul_le_mul_left nKv hlt
    rw [Nat.mul_succ] at this
    omega
  · have := Nat.mul_le_mul_left nKv hlt
    rw [Nat.mul_succ] at this
    omega

/-- A row that agrees with a finished one outside another row is finished. -/
theorem RowDone.congr {data data' : MaskData} {i i' : Nat} (h : c.RowDone u m nKv data i)
    (hne : i ≠ i') (hd : ∀ k, (∀ j < nKv, k ≠ nKv * i' + j) → data' k = data k) :
    c.RowDone u m nKv data' i := by
  intro j hj
  rw [hd _ fun j' hj' => rows_apart hne hj hj']
  exact h j hj

/-- Writing the entries `b + j` for the `j` of a list. -/
theorem foldl_update_row {v : Nat → Option Int} (b : Nat) : ∀ (l : List Nat) (data : MaskData),
    (∀ j ∈ l, l.foldl (fun data j => update data (b + j) (v j)) data (b + j) = v j) ∧
      ∀ k, (∀ j ∈ l, k ≠ b + j) → l.foldl (fun data j => update data (b + j) (v j)) data k = data k
  | [], data => ⟨fun j hj => absurd hj not_mem_nil, fun k _ => rfl⟩
  | a :: l, data => by
    obtain ⟨hin, hout⟩ := foldl_update_row b l (update data (b + a) (v a))
    refine ⟨fun j hj => ?_, fun k hk => ?_⟩
    · by_cases hl : j ∈ l
      · exact hin j hl
      · have he : j = a := (mem_cons.mp hj).resolve_right hl
        rw [foldl_cons, hout (b + j) fun j' hj' he' => hl (by rwa [Nat.add_left_cancel he'])]
        rw [he, update_self]
    · rw [foldl_cons, hout k fun j hj => hk j (mem_cons_of_mem a hj)]
      exact update_of_ne (hk a mem_cons_self) _ _

/-- A row from scratch: the row, the recorded cells, and nothing else. -/
theorem maskRow_spec (c : Cache) (u : Ubatch) (m : MaskMode) (nKv i : Nat) (st : MaskState) :
    c.RowDone u m nKv (c.maskRow u m nKv i st).data i ∧
      (∀ k, (∀ j < nKv, k ≠ nKv * i + j) → (c.maskRow u m nKv i st).data k = st.data k) ∧
      (c.maskRow u m nKv i st).srct = st.srct ∧
      (c.maskRow u m nKv i st).idxs = update st.idxs (u.seqFirst i)
        (st.idxs (u.seqFirst i) ++ (range nKv).filter
          ((c.tokenCells u i).records c.cfg m (u.seqFirst i) (u.seqPosMin (u.seqFirst i)))) := by
  have hdata : (c.maskRow u m nKv i st).data = (range nKv).foldl
      (fun data j => update data (nKv * i + j)
        ((c.tokenCells u i).maskValue c.cfg m (u.seqFirst i) (u.maskPos i) j)) st.data :=
    (foldl_hom MaskState.data fun _ _ => rfl).symm
  obtain ⟨hin, hout⟩ := foldl_update_row
    (v := (c.tokenCells u i).maskValue c.cfg m (u.seqFirst i) (u.maskPos i)) (nKv * i)
    (range nKv) st.data
  refine ⟨fun j hj => ?_, fun k hk => ?_, ?_, ?_⟩
  · rw [hdata]
    exact hin j (mem_range.mpr hj)
  · rw [hdata]
    exact hout k fun j hj => hk j (mem_range.mp hj)
  · apply Loop.foldl_range_induction (motive := fun _ (st' : MaskState) => st'.srct = st.srct)
    · rfl
    · exact fun _ _ _ h => h
  · apply Loop.foldl_range_induction (motive := fun n (st' : MaskState) =>
      st'.idxs = update st.idxs (u.seqFirst i)
        (st.idxs (u.seqFirst i) ++ (range n).filter
          ((c.tokenCells u i).records c.cfg m (u.seqFirst i) (u.seqPosMin (u.seqFirst i)))))
    · simp
    · intro n _ st' h
      rw [range_succ, filter_append]
      simp only [h]
      split
      · rename_i hr
        simp [hr]
      · rename_i hr
        simp [hr]

/-- A copied and patched row: the recorded cells are computed, the others are those of the source
row, and nothing else changes. -/
theorem maskPatch_spec (c : Cache) (u : Ubatch) (m : MaskMode) {src i : Nat} {idxs : List Nat}
    (hidxs : idxs.length ≤ nKv) (hlt : ∀ j ∈ idxs, j < nKv) (data : MaskData) :
    (∀ j ∈ idxs, c.maskPatch u m nKv i idxs (copyRow nKv src i data) (nKv * i + j) =
      (c.tokenCells u i).maskValue c.cfg m (u.seqFirst i) (u.maskPos i) j) ∧
    (∀ j < nKv, j ∉ idxs → c.maskPatch u m nKv i idxs (copyRow nKv src i data) (nKv * i + j) =
      data (nKv * src + j)) ∧
    ∀ k, (∀ j < nKv, k ≠ nKv * i + j) →
      c.maskPatch u m nKv i idxs (copyRow nKv src i data) k = data k := by
  obtain ⟨hin, hout⟩ := foldl_update_row
    (v := (c.tokenCells u i).maskValue c.cfg m (u.seqFirst i) (u.maskPos i)) (nKv * i)
    idxs (copyRow nKv src i data)
  rw [maskPatch, take_of_length_le hidxs]
  refine ⟨hin, fun j hj hn => ?_, fun k hk => ?_⟩
  · rw [hout _ fun j' hj' he => hn (by rwa [Nat.add_left_cancel he])]
    have hrow : nKv * i ≤ nKv * i + j ∧ nKv * i + j < nKv * i + nKv := by omega
    rw [copyRow, if_pos hrow, Nat.add_sub_cancel_left, Nat.add_comm]
  · rw [hout k fun j hj => hk j (hlt j hj), copyRow, if_neg]
    rintro ⟨h1, h2⟩
    exact hk (k - nKv * i) (by omega) (by omega)

/-- State of the loops in stream `s` after `n` tokens: all rows up to there are finished, and a
sequence seen in the stream has its first row and its recorded cells. -/
structure Masked (c : Cache) (u : Ubatch) (m : MaskMode) (nKv first n : Nat) (st : MaskState) :
    Prop where
  rows : ∀ i < first + n, c.RowDone u m nKv st.data i
  /-- The bookkeeping. -/
  seen : ∀ q src, st.srct q = some src → src < first + n ∧ u.seqFirst src = q ∧
    st.idxs q = (range nKv).filter
      ((c.cells (c.cfg.seqToStream q)).records c.cfg m q (u.seqPosMin q))

theorem Masked.token {first n : Nat} {st : MaskState} (h : c.Masked u m nKv first n st)
    (ha : m.alibi = false) (hi : first + n < u.nTokens) :
    c.Masked u m nKv first (n + 1) (c.maskToken u m nKv st (first + n)) := by
  have hlast : ∀ i < first + (n + 1), i < first + n ∨ i = first + n := fun i hi => by omega
  have hpos := u.seqPosMin_le hi
  simp only [maskToken, ha, Bool.false_eq_true, if_false]
  cases hs : st.srct (u.seqFirst (first + n)) with
  | none =>
    obtain ⟨hrow, hframe, hsrct, hidxs⟩ := c.maskRow_spec u m nKv (first + n)
      { st with srct := update st.srct (u.seqFirst (first + n)) (some (first + n))
                idxs := update st.idxs (u.seqFirst (first + n)) [] }
    constructor
    · intro i hi'
      rcases hlast i hi' with hlt | rfl
      · exact (h.rows i hlt).congr (by omega) hframe
      · exact hrow
    · intro q src hq
      simp only [hsrct, hidxs] at hq ⊢
      by_cases he : q = u.seqFirst (first + n)
      · subst he
        rw [update_self] at hq
        obtain rfl := Option.some.inj hq
        refine ⟨by omega, rfl, ?_⟩
        rw [update_self, update_self, nil_append]
        rfl
      · rw [update_of_ne he] at hq
        obtain ⟨h1, h2, h3⟩ := h.seen q src hq
        refine ⟨by omega, h2, ?_⟩
        rw [update_of_ne he, update_of_ne he]
        exact h3
  | some src =>
    obtain ⟨hsrc, hfirst, hidxs⟩ := h.seen _ src hs
    have hlen : (st.idxs (u.seqFirst (first + n))).length ≤ nKv := by
      rw [hidxs]
      exact (length_filter_le _ _).trans_eq length_range
    have hmem : ∀ j ∈ st.idxs (u.seqFirst (first + n)), j < nKv := by
      intro j hj
      rw [hidxs] at hj
      exact mem_range.mp (mem_filter.mp hj).1
    obtain ⟨hin, hout, hframe⟩ := @maskPatch_spec nKv c u m src (first + n) _ hlen hmem st.data
    constructor
    · intro i hi'
      rcases hlast i hi' with hlt | rfl
      · exact (h.rows i hlt).congr (by omega) hframe
      · intro j hj
        by_cases hr : j ∈ st.idxs (u.seqFirst (first + n))
        · exact hin j hr
        · -- not recorded: the value of the first row is the value of this one
          have hfar : (c.tokenCells u (first + n)).records c.cfg m (u.seqFirst (first + n))
              (u.seqPosMin (u.seqFirst (first + n))) j = false := by
            rw [hidxs, mem_filter, mem_range] at hr
            simpa [hj, tokenCells] using hr
          have hsrcpos := u.seqPosMin_le (i := src) (by omega)
          have hrow := h.rows src hsrc j hj
          rw [hfirst] at hsrcpos hrow
          refine (hout j hj hr).trans (hrow.trans ?_)
          rw [tokenCells, hfirst]
          exact Cells.maskValue_far ha hfar hsrcpos hpos
    · intro q src' hq
      obtain ⟨h1, h2, h3⟩ := h.seen q src' hq
      exact ⟨by omega, h2, h3⟩

theorem maskStream_rows {nTps s : Nat} {data : MaskData} (ha : m.alibi = false)
    (hs : (s + 1) * nTps ≤ u.nTokens) (h : ∀ i < s * nTps, c.RowDone u m nKv data i) :
    ∀ i < (s + 1) * nTps, c.RowDone u m nKv (c.maskStream u m nKv nTps data s) i := by
  rw [Nat.succ_mul] at hs ⊢
  have hdone : c.Masked u m nKv (s * nTps) nTps
      ((range nTps).foldl (fun st ii => c.maskToken u m nKv st (s * nTps + ii))
        { data := data, srct := fun _ => none, idxs := fun _ => [] }) := by
    apply Loop.foldl_range_induction (motive := fun n st => c.Masked u m nKv (s * nTps) n st)
    · exact ⟨h, fun q src hq => by cases hq⟩
    · exact fun n hn st hst => hst.token ha (by omega)
  exact hdone.rows

/-- The body of the column loop computes the mask of the specification. -/
theorem maskValue_eq_zero_iff (c : Cache) (u : Ubatch) (causal : Bool) (i j : Nat) :
    (c.tokenCells u i).maskValue c.cfg { causal := causal, is2d := u.isPos2d, alibi := false }
        (u.seqFirst i) (u.maskPos i) j =
      if c.Attends u causal i j then some 0 else none := by
  by_cases he : ((c.tokenCells u i).cell j).pos = -1
  · simp [Cells.maskValue, Cells.isEmpty, Attends, he]
  · by_cases hq : u.seqFirst i ∈ ((c.tokenCells u i).cell j).seq
    · have hswa : (c.cfg.swaType != .none && isMaskedSwa c.cfg.nSwa c.cfg.swaType
          ((c.tokenCells u i).cell j).pos (u.pos i)) = isMaskedSwa c.cfg.nSwa c.cfg.swaType
          ((c.tokenCells u i).cell j).pos (u.pos i) := by
        cases c.cfg.swaType <;> rfl
      have hcausal : (causal && (decide (u.pos i < ((c.tokenCells u i).cell j).pos) ||
          (u.isPos2d && ((c.tokenCells u i).cell j).pos == u.pos i &&
            ((c.tokenCells u i).cell j).ext.is2dGt (u.maskPos i).x (u.maskPos i).y))) = true ↔
          ¬ (causal = true → ¬ u.pos i < ((c.tokenCells u i).cell j).pos ∧
            ¬ (3 ≤ u.nPos ∧ ((c.tokenCells u i).cell j).pos = u.pos i ∧
              (u.pos (i + u.nTokens) < ((c.tokenCells u i).cell j).ext.y ∨
                (((c.tokenCells u i).cell j).ext.y = u.pos (i + u.nTokens) ∧
                  u.pos (i + u.nTokens * 2) < ((c.tokenCells u i).cell j).ext.x)))) := by
        by_cases h2 : 3 ≤ u.nPos
        · simp only [Ubatch.isPos2d, Ubatch.maskPos, CellExt.is2dGt, h2, decide_true, if_true,
            Bool.true_and, Bool.and_eq_true, Bool.or_eq_true, beq_iff_eq, decide_eq_true_eq]
          tauto
        · simp [Ubatch.isPos2d, h2]
      have hpos : (u.maskPos i).p = u.pos i := rfl
      simp only [Cells.maskValue, Cells.isEmpty, Cells.seqHas, Attends, he, hq, beq_iff_eq,
        decide_true, Bool.not_true, Bool.false_eq_true, if_false, hpos, hswa, hcausal, ne_eq,
        not_false_eq_true, true_and]
      split
      · rename_i hc
        rw [if_neg fun h => hc h.1]
      · rename_i hc
        rw [not_not] at hc
        split
        · rename_i hm
          rw [if_neg (by simp [hm])]
        · rename_i hm
          rw [if_pos ⟨hc, by simpa using hm⟩]
    · simp [Cells.maskValue, Cells.isEmpty, Cells.seqHas, Attends, he, hq]

/-- Every row of the mask is the row computed cell by cell: zero exactly where the token may attend
to the cell, `-INFINITY` elsewhere. -/
theorem kq_mask_rows (c : Cache) (u : Ubatch) (causal : Bool) (nKv nStream : Nat)
    (hs : u.nTokens % nStream = 0) (data : MaskData) {i j : Nat} (hi : i < u.nTokens)
    (hj : j < nKv) : c.setInputKqMask u causal false nKv nStream data (nKv * i + j) =
      if c.Attends u causal i j then some 0 else none := by
  have hmul : nStream * (u.nTokens / nStream) = u.nTokens :=
    Nat.mul_div_cancel' (Nat.dvd_of_mod_eq_zero hs)
  have hrows : ∀ i < nStream * (u.nTokens / nStream), c.RowDone u
      { causal := causal, is2d := u.isPos2d, alibi := false } nKv
      (c.setInputKqMask u causal false nKv nStream data) i := by
    apply Loop.foldl_range_induction (motive := fun n data =>
      ∀ i < n * (u.nTokens / nStream), c.RowDone u
        { causal := causal, is2d := u.isPos2d, alibi := false } nKv data i)
    · intro i hi
      omega
    · intro s hs data hdata
      refine maskStream_rows rfl ?_ hdata
      calc (s + 1) * (u.nTokens / nStream)
          ≤ nStream * (u.nTokens / nStream) := Nat.mul_le_mul_right _ hs
        _ = u.nTokens := hmul
  rw [hmul] at hrows
  rw [hrows i hi j hj, maskValue_eq_zero_iff]

/-- Two cells of one sequence, at the positions 0 and 1. -/
def twoCells : Cache :=
  { Cache.init { kvSize := 2, nStream := 1, nSeqMax := 1, nSwa := 4, swaType := .standard
                 nPosPerEmbd := 1 } with
    cells := fun _ =>
      ((Cells.resize 2).put 0 { pos := 0, seq := {0} }).put 1 { pos := 1, seq := {0} } }

/-- The two tokens that filled them. -/
def twoTokens : Ubatch :=
  { nTokens := 2, nPos := 1, pos := fun i => i, seqId := fun _ => [0], seqIdUnq := [0] }

/-- The second token, whose row is copied, attends to both cells. -/
theorem kq_mask_rows_twoTokens :
    twoCells.setInputKqMask twoTokens true false 2 1 (fun _ => none) 2 = some 0 ∧
      twoCells.setInputKqMask twoTokens true false 2 1 (fun _ => none) 3 = some 0 := by
  have hrow := fun j (hj : j < 2) => kq_mask_rows twoCells twoTokens true 2 1 rfl (fun _ => none)
    (i := 1) (j := j) (by decide) hj
  exact ⟨(hrow 0 (by decide)).trans (if_pos (by decide)),
    (hrow 1 (by decide)).trans (if_pos (by decide))⟩

end Cache

end Llama.Kv
