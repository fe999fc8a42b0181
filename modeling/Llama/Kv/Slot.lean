import Llama.Kv.Sweep

/-!
# The slot that `find_slot` returns

The search without the continuity requirement tests the cells from the head to the
end and then from the start to the head, each once. It collects the usable ones, so
it fails only when the stream has fewer usable cells than tokens.
-/

namespace Llama.Kv

/-- The order in which the cells of a stream are tested. -/
def scanOrder (head n : Nat) : List Nat := List.range' head (n - head) ++ List.range head

variable {f : Config} {x : Cells} {n head nTokens : Nat} {T : SeqId → Prop}

theorem scanOrder_length (h : head ≤ n) : (scanOrder head n).length = n := by
  simp [scanOrder]
  omega

theorem mem_scanOrder (h : head ≤ n) {i : Nat} : i ∈ scanOrder head n ↔ i < n := by
  simp only [scanOrder, List.mem_append, List.mem_range'_1, List.mem_range]
  omega

theorem scanOrder_nodup (head n : Nat) : (scanOrder head n).Nodup := by
  refine List.Nodup.append List.nodup_range' List.nodup_range ?_
  intro i hi hj
  rw [List.mem_range'_1] at hi
  rw [List.mem_range] at hj
  omega

/-- The usable cells among the first `k` tested. -/
def usableIn (f : Config) (x : Cells) (head k : Nat) : List Nat :=
  ((scanOrder head x.size).take k).filter (x.canUse f.nSwa f.swaType)

/-- State of the search after `st.nTested` cells. -/
structure Search.At (f : Config) (x : Cells) (head nTokens : Nat) (st : Search) : Prop where
  tested : st.nTested < x.size
  next : (st.headCur = head + st.nTested ∧ head + st.nTested ≤ x.size) ∨
    (st.headCur + (x.size - head) = st.nTested)
  idxs : st.idxs = usableIn f x head st.nTested
  short : st.idxs.length < nTokens

/-- The search loop leaves within the given number of turns. -/
def searchHalts (f : Config) (x : Cells) (nTokens nTest : Nat) (cont : Bool) : Nat → Search → Bool
  | 0, _ => false
  | fuel + 1, st =>
    if x.size < st.headCur + nTest then
      searchHalts f x nTokens nTest cont fuel
        { st with nTested := st.nTested + (x.size - st.headCur), headCur := 0 }
    else
      let st := testCells f x cont nTest st
      if st.idxs.length = nTokens then true
      else
        let st := if cont then { st with idxs := [] } else st
        if x.size ≤ st.nTested then true else searchHalts f x nTokens nTest cont fuel st

/-- Turns that the search may still take. -/
def Search.turns (x : Cells) (st : Search) : Nat :=
  2 * (x.size - st.nTested) + if st.headCur = x.size then 1 else 0

/-- Testing one cell is reading the next element of the order. -/
theorem usableIn_succ (h : head ≤ x.size) {k i : Nat} (hk : k < x.size)
    (hi : (i = head + k ∧ head + k ≤ x.size) ∨ i + (x.size - head) = k) (hlt : i < x.size) :
    usableIn f x head (k + 1) = usableIn f x head k ++
      if x.canUse f.nSwa f.swaType i then [i] else [] := by
  have hget : (scanOrder head x.size)[k]? = some i := by
    rcases hi with ⟨rfl, -⟩ | rfl
    · rw [scanOrder, List.getElem?_append_left (by rw [List.length_range']; omega)]
      exact (List.getElem?_range' (by omega)).trans (by simp)
    · have hi : i < head := by omega
      rw [scanOrder, List.getElem?_append_right (by rw [List.length_range']; omega),
        List.length_range', Nat.add_sub_cancel]
      exact List.getElem?_range hi
  rw [usableIn, usableIn, List.take_add_one, hget, List.filter_append]
  by_cases hu : x.canUse f.nSwa f.swaType i <;> simp [hu]

/-- The reads of the search meet their assertions. -/
theorem Cells.Good.canUsePre (h : x.Good n T) {i : Nat} (hi : i < n) : x.canUsePre i = true := by
  have hs := h.lt_size hi
  rcases h.pos i hs with hp | hp
  · simp [Cells.canUsePre, Cells.isEmptyPre, Cells.isEmpty, hs, hp]
  · have hne : (x.cell i).pos ≠ -1 := by omega
    simp [Cells.canUsePre, Cells.isEmptyPre, Cells.nonEmptyPre, hs, hp, hne]

/-- One test of the search that is not continuous. -/
theorem testCells_one (st : Search) : testCells f x false 1 st =
    { headCur := st.headCur + 1
      nTested := st.nTested + 1
      idxs := st.idxs ++ if x.canUse f.nSwa f.swaType st.headCur then [st.headCur] else []
      ok := st.ok && x.canUsePre st.headCur } := by
  simp only [testCells]
  by_cases hu : x.canUse f.nSwa f.swaType st.headCur <;> simp [hu]

/-- What a search leaves: the usable cells in scan order, cut at the number of tokens. -/
structure SearchResult (f : Config) (x : Cells) (head nTokens : Nat) (r : Option (List Nat)) :
    Prop where
  /-- A slot consists of usable cells, in scan order. -/
  found : ∀ idxs, r = some idxs → idxs.length = nTokens ∧ ∃ k ≤ x.size, idxs = usableIn f x head k
  /-- Without a slot all cells were tested and too few are usable. -/
  failed : r = none → (usableIn f x head x.size).length < nTokens

theorem searchLoop_spec (hh : head ≤ x.size) :
    ∀ (fuel : Nat) (st : Search), st.At f x head nTokens → st.turns x < fuel →
      searchHalts f x nTokens 1 false fuel st = true ∧
        SearchResult f x head nTokens (searchLoop f x nTokens 1 false fuel st).1 := by
  intro fuel
  induction fuel with
  | zero => intro st _ hf; omega
  | succ fuel ih =>
    intro st hst hf
    have htested := hst.tested
    rw [searchLoop, searchHalts]
    by_cases hw : x.size < st.headCur + 1
    · -- wrap around: only from the end of the cells, so nothing is skipped
      rw [if_pos hw, if_pos hw]
      have hhead : st.headCur = x.size := by
        rcases hst.next with ⟨h1, h2⟩ | h1 <;> omega
      apply ih
      · refine ⟨by simp [hhead, htested], .inr ?_, by simpa [hhead] using hst.idxs, hst.short⟩
        rcases hst.next with ⟨h1, h2⟩ | h1 <;> simp [hhead] <;> omega
      · simp only [Search.turns, hhead, if_true] at hf ⊢
        have : ¬ (0 = x.size) := by omega
        simp only [this, if_false]
        omega
    · rw [if_neg hw, if_neg hw]
      have hlt : st.headCur < x.size := by omega
      have hsucc := usableIn_succ (f := f) hh htested hst.next hlt
      rw [← hst.idxs] at hsucc
      rw [testCells_one]
      simp only [Bool.false_eq_true, if_false]
      have hle : (usableIn f x head (st.nTested + 1)).length ≤ st.idxs.length + 1 := by
        rw [hsucc]
        split <;> simp
      have hshort := hst.short
      rw [← hsucc]
      by_cases hlen : (usableIn f x head (st.nTested + 1)).length = nTokens
      · rw [if_pos hlen, if_pos hlen]
        refine ⟨rfl, ?_, by simp⟩
        intro idxs he
        obtain rfl := Option.some.inj he
        exact ⟨hlen, st.nTested + 1, by omega, rfl⟩
      · rw [if_neg hlen, if_neg hlen]
        by_cases hend : x.size ≤ st.nTested + 1
        · rw [if_pos hend, if_pos hend]
          have heq : st.nTested + 1 = x.size := by omega
          refine ⟨rfl, by simp, fun _ => ?_⟩
          rw [← heq]
          omega
        · rw [if_neg hend, if_neg hend]
          apply ih
          · refine ⟨by simp only; omega, ?_, rfl, by simp only; omega⟩
            rcases hst.next with ⟨h1, h2⟩ | h1
            · exact .inl ⟨by simp only; omega, by simp only; omega⟩
            · exact .inr (by simp only; omega)
          · have : st.headCur ≠ x.size := by omega
            simp only [Search.turns, this, if_false] at hf ⊢
            split <;> omega

/-- The search for single cells meets the assertions of its reads. -/
theorem searchLoop_ok (hpre : ∀ i < x.size, x.canUsePre i = true) :
    ∀ (fuel : Nat) (st : Search), st.ok = true →
      (searchLoop f x nTokens 1 false fuel st).2 = true := by
  intro fuel
  induction fuel with
  | zero => exact fun st hok => hok
  | succ fuel ih =>
    intro st hok
    rw [searchLoop]
    by_cases hw : x.size < st.headCur + 1
    · rw [if_pos hw]
      exact ih _ hok
    · rw [if_neg hw, testCells_one]
      have hread : (st.ok && x.canUsePre st.headCur) = true := by
        rw [hok, hpre _ (by omega)]
        rfl
      simp only [Bool.false_eq_true, if_false, hread]
      generalize (st.idxs ++ if x.canUse f.nSwa f.swaType st.headCur then [st.headCur] else []) = l
      split
      · rfl
      · split
        · rfl
        · exact ih _ rfl

/-- Where the search of a stream starts. -/
def startHead (x : Cells) (head nTokens : Nat) : Nat :=
  if x.getUsed + 2 * nTokens < head then 0 else head

theorem startHead_le (hh : head ≤ x.size) : startHead x head nTokens ≤ x.size := by
  unfold startHead
  split <;> omega

/-- The search of one stream with enough cells, from a head inside the stream. -/
theorem findSlotStream_result (hh : head ≤ x.size) (ht : 0 < nTokens) (hsz : nTokens ≤ x.size) :
    searchHalts f x nTokens 1 false (2 * x.size + 2)
        { headCur := startHead x head nTokens, nTested := 0, idxs := [], ok := true } = true ∧
      SearchResult f x (startHead x head nTokens) nTokens
        (findSlotStream f x head nTokens false).1 := by
  have hh' : startHead x head nTokens ≤ x.size := startHead_le hh
  rw [findSlotStream]
  simp only [Nat.not_lt.mpr hsz, if_false, Bool.false_eq_true]
  apply searchLoop_spec hh'
  · exact ⟨by simp only; omega, .inl ⟨rfl, hh'⟩, by simp [usableIn], ht⟩
  · simp only [Search.turns]
    split <;> omega

/-- What the search of one stream finds. -/
theorem findSlotStream_found (hh : head ≤ x.size) (ht : 0 < nTokens) {idxs : List Nat}
    (hi : (findSlotStream f x head nTokens false).1 = some idxs) :
    idxs.length = nTokens ∧ idxs.Nodup ∧
      ∀ i ∈ idxs, i < x.size ∧ x.canUse f.nSwa f.swaType i = true := by
  by_cases hsz : x.size < nTokens
  · simp [findSlotStream, hsz] at hi
  obtain ⟨-, hres⟩ := findSlotStream_result (f := f) hh ht (Nat.le_of_not_lt hsz)
  obtain ⟨hlen, k, -, rfl⟩ := hres.found idxs hi
  refine ⟨hlen, ?_, fun i hi => ?_⟩
  · exact ((scanOrder_nodup _ _).sublist (List.take_sublist _ _)).filter _
  · obtain ⟨hm, hu⟩ := List.mem_filter.mp hi
    exact ⟨(mem_scanOrder (startHead_le hh)).mp (List.mem_of_mem_take hm), hu⟩

/-- What the search of one stream returns. -/
theorem findSlotStream_spec (hx : x.Good n T) (hh : head ≤ n) (ht : 0 < nTokens) :
    (findSlotStream f x head nTokens false).2 = true ∧
      ∀ idxs, (findSlotStream f x head nTokens false).1 = some idxs →
        idxs.length = nTokens ∧ idxs.Nodup ∧
          ∀ i ∈ idxs, i < n ∧ x.canUse f.nSwa f.swaType i = true := by
  constructor
  · rw [findSlotStream]
    split
    · rfl
    · apply searchLoop_ok _ _ _ rfl
      intro i hi
      exact hx.canUsePre (by rwa [hx.size] at hi)
  · intro idxs hi
    rw [← hx.size] at hh
    obtain ⟨hlen, hnd, hall⟩ := findSlotStream_found hh ht hi
    refine ⟨hlen, hnd, fun i hi => ?_⟩
    rw [← hx.size]
    exact hall i hi

/-- A complete scan sees every usable cell. -/
theorem length_usableIn (h : head ≤ x.size) : (usableIn f x head x.size).length =
    ((List.range x.size).filter (x.canUse f.nSwa f.swaType)).length := by
  have hperm : (scanOrder head x.size).Perm (List.range x.size) := by
    rw [List.perm_ext_iff_of_nodup (scanOrder_nodup _ _) List.nodup_range]
    intro i
    rw [mem_scanOrder h, List.mem_range]
  rw [usableIn, List.take_of_length_le (scanOrder_length h).le]
  exact (hperm.filter _).length_eq

/-- The search finds a slot exactly when there are enough usable cells. -/
theorem findSlotStream_isSome_iff (hh : head ≤ x.size) (ht : 0 < nTokens) :
    (findSlotStream f x head nTokens false).1.isSome ↔
      nTokens ≤ ((List.range x.size).filter (x.canUse f.nSwa f.swaType)).length := by
  have hcount := List.length_filter_le (x.canUse f.nSwa f.swaType) (List.range x.size)
  rw [List.length_range] at hcount
  by_cases hsz : x.size < nTokens
  · simp only [findSlotStream, hsz, if_true, Option.isSome_none, Bool.false_eq_true, false_iff]
    omega
  obtain ⟨-, hres⟩ := findSlotStream_result (f := f) hh ht (Nat.le_of_not_lt hsz)
  have hstart : startHead x head nTokens ≤ x.size := startHead_le hh
  rw [← length_usableIn hstart]
  cases hr : (findSlotStream f x head nTokens false).1 with
  | none =>
    have := hres.failed hr
    simp only [Option.isSome_none, Bool.false_eq_true, false_iff]
    omega
  | some idxs =>
    obtain ⟨hlen, k, hk, rfl⟩ := hres.found idxs hr
    simp only [Option.isSome_some, true_iff]
    refine hlen.ge.trans ?_
    exact ((List.take_prefix_take_left hk).sublist.filter _).length_le

/-- The search finds a slot when there are enough usable cells. -/
theorem findSlotStream_isSome (hx : x.Good n T) (hh : head ≤ n) (ht : 0 < nTokens)
    (hroom : nTokens ≤ ((List.range x.size).filter (x.canUse f.nSwa f.swaType)).length) :
    ∃ idxs, (findSlotStream f x head nTokens false).1 = some idxs :=
  Option.isSome_iff_exists.mp ((findSlotStream_isSome_iff (by rwa [hx.size]) ht).mpr hroom)

/-- A usable cell is empty or has one owner. -/
theorem Cells.Good.canUse_cases (h : x.Good n T) {nSwa i : Nat} {t : SwaType} (hi : i < n)
    (hu : x.canUse nSwa t i = true) : (x.cell i).pos = -1 ∨
      (0 ≤ (x.cell i).pos ∧ ∃ q, (x.cell i).seq = {q}) := by
  rcases h.pos i (h.lt_size hi) with hp | hp
  · exact .inl hp
  · right
    refine ⟨hp, ?_⟩
    have hne : ¬ (x.cell i).pos = -1 := by omega
    simp only [Cells.canUse, Cells.isEmpty, Cells.seqCount, Bool.or_eq_true, beq_iff_eq, hne,
      false_or, Bool.and_eq_true] at hu
    exact Finset.card_eq_one.mp hu.1

end Llama.Kv
