import Llama.Decode.Start

/-!
# A failed ubatch

When the computation of an ubatch fails, `decode` is meant to remove all positions of that ubatch
from the memory. It does so for the first sequence of each token only, and a hybrid memory
refuses unless the sequence begins in the ubatch.
-/

namespace Llama.Decode

open Batch List

variable {E : Type} {b : Allocr E} {m m' m1 : Memory}

/-- A context whose attention cache has no sliding window. -/
structure Setup where
  /-- The parameters. -/
  params : Params
  /-- The attention cache. -/
  cfg : Kv.Config
  /-- The cache was constructed. -/
  valid : cfg.Valid
  /-- No sliding window. -/
  noSwa : cfg.swaType = .none
  streams : cfg.nStream = if params.unified then 1 else cfg.nSeqMax
  /-- Tokens have a position. -/
  nPos : 0 < cfg.nPosPerEmbd

/-- Every token has a sequence and a position. -/
structure Placed (b : Allocr E) : Prop where
  seqs : ∀ i < b.nTokens, 0 < b.nSeqId i
  pos : ∀ i < b.nTokens, 0 ≤ b.pos i

/-- The memories that a run reaches: by the functions of the memory module, by calls of `decode`
with placed tokens, whether they fail or not, and by a state that was read and has a position for
each sequence. The recurrent part may start with any cells. -/
inductive Reachable (S : Setup) (E : Type) : Memory → Prop
  | init (r : Option Recurrent.Memory) : Reachable S E { attn := Kv.Cache.init S.cfg, recr := r }
  | clear {m : Memory} : Reachable S E m → Reachable S E m.clear
  | seqRm {m : Memory} (id p0 p1 : Int) : Reachable S E m → Reachable S E (m.seqRm id p0 p1).2
  | seqCp {m : Memory} (src dst p0 p1 : Int) : Reachable S E m → S.cfg.ValidSeq (seqIdOf src) →
      Reachable S E (m.seqCp src dst p0 p1)
  | seqKeep {m : Memory} (id : Int) : Reachable S E m → Reachable S E (m.seqKeep id)
  | seqAdd {m : Memory} (id p0 p1 shift : Int) : Reachable S E m →
      Reachable S E (m.seqAdd id p0 p1 shift)
  | seqDiv {m : Memory} (id p0 p1 d : Int) : Reachable S E m → 1 ≤ d →
      Reachable S E (m.seqDiv id p0 p1 d)
  | restored {m : Memory} {s s' : Kv.Store} {q : Option Kv.SeqId} {bs rest : List UInt8}
      (r : Option Recurrent.Memory) : Reachable S E m → s.cache = m.attn →
      (∀ q' ∈ q, S.cfg.ValidSeq q') → s.stateRead q bs = some (s', rest) → s'.cache.Tidy →
      Reachable S E { attn := s'.cache, recr := r }
  | decode {m : Memory} (env : Env) (inp : Input E) {o : Outcome} : Reachable S E m →
      (∀ b, Batch.init (S.params.args m) inp = some b → Placed b) →
      decode S.params env m inp = some o → Reachable S E o.memory

variable {inp : Input E} {s i : Nat} {c : Cut} {m0 : Memory} {pre : List Cut}

theorem init_eq {a : Args} (h : init a inp = some b) : b = fill a inp ∧ inp.valid a = true := by
  simp only [init] at h
  split at h
  · rename_i hc
    cases h
    exact ⟨rfl, hc.2.1⟩
  · cases h

/-- An accepted batch has only sequences of the cache. -/
theorem Setup.seatable (S : Setup) (hm : m.attn.cfg = S.cfg)
    (hinit : init (S.params.args m) inp = some b) (hb : Placed b) : Seatable S.cfg b := by
  obtain ⟨rfl, hvalid⟩ := init_eq hinit
  have hmax : (if S.params.unified then Kv.maxSeq else S.cfg.nSeqMax) ≤ S.cfg.seqToStreamSize ∧
      0 < if S.params.unified then Kv.maxSeq else S.cfg.nSeqMax := by
    have hs := S.streams
    have hpos := S.valid.pos
    have hmax := S.valid.seqMax
    unfold Kv.Config.seqToStreamSize
    cases hu : S.params.unified with
    | true =>
      rw [hu, if_pos rfl] at hs
      rw [hs]
      exact ⟨by simp, Nat.succ_pos _⟩
    | false =>
      rw [hu] at hs
      simp only [Bool.false_eq_true, if_false] at hs ⊢
      split <;> omega
  have hargs : (S.params.args m).nSeqMax =
    if S.params.unified then Kv.maxSeq else S.cfg.nSeqMax := by
    rw [← hm]
    rfl
  refine ⟨fun i hi s hs => ?_, hargs.trans_le hmax.1, hb.seqs, hb.pos, ?_⟩
  · simp only [Input.valid, Bool.and_eq_true] at hvalid
    obtain ⟨j, hj, rfl⟩ := mem_map.mp hs
    have hseq := hvalid.2
    change 0 ≤ (inp.seqId.getD fun _ _ => 0) i j ∧
      (inp.seqId.getD fun _ _ => 0) i j < ((S.params.args m).nSeqMax : Int)
    cases hid : inp.seqId with
    | none =>
      rw [hargs]
      have := hmax.2
      simp only [Option.getD_none, le_refl, true_and]
      omega
    | some g =>
      rw [hid] at hseq
      exact of_decide_eq_true (all_eq_true.mp (all_eq_true.mp hseq i (mem_range.mpr hi)) j hj)
  · change 0 < m.attn.cfg.nPosPerEmbd
    rw [hm]
    exact S.nPos

theorem Reachable.plain {S : Setup} (h : Reachable S E m) : m.attn.Plain S.cfg := by
  induction h with
  | init r => exact ⟨Kv.Cache.init_sized _, Kv.Cache.init_tidy _⟩
  | clear _ ih => exact ⟨ih.toSized.clear, ih.tidy.clear⟩
  | seqRm id p0 p1 _ ih => exact Memory.seqRm_plain ih id p0 p1
  | seqCp src dst p0 p1 _ hsrc ih =>
    exact ⟨ih.toSized.seqCp _ _ p0 p1 (S.valid.seqToStream_lt hsrc), ih.tidy.seqCp _ _ p0 p1⟩
  | seqKeep id _ ih => exact ⟨ih.toSized.seqKeep _, ih.tidy.seqKeep _⟩
  | seqAdd id p0 p1 shift _ ih =>
    exact ⟨ih.toSized.seqAdd _ p0 p1 shift, ih.tidy.seqAdd _ p0 p1 shift⟩
  | seqDiv id p0 p1 d _ hd ih => exact ⟨ih.toSized.seqDiv _ p0 p1 d, ih.tidy.seqDiv _ p0 p1 hd⟩
  | restored r _ hs hq hr htidy ih =>
    exact ⟨Kv.Store.stateRead_sized S.valid hq (hs ▸ ih.toSized) _ _ _ hr, htidy⟩
  | decode env inp _ hplaced hd ih =>
    exact (decode_spec S.valid S.noSwa ih (fun b hb => S.seatable ih.cfg hb (hplaced b hb)) hd).1

/-- The sequence contains the position: a cell of the attention cache has it. The recurrent part
keeps no more than one position of a sequence. -/
def Memory.Contains (m : Memory) (q : Kv.SeqId) (p : Int) : Prop := m.attn.Contains q p

/-- The new positions of every sequence increase strictly, from what it contains on. -/
structure Extends (m : Memory) (b : Allocr E) : Prop extends Placed b where
  /-- Inside the batch. -/
  increasing : ∀ i j, i < j → j < b.nTokens → ∀ s ∈ b.seqSet i, s ∈ b.seqSet j → b.pos i < b.pos j
  /-- After the memory. -/
  fresh : ∀ i < b.nTokens, ∀ s ∈ b.seqSet i, ∀ p, m.Contains (seqIdOf s) p → p < b.pos i

/-- Every sequence contains what it contained before, and the tokens of the first `k` cuts. -/
def LeavesNoTrace (m : Memory) (b : Allocr E) (cuts : List Cut) (k : Nat) (m' : Memory) : Prop :=
  ∀ q p, m'.Contains q p ↔ m.Contains q p ∨ ∃ c ∈ cuts.take k, HasToken b c q p

/-- No position is the greatest one, and each sequence of a token is the first sequence of a token
that does not come later; in a hybrid memory that one is at position zero. -/
def RollsBack (m : Memory) (b : Allocr E) (c : Cut) : Prop :=
  ∀ i ∈ c.idxs, ∀ s ∈ b.seqSet i, b.pos i < Kv.posMax ∧ ∃ j ∈ c.idxs,
    (b.seqId j 0).toNat = s ∧ b.pos j ≤ b.pos i ∧ (m.recr.isSome = true → b.pos j = 0)

instance (m : Memory) (b : Allocr E) (c : Cut) : Decidable (RollsBack m b c) := by
  unfold RollsBack
  infer_instance

theorem Sits.unique {r : Recurrent.Memory} {p p' : Int} (h : Sits r s p) (h' : Sits r s p') :
    p = p' := by
  obtain ⟨t, -, htail, -, rfl⟩ := h.cell
  obtain ⟨t', -, htail', -, rfl⟩ := h'.cell
  obtain rfl := Option.some.inj (htail.symm.trans htail')
  rfl

theorem Extends.pos_le (h : Extends m b) {l : Nat} (hl : l < b.nTokens) (hle : i ≤ l)
    (hi : s ∈ b.seqSet i) (hs : s ∈ b.seqSet l) : b.pos i ≤ b.pos l := by
  rcases Nat.eq_or_lt_of_le hle with rfl | hlt
  · exact le_rfl
  · exact (h.increasing i l hlt hl s hi hs).le

/-- Where the sequences end after the ubatch of a cut was applied. -/
theorem Applied.exists_last {f : Kv.Config} (hb : Seatable f b) (hext : Extends m b)
    (hlt : ∀ i ∈ c.idxs, i < b.nTokens) (happ : Applied b m0 c m1) :
    ∃ last : Nat → Int, ∀ i ∈ c.idxs, ∀ s ∈ b.seqSet i, m1.EndsAt s (last s) ∧
      (m1.recr.isSome = true → b.pos i ≤ last s ∧ ∃ l ∈ c.idxs, b.pos l = last s) := by
  have hone : ∀ s, ∃ p, ∀ i ∈ c.idxs, s ∈ b.seqSet i → m1.EndsAt s p ∧
      (m1.recr.isSome = true → b.pos i ≤ p ∧ ∃ l ∈ c.idxs, b.pos l = p) := by
    intro s
    cases hr : m1.recr with
    | none =>
      refine ⟨0, fun i _ _ => ⟨fun r h => ?_, fun h => ?_⟩⟩
      · rw [hr] at h
        cases h
      · cases h
    | some r =>
      by_cases hex : ∃ i ∈ c.idxs, s ∈ b.seqSet i
      · obtain ⟨i0, hi0, hs0⟩ := hex
        obtain ⟨l0, hl0, -, -, hend0⟩ := happ.ends i0 hi0 s hs0
        refine ⟨b.pos l0, fun i hi hs => ⟨hend0, fun _ => ⟨?_, l0, hl0, rfl⟩⟩⟩
        obtain ⟨l, hl, hle, hsub, hend⟩ := happ.ends i hi s hs
        -- the last token has a sequence in common with this one
        obtain ⟨s', hs'⟩ := Finset.nonempty_iff_ne_empty.mpr (hb.allSeated l (hlt l hl))
        rw [(hend0 r hr).unique (hend r hr)]
        exact hext.pos_le (hlt l hl) hle (hsub hs') hs'
      · exact ⟨0, fun i hi hs => (hex ⟨i, hi, hs⟩).elim⟩
  choose last hlast using hone
  exact ⟨last, fun i hi s hs => hlast s i hi hs⟩

/-- The position of a token is new when its cut is applied. -/
theorem not_before {mode : Mode} {p p' : Progress} {q : Kv.SeqId} (hext : Extends m b)
    (hinv : SplitInv b mode p (pre.flatMap Cut.idxs)) (htakes : Takes b p c.idxs p')
    (hi : i ∈ c.idxs) (hs : q.val ∈ b.seqSet i) :
    ¬ (m.Contains q (b.pos i) ∨ ∃ c' ∈ pre, HasToken b c' q (b.pos i)) := by
  rintro (hold | ⟨c', hc', i', hi', hs', hp⟩)
  · rw [← seqIdOf_val q] at hold
    exact (hext.fresh i (htakes.lt i hi) _ hs _ hold).false
  · -- two tokens of the sequence have different positions
    have hdone : i' ∈ pre.flatMap Cut.idxs := mem_flatMap.mpr ⟨c', hc', hi'⟩
    have hne : i' ≠ i := by
      rintro rfl
      have h1 := (hinv.covered.used i').mpr hdone
      rw [htakes.unused i' hi] at h1
      cases h1
    rcases Nat.lt_or_gt_of_ne hne with h | h
    · have := hext.increasing i' i h (htakes.lt i hi) _ hs' hs
      omega
    · have := hext.increasing i i' h (hinv.covered.lt i' hdone) _ hs hs'
      omega

/-- Where exactly the rollback of a failed cut leaves what was there before. -/
theorem rollback_iff (S : Setup) {post : List Cut} {nUbatch : Nat} {embdAll : Bool}
    (hb : Seatable S.cfg b) (hext : Extends m b)
    (hcuts : m.cuts b nUbatch embdAll = pre ++ c :: post)
    (h0 : ∀ q p, m0.Contains q p ↔ m.Contains q p ∨ ∃ c' ∈ pre, HasToken b c' q p)
    (hsome : m0.recr.isSome = m.recr.isSome) (happ : Applied b m0 c m1) :
    (∀ q p, (m1.rollback (b.ubatch c)).Contains q p ↔
      m.Contains q p ∨ ∃ c' ∈ pre, HasToken b c' q p) ↔ RollsBack m b c := by
  obtain ⟨p1, p2, hinv, hsplit⟩ := cuts_at hb hcuts
  obtain ⟨htakes, -⟩ := hinv.step hb.allSeated (m.mode_sequential embdAll) hsplit
  have hlt := htakes.lt
  have hpre : ∀ c' ∈ pre, ∀ i ∈ c'.idxs, i ∈ pre.flatMap Cut.idxs := fun c' hc' i hi =>
    mem_flatMap.mpr ⟨c', hc', hi⟩
  have hsome1 : m1.recr.isSome = m.recr.isSome := happ.isSome.trans hsome
  have hmem : ∀ i ∈ c.idxs, ∀ s ∈ b.seqSet i, s < Kv.maxSeq := fun i hi s hs =>
    (seqSet_lt hb (hlt i hi) hs).trans_le (hb.bound.trans (seqToStreamSize_le S.valid))
  obtain ⟨last, hlast⟩ := happ.exists_last hb hext hlt
  have hnonneg := posMins_nonneg hb hlt
  have hend : ∀ s, posMins (b.ubatch c) s ≠ Kv.posMax → m1.EndsAt s (last s) := fun s hs => by
    obtain ⟨j, hj, rfl, -⟩ := posMins_attained hb hlt hs
    exact (hlast j hj _ (head_mem_seqSet (hb.seqs j (hlt j hj)))).1
  have hrb : ∀ q p, (m1.rollback (b.ubatch c)).Contains q p ↔
      ((m.Contains q p ∨ ∃ c' ∈ pre, HasToken b c' q p) ∨ HasToken b c q p) ∧
        ¬ (posMins (b.ubatch c) q.val ≤ p ∧ p < Kv.posMax ∧
          m1.Accepts (posMins (b.ubatch c) q.val) (last q.val)) := fun q p => by
    rw [Memory.Contains, contains_rollback hnonneg hend, happ.contains]
    exact and_congr_left fun _ => or_congr_left (h0 q p)
  have hnew : ∀ i ∈ c.idxs, ∀ s ∈ b.seqSet i, ∀ q : Kv.SeqId, q.val = s →
      ¬ (m.Contains q (b.pos i) ∨ ∃ c' ∈ pre, HasToken b c' q (b.pos i)) := by
    rintro i hi s hs q rfl
    exact not_before hext hinv htakes hi hs
  constructor
  · intro h
    have hgone : ∀ i ∈ c.idxs, ∀ s ∈ b.seqSet i, posMins (b.ubatch c) s ≤ b.pos i ∧
        b.pos i < Kv.posMax ∧ m1.Accepts (posMins (b.ubatch c) s) (last s) := fun i hi s hs => by
      by_contra hn
      refine hnew i hi s hs ⟨s, hmem i hi s hs⟩ rfl
        ((h _ _).mp ((hrb _ _).mpr ⟨.inr ⟨i, hi, hs, rfl⟩, hn⟩))
    intro i hi s hs
    obtain ⟨hle, hmax, hacc⟩ := hgone i hi s hs
    obtain ⟨j, hj, hfirst, hpos⟩ := posMins_attained hb hlt (hle.trans_lt hmax).ne
    refine ⟨hmax, j, hj, hfirst, hpos ▸ hle, fun hr => ?_⟩
    rw [← hsome1] at hr
    obtain ⟨hlast', l, hl, hpl⟩ := (hlast i hi s hs).2 hr
    obtain ⟨s', hs'⟩ := Finset.nonempty_iff_ne_empty.mpr (hb.allSeated l (hlt l hl))
    have hlmax : last s < Recurrent.maxPos := hpl ▸ (hgone l hl s' hs').2.1
    have h0le := hnonneg s
    have hle0 : ¬ 0 < posMins (b.ubatch c) s := fun hpos0 =>
      hacc hr ⟨hpos0, hle.trans hlast', hlmax⟩
    omega
  · intro h q p
    rw [hrb]
    constructor
    · rintro ⟨hin | ⟨i, hi, hq, rfl⟩, hn⟩
      · exact hin
      · obtain ⟨hmax, j, hj, hfirst, hle, hzero⟩ := h i hi _ hq
        have hmins : posMins (b.ubatch c) q.val ≤ b.pos j := hfirst ▸ posMins_le hb hlt hj
        refine (hn ⟨hmins.trans hle, hmax, fun hr hpos => ?_⟩).elim
        rw [hsome1] at hr
        have := hzero hr
        omega
    · refine fun hin => ⟨.inl hin, fun ⟨hle, hmax, _⟩ => ?_⟩
      obtain ⟨j, hj, hfirst, hpos⟩ := posMins_attained hb hlt (hle.trans_lt hmax).ne
      have hqj : q.val ∈ b.seqSet j := hfirst ▸ head_mem_seqSet (hb.seqs j (hlt j hj))
      rcases hin with hold | ⟨c', hc', i', hi', hq', rfl⟩
      · rw [← seqIdOf_val q] at hold
        have := hext.fresh j (hlt j hj) _ hqj p hold
        omega
      · obtain ⟨hbefore, k, hk, hqk⟩ := hinv.earlier htakes (hpre c' hc' i' hi') hj hq' hqj
        by_cases hmode : m.mode embdAll = .seq
        · -- only the first tokens of a sequence are removed from a hybrid memory
          obtain ⟨-, j', hj', hfirst', -, hzero⟩ := h j hj _ hqj
          have hmins : posMins (b.ubatch c) q.val ≤ b.pos j' := hfirst' ▸ posMins_le hb hlt hj'
          have hz := hzero (Memory.mode_seq hmode)
          have hlow := hext.increasing k j hk (hlt j hj) _ hqk hqj
          have hk0 := hb.pos k (hk.trans (hlt j hj))
          omega
        · have := hext.increasing i' j (hbefore hmode) (hlt j hj) _ hq' hqj
          omega

/-- A failed call was applied up to one cut, whose tokens are those that can stay. -/
theorem exists_failed_cut (S : Setup) {env : Env} {k : Nat} {st : Status} (hm : Reachable S E m)
    (hinit : init (S.params.args m) inp = some b) (hext : Extends m b)
    (hdec : decode S.params env m inp = some (.failed k st m')) : ∃ pre c post,
      m.cuts b S.params.nUbatch S.params.embeddings = pre ++ c :: post ∧ k = pre.length ∧
        (LeavesNoTrace m b (m.cuts b S.params.nUbatch S.params.embeddings) k m' ↔
          RollsBack m b c) := by
  have hplain := hm.plain
  have hb := S.seatable hplain.cfg hinit hext.toPlaced
  have hseat : ∀ b', init (S.params.args m) inp = some b' → Seatable S.cfg b' := fun b' hb' => by
    obtain rfl := Option.some.inj (hinit.symm.trans hb')
    exact hb
  obtain ⟨pre, c, post, m0, m1, hcuts, rfl, h0, hsome, happ, rfl⟩ :=
    (decode_spec S.valid S.noSwa hplain hseat hdec).2 b hinit k st m' rfl
  refine ⟨pre, c, post, hcuts, rfl, ?_⟩
  rw [LeavesNoTrace, hcuts, take_left' rfl]
  exact rollback_iff S hb hext hcuts h0 hsome happ

/-- A failed ubatch leaves no trace exactly when its cut can be rolled back. -/
theorem failed_ubatch_leaves_no_trace_iff (S : Setup) {env : Env} {inp : Input E} {k : Nat}
    {st : Status} (hm : Reachable S E m) (hinit : init (S.params.args m) inp = some b)
    (hext : Extends m b) (hdec : decode S.params env m inp = some (.failed k st m')) :
    LeavesNoTrace m b (m.cuts b S.params.nUbatch S.params.embeddings) k m' ↔
      ∃ c, (m.cuts b S.params.nUbatch S.params.embeddings)[k]? = some c ∧ RollsBack m b c := by
  obtain ⟨pre, c, post, hcuts, rfl, hiff⟩ := exists_failed_cut S hm hinit hext hdec
  have hget : (m.cuts b S.params.nUbatch S.params.embeddings)[pre.length]? = some c := by
    rw [hcuts, getElem?_append_right le_rfl, Nat.sub_self]
    rfl
  rw [hiff, hget]
  simp only [Option.some.injEq, exists_eq_left']

/-- One sequence, and ubatches of one token. -/
def oneStream : Setup where
  params := { unified := false, nUbatch := 1, embeddings := false, vocab := 1 }
  cfg := { kvSize := 2, nStream := 1, nSeqMax := 1, nSwa := 0, swaType := .none, nPosPerEmbd := 1 }
  valid := ⟨.inl rfl, Nat.one_pos, by decide⟩
  noSwa := rfl
  streams := rfl
  nPos := Nat.one_pos

def emptyHybrid : Memory where
  attn := Kv.Cache.init oneStream.cfg
  recr := some
    { size := 1, head := 0, used := 0, n := 0, rsZ := none
      cells := fun _ => { pos := -1, src := none, src0 := none, tail := none, seqId := ∅ } }

/-- Two tokens of one sequence. -/
def twoTokens : Input Unit := textBatch [[0], [0]] [0, 1]

/-- The batch that is made of them. -/
def twoPlaced : Allocr Unit := fill (oneStream.params.args emptyHybrid) twoTokens

/-- The computation of the second ubatch is aborted. -/
def secondAborted : Env where
  shifted _ := true
  reserved := true
  compute k := if k = 1 then .aborted else .success

/-- Where and how a call failed. -/
def Outcome.failure : Outcome → Option (Nat × Status)
  | failed k st _ => some (k, st)
  | _ => none

theorem emptyHybrid_positions :
    emptyHybrid.positions = { posMin := fun _ => -1, posMax := fun _ => -1 } := by
  have h : ∀ s, emptyHybrid.attn.seqPosMin s = -1 ∧ emptyHybrid.attn.seqPosMax s = -1 := fun s => by
    simp [emptyHybrid, Kv.Cache.init, Kv.Cache.seqPosMin, Kv.Cache.seqPosMax, Kv.Cells.seqPosMin,
      Kv.Cells.seqPosMax, Kv.Cells.resize]
  simp only [Memory.positions, h]
  rfl

theorem twoTokens_init : init (oneStream.params.args emptyHybrid) twoTokens = some twoPlaced := by
  rw [twoPlaced, Params.args, emptyHybrid_positions, init, if_pos]
  decide

theorem twoTokens_extends : Extends emptyHybrid twoPlaced := by
  have htwo : ∀ i < twoPlaced.nTokens, i = 0 ∨ i = 1 := fun i hi => by
    have : i < 2 := hi
    omega
  refine ⟨⟨fun i hi => ?_, fun i hi => ?_⟩, fun i j hij hj s _ _ => ?_, fun i _ s _ p hp => ?_⟩
  · rcases htwo i hi with rfl | rfl <;> exact Nat.one_pos
  · rcases htwo i hi with rfl | rfl <;> decide
  · have hj' := htwo j hj
    obtain ⟨rfl, rfl⟩ : i = 0 ∧ j = 1 := by omega
    decide
  · obtain ⟨_, -, hq, -⟩ := hp
    cases hq

set_option maxRecDepth 10000 in
theorem secondAborted_fails : ∃ m', decode oneStream.params secondAborted emptyHybrid twoTokens =
    some (.failed 1 .aborted m') := by
  have h : (decode oneStream.params secondAborted emptyHybrid twoTokens).bind Outcome.failure =
      some (1, .aborted) := by
    rw [decode, twoTokens_init]
    decide
  obtain ⟨o, ho, hf⟩ := Option.bind_eq_some_iff.mp h
  cases o with
  | failed k st m' =>
    cases hf
    exact ⟨m', ho⟩
  | refused code m' => cases hf
  | finished m' => cases hf

/-- The aborted token cannot be removed from the hybrid memory. -/
theorem failed_ubatch_leaves_no_trace_iff_secondAborted :
    ∃ m', decode oneStream.params secondAborted emptyHybrid twoTokens =
      some (.failed 1 .aborted m') ∧
      (LeavesNoTrace emptyHybrid twoPlaced (emptyHybrid.cuts twoPlaced 1 false) 1 m' ↔
        ∃ c, (emptyHybrid.cuts twoPlaced 1 false)[1]? = some c ∧
          RollsBack emptyHybrid twoPlaced c) := by
  obtain ⟨m', hm'⟩ := secondAborted_fails
  exact ⟨m', hm', failed_ubatch_leaves_no_trace_iff oneStream (.init _) twoTokens_init
    twoTokens_extends hm'⟩

/-- After the call the sequence still contains the position of the aborted token. -/
theorem failed_ubatch_leaves_trace : Reachable oneStream Unit emptyHybrid ∧
    init (oneStream.params.args emptyHybrid) twoTokens = some twoPlaced ∧
    Extends emptyHybrid twoPlaced ∧
    ∃ m', decode oneStream.params secondAborted emptyHybrid twoTokens =
      some (.failed 1 .aborted m') ∧
      ¬ LeavesNoTrace emptyHybrid twoPlaced (emptyHybrid.cuts twoPlaced 1 false) 1 m' := by
  obtain ⟨m', hm'⟩ := secondAborted_fails
  refine ⟨.init _, twoTokens_init, twoTokens_extends, m', hm', fun hno => ?_⟩
  obtain ⟨pre, c, post, hcuts, hlen, hiff⟩ :=
    exists_failed_cut oneStream (.init _) twoTokens_init twoTokens_extends hm'
  have hsplit : emptyHybrid.cuts twoPlaced 1 false =
      [{ idxs := [0], nSeqs := 1, equalSeqs := true },
        { idxs := [1], nSeqs := 1, equalSeqs := true }] := by
    decide
  have hget : (emptyHybrid.cuts twoPlaced 1 false)[1]? = some c := by
    change emptyHybrid.cuts twoPlaced 1 false = _ at hcuts
    rw [hcuts, hlen, getElem?_append_right le_rfl, Nat.sub_self]
    rfl
  rw [hsplit] at hget
  cases hget
  exact absurd (hiff.mp hno) (by decide)

end Llama.Decode
