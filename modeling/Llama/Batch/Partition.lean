import Llama.Batch.Steps
import Llama.Lib.Bytes
import Mathlib.Data.Finset.Card

/-!
# Splitting is a partition

Calling one of the splits until the ubatch is empty puts every token into one ubatch, once. The
exception are tokens in no sequence: `split_equal` takes two of them for two different sequence
sets and then takes the same tokens for both.
-/

namespace Llama.Batch

open List

variable {E : Type} {b : Allocr E} {p : Progress}

/-- At most one token is in no sequence. -/
def Allocr.OneFree (b : Allocr E) : Prop :=
  ∀ i j, i < b.nTokens → j < b.nTokens → b.seqSet i = ∅ → b.seqSet j = ∅ → i = j

/-- The split may be used: a sequential one needs a batch without coupled sequences. -/
def Mode.Allowed (b : Allocr E) : Mode → Prop
  | .equal true => b.hasCpl = false
  | _ => True

/-- What holds of the used tokens between two calls. -/
def Mode.Keeps (b : Allocr E) (p : Progress) : Mode → Prop
  | .simple => ∀ i j, i < j → p.used j = true → p.used i = true
  | .equal _ => UsedInOrder b p
  | .seq => True

variable {nUbatch i m j k : Nat} {c : Cut} {p' : Progress} {is done idxs : List Nat}
  {sequential : Bool} {mode : Mode} {R : Progress → List Nat → Prop}

theorem splitSimple_step (hinv : ∀ i j, i < j → p.used j = true → p.used i = true)
    (h : b.splitSimple nUbatch p = some (c, p')) :
    Takes b p c.idxs p' ∧ ∀ i j, i < j → p'.used j = true → p'.used i = true := by
  obtain ⟨m, hm, hle, hidx, rfl⟩ := splitSimple_some h
  obtain ⟨hfirst, hbefore⟩ := firstUnused_spec (b := b) (p := p) (by omega)
  have hmem : ∀ i, i ∈ c.idxs ↔ b.firstUnused p ≤ i ∧ i < b.firstUnused p + m := by
    intro i
    rw [hidx, mem_range'_1]
  have htakes : Takes b p c.idxs (b.addOutputs (p.useAll c.idxs) c.idxs) := by
    refine takes_useAll ?_ ?_ (fun i hi => ?_) (fun i hi => ?_)
    · rw [hidx]
      exact ne_nil_of_length_pos (by rw [length_range']; omega)
    · rw [hidx]
      exact nodup_range'
    · have := (hmem i).mp hi
      omega
    · by_contra hu
      have hu' : p.used i = true := by simpa using hu
      rcases Nat.eq_or_lt_of_le ((hmem i).mp hi).1 with he | hlt
      · rw [← he, hfirst] at hu'
        cases hu'
      · rw [hinv _ i hlt hu'] at hfirst
        cases hfirst
  refine ⟨htakes, fun i j hij hj => ?_⟩
  rw [htakes.used] at hj ⊢
  rcases hj with hj | hj
  · exact .inl (hinv i j hij hj)
  · rw [hmem] at hj ⊢
    by_cases hi : i < b.firstUnused p
    · exact .inl (hbefore i hi)
    · exact .inr (by omega)

theorem splitSeq_step (h : b.splitSeq nUbatch p = some (c, p')) : Takes b p c.idxs p' := by
  obtain ⟨hlt, l, hidx, hchain, -, rfl⟩ := splitSeq_some h
  have hrest : ∀ i ∈ l, i < b.nTokens ∧ p.used i = false := by
    intro i hi
    obtain ⟨as, bs, rfl⟩ := append_of_mem hi
    rw [hidx, ← cons_append] at hchain
    obtain ⟨x, hx⟩ : ∃ x, NextInside b p x i := by
      have hlast := isChain_append.mp hchain
      exact ⟨_, hlast.2.2 _ (getLast?_eq_some_getLast (by simp)) i (by simp)⟩
    exact ⟨hx.lt_nTokens, hx.unused⟩
  have hall : ∀ i ∈ c.idxs, i < b.nTokens ∧ p.used i = false := by
    rw [hidx]
    exact forall_mem_cons.mpr ⟨⟨hlt, (firstUnused_spec hlt).1⟩, hrest⟩
  refine takes_useAll (by rw [hidx]; simp) ?_ (fun i hi => (hall i hi).1) fun i hi => (hall i hi).2
  exact (NextInside.pairwise_lt hchain).imp Nat.ne_of_lt

/-- The tokens of a turn of `split_equal`: the first ones left of each set. -/
theorem mem_turns (hord : UsedInOrder b p) :
    i ∈ b.turns p (is.map b.seqSet) m ↔ ∃ x ∈ is, i ∈ (b.remaining p (b.seqSet x)).take m := by
  simp only [Allocr.turns, mem_flatMap, mem_map, exists_exists_and_eq_and,
    laneRest_eq_remaining hord]

/-- A token left of a set comes before one that was taken. -/
theorem mem_take_of_lt {set : Finset Nat} (hj : j ∈ (b.remaining p set).take m)
    (hi : i ∈ b.remaining p set) (hij : i < j) : i ∈ (b.remaining p set).take m := by
  have hsplit := take_append_drop m (b.remaining p set)
  have hsorted := remaining_sorted (b := b) (p := p) set
  rw [← hsplit] at hsorted hi
  rcases mem_append.mp hi with hi | hi
  · exact hi
  · have := (pairwise_append.mp hsorted).2.2 j hj i hi
    omega

theorem turns_nodup (hfree : b.OneFree) (hord : UsedInOrder b p) (hk : k ≤ b.nTokens)
    (h : Chosen b p sequential k is) : (b.turns p (is.map b.seqSet) m).Nodup := by
  have hne : is.Pairwise fun i j => b.seqSet i ≠ b.seqSet j := by
    refine (h.sorted.and h.apart).imp_of_mem fun {i j} hi hj hij he => ?_
    have hempty : b.seqSet i = ∅ := by
      have := hij.2
      rwa [← he, Finset.inter_self] at this
    have := hfree i j (lt_of_lt_of_le (h.lt i hi) hk) (lt_of_lt_of_le (h.lt j hj) hk) hempty
      (he ▸ hempty)
    omega
  rw [Allocr.turns, nodup_flatMap]
  simp only [laneRest_eq_remaining hord]
  refine ⟨fun set _ => ?_, ?_⟩
  · exact ((remaining_sorted set).imp Nat.ne_of_lt).sublist (take_sublist _ _)
  · rw [pairwise_map]
    refine hne.imp fun {i j} hij => ?_
    intro x hx hy
    have h1 := (mem_remaining.mp (mem_of_mem_take hx)).2.1
    have h2 := (mem_remaining.mp (mem_of_mem_take hy)).2.1
    exact hij (h1.symm.trans h2)

theorem turns_length (h : ∀ i ∈ is, m ≤ (b.laneRest p (b.seqSet i)).length) :
    (b.turns p (is.map b.seqSet) m).length = m * (is.map b.seqSet).length := by
  induction is with
  | nil => simp [Allocr.turns]
  | cons x is ih =>
    have hx := h x mem_cons_self
    have hrest := ih fun i hi => h i (mem_cons_of_mem x hi)
    simp only [Allocr.turns, map_cons, flatMap_cons, length_append, length_take,
      length_cons] at hrest ⊢
    rw [hrest, Nat.min_eq_left hx, Nat.mul_succ, Nat.add_comm]

/-- The step uses the tokens of the cut, and some of them are new. -/
structure Uses (b : Allocr E) (p : Progress) (idxs : List Nat) (p' : Progress) : Prop where
  fresh : ∃ i ∈ idxs, i < b.nTokens ∧ p.used i = false
  used : ∀ i, p'.used i = true ↔ p.used i = true ∨ i ∈ idxs

/-- `split_equal` uses some tokens, of each set in order. -/
theorem splitEqual_uses (hord : UsedInOrder b p)
    (h : b.splitEqual nUbatch sequential p = some (c, p')) :
    Uses b p c.idxs p' ∧ UsedInOrder b p' := by
  obtain ⟨k, is, m, q, hk, hch, hne, -, hm, hlen, hidx, -, hq, rfl⟩ := splitEqual_some h
  have hmem : ∀ i, i ∈ c.idxs ↔ ∃ x ∈ is, i ∈ (b.remaining p (b.seqSet x)).take m := fun i => by
    rw [hidx]
    exact mem_turns hord
  have huses : Uses b p c.idxs (b.addOutputs q c.idxs) := by
    refine ⟨?_, fun i => ?_⟩
    · obtain ⟨x, hx⟩ := exists_mem_of_ne_nil is hne
      have hle := hlen x hx
      rw [laneRest_eq_remaining hord] at hle
      obtain ⟨i, hi⟩ := exists_mem_of_length_pos
        (l := (b.remaining p (b.seqSet x)).take m) (by rw [length_take]; omega)
      have hr := mem_remaining.mp (mem_of_mem_take hi)
      exact ⟨i, (hmem i).mpr ⟨x, hx, hi⟩, hr.1, hr.2.2⟩
    · rw [hidx]
      exact hq.used i
  refine ⟨huses, fun i j hij hj hset hu => ?_⟩
  rw [huses.used] at hu ⊢
  by_cases hui : p.used i = true
  · exact .inl hui
  · rcases hu with hu | hu
    · exact .inl (hord i j hij hj hset hu)
    · obtain ⟨x, hx, htake⟩ := (hmem j).mp hu
      have hjr := mem_remaining.mp (mem_of_mem_take htake)
      have hir : i ∈ b.remaining p (b.seqSet x) :=
        mem_remaining.mpr ⟨lt_trans hij hj, hset.trans hjr.2.1, by simpa using hui⟩
      exact .inr ((hmem i).mpr ⟨x, hx, mem_take_of_lt htake hir hij⟩)

theorem splitEqual_takes (hfree : b.OneFree) (hord : UsedInOrder b p)
    (h : b.splitEqual nUbatch sequential p = some (c, p')) : Takes b p c.idxs p' := by
  have huses := (splitEqual_uses hord h).1
  obtain ⟨k, is, m, q, hk, hch, -, -, -, hlen, hidx, -, hq, rfl⟩ := splitEqual_some h
  have hmem : ∀ i ∈ c.idxs, ∃ x, i ∈ b.remaining p (b.seqSet x) := by
    intro i hi
    rw [hidx] at hi
    obtain ⟨x, -, hx⟩ := (mem_turns hord).mp hi
    exact ⟨x, mem_of_mem_take hx⟩
  refine ⟨?_, ?_, fun i hi => ?_, fun i hi => ?_, huses.used, ?_, ?_⟩
  · obtain ⟨i, hi, -⟩ := huses.fresh
    exact ne_nil_of_mem hi
  · rw [hidx]
    exact turns_nodup hfree hord hk hch
  · obtain ⟨x, hx⟩ := hmem i hi
    exact (mem_remaining.mp hx).1
  · obtain ⟨x, hx⟩ := hmem i hi
    exact (mem_remaining.mp hx).2.2
  · rw [hidx, turns_length hlen]
    exact hq.count
  · rw [← hq.outs]
    rfl

theorem split_none (mode : Mode) (hallow : mode.Allowed b) (h : b.split mode nUbatch p = none) :
    ∀ i < b.nTokens, p.used i = true := by
  cases mode with
  | simple => exact splitSimple_none h
  | equal sequential =>
    refine splitEqual_none (fun hs => ?_) h
    subst hs
    exact hallow
  | seq => exact splitSeq_none h

theorem split_step (hfree : b.OneFree) (hkeep : mode.Keeps b p)
    (h : b.split mode nUbatch p = some (c, p')) : Takes b p c.idxs p' ∧ mode.Keeps b p' := by
  cases mode with
  | simple => exact splitSimple_step hkeep h
  | equal sequential => exact ⟨splitEqual_takes hfree hkeep h, (splitEqual_uses hkeep h).2⟩
  | seq => exact ⟨splitSeq_step h, trivial⟩

/-- The tokens `done` have been taken, in this order. -/
structure Covered (b : Allocr E) (p : Progress) (done : List Nat) : Prop where
  used : ∀ i, p.used i = true ↔ i ∈ done
  lt : ∀ i ∈ done, i < b.nTokens
  nodup : done.Nodup
  count : p.nUsed = done.length
  outs : p.outIds = done.filter b.isOutput

theorem covered_reset : Covered b Progress.reset [] :=
  ⟨by simp [Progress.reset], by simp, nodup_nil, rfl, rfl⟩

theorem Covered.step (h : Covered b p done) (ht : Takes b p idxs p') :
    Covered b p' (done ++ idxs) := by
  refine ⟨fun i => ?_, fun i hi => ?_, ?_, ?_, ?_⟩
  · rw [ht.used, h.used, mem_append]
  · rcases mem_append.mp hi with hi | hi
    · exact h.lt i hi
    · exact ht.lt i hi
  · refine nodup_append.mpr ⟨h.nodup, ht.nodup, fun i hi j hj he => ?_⟩
    have hu := ht.unused j hj
    rw [← he, (h.used i).mpr hi] at hu
    cases hu
  · rw [ht.count, h.count, length_append]
  · rw [ht.outs, h.outs, filter_append]

theorem Covered.perm (h : Covered b p done) (hall : ∀ i < b.nTokens, p.used i = true) :
    done.Perm (range b.nTokens) := by
  refine (perm_ext_iff_of_nodup h.nodup nodup_range).mpr fun i => ?_
  rw [mem_range]
  exact ⟨h.lt i, fun hi => (h.used i).mp (hall i hi)⟩

/-- The unused tokens of the batch. -/
def Allocr.unused (b : Allocr E) (p : Progress) : Finset Nat :=
  (Finset.range b.nTokens).filter fun i => p.used i = false

theorem mem_unused : i ∈ b.unused p ↔ i < b.nTokens ∧ p.used i = false := by
  rw [Allocr.unused, Finset.mem_filter, Finset.mem_range]

theorem Takes.uses (h : Takes b p idxs p') : Uses b p idxs p' := by
  obtain ⟨i, hi⟩ := exists_mem_of_ne_nil idxs h.ne_nil
  exact ⟨⟨i, hi, h.lt i hi, h.unused i hi⟩, h.used⟩

theorem Uses.card_lt (h : Uses b p idxs p') : (b.unused p').card < (b.unused p).card := by
  obtain ⟨i, hi, hlt, hu⟩ := h.fresh
  refine Finset.card_lt_card (Finset.ssubset_iff_of_subset ?_ |>.mpr ⟨i, ?_, ?_⟩)
  · intro j hj
    rw [mem_unused] at hj ⊢
    refine ⟨hj.1, ?_⟩
    by_contra hn
    have := (h.used j).mpr (.inl (by simpa using hn))
    rw [hj.2] at this
    cases this
  · exact mem_unused.mpr ⟨hlt, hu⟩
  · intro hmem
    have := (mem_unused.mp hmem).2
    rw [(h.used i).mpr (.inr hi)] at this
    cases this

/-- The calls are over when every token is used; a relation `R` between the state and what was
taken holds then if every call keeps it. -/
theorem splitAll_run (mode : Mode) (nUbatch : Nat) (hallow : mode.Allowed b)
    (hstep : ∀ p done c p', R p done → b.split mode nUbatch p = some (c, p') →
      Uses b p c.idxs p' ∧ R p' (done ++ c.idxs)) :
    ∀ (calls : Nat) (p : Progress) (done : List Nat), R p done → (b.unused p).card < calls →
    ∃ cuts p', b.splitAll mode nUbatch calls p = some (cuts, p') ∧
      R p' (done ++ cuts.flatMap Cut.idxs) ∧ ∀ i < b.nTokens, p'.used i = true := by
  intro calls
  induction calls with
  | zero => intro p done _ hlt; omega
  | succ calls ih =>
    intro p done hR hlt
    rw [Allocr.splitAll]
    cases hs : b.split mode nUbatch p with
    | none =>
      refine ⟨[], p, rfl, ?_, split_none mode hallow hs⟩
      rwa [flatMap_nil, append_nil]
    | some r =>
      obtain ⟨hu, hR'⟩ := hstep p done r.1 r.2 hR hs
      have := hu.card_lt
      obtain ⟨cuts, p', h1, h2, h3⟩ := ih r.2 (done ++ r.1.idxs) hR' (by omega)
      refine ⟨r.1 :: cuts, p', ?_, ?_, h3⟩
      · simp only [h1]
        rfl
      · rwa [flatMap_cons, ← append_assoc]

theorem splitAll_reset (mode : Mode) (nUbatch : Nat) (hallow : mode.Allowed b)
    (hR : R Progress.reset [])
    (hstep : ∀ p done c p', R p done → b.split mode nUbatch p = some (c, p') →
      Uses b p c.idxs p' ∧ R p' (done ++ c.idxs)) :
    ∃ cuts p, b.splitAll mode nUbatch (b.nTokens + 1) Progress.reset = some (cuts, p) ∧
      R p (cuts.flatMap Cut.idxs) ∧ ∀ i < b.nTokens, p.used i = true := by
  have hcard : (b.unused Progress.reset).card ≤ b.nTokens := by
    have := Finset.card_filter_le (Finset.range b.nTokens) fun i => Progress.reset.used i = false
    rwa [Finset.card_range] at this
  obtain ⟨cuts, p, h1, h2, h3⟩ :=
    splitAll_run mode nUbatch hallow hstep (b.nTokens + 1) Progress.reset [] hR
    (by omega)
  exact ⟨cuts, p, h1, by rwa [nil_append] at h2, h3⟩

/-- The ubatch carries the tokens of the indices unchanged: id, embedding, positions, sequences
and output flag. -/
structure UBatch.Carries (b : Allocr E) (u : UBatch E) (idxs : List Nat) : Prop where
  nTokens : u.nTokens = idxs.length
  token : ∀ t, b.token = some t → ∃ l, u.token = some l ∧
    ∀ k i : Nat, idxs[k]? = some i → l[k]? = some (t i)
  embd : ∀ e, b.embd = some e → ∃ l, u.embd = some l ∧
    ∀ k i : Nat, idxs[k]? = some i → l[k]? = some (e i)
  pos : ∀ j k i : Nat, j < b.nPosPerEmbd → idxs[k]? = some i →
    u.pos[j * idxs.length + k]? = some (b.posAt i j)
  seqId : ∀ k i : Nat, idxs[k]? = some i → u.seqId[k]? = some (b.seqs i)
  output : ∀ k i : Nat, idxs[k]? = some i → u.output[k]? = some (b.logits i)

theorem ubatch_carries (b : Allocr E) (c : Cut) : (b.ubatch c).Carries b c.idxs where
  nTokens := rfl
  token t ht := ⟨c.idxs.map t, by simp [Allocr.ubatch, ht], fun k i hk => by simp [hk]⟩
  embd e he := ⟨c.idxs.map e, by simp [Allocr.ubatch, he], fun k i hk => by simp [hk]⟩
  pos j k i hj hk := by
    obtain ⟨hlt, rfl⟩ := List.getElem?_eq_some_iff.mp hk
    refine (Bytes.getElem?_flatMap_block (range _) j k (by simpa using hj) (by simp) hlt).trans ?_
    simp [hlt]
  seqId k i hk := by simp [Allocr.ubatch, hk]
  output k i hk := by simp [Allocr.ubatch, hk]

/-- The calls end, every token is in one ubatch exactly once and unchanged, and the outputs are
noted in the order of the ubatches. -/
def Partitions (b : Allocr E) (mode : Mode) (nUbatch : Nat) : Prop :=
  ∃ cuts p, b.splitAll mode nUbatch (b.nTokens + 1) Progress.reset = some (cuts, p) ∧
    (cuts.flatMap Cut.idxs).Perm (range b.nTokens) ∧ p.nUsed = b.nTokens ∧
    p.outIds = (cuts.flatMap Cut.idxs).filter b.isOutput ∧
    ∀ c ∈ cuts, (b.ubatch c).Carries b c.idxs

theorem keeps_reset (mode : Mode) : mode.Keeps b Progress.reset := by
  cases mode with
  | simple => exact fun i j _ h => by cases h
  | equal s => exact fun i j _ _ _ h => by cases h
  | seq => trivial

theorem partitions_of_oneFree (hfree : b.OneFree) (hallow : mode.Allowed b) (nUbatch : Nat) :
    Partitions b mode nUbatch := by
  obtain ⟨cuts, p, h1, ⟨h2, -⟩, h4⟩ := splitAll_reset mode nUbatch
    (R := fun p done => Covered b p done ∧ mode.Keeps b p) hallow ⟨covered_reset, keeps_reset mode⟩
    fun p done c p' hR hs => by
      obtain ⟨ht, hk⟩ := split_step hfree hR.2 hs
      exact ⟨ht.uses, hR.1.step ht, hk⟩
  have hperm := h2.perm h4
  refine ⟨cuts, p, h1, hperm, ?_, h2.outs, fun c _ => ubatch_carries b c⟩
  rw [h2.count, hperm.length_eq, length_range]

/-- With room for all tokens, the first call of `split_equal` chooses the empty set once for each
token in no sequence, and takes the same tokens for each. -/
theorem splitEqual_not_nodup {x y : Nat} (hn : b.nTokens ≤ nUbatch)
    (h : b.splitEqual nUbatch false p = some (c, p'))
    (hx : x < b.nTokens ∧ p.used x = false ∧ b.seqSet x = ∅)
    (hy : y < b.nTokens ∧ p.used y = false ∧ b.seqSet y = ∅) (hxy : x ≠ y) : ¬ c.idxs.Nodup := by
  obtain ⟨k, is, m, q, -, hch, -, hk, hm, hlen, hidx, -, -, -⟩ := splitEqual_some h
  have hmem : ∀ z, z < b.nTokens ∧ p.used z = false ∧ b.seqSet z = ∅ → z ∈ is := by
    rintro z ⟨h1, h2, h3⟩
    obtain ⟨w, hw, -, rfl | hne⟩ := hch.seen rfl z (by rw [hk hn]; exact h1) h2
    · exact hw
    · rw [h3, Finset.inter_empty] at hne
      exact (hne rfl).elim
  intro hnd
  rw [hidx, Allocr.turns, nodup_flatMap, pairwise_map] at hnd
  have hsymm : Std.Symm fun i j => List.Disjoint ((b.laneRest p (b.seqSet i)).take m)
      ((b.laneRest p (b.seqSet j)).take m) := ⟨fun _ _ hd => hd.symm⟩
  have hdisj := List.Pairwise.forall hnd.2 (hmem x hx) (hmem y hy) hxy
  have hpos : 0 < ((b.laneRest p (b.seqSet x)).take m).length := by
    rw [length_take]
    have := hlen x (hmem x hx)
    omega
  obtain ⟨z, hz⟩ := exists_mem_of_length_pos hpos
  refine hdisj hz ?_
  rw [hy.2.2, ← hx.2.2]
  exact hz

theorem init_pos {a : Args} {inp : Input E} (hinit : init a inp = some b) : 0 < b.nTokens := by
  simp only [init] at hinit
  split at hinit
  · rename_i h
    cases hinit
    exact h.1
  · cases hinit

/-- For an accepted batch, every way to split gives a partition for every size of the ubatches
exactly when at most one token is in no sequence. -/
theorem split_partition_iff {a : Args} {inp : Input E} (hinit : init a inp = some b) :
    (∀ (mode : Mode) (nUbatch : Nat), 1 ≤ nUbatch → mode.Allowed b → Partitions b mode nUbatch) ↔
      b.OneFree := by
  refine ⟨fun h i j hi hj h1 h2 => ?_, fun hfree mode nUbatch _ hallow =>
    partitions_of_oneFree hfree hallow nUbatch⟩
  obtain ⟨cuts, p, hall, hperm, -⟩ := h (.equal false) b.nTokens (init_pos hinit) trivial
  by_contra hij
  have hnd : (cuts.flatMap Cut.idxs).Nodup := hperm.nodup_iff.mpr nodup_range
  rw [Allocr.splitAll] at hall
  cases hs : b.split (.equal false) b.nTokens Progress.reset with
  | none =>
    have := split_none (b := b) (.equal false) trivial hs i hi
    cases this
  | some r =>
    simp only [hs] at hall
    cases hr : b.splitAll (.equal false) b.nTokens b.nTokens r.2 with
    | none =>
      rw [hr] at hall
      cases hall
    | some t =>
      rw [hr] at hall
      cases hall
      rw [flatMap_cons] at hnd
      exact splitEqual_not_nodup le_rfl hs ⟨hi, rfl, h1⟩ ⟨hj, rfl, h2⟩ hij (nodup_append.mp hnd).1

/-- A text batch from lists of sequences, with positions. -/
def textBatch (seqs : List (List Int)) (pos : List Int) : Input Unit where
  nTokens := seqs.length
  token := some fun _ => 0
  embd := none
  pos := some fun i => pos.getD i 0
  nSeqId := some fun i => (seqs.getD i []).length
  seqId := some fun i s => (seqs.getD i []).getD s 0
  logits := none

/-- No memory, four sequences. -/
def plainArgs : Args where
  vocab := 1
  memory := none
  nSeqMax := 4
  nPosPerEmbd := 1
  outputAll := false

/-- Two sequences with one and two tokens. -/
theorem split_partition_twoSeqs :
    ∃ b, init plainArgs (textBatch [[0], [1], [1]] [0, 0, 1]) = some b ∧
      ∀ (mode : Mode) (nUbatch : Nat), 1 ≤ nUbatch → mode.Allowed b →
        Partitions b mode nUbatch := by
  have hinit : init plainArgs (textBatch [[0], [1], [1]] [0, 0, 1]) =
      some (fill plainArgs (textBatch [[0], [1], [1]] [0, 0, 1])) := by
    rw [init, if_pos (by decide)]
  refine ⟨_, hinit, (split_partition_iff hinit).mpr fun i j hi hj h1 => ?_⟩
  have hnone : ∀ i < 3, (fill plainArgs (textBatch [[0], [1], [1]] [0, 0, 1])).seqSet i ≠ ∅ := by
    decide
  exact (hnone i hi h1).elim

/-- Two tokens in no sequence are both taken twice. -/
theorem split_not_partition :
    ∃ b, init plainArgs (textBatch [[], []] [0, 0]) = some b ∧ ¬ Partitions b (.equal false) 4 := by
  have hinit : init plainArgs (textBatch [[], []] [0, 0]) =
      some (fill plainArgs (textBatch [[], []] [0, 0])) := by
    rw [init, if_pos (by decide)]
  refine ⟨_, hinit, ?_⟩
  rintro ⟨cuts, p, hall, hperm, -⟩
  have hrun : ((fill plainArgs (textBatch [[], []] [0, 0])).splitAll (.equal false) 4 3
      Progress.reset).map (fun r => r.1.flatMap Cut.idxs) = some [0, 1, 0, 1] := by decide
  change (fill plainArgs (textBatch [[], []] [0, 0])).splitAll (.equal false) 4 3
    Progress.reset = _ at hall
  rw [hall, Option.map_some, Option.some.injEq] at hrun
  rw [hrun] at hperm
  exact absurd hperm.length_eq (by decide)

end Llama.Batch
