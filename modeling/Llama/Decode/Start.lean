import Llama.Decode.Run

/-!
# From the batch to the loop

An update and a dry run leave all records of the attention cache as they were, so the loop starts
from what the memory contained before the call.
-/

namespace Llama.Decode

open Batch
open List hiding Disjoint

variable {E : Type} {b : Allocr E} {f : Kv.Config} {m m1 : Memory}

/-- The same records of the attention cache, and a recurrent part or none as before. -/
structure Memory.Like (f : Kv.Config) (m m1 : Memory) : Prop where
  plain : m1.attn.Plain f
  agree : Kv.Cache.Agree m.attn m1.attn
  isSome : m1.recr.isSome = m.recr.isSome

theorem Memory.Like.trans {m2 : Memory} (h : m.Like f m1) (h' : m1.Like f m2) : m.Like f m2 :=
  ⟨h'.plain, h.agree.trans h'.agree, h'.isSome.trans h.isSome⟩

theorem Memory.like_update (h : m.attn.Plain f) (shifted : Bool) : m.Like f (m.update shifted) := by
  have hsc : Kv.Cache.Agree m.attn { m.attn with scInfo := [] } :=
    ⟨rfl, fun _ => rfl, fun _ _ => rfl, fun _ _ => rfl⟩
  have hplain : Kv.Cache.Plain f { m.attn with scInfo := [] } := hsc.plain h h.heads
  have hreset : Kv.Cache.Agree { m.attn with scInfo := [] }
      (Kv.Cache.resetShift { m.attn with scInfo := [] }) := by
    refine ⟨rfl, fun t => ?_, fun t i => ?_, fun t i => ?_⟩ <;>
    · simp only [Kv.Cache.resetShift]
      split <;> rfl
  rw [Memory.update]
  split
  · cases shifted with
    | false => exact ⟨hplain, hsc, rfl⟩
    | true => exact ⟨⟨hplain.toSized.resetShift, hplain.tidy.resetShift⟩, hsc.trans hreset, rfl⟩
  · exact ⟨h, Kv.Cache.Agree.refl _, rfl⟩

variable {us : List (UBatch E)} {r : Option (List Kv.SlotInfo)} {embdAll : Bool} {c : Cut}
  {P : Params} {env : Env}

section

variable (hf : f.Valid) (hswa : f.swaType = .none) (h : m.attn.Plain f)
  (hus : ∀ u ∈ us, (1 < f.nStream → (kvUbatch u).nTokens % (kvUbatch u).seqIdUnq.length = 0) →
    Kv.Cache.Fed f (kvUbatch u))
include hf hswa h hus

theorem prepareAttn_spec (hp : m.prepareAttn us = some (r, m1)) :
    m.Like f m1 ∧ m1.recr = m.recr ∧ ∀ sis, r = some sis →
      Kv.Cache.FoundSlots f m.attn (us.map kvUbatch) sis ∧
        ∀ u ∈ us, FirstTokens f (kvUbatch u) := by
  rw [Memory.prepareAttn] at hp
  split at hp
  · cases hp
  · rename_i ha
    rw [Bool.not_eq_true] at ha
    have htried := tried_of_not_aborts hf hswa (us.map kvUbatch) h (by simpa using hus) ha
    obtain ⟨hag, hplain, hslots⟩ := h.prepare hf hswa htried
    split at hp
    · rename_i attn hprep
      rw [hprep] at hag hplain
      cases hp
      exact ⟨⟨hplain, hag, rfl⟩, rfl, fun sis hs => by cases hs⟩
    · rename_i attn sinfos hne hprep
      rw [hprep] at hag hplain hslots
      cases hp
      refine ⟨⟨hplain, hag, rfl⟩, rfl, fun sis hs => ?_⟩
      cases hs
      have hfound := hslots hne
      exact ⟨hfound, fun u hu => firstTokens_of_slots hf hswa _ h ha hfound _ (mem_map_of_mem hu)⟩

theorem prepare_spec (hdisj : m.recr.isSome = true → ∀ u ∈ us,
      (Recurrent.setsOf u).Pairwise fun x y => Disjoint x.seqs y.seqs)
    (hp : m.prepare us = some (r, m1)) : m.Like f m1 ∧ ∀ sis, r = some sis →
      Kv.Cache.FoundSlots f m.attn (us.map kvUbatch) sis ∧ (∀ u ∈ us, FirstTokens f (kvUbatch u)) ∧
        ∀ r1, m1.recr = some r1 → ∀ u ∈ us, InRange r1.size u := by
  rw [Memory.prepare] at hp
  cases hr : m.recr with
  | none =>
    rw [hr] at hp
    obtain ⟨hlike, hrecr, hslots⟩ := prepareAttn_spec hf hswa h hus hp
    refine ⟨hlike, fun sis hs => ⟨(hslots sis hs).1, (hslots sis hs).2, fun r1 hr1 => ?_⟩⟩
    rw [hrecr, hr] at hr1
    cases hr1
  | some r0 =>
    rw [hr] at hp
    dsimp only at hp
    cases hprep : prepareRecr r0 us with
    | none =>
      rw [hprep] at hp
      cases hp
    | some x =>
      obtain ⟨ok, r2⟩ := x
      rw [hprep] at hp
      cases ok with
      | false =>
        cases hp
        exact ⟨⟨h, Kv.Cache.Agree.refl _, by rw [hr]; rfl⟩, fun sis hs => by cases hs⟩
      | true =>
        obtain ⟨hlike, hrecr, hslots⟩ :=
          prepareAttn_spec (m := { m with recr := some r2 }) hf hswa h
          hus hp
        refine ⟨⟨hlike.plain, hlike.agree, by rw [hr]; exact hlike.isSome⟩, fun sis hs =>
          ⟨(hslots sis hs).1, (hslots sis hs).2, fun r1 hr1 => ?_⟩⟩
        obtain rfl : r2 = r1 := Option.some.inj (hrecr.symm.trans hr1)
        rw [prepareRecr, Option.map_eq_some_iff] at hprep
        obtain ⟨⟨ok, r3⟩, hfind, he⟩ := hprep
        obtain ⟨rfl, rfl⟩ := Prod.mk.inj he
        obtain ⟨hsize, hin⟩ := findSlots_inRange us (hdisj (by rw [hr]; rfl)) hfind
        exact fun u hu => hsize ▸ hin u hu

end

/-- The cuts of the batch; none if the split does not end. -/
def Memory.cuts (m : Memory) (b : Allocr E) (nUbatch : Nat) (embdAll : Bool) : List Cut :=
  match b.splitAll (m.mode embdAll) nUbatch (b.nTokens + 1) Progress.reset with
  | some (cuts, _) => cuts
  | none => []

theorem Memory.Like.mode_eq (h : m.Like f m1) (embdAll : Bool) :
    m1.mode embdAll = m.mode embdAll := by
  have hs := h.isSome
  rw [Memory.mode, Memory.mode, h.agree.cfg]
  cases hr : m.recr <;> cases hr1 : m1.recr
  · rfl
  · rw [hr, hr1] at hs
    cases hs
  · rw [hr, hr1] at hs
    cases hs
  · rfl

theorem Memory.Like.cuts_eq (h : m.Like f m1) (b : Allocr E) (nUbatch : Nat) (embdAll : Bool) :
    m1.cuts b nUbatch embdAll = m.cuts b nUbatch embdAll := by
  rw [Memory.cuts, Memory.cuts, h.mode_eq]

theorem Memory.mode_sequential (m : Memory) (embdAll : Bool) : Sequential (m.mode embdAll) := by
  rw [Memory.mode]
  split
  · split <;> trivial
  · split <;> trivial

theorem Memory.mode_simple (h : m.mode embdAll = .simple) : m.attn.cfg.nStream = 1 := by
  rw [Memory.mode] at h
  split at h
  · split at h
    · assumption
    · cases h
  · split at h <;> cases h

theorem Memory.mode_seq (h : m.mode embdAll = .seq) : m.recr.isSome = true := by
  rw [Memory.mode] at h
  split at h
  · split at h <;> cases h
  · rename_i hr
    rw [hr]
    rfl

variable {nUbatch : Nat} {embdAll : Bool}

section

variable (hb : Seatable f b)
include hb

theorem cuts_at {pre post : List Cut} (h : m.cuts b nUbatch embdAll = pre ++ c :: post) :
    ∃ p p', SplitInv b (m.mode embdAll) p (pre.flatMap Cut.idxs) ∧
      b.split (m.mode embdAll) nUbatch p = some (c, p') := by
  rw [Memory.cuts] at h
  split at h
  · rename_i cuts p' hall
    have hstep : ∀ p done c p', SplitInv b (m.mode embdAll) p done →
        b.split (m.mode embdAll) nUbatch p = some (c, p') →
        SplitInv b (m.mode embdAll) p' (done ++ c.idxs) := fun p done c p' hinv hs =>
      (hinv.step hb.allSeated (m.mode_sequential embdAll) hs).2
    exact splitAll_at hstep (b.nTokens + 1) Progress.reset [] cuts p' (splitInv_reset _) hall
      pre c post
      h
  · simp at h

theorem cut_lt (hc : c ∈ m.cuts b nUbatch embdAll) : c.idxs ≠ [] ∧ ∀ i ∈ c.idxs, i < b.nTokens := by
  obtain ⟨pre, post, h⟩ := append_of_mem hc
  obtain ⟨p, p', hinv, hs⟩ := cuts_at hb h
  have htakes := (hinv.step hb.allSeated (m.mode_sequential embdAll) hs).1
  exact ⟨htakes.ne_nil, htakes.lt⟩

theorem cut_blocks (hc : c ∈ m.cuts b nUbatch embdAll) (hr : m.recr.isSome = true) :
    ∃ n, Blocks b c n := by
  obtain ⟨pre, post, h⟩ := append_of_mem hc
  obtain ⟨p, p', hinv, hs⟩ := cuts_at hb h
  obtain ⟨r, hr⟩ := Option.isSome_iff_exists.mp hr
  rw [Memory.mode, hr] at hinv hs
  cases embdAll with
  | true => exact ⟨_, (splitSeq_blocks hs).1⟩
  | false => exact splitEqual_blocks hinv.keeps hs

theorem cut_homed (hf : f.Valid) (hm : m.attn.cfg = f) (hc : c ∈ m.cuts b nUbatch embdAll)
    (hfirst : FirstTokens f (kvUbatch (b.ubatch c))) : Homed f (kvUbatch (b.ubatch c)) := by
  obtain ⟨pre, post, h⟩ := append_of_mem hc
  obtain ⟨p, p', hinv, hs⟩ := cuts_at hb h
  exact homed_cut hb hf (m.mode_sequential embdAll) (fun he => hm ▸ Memory.mode_simple he) hinv
    hs hfirst

end

section

variable (hf : f.Valid) (hswa : f.swaType = .none)
include hf hswa

theorem initBatch_spec (hb : Seatable f b) (h : m.attn.Plain f)
    {r : Option (List (Kv.SlotInfo × UBatch E))}
    (hi : m.initBatch b nUbatch embdAll = some (r, m1)) :
    m.Like f m1 ∧ ∀ work, r = some work →
      ∃ sis, work = sis.zip ((m.cuts b nUbatch embdAll).map b.ubatch) ∧
        Ready f b m1 sis (m.cuts b nUbatch embdAll) := by
  rw [Memory.initBatch] at hi
  cases hall : b.splitAll (m.mode embdAll) nUbatch (b.nTokens + 1) Progress.reset with
  | none =>
    rw [hall] at hi
    cases hi
  | some x =>
    obtain ⟨cuts, p⟩ := x
    have hcuts : m.cuts b nUbatch embdAll = cuts := by rw [Memory.cuts, hall]
    rw [hall] at hi
    dsimp only at hi
    split at hi
    · cases hi
      exact ⟨⟨h, Kv.Cache.Agree.refl _, rfl⟩, fun work hw => by cases hw⟩
    · obtain ⟨⟨r0, m2⟩, hprep, he⟩ := Option.map_eq_some_iff.mp hi
      obtain ⟨rfl, rfl⟩ := Prod.mk.inj he
      have hfed : ∀ u ∈ cuts.map b.ubatch, (1 < f.nStream →
          (kvUbatch u).nTokens % (kvUbatch u).seqIdUnq.length = 0) →
            Kv.Cache.Fed f (kvUbatch u) := by
        intro u hu hblocks
        obtain ⟨c, hc, rfl⟩ := mem_map.mp hu
        obtain ⟨hne, hlt⟩ := cut_lt hb (hcuts ▸ hc)
        exact fed_ubatch hb hf hne hlt hblocks
      have hdisj : m.recr.isSome = true → ∀ u ∈ cuts.map b.ubatch,
          (Recurrent.setsOf u).Pairwise fun x y => Disjoint x.seqs y.seqs := by
        intro hr u hu
        obtain ⟨c, hc, rfl⟩ := mem_map.mp hu
        obtain ⟨n, hblk⟩ := cut_blocks hb (hcuts ▸ hc) hr
        exact setsOf_disjoint hb hblk
      obtain ⟨hlike, hslots⟩ := prepare_spec hf hswa h hfed hdisj hprep
      refine ⟨hlike, fun work hw => ?_⟩
      obtain ⟨sis, rfl, rfl⟩ := Option.map_eq_some_iff.mp hw
      obtain ⟨hfound, hfirst, hrange⟩ := hslots sis rfl
      rw [map_map] at hfound
      rw [hcuts]
      refine ⟨sis, rfl, hlike.plain, ⟨m.attn, h, hlike.agree, hfound⟩, fun c hc =>
        (cut_lt hb (hcuts ▸ hc)).2, fun c hc => cut_homed hb hf h.cfg (hcuts ▸ hc)
          (hfirst _ (mem_map_of_mem hc)), fun r1 hr1 c hc =>
        ⟨hrange r1 hr1 _ (mem_map_of_mem hc), cut_blocks hb (hcuts ▸ hc) ?_⟩⟩
      rw [← hlike.isSome, hr1]
      rfl

theorem initRetry_spec (hb : Seatable f b) (h : m.attn.Plain f)
    {r : Option (List (Kv.SlotInfo × UBatch E))} (hi : initRetry P env m b = some (r, m1)) :
    m.Like f m1 ∧ ∀ work, r = some work →
      ∃ sis, work = sis.zip ((m.cuts b P.nUbatch P.embeddings).map b.ubatch) ∧
        Ready f b m1 sis (m.cuts b P.nUbatch P.embeddings) := by
  rw [initRetry] at hi
  cases hfst : m.initBatch b P.nUbatch P.embeddings with
  | none =>
    rw [hfst] at hi
    cases hi
  | some x =>
    obtain ⟨r0, m2⟩ := x
    have hspec := initBatch_spec hf hswa hb h hfst
    rw [hfst] at hi
    cases r0 with
    | some work =>
      cases hi
      exact hspec
    | none =>
      dsimp only at hi
      split at hi
      · -- once more after an update
        have hlike := hspec.1.trans (Memory.like_update hspec.1.plain (env.shifted 1))
        obtain ⟨hlike', hwork⟩ := initBatch_spec hf hswa hb hlike.plain hi
        rw [hlike.cuts_eq] at hwork
        exact ⟨hlike.trans hlike', hwork⟩
      · cases hi
        exact ⟨hspec.1, fun work hw => by cases hw⟩

/-- A call keeps the cache well formed. If it fails at an ubatch, the cuts before it were applied,
and the failed one was applied and rolled back. -/
theorem decode_spec {inp : Input E} {o : Outcome} (h : m.attn.Plain f)
    (hb : ∀ b, init (P.args m) inp = some b → Seatable f b) (hd : decode P env m inp = some o) :
    o.memory.attn.Plain f ∧ ∀ b, init (P.args m) inp = some b → ∀ k st m', o = .failed k st m' →
      ∃ pre c post m0 m1, m.cuts b P.nUbatch P.embeddings = pre ++ c :: post ∧ k = pre.length ∧
        (∀ q p, m0.attn.Contains q p ↔ m.attn.Contains q p ∨ ∃ c' ∈ pre, HasToken b c' q p) ∧
        m0.recr.isSome = m.recr.isSome ∧ Applied b m0 c m1 ∧ m' = m1.rollback (b.ubatch c) := by
  rw [decode] at hd
  cases hinit : init (P.args m) inp with
  | none =>
    rw [hinit] at hd
    cases hd
    exact ⟨h, fun b hb => by cases hb⟩
  | some b =>
    have hseat := hb b hinit
    have hup := Memory.like_update h (env.shifted 0)
    rw [hinit] at hd
    dsimp only at hd
    cases hretry : initRetry P env (m.update (env.shifted 0)) b with
    | none =>
      rw [hretry] at hd
      cases hd
    | some x =>
      obtain ⟨r, m2⟩ := x
      obtain ⟨hlike, hwork⟩ := initRetry_spec hf hswa hseat hup.plain hretry
      rw [hup.cuts_eq] at hwork
      have hstart := hup.trans hlike
      rw [hretry] at hd
      cases r with
      | none =>
        cases hd
        exact ⟨hlike.plain, fun b hb k st m' he => by cases he⟩
      | some work =>
        dsimp only at hd
        obtain ⟨sis, rfl, hready⟩ := hwork work rfl
        split at hd
        · obtain ⟨hplain, hfail⟩ := decodeLoop_spec hf hswa hseat env.compute _ sis 0 hready hd
          refine ⟨hplain, fun b' hb' k st m' he => ?_⟩
          cases hb'
          obtain ⟨pre, c, post, m0, m3, hcuts, hk, hcont, hsome, happ, hm'⟩ := hfail k st m' he
          refine ⟨pre, c, post, m0, m3, hcuts, by omega, fun q p => ?_, hsome.trans hstart.isSome,
            happ, hm'⟩
          rw [hcont, hstart.agree.contains]
        · cases hd
          exact ⟨hlike.plain, fun b hb k st m' he => by cases he⟩

end

end Llama.Decode
