import Llama.Decode.Hybrid

/-!
# Removing a failed ubatch

The table `pos_min` has a sequence only if it is the first sequence of a token. From there on
`seq_rm` removes the tail of the sequence, unless the recurrent part of a hybrid memory refuses.
-/

namespace Llama.Decode

open Batch List Function

variable {E : Type} {b : Allocr E} {c : Cut} {f : Kv.Config} {u : UBatch E} {m : Memory}

theorem posMins_table (u : UBatch E) :
    (∀ k < u.nTokens, posMins u (firstSeq u k) ≤ u.pos.getD k 0) ∧
      ∀ s, posMins u s ≤ Kv.posMax ∧ (posMins u s = Kv.posMax ∨
        ∃ k < u.nTokens, firstSeq u k = s ∧ posMins u s = u.pos.getD k 0) := by
  refine Loop.foldl_range_induction (motive := fun n (t : Nat → Int) =>
    (∀ k < n, t (firstSeq u k) ≤ u.pos.getD k 0) ∧ ∀ s, t s ≤ Kv.posMax ∧
      (t s = Kv.posMax ∨ ∃ k < n, firstSeq u k = s ∧ t s = u.pos.getD k 0))
    ⟨by simp, fun _ => ⟨le_rfl, .inl rfl⟩⟩ ?_
  rintro n - t ⟨hle, hs⟩
  refine ⟨fun k hk => ?_, fun s => ?_⟩
  · by_cases he : firstSeq u k = firstSeq u n
    · rw [he, update_self]
      by_cases hkn : k = n
      · rw [hkn]
        exact min_le_right _ _
      · have hk' : k < n := by omega
        exact (min_le_left _ _).trans (he ▸ hle k hk')
    · have hkn : k ≠ n := fun h => he (h ▸ rfl)
      rw [update_of_ne he]
      exact hle k (by omega)
  · by_cases he : s = firstSeq u n
    · subst he
      rw [update_self]
      rcases le_total (t (firstSeq u n)) (u.pos.getD n 0) with hm | hm
      · rw [min_eq_left hm]
        obtain ⟨h1, h2 | ⟨k, hk, h⟩⟩ := hs (firstSeq u n)
        · exact ⟨h1, .inl h2⟩
        · exact ⟨h1, .inr ⟨k, by omega, h⟩⟩
      · rw [min_eq_right hm]
        exact ⟨hm.trans (hs _).1, .inr ⟨n, Nat.lt_succ_self n, rfl, rfl⟩⟩
    · rw [update_of_ne he]
      obtain ⟨h1, h2 | ⟨k, hk, h⟩⟩ := hs s
      · exact ⟨h1, .inl h2⟩
      · exact ⟨h1, .inr ⟨k, by omega, h⟩⟩

section

variable (hb : Seatable f b) (hlt : ∀ i ∈ c.idxs, i < b.nTokens)
include hb hlt

/-- The table is at most the position of a token, at the first sequence of the token. -/
theorem posMins_le {j : Nat} (hj : j ∈ c.idxs) :
    posMins (b.ubatch c) (b.seqId j 0).toNat ≤ b.pos j := by
  obtain ⟨k, hk, rfl⟩ := exists_tokenAt hj
  have h := (posMins_table (b.ubatch c)).1 k hk
  rwa [firstSeq_ubatch hb hlt hk, ubatch_pos hb hk] at h

/-- An entry that was set is the position of a token with this first sequence. -/
theorem posMins_attained {s : Nat} (hs : posMins (b.ubatch c) s ≠ Kv.posMax) :
    ∃ j ∈ c.idxs, (b.seqId j 0).toNat = s ∧ posMins (b.ubatch c) s = b.pos j := by
  obtain ⟨k, hk, hfirst, hpos⟩ := ((posMins_table (b.ubatch c)).2 s).2.resolve_left hs
  have hk' : k < c.idxs.length := hk
  rw [firstSeq_ubatch hb hlt hk'] at hfirst
  rw [ubatch_pos hb hk'] at hpos
  exact ⟨tokenAt c k, tokenAt_mem hk', hfirst, hpos⟩

theorem posMins_nonneg (s : Nat) : 0 ≤ posMins (b.ubatch c) s := by
  by_cases hs : posMins (b.ubatch c) s = Kv.posMax
  · rw [hs]
    decide
  · obtain ⟨j, hj, -, hpos⟩ := posMins_attained hb hlt hs
    exact hpos ▸ hb.pos j (hlt j hj)

end

/-- The sequence ends at this position in the recurrent part, if there is one. -/
def Memory.EndsAt (m : Memory) (s : Nat) (last : Int) : Prop := ∀ r, m.recr = some r → Sits r s last

/-- No recurrent part refuses to remove the positions from `p0` to `last`. -/
def Memory.Accepts (m : Memory) (p0 last : Int) : Prop :=
  m.recr.isSome = true → ¬ (0 < p0 ∧ p0 ≤ last ∧ last < Recurrent.maxPos)

/-- Either only the recurrent part is changed, or the attention cache loses the range too. -/
theorem Memory.seqRm_cases (m : Memory) (s : Nat) (p0 p1 : Int) :
    (m.seqRm s p0 p1).2.recr = m.recr.map (fun r => (r.seqRm s p0 p1).2) ∧
      (m.seqRm s p0 p1).2.attn = if ∀ r ∈ m.recr, (r.seqRm s p0 p1).1 = true
        then m.attn.seqRm (some (seqIdOf s)) p0 p1 else m.attn := by
  have hneg : ¬ (s : Int) < 0 := by omega
  simp only [Memory.seqRm, if_neg hneg]
  cases hr : m.recr with
  | none => simp
  | some r =>
    cases hrm : r.seqRm s p0 p1 with
    | mk ok r1 => cases ok <;> simp [hrm]

theorem EndsAt.seqRm {s s' : Nat} {last : Int} (h : m.EndsAt s last) (hne : s ≠ s') (p0 p1 : Int) :
    (m.seqRm s' p0 p1).2.EndsAt s last := by
  intro r hr
  rw [(m.seqRm_cases s' p0 p1).1, Option.map_eq_some_iff] at hr
  obtain ⟨r0, hr0, rfl⟩ := hr
  exact (h r0 hr0).seqRm hne p0 p1

theorem contains_seqRm_tail {s : Nat} {p0 last : Int} (hs : s < Kv.maxSeq) (hp0 : 0 ≤ p0)
    (hend : m.EndsAt s last) (q : Kv.SeqId) (p : Int) :
    (m.seqRm s p0 (-1)).2.attn.Contains q p ↔
      m.attn.Contains q p ∧ ¬ (q.val = s ∧ p0 ≤ p ∧ p < Kv.posMax ∧ m.Accepts p0 last) := by
  have haccept : (∀ r ∈ m.recr, (r.seqRm s p0 (-1)).1 = true) ↔ m.Accepts p0 last := by
    unfold Memory.Accepts
    cases hr : m.recr with
    | none => simp
    | some r =>
      simp only [Option.mem_def, Option.some.injEq, forall_eq', Option.isSome_some, forall_const]
      exact (hend r hr).answer hp0
  have hid : q = seqIdOf s ↔ q.val = s := by
    rw [Fin.ext_iff, val_seqIdOf (by omega), Int.toNat_natCast]
  have hlow : Kv.Cache.lower p0 = p0 := if_neg (by omega)
  have hup : Kv.Cache.upper (-1) = Kv.posMax := rfl
  rw [(m.seqRm_cases s p0 (-1)).2]
  split
  · rename_i hall
    rw [haccept] at hall
    rw [Kv.Cache.contains_seqRm, hid, hlow, hup]
    simp only [hall, and_true]
  · rename_i hall
    rw [haccept] at hall
    simp only [hall, and_false, not_false_iff, and_true]

theorem contains_removals (u : UBatch E) (last : Nat → Int) : ∀ (ss : List Nat) (m : Memory),
    ss.Nodup → (∀ s ∈ ss, s < Kv.maxSeq ∧ 0 ≤ posMins u s) →
    (∀ s ∈ ss, posMins u s ≠ Kv.posMax → m.EndsAt s (last s)) → ∀ q p,
    ((ss.foldl (fun m s => if posMins u s = Kv.posMax then m
        else (m.seqRm s (posMins u s) (-1)).2) m).attn.Contains q p ↔
      m.attn.Contains q p ∧ ¬ (q.val ∈ ss ∧ posMins u q.val ≤ p ∧ p < Kv.posMax ∧
        m.Accepts (posMins u q.val) (last q.val)))
  | [], m, _, _, _, q, p => by simp
  | s :: ss, m, hnd, hss, hend, q, p => by
    obtain ⟨hnot, hnd'⟩ := nodup_cons.mp hnd
    rw [foldl_cons]
    by_cases hp : posMins u s = Kv.posMax
    · rw [if_pos hp, contains_removals u last ss m hnd' (fun s hs => hss s (mem_cons_of_mem _ hs))
        (fun s hs => hend s (mem_cons_of_mem _ hs)), mem_cons]
      refine and_congr_right fun _ => not_congr ⟨fun h => ⟨.inr h.1, h.2⟩, fun h => ⟨?_, h.2⟩⟩
      -- nothing lies between the greatest position and itself
      refine h.1.resolve_left fun he => ?_
      have := h.2.1
      rw [he, hp] at this
      omega
    · obtain ⟨hs, hpos⟩ := hss s mem_cons_self
      have hrest : ∀ s' ∈ ss, posMins u s' ≠ Kv.posMax →
          (m.seqRm s (posMins u s) (-1)).2.EndsAt s' (last s') := fun s' hs' hp' => by
        have hne : s' ≠ s := fun he => hnot (he ▸ hs')
        exact EndsAt.seqRm (hend s' (mem_cons_of_mem _ hs') hp') hne _ _
      have haccept : ∀ p0 l, (m.seqRm s (posMins u s) (-1)).2.Accepts p0 l ↔ m.Accepts p0 l := by
        intro p0 l
        rw [Memory.Accepts, Memory.Accepts, (m.seqRm_cases s (posMins u s) (-1)).1,
          Option.isSome_map]
      rw [if_neg hp, contains_removals u last ss _ hnd' (fun s hs => hss s (mem_cons_of_mem _ hs))
        hrest, contains_seqRm_tail hs hpos (hend s mem_cons_self hp), haccept, mem_cons]
      constructor
      · rintro ⟨⟨hc, h1⟩, h2⟩
        refine ⟨hc, fun ⟨hq, h3, h4, h5⟩ => ?_⟩
        rcases hq with hq | hq
        · rw [hq] at h3 h5
          exact h1 ⟨hq, h3, h4, h5⟩
        · exact h2 ⟨hq, h3, h4, h5⟩
      · rintro ⟨hc, h⟩
        refine ⟨⟨hc, fun ⟨hq, h3, h4, h5⟩ => h ⟨.inl hq, ?_⟩⟩, fun ⟨hq, h3⟩ => h ⟨.inr hq, h3⟩⟩
        rw [hq]
        exact ⟨h3, h4, h5⟩

/-- The rollback removes the positions from `pos_min` on, where it is not refused. -/
theorem contains_rollback {last : Nat → Int} (hpos : ∀ s, 0 ≤ posMins u s)
    (hend : ∀ s, posMins u s ≠ Kv.posMax → m.EndsAt s (last s)) (q : Kv.SeqId) (p : Int) :
    (m.rollback u).attn.Contains q p ↔ m.attn.Contains q p ∧
      ¬ (posMins u q.val ≤ p ∧ p < Kv.posMax ∧ m.Accepts (posMins u q.val) (last q.val)) := by
  have h := contains_removals u last (range Kv.maxSeq) m nodup_range
    (fun s hs => ⟨mem_range.mp hs, hpos s⟩) (fun s _ => hend s) q p
  rw [Memory.rollback, h]
  simp only [mem_range, q.isLt, true_and]

end Llama.Decode
