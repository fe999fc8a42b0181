import Mathlib.Data.Finset.Card

/-!
# Depth-first walks

A walk over references with a set of seen nodes. A node is seen before its references are walked
and put out after them. Whatever the references, cycles included, the walk ends: every level of
the recursion sees one more node. What it puts out are the reachable nodes, each once.
-/

namespace Llama.Dfs

open List

variable {α : Type*}

/-- The nodes put out, in order, and the nodes seen. -/
structure Walk (α : Type*) where
  /-- Finished nodes. -/
  out : List α
  /-- Nodes seen. -/
  seen : List α

/-- Walk from a node, with a bound on the depth. -/
def visit [DecidableEq α] (refs : α → List α) : Nat → α → Walk α → Walk α
  | 0, _, w => w
  | fuel + 1, p, w =>
    if p ∈ w.seen then w
    else
      let w := (refs p).foldl (fun w q => visit refs fuel q w) { w with seen := p :: w.seen }
      { w with out := w.out ++ [p] }

/-- Walk from several nodes in turn. -/
def walk [DecidableEq α] (refs : α → List α) (fuel : Nat) (roots : List α) : Walk α :=
  roots.foldl (fun w p => visit refs fuel p w) ⟨[], []⟩

/-- The nodes that references lead to. -/
def Reach (refs : α → List α) (roots : List α) (p : α) : Prop :=
  ∃ r ∈ roots, Relation.ReflTransGen (fun p q => q ∈ refs p) r p

variable {refs : α → List α} {roots : List α} {S : Finset α}

/-- State of a walk inside the finite set `S` while the nodes of `pending` are being walked. -/
structure Walk.Inv (refs : α → List α) (roots : List α) (S : Finset α) (pending : List α)
    (w : Walk α) : Prop where
  nodup : w.out.Nodup
  seen : ∀ p, p ∈ w.seen ↔ p ∈ w.out ∨ p ∈ pending
  apart : ∀ p ∈ pending, p ∉ w.out
  closed : ∀ p ∈ w.out, ∀ q ∈ refs p, q ∈ w.seen
  inside : ∀ p ∈ w.seen, p ∈ S
  reach : ∀ p ∈ w.seen, Reach refs roots p

theorem Reach.step {p q : α} (h : Reach refs roots p) (hq : q ∈ refs p) : Reach refs roots q := by
  obtain ⟨r, hr, hp⟩ := h
  exact ⟨r, hr, hp.tail hq⟩

variable [DecidableEq α]

/-- Nodes of `S` that are not seen yet. -/
def Walk.unseen (S : Finset α) (w : Walk α) : Finset α := S.filter (· ∉ w.seen)

theorem Walk.unseen_mono {w w' : Walk α} (h : ∀ p ∈ w.seen, p ∈ w'.seen) :
    w'.unseen S ⊆ w.unseen S := by
  intro p hp
  rw [unseen, Finset.mem_filter] at hp ⊢
  exact ⟨hp.1, fun hw => hp.2 (h p hw)⟩

/-- Seeing a new node uses one of the unseen ones up. -/
theorem Walk.card_unseen_cons {w : Walk α} {p : α} (hp : p ∈ S) (hw : p ∉ w.seen) :
    (Walk.unseen S { w with seen := p :: w.seen }).card < (w.unseen S).card := by
  apply Finset.card_lt_card
  refine ⟨unseen_mono fun q hq => mem_cons_of_mem p hq, fun hsub => ?_⟩
  have hin : p ∈ w.unseen S := Finset.mem_filter.mpr ⟨hp, hw⟩
  have := (Finset.mem_filter.mp (hsub hin)).2
  exact this mem_cons_self

/-- What walking from a node keeps and adds. -/
def Walk.Grows (refs : α → List α) (roots : List α) (S : Finset α) (pending : List α)
    (w w' : Walk α) : Prop :=
  w'.Inv refs roots S pending ∧ ∀ p ∈ w.seen, p ∈ w'.seen

/-- Walking from several nodes, given what walking from one does. -/
theorem foldl_visit {fuel : Nat} {pending : List α}
    (hvisit : ∀ p (w : Walk α), w.Inv refs roots S pending → p ∈ S → Reach refs roots p →
      (w.unseen S).card < fuel →
      Walk.Grows refs roots S pending w (visit refs fuel p w) ∧ p ∈ (visit refs fuel p w).seen) :
    ∀ (l : List α) (w : Walk α), w.Inv refs roots S pending →
      (∀ p ∈ l, p ∈ S ∧ Reach refs roots p) → (w.unseen S).card < fuel →
      Walk.Grows refs roots S pending w (l.foldl (fun w p => visit refs fuel p w) w) ∧
        ∀ p ∈ l, p ∈ (l.foldl (fun w p => visit refs fuel p w) w).seen
  | [], w, hw, _, _ => ⟨⟨hw, fun _ h => h⟩, fun p hp => absurd hp not_mem_nil⟩
  | q :: l, w, hw, hl, hf => by
    obtain ⟨⟨hinv, hmono⟩, hq⟩ := hvisit q w hw (hl q mem_cons_self).1 (hl q mem_cons_self).2 hf
    have hf' := (Finset.card_le_card (Walk.unseen_mono (S := S) hmono)).trans_lt hf
    obtain ⟨⟨hinv', hmono'⟩, hall⟩ := foldl_visit hvisit l _ hinv
      (fun p hp => hl p (mem_cons_of_mem q hp)) hf'
    refine ⟨⟨hinv', fun p hp => hmono' p (hmono p hp)⟩, fun p hp => ?_⟩
    rcases mem_cons.mp hp with rfl | hp
    · exact hmono' _ hq
    · exact hall p hp

theorem visit_grows (hS : ∀ p ∈ S, ∀ q ∈ refs p, q ∈ S) : ∀ (fuel : Nat) (pending : List α) (p : α)
    (w : Walk α), w.Inv refs roots S pending → p ∈ S → Reach refs roots p →
      (w.unseen S).card < fuel →
      Walk.Grows refs roots S pending w (visit refs fuel p w) ∧ p ∈ (visit refs fuel p w).seen
  | 0, _, _, _, _, _, _, hf => absurd hf (Nat.not_lt_zero _)
  | fuel + 1, pending, p, w, hw, hp, hr, hf => by
    rw [visit]
    by_cases hseen : p ∈ w.seen
    · rw [if_pos hseen]
      exact ⟨⟨hw, fun _ h => h⟩, hseen⟩
    · rw [if_neg hseen]
      have hcard := Walk.card_unseen_cons hp hseen
      have hopen : Walk.Inv refs roots S (p :: pending) { w with seen := p :: w.seen } := by
        refine ⟨hw.nodup, fun q => ?_, fun q hq hout => ?_, fun q hq r hr => ?_, fun q hq => ?_,
          fun q hq => ?_⟩
        · simp only [mem_cons, hw.seen q]
          tauto
        · rcases mem_cons.mp hq with rfl | hq
          · exact hseen ((hw.seen q).mpr (.inl hout))
          · exact hw.apart q hq hout
        · exact mem_cons_of_mem p (hw.closed q hq r hr)
        · rcases mem_cons.mp hq with rfl | hq
          · exact hp
          · exact hw.inside q hq
        · rcases mem_cons.mp hq with rfl | hq
          · exact hr
          · exact hw.reach q hq
      obtain ⟨⟨hinv, hmono⟩, hall⟩ := foldl_visit
        (fun q v hv hq hqr hlt => visit_grows hS fuel (p :: pending) q v hv hq hqr hlt)
        (refs p) _ hopen (fun q hq => ⟨hS p hp q hq, hr.step hq⟩) (by omega)
      have hin := hmono p mem_cons_self
      refine ⟨⟨⟨?_, fun q => ?_, fun q hq hout => ?_, fun q hq r hr => ?_, hinv.inside, hinv.reach⟩,
        fun q hq => hmono q (mem_cons_of_mem p hq)⟩, hin⟩
      · refine nodup_append.mpr ⟨hinv.nodup, nodup_singleton p, ?_⟩
        intro a ha b hb he
        rw [mem_singleton.mp hb] at he
        subst he
        exact hinv.apart a mem_cons_self ha
      · rw [hinv.seen q, mem_append, mem_singleton, mem_cons]
        tauto
      · rcases mem_append.mp hout with hout | hout
        · exact hinv.apart q (mem_cons_of_mem p hq) hout
        · rw [mem_singleton.mp hout] at hq
          exact hseen ((hw.seen p).mpr (.inr hq))
      · rcases mem_append.mp hq with hq | hq
        · exact hinv.closed q hq r hr
        · rw [mem_singleton.mp hq] at hr
          exact hall r hr

/-- A walk inside a closed finite set puts out the reachable nodes, each once. -/
theorem walk_spec (hS : ∀ p ∈ S, ∀ q ∈ refs p, q ∈ S) (hroots : ∀ p ∈ roots, p ∈ S) {fuel : Nat}
    (hf : S.card < fuel) : (walk refs fuel roots).out.Nodup ∧
      ∀ p, p ∈ (walk refs fuel roots).out ↔ Reach refs roots p := by
  have hstart : Walk.Inv refs roots S [] ⟨[], []⟩ :=
    ⟨nodup_nil, fun p => by simp, fun p _ => not_mem_nil, fun p hp => (by cases hp),
      fun p hp => (by cases hp), fun p hp => (by cases hp)⟩
  have hcard : (Walk.unseen S (⟨[], []⟩ : Walk α)).card < fuel :=
    (Finset.card_le_card (Finset.filter_subset _ _)).trans_lt hf
  obtain ⟨⟨hinv, -⟩, hall⟩ := foldl_visit
    (fun q v hv hq hqr hlt => visit_grows hS fuel [] q v hv hq hqr hlt) roots _ hstart
    (fun p hp => ⟨hroots p hp, p, hp, .refl⟩) hcard
  have hseen : ∀ p, p ∈ (walk refs fuel roots).seen ↔ p ∈ (walk refs fuel roots).out := by
    intro p
    simpa [walk] using hinv.seen p
  refine ⟨hinv.nodup, fun p => ⟨fun hp => hinv.reach p ((hseen p).mpr hp), ?_⟩⟩
  rintro ⟨r, hr, hp⟩
  induction hp with
  | refl => exact (hseen r).mp (hall r hr)
  | tail _ hq ih => exact (hseen _).mp (hinv.closed _ ih _ hq)

/-- Walking from several nodes with other references or another bound, given that walking from one
node does not tell them apart. -/
theorem foldl_visit_congr {refs' : α → List α} {fuel fuel' : Nat}
    (hvisit : ∀ p (w : Walk α), p ∈ S → (w.unseen S).card < fuel → (w.unseen S).card < fuel' →
      visit refs' fuel' p w = visit refs fuel p w ∧ ∀ q ∈ w.seen, q ∈ (visit refs fuel p w).seen) :
    ∀ (l : List α) (w : Walk α), (∀ p ∈ l, p ∈ S) → (w.unseen S).card < fuel →
      (w.unseen S).card < fuel' →
      l.foldl (fun w p => visit refs' fuel' p w) w = l.foldl (fun w p => visit refs fuel p w) w ∧
        ∀ q ∈ w.seen, q ∈ (l.foldl (fun w p => visit refs fuel p w) w).seen
  | [], _, _, _, _ => ⟨rfl, fun _ h => h⟩
  | p :: l, w, hl, hf, hf' => by
    obtain ⟨heq, hmono⟩ := hvisit p w (hl p mem_cons_self) hf hf'
    have hle := Finset.card_le_card (Walk.unseen_mono (S := S) hmono)
    obtain ⟨heql, hmonol⟩ := foldl_visit_congr hvisit l (visit refs fuel p w)
      (fun q hq => hl q (mem_cons_of_mem p hq)) (hle.trans_lt hf) (hle.trans_lt hf')
    rw [foldl_cons, foldl_cons, heq]
    exact ⟨heql, fun q hq => hmonol q (hmono q hq)⟩

/-- Inside a closed set a walk depends on the references there only, and not on the bound once it is
large enough. -/
theorem visit_congr {refs' : α → List α} (hrefs : ∀ p ∈ S, refs' p = refs p)
    (hS : ∀ p ∈ S, ∀ q ∈ refs p, q ∈ S) : ∀ (fuel fuel' : Nat) (p : α) (w : Walk α), p ∈ S →
      (w.unseen S).card < fuel → (w.unseen S).card < fuel' →
      visit refs' fuel' p w = visit refs fuel p w ∧ ∀ q ∈ w.seen, q ∈ (visit refs fuel p w).seen
  | 0, _, _, _, _, hf, _ => absurd hf (Nat.not_lt_zero _)
  | _ + 1, 0, _, _, _, _, hf' => absurd hf' (Nat.not_lt_zero _)
  | fuel + 1, fuel' + 1, p, w, hp, hf, hf' => by
    rw [visit, visit, hrefs p hp]
    by_cases hseen : p ∈ w.seen
    · rw [if_pos hseen, if_pos hseen]
      exact ⟨rfl, fun _ h => h⟩
    · rw [if_neg hseen, if_neg hseen]
      have hcard := Walk.card_unseen_cons hp hseen
      obtain ⟨heq, hmono⟩ := foldl_visit_congr
        (fun q v hq => visit_congr hrefs hS fuel fuel' q v hq) (refs p)
        { w with seen := p :: w.seen } (hS p hp) (by omega) (by omega)
      simp only [heq, true_and]
      exact fun q hq => hmono q (mem_cons_of_mem p hq)

/-- Two walks from the same roots inside a closed set. -/
theorem walk_congr {refs' : α → List α} (hrefs : ∀ p ∈ S, refs' p = refs p)
    (hS : ∀ p ∈ S, ∀ q ∈ refs p, q ∈ S) (hroots : ∀ p ∈ roots, p ∈ S) {fuel fuel' : Nat}
    (hf : S.card < fuel) (hf' : S.card < fuel') : walk refs' fuel' roots =
      walk refs fuel roots := by
  have hcard : (Walk.unseen S (⟨[], []⟩ : Walk α)).card ≤ S.card :=
    Finset.card_le_card (Finset.filter_subset _ _)
  exact (foldl_visit_congr (fun q v hq => visit_congr hrefs hS fuel fuel' q v hq) roots _ hroots
    (hcard.trans_lt hf) (hcard.trans_lt hf')).1

end Llama.Dfs
