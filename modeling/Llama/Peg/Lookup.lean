import Llama.Peg.Trie
import Mathlib.Data.List.Nodup

/-!
# What the trie holds

Every node of the trie stands for one string of code points, its path from the root. The
nodes of the trie of a word list are the prefixes of the words, and the flagged ones are
the words.
-/

namespace Llama.Peg

open List

namespace Trie

/-- The nodes of `t` stand for `paths`, index by index. -/
structure Laid (t : Trie) (paths : List (List Nat)) : Prop where
  length : paths.length = t.nodes.length
  root : paths[0]? = some []
  nodup : paths.Nodup
  parent : ∀ {u : List Nat} {c : Nat}, u ++ [c] ∈ paths → u ∈ paths
  keys : ∀ k, ((t.node k).children.map Prod.fst).Nodup
  child : ∀ {k : Nat} {u : List Nat}, paths[k]? = some u →
    ∀ c k', t.child k c = some k' ↔ paths[k']? = some (u ++ [c])

/-- The flagged nodes of `t` stand for `words`. -/
structure Flagged (t : Trie) (paths words : List (List Nat)) : Prop extends Laid t paths where
  word : ∀ {k : Nat} {u : List Nat}, paths[k]? = some u → ((t.node k).isWord = true ↔ u ∈ words)
  subset : words ⊆ paths

structure Holds (t : Trie) (paths words : List (List Nat)) : Prop extends
    Flagged t paths words where
  closed : ∀ u, u ∈ paths ↔ u = [] ∨ ∃ w ∈ words, u <+: w

variable {cp v current k : Nat} {l : List (Nat × Nat)} {t : Trie} {paths words : List (List Nat)}
  {u : List Nat}

private theorem lookup_insertChild (h : l.lookup cp = none) (k : Nat) :
    (insertChild cp v l).lookup k = if k = cp then some v else l.lookup k := by
  induction l with
  | nil =>
    rw [insertChild, lookup_cons, lookup_nil]
    split <;> simp_all
  | cons e rest ih =>
    obtain ⟨key, val⟩ := e
    rw [lookup_cons] at h
    split at h
    next => cases h
    next hne =>
      rw [insertChild]
      split
      next =>
        rw [lookup_cons]
        split <;> simp_all
      next =>
        rw [lookup_cons, ih h, lookup_cons]
        by_cases hk : k = cp
        · subst hk
          simp [hne]
        · simp [hk]

private theorem keys_insertChild :
    ((insertChild cp v l).map Prod.fst).Perm (cp :: l.map Prod.fst) := by
  induction l with
  | nil => rfl
  | cons e rest ih =>
    obtain ⟨key, val⟩ := e
    rw [insertChild]
    split
    next => rfl
    next => exact (ih.cons key).trans (.swap cp key _)

theorem lookup_eq_none_iff : l.lookup cp = none ↔ cp ∉ l.map Prod.fst := by
  induction l with
  | nil => simp
  | cons e rest ih =>
    obtain ⟨key, val⟩ := e
    rw [lookup_cons]
    split <;> simp_all

private theorem node_modify (h : current < t.nodes.length) (f : TrieNode → TrieNode)
    (more : List TrieNode)
    (k : Nat) :
    (Trie.mk (t.nodes.modify current f ++ more)).node k =
      if k = current then f (t.node k)
      else if k < t.nodes.length then t.node k else more.getD (k - t.nodes.length) ⟨[], false⟩ := by
  unfold node
  rw [getD_eq_getElem?_getD, getD_eq_getElem?_getD, getD_eq_getElem?_getD]
  by_cases hk : k < t.nodes.length
  · rw [getElem?_append_left (by simpa using hk), getElem?_modify]
    by_cases hc : k = current
    · simp [hc, h]
    · simp [hc, hk, Ne.symm hc]
  · rw [getElem?_append_right (by simpa using hk), if_neg (by omega), if_neg hk]
    simp

private theorem getElem?_snoc {α : Type} {l : List α} {x v : α} :
    (l ++ [x])[k]? = some v ↔ l[k]? = some v ∨ k = l.length ∧ v = x := by
  rcases Nat.lt_trichotomy k l.length with h | h | h
  · rw [getElem?_append_left h]
    exact ⟨.inl, fun hv => hv.resolve_right (by omega)⟩
  · subst h
    simp [eq_comm]
  · rw [getElem?_append_right (by omega), getElem?_eq_none (l := l) (by omega)]
    have : k - l.length ≠ 0 := by omega
    simp [this]
    omega

/-- Two nodes of one path are one node. -/
theorem Laid.index_unique (h : t.Laid paths) {k' : Nat} (hk : paths[k]? = some u)
    (hk' : paths[k']? = some u) : k = k' := by
  obtain ⟨h1, h2⟩ := List.getElem?_eq_some_iff.mp hk
  obtain ⟨h3, h4⟩ := List.getElem?_eq_some_iff.mp hk'
  exact (List.Nodup.getElem_inj_iff h.nodup).mp (h2.trans h4.symm)

section

variable (h : t.Flagged paths words) (hu : paths[current]? = some u)
include h hu

private theorem grow_flagged (cp : Nat) : ∃ paths', (t.grow current cp).1.Flagged paths' words ∧
      paths'[(t.grow current cp).2]? = some (u ++ [cp]) ∧
      ∀ x, x ∈ paths' ↔ x ∈ paths ∨ x = u ++ [cp] := by
  unfold grow
  cases hc : t.child current cp with
  | some next =>
    have hnext := (h.child hu cp next).mp hc
    refine ⟨paths, h, hnext, fun x => ⟨.inl, ?_⟩⟩
    rintro (hx | rfl)
    · exact hx
    · exact mem_of_getElem? hnext
  | none =>
    have hlen := h.length
    have hcur : current < t.nodes.length := hlen ▸ (List.getElem?_eq_some_iff.mp hu).1
    have hnew : u ++ [cp] ∉ paths := by
      intro hmem
      obtain ⟨k', hk'⟩ := getElem?_of_mem hmem
      have := (h.child hu cp k').mpr hk'
      rw [hc] at this
      cases this
    dsimp only
    have hnode := node_modify hcur
      (fun n => { n with children := insertChild cp t.nodes.length n.children }) [⟨[], false⟩]
    refine ⟨paths ++ [u ++ [cp]], ⟨⟨?_, ?_, ?_, ?_, ?_, ?_⟩, ?_, ?_⟩, ?_, ?_⟩
    · simp [hlen]
    · rw [getElem?_append_left (by omega)]
      exact h.root
    · rw [nodup_append]
      refine ⟨h.nodup, by simp, ?_⟩
      rintro x hx y hy rfl
      rw [mem_singleton.mp hy] at hx
      exact hnew hx
    · intro v c hv
      rw [mem_append] at hv ⊢
      obtain hv | hv := hv
      · exact .inl (h.parent hv)
      · obtain ⟨rfl, -⟩ := append_inj' (mem_singleton.mp hv) rfl
        exact .inl (mem_of_getElem? hu)
    · intro k
      rw [hnode]
      split
      next =>
        apply (keys_insertChild.nodup_iff).mpr
        subst k
        exact nodup_cons.mpr ⟨lookup_eq_none_iff.mp hc, h.keys current⟩
      next =>
        split
        next => exact h.keys k
        next => cases k - t.nodes.length <;> simp
    · intro k v hv c k'
      rw [getElem?_snoc] at hv ⊢
      unfold child
      rw [hnode]
      obtain hv | ⟨rfl, rfl⟩ := hv
      · by_cases hk : k = current
        · subst hk
          obtain rfl : v = u := Option.some.inj (hv.symm.trans hu)
          rw [if_pos rfl, lookup_insertChild hc]
          by_cases hcp : c = cp
          · subst hcp
            have hno : ¬ paths[k']? = some (v ++ [c]) := fun hx => hnew (mem_of_getElem? hx)
            simp [hno, hlen, eq_comm]
          · rw [if_neg hcp]
            have hne : ¬ v ++ [c] = v ++ [cp] := by simpa using hcp
            simp only [hne, and_false, or_false]
            exact h.child hv c k'
        · have hlt : k < t.nodes.length := hlen ▸ (List.getElem?_eq_some_iff.mp hv).1
          rw [if_neg hk, if_pos hlt]
          have hne : ¬ v ++ [c] = u ++ [cp] := by
            intro heq
            obtain ⟨rfl, -⟩ := append_inj' heq rfl
            exact hk (h.index_unique hv hu)
          simp only [hne, and_false, or_false]
          exact h.child hv c k'
      · rw [if_neg (by omega), if_neg (by omega), hlen]
        have hno : ¬ paths[k']? = some (u ++ [cp] ++ [c]) :=
          fun hx => hnew (h.parent (mem_of_getElem? hx))
        have hne : ¬ u ++ [cp] ++ [c] = u ++ [cp] := by simp
        simp only [hne, hno, and_false, or_false, iff_false]
        simp
    · intro k v hv
      rw [hnode]
      obtain hv | ⟨rfl, rfl⟩ := getElem?_snoc.mp hv
      · have hlt : k < t.nodes.length := hlen ▸ (List.getElem?_eq_some_iff.mp hv).1
        by_cases hk : k = current
        · rw [if_pos hk]
          exact h.word hv
        · rw [if_neg hk, if_pos hlt]
          exact h.word hv
      · rw [if_neg (by omega), if_neg (by omega), hlen]
        have hno : u ++ [cp] ∉ words := fun hx => hnew (h.subset hx)
        simp [hno]
    · exact fun x hx => mem_append_left _ (h.subset hx)
    · rw [← hlen]
      simp
    · simp

/-- The end of an insertion. -/
theorem flag_flagged :
    (Trie.mk (t.nodes.modify current fun n => { n with isWord := true })).Flagged paths
      (words ++ [u]) := by
  have hlen := h.length
  have hcur : current < t.nodes.length := hlen ▸ (List.getElem?_eq_some_iff.mp hu).1
  have hnode := node_modify hcur (fun n => { n with isWord := true }) []
  rw [append_nil] at hnode
  have hlt : ∀ {k v}, paths[k]? = some v → k < t.nodes.length :=
    fun hv => hlen ▸ (List.getElem?_eq_some_iff.mp hv).1
  refine ⟨⟨by simpa using hlen, h.root, h.nodup, h.parent, ?_, ?_⟩, ?_, ?_⟩
  · intro k
    rw [hnode]
    split
    next => exact h.keys k
    next =>
      split
      next => exact h.keys k
      next => simp
  · intro k v hv c k'
    unfold child
    rw [hnode, if_pos (hlt hv)]
    by_cases hk : k = current
    · rw [if_pos hk]
      exact h.child hv c k'
    · rw [if_neg hk]
      exact h.child hv c k'
  · intro k v hv
    rw [hnode, if_pos (hlt hv), mem_append, mem_singleton]
    by_cases hk : k = current
    · subst hk
      rw [if_pos rfl]
      simp [Option.some.inj (hv.symm.trans hu)]
    · rw [if_neg hk, h.word hv]
      have hne : v ≠ u := fun heq => hk (h.index_unique hv (heq ▸ hu))
      simp [hne]
  · intro x hx
    obtain hx | hx := mem_append.mp hx
    · exact h.subset hx
    · rw [mem_singleton.mp hx]
      exact mem_of_getElem? hu

private theorem insertFrom_flagged (rest : List Nat) :
    ∃ paths', (t.insertFrom current rest).Flagged paths' (words ++ [u ++ rest]) ∧
      ∀ x, x ∈ paths' ↔ x ∈ paths ∨ ∃ y, y <+: rest ∧ x = u ++ y := by
  induction rest generalizing t paths current u with
  | nil =>
    rw [append_nil]
    refine ⟨paths, flag_flagged h hu, fun x => ⟨.inl, ?_⟩⟩
    rintro (hx | ⟨y, hy, rfl⟩)
    · exact hx
    · rw [prefix_nil.mp hy, append_nil]
      exact mem_of_getElem? hu
  | cons cp rest ih =>
    obtain ⟨paths', hf, hcur, hmem⟩ := grow_flagged h hu cp
    obtain ⟨paths'', hf', hmem'⟩ := ih hf hcur
    rw [append_assoc, singleton_append] at hf'
    refine ⟨paths'', hf', fun x => ?_⟩
    rw [hmem', hmem]
    constructor
    · rintro ((hx | rfl) | ⟨y, hy, rfl⟩)
      · exact .inl hx
      · exact .inr ⟨[cp], by simp, rfl⟩
      · exact .inr ⟨cp :: y, by simpa using hy, by simp⟩
    · rintro (hx | ⟨y, hy, rfl⟩)
      · exact .inl (.inl hx)
      · cases y with
        | nil =>
          rw [append_nil]
          exact .inl (.inl (mem_of_getElem? hu))
        | cons b y =>
          obtain ⟨rfl, hy'⟩ := cons_prefix_cons.mp hy
          exact .inr ⟨y, hy', by simp⟩

end

private theorem insert_holds (h : t.Holds paths words) (word : List UInt8) :
    ∃ paths', (t.insert word).Holds paths' (words ++ [codepoints word]) := by
  obtain ⟨paths', hf, hmem⟩ := insertFrom_flagged h.toFlagged h.root (codepoints word)
  refine ⟨paths', hf, fun u => ?_⟩
  rw [hmem, h.closed]
  simp only [nil_append, exists_eq_right', mem_append, mem_singleton, or_and_right,
    exists_or, exists_eq_left, or_assoc]

private theorem empty_holds : (Trie.mk [⟨[], false⟩]).Holds [[]] [] := by
  have hzero : ∀ {k : Nat} {u : List Nat}, [([] : List Nat)][k]? = some u → k = 0 ∧ u = [] := by
    intro k u hk
    cases k with
    | zero => exact ⟨rfl, (Option.some.inj hk).symm⟩
    | succ k => simp at hk
  refine ⟨⟨⟨rfl, rfl, by simp, by simp, ?_, ?_⟩, ?_, by simp⟩, by simp⟩
  · intro k
    cases k <;> simp [node]
  · intro k u hk c k'
    obtain ⟨rfl, rfl⟩ := hzero hk
    constructor
    · intro hc
      cases hc
    · intro hc
      have := (hzero hc).2
      simp at this
  · intro k u hk
    obtain ⟨rfl, rfl⟩ := hzero hk
    simp [node]

/-- The constructor stores the words, read as code points. -/
theorem ofWords_holds (words : List (List UInt8)) :
    ∃ paths, (ofWords words).Holds paths (words.map codepoints) := by
  have run : ∀ (rest : List (List UInt8)) (t : Trie) (paths done : List (List Nat)),
      t.Holds paths done →
      ∃ paths', (rest.foldl insert t).Holds paths' (done ++ rest.map codepoints) := by
    intro rest
    induction rest with
    | nil =>
      intro t paths done h
      exact ⟨paths, by simpa using h⟩
    | cons w rest ih =>
      intro t paths done h
      obtain ⟨paths', h'⟩ := insert_holds h w
      obtain ⟨paths'', h''⟩ := ih _ _ _ h'
      exact ⟨paths'', by simpa using h''⟩
  exact run words _ _ _ empty_holds

/-- From the node of `u` the walk over `x` fails, before it meets a word, exactly when no
word continues `u` inside `x` and `u ++ x` is not in the trie. -/
theorem checkFrom_noMatch (h : t.Holds paths words) (x : List Nat) (hu : paths[current]? = some u) :
    t.checkFrom current x = .noMatch ↔
      (∀ y, y <+: x → y ≠ [] → u ++ y ∉ words) ∧ (u ++ x ∈ paths → u ++ x = []) := by
  induction x generalizing current u with
  | nil =>
    have hmem : u ∈ paths := mem_of_getElem? hu
    have hroot : current = 0 ↔ u = [] := by
      constructor
      · rintro rfl
        exact Option.some.inj (hu.symm.trans h.root)
      · rintro rfl
        exact h.index_unique hu h.root
    rw [checkFrom, append_nil]
    by_cases hz : current = 0
    · simp [hz, hroot.mp hz]
    · have hne : u ≠ [] := fun heq => hz (hroot.mpr heq)
      simp [hz, hmem, hne]
  | cons c x ih =>
    rw [checkFrom]
    cases hc : t.child current c with
    | none =>
      -- no node, so no word and no path goes on with `c`
      have hno : u ++ [c] ∉ paths := by
        intro hmem
        obtain ⟨k', hk'⟩ := getElem?_of_mem hmem
        rw [(h.child hu c k').mpr hk'] at hc
        cases hc
      have hbeyond : ∀ y, u ++ c :: y ∉ paths := by
        intro y hy
        apply hno
        rw [h.closed] at hy ⊢
        obtain hy | ⟨w, hw, hpre⟩ := hy
        · simp at hy
        · refine .inr ⟨w, hw, List.IsPrefix.trans ?_ hpre⟩
          exact ⟨y, by simp⟩
      simp only [true_iff]
      refine ⟨?_, fun hx => absurd hx (hbeyond x)⟩
      rintro y ⟨z, hz⟩ hne hw
      cases y with
      | nil => exact hne rfl
      | cons b y =>
        obtain rfl : b = c := by simpa using (List.cons.inj hz).1
        exact hbeyond y (h.subset hw)
    | some next =>
      have hnext := (h.child hu c next).mp hc
      dsimp only
      have hword := h.word hnext
      split
      next hw =>
        simp only [reduceCtorEq, false_iff, not_and_or]
        left
        intro hall
        exact hall [c] (by simp) (by simp) (hword.mp hw)
      next hw =>
        rw [ih hnext]
        have hnw : u ++ [c] ∉ words := fun hx => hw (hword.mpr hx)
        simp only [append_assoc, singleton_append]
        apply and_congr_left'
        constructor
        · intro hall y hy hne hmem
          cases y with
          | nil => exact hne rfl
          | cons b y =>
            obtain ⟨rfl, hy'⟩ := cons_prefix_cons.mp hy
            cases y with
            | nil => exact hnw hmem
            | cons b' y => exact hall (b' :: y) hy' (by simp) hmem
        · intro hall y hy hne
          exact hall (c :: y) (by simpa using hy) (by simp)

/-- No delimiter starts at a position and the rest of the input starts no delimiter. -/
theorem checkFrom_root (h : t.Holds paths words) {x : List Nat} (hx : x ≠ []) (hne : [] ∉ words) :
    t.checkFrom 0 x = .noMatch ↔ ∀ w ∈ words, ¬ w <+: x ∧ ¬ x <+: w := by
  rw [checkFrom_noMatch h x h.root]
  simp only [nil_append, hx, imp_false]
  rw [h.closed]
  simp only [hx, false_or, not_exists, not_and]
  constructor
  · rintro ⟨h1, h2⟩ w hw
    exact ⟨fun hp => h1 w hp (fun hn => hne (hn ▸ hw)) hw, h2 w hw⟩
  · intro hall
    exact ⟨fun y hy _ hw => (hall y hw).1 hy, fun w hw => (hall w hw).2⟩

end Trie

end Llama.Peg
