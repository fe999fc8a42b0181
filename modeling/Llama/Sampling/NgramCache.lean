import Mathlib.Data.List.Count
import Mathlib.Data.List.Range

/-!
# Counts of n-grams

`common_speculative_state_ngram_cache` counts, while a text grows, which token follows each
n-gram. What it adds is handed to the counting without the tokens in front of it.
-/

namespace Llama.Sampling.NgramCache

open List

/-- `common_ngram_cache`, with 0 for what is absent. Ids of tokens are not negative, so the
padding of `common_ngram` keeps n-grams of different lengths apart. -/
abbrev Cache := List Nat → Nat → Nat

/-- One more time that the token follows the n-gram. -/
def increment (cache : Cache) (ngram : List Nat) (token : Nat) : Cache := fun g t =>
  if g = ngram ∧ t = token then cache g t + 1 else cache g t

/-- `common_ngram_cache_update`. -/
def update (cache : Cache) (ngramMin ngramMax : Nat) (inp : List Nat) (nnew : Nat) : Cache :=
  (range' ngramMin (ngramMax + 1 - ngramMin)).foldl (fun cache ngramSize =>
    let iStart := max (inp.length - nnew) ngramSize
    (range' iStart (inp.length - iStart)).foldl (fun cache i =>
      increment cache ((inp.drop (i - ngramSize)).take ngramSize) (inp.getD i 0)) cache) cache

/-- `common_speculative_state_ngram_cache`. -/
structure State where
  ngramCacheContext : Cache
  cacheSize : Nat

/-- The state before the first draft. -/
def State.start : State := { ngramCacheContext := fun _ _ => 0, cacheSize := 0 }

/-- What `draft` does to the context cache, which is then only read. -/
def State.draft (s : State) (promptTgt : List Nat) (idLast : Nat) : State :=
  if s.cacheSize < promptTgt.length + 1 then
    let tokensNew := promptTgt.drop s.cacheSize ++ [idLast]
    { ngramCacheContext := update s.ngramCacheContext 1 4 tokensNew tokensNew.length
      cacheSize := promptTgt.length + 1 }
  else s

/-- The token at the position follows the n-gram. -/
def Follows (history g : List Nat) (t i : Nat) : Prop :=
  g.length ≤ i ∧ (history.drop (i - g.length)).take g.length = g ∧ history[i]? = some t
deriving Decidable

/-- At how many positions it does. -/
def followed (history g : List Nat) (t : Nat) : Nat :=
  (range history.length).countP (Follows history g t ·)

theorem foldl_increment (l : List Nat) (ngram : Nat → List Nat) (token : Nat → Nat)
    (cache : Cache) (g : List Nat) (t : Nat) :
    l.foldl (fun cache i => increment cache (ngram i) (token i)) cache g t =
      cache g t + l.countP fun i => g = ngram i ∧ t = token i := by
  induction l generalizing cache with
  | nil => rfl
  | cons i l ih =>
    rw [foldl_cons, ih, countP_cons, increment]
    by_cases h : g = ngram i ∧ t = token i
    · rw [if_pos h, if_pos (decide_eq_true h)]
      omega
    · rw [if_neg h, if_neg (by simpa using h)]
      omega

theorem countP_size (inp g : List Nat) (t size : Nat) :
    ((range' size (inp.length - size)).countP fun i =>
      g = (inp.drop (i - size)).take size ∧ t = inp.getD i 0) =
      if size = g.length then followed inp g t else 0 := by
  split
  · rename_i hsize
    subst hsize
    rw [followed]
    by_cases hlen : g.length ≤ inp.length
    · have hsplit : range inp.length =
          range g.length ++ range' g.length (inp.length - g.length) := by
        have hjoin := range'_append_1 (s := 0) (m := g.length) (n := inp.length - g.length)
        rw [Nat.zero_add, Nat.add_sub_cancel' hlen] at hjoin
        rw [range_eq_range', range_eq_range', hjoin]
      have hnone : (range g.length).countP (Follows inp g t ·) = 0 := by
        refine countP_eq_zero.mpr fun i hi => ?_
        have hi := mem_range.mp hi
        rw [decide_eq_true_eq]
        exact fun hf => absurd hf.1 (Nat.not_le.mpr hi)
      rw [hsplit, countP_append, hnone, Nat.zero_add]
      refine countP_congr fun i hi => ?_
      have hi := mem_range'_1.mp hi
      have hget : inp[i]? = some (inp.getD i 0) := by
        rw [getD_eq_getElem?_getD, getElem?_eq_getElem (by omega)]
        rfl
      simp only [decide_eq_true_eq, Follows, hget, Option.some.injEq]
      exact ⟨fun h => ⟨hi.1, h.1.symm, h.2.symm⟩, fun h => ⟨h.2.1.symm, h.2.2.symm⟩⟩
    · rw [Nat.sub_eq_zero_of_le (by omega), range'_zero, countP_nil, eq_comm]
      refine countP_eq_zero.mpr fun i hi => ?_
      have hi := mem_range.mp hi
      rw [decide_eq_true_eq]
      exact fun hf => absurd hf.1 (by omega)
  · rename_i hsize
    refine countP_eq_zero.mpr fun i hi => ?_
    have hi := mem_range'_1.mp hi
    rw [decide_eq_true_eq]
    rintro ⟨rfl, -⟩
    rw [length_take, length_drop] at hsize
    omega

/-- New tokens alone are counted within themselves. -/
theorem update_all (cache : Cache) (inp g : List Nat) (t : Nat) :
    update cache 1 4 inp inp.length g t =
      cache g t + if 1 ≤ g.length ∧ g.length ≤ 4 then followed inp g t else 0 := by
  have hfold : ∀ (sizes : List Nat) (cache : Cache),
      sizes.foldl (fun cache size =>
        let iStart := max (inp.length - inp.length) size
        (range' iStart (inp.length - iStart)).foldl (fun cache i =>
          increment cache ((inp.drop (i - size)).take size) (inp.getD i 0)) cache) cache g t =
        cache g t + sizes.count g.length * followed inp g t := by
    intro sizes
    induction sizes with
    | nil => simp
    | cons size sizes ih =>
      intro cache
      rw [foldl_cons, ih]
      simp only [Nat.sub_self, Nat.zero_max]
      rw [foldl_increment, countP_size, count_cons]
      by_cases hsize : size = g.length
      · rw [if_pos hsize, if_pos (by simpa using hsize), Nat.add_mul]
        omega
      · rw [if_neg hsize, if_neg (by simpa using hsize), Nat.add_zero, Nat.add_zero]
  rw [update, hfold, Nodup.count (nodup_range' ..)]
  simp only [mem_range'_1]
  split
  · rw [if_pos (by omega), Nat.one_mul]
  · rw [if_neg (by omega), Nat.zero_mul]

variable {g h c : List Nat} {i t : Nat} {s : State} {d : List Nat × Nat}

theorem follows_append_left (c : List Nat) (hi : i < h.length) :
    Follows (h ++ c) g t i ↔ Follows h g t i := by
  unfold Follows
  rw [getElem?_append_left hi]
  refine and_congr_right fun hg => ?_
  rw [drop_append_of_le_length (by omega), take_append_of_le_length (by rw [length_drop]; omega)]

theorem follows_append_right (h : List Nat) (hf : Follows c g t i) :
    Follows (h ++ c) g t (h.length + i) := by
  obtain ⟨hi, hg, ht⟩ := hf
  refine ⟨by omega, ?_, by rw [getElem?_append_right (by omega), Nat.add_sub_cancel_left, ht]⟩
  rw [drop_append, drop_eq_nil_of_le (by omega), nil_append]
  rwa [show h.length + i - g.length - h.length = i - g.length by omega]

/-- The token behind a text follows the last one of it, which neither part counts. -/
theorem followed_append_lt (h c : List Nat) (a b : Nat) :
    followed (h ++ [a]) [a] b + followed (b :: c) [a] b < followed (h ++ [a] ++ b :: c) [a] b := by
  have hlen : (h ++ [a] ++ b :: c).length = (h ++ [a]).length + (c.length + 1) := length_append
  rw [followed, followed, followed, hlen, range_add, countP_append]
  have hleft : (range (h ++ [a]).length).countP (Follows (h ++ [a] ++ b :: c) [a] b ·) =
      (range (h ++ [a]).length).countP (Follows (h ++ [a]) [a] b ·) :=
    countP_congr fun i hi => by simp only [follows_append_left _ (mem_range.mp hi)]
  have hzero : ¬ Follows (b :: c) [a] b 0 := fun hf => absurd hf.1 (by simp)
  have hback : Follows (h ++ [a] ++ b :: c) [a] b (h ++ [a]).length := by
    refine ⟨by simp, ?_, by simp⟩
    simp
  rw [hleft, length_cons, range_succ_eq_map, map_cons, countP_cons, countP_cons,
    if_neg (by simpa using hzero), if_pos (by simpa using hback), map_map, countP_map, countP_map]
  have hmono : (range c.length).countP ((Follows (b :: c) [a] b ·) ∘ Nat.succ) ≤
      (range c.length).countP
        ((Follows (h ++ [a] ++ b :: c) [a] b ·) ∘ ((h ++ [a]).length + ·) ∘ Nat.succ) :=
    countP_mono_left fun i _ hi => by
      simp only [Function.comp_apply, decide_eq_true_eq] at hi ⊢
      exact follows_append_right _ hi
  omega

/-- The cache counts every n-gram of the sizes that are looked up. -/
def State.Counts (s : State) (history : List Nat) : Prop :=
  ∀ g t, 1 ≤ g.length → g.length ≤ 4 → s.ngramCacheContext g t = followed history g t

/-- It does after each draft. -/
def CountsAll (s : State) : List (List Nat × Nat) → Prop
  | [] => True
  | (promptTgt, idLast) :: drafts =>
    (s.draft promptTgt idLast).Counts (promptTgt ++ [idLast]) ∧
      CountsAll (s.draft promptTgt idLast) drafts

/-- The text of a draft. -/
def text (d : List Nat × Nat) : List Nat := d.1 ++ [d.2]

theorem draft_same (h : s.cacheSize = (text d).length) : s.draft d.1 d.2 = s := by
  rw [State.draft, if_neg (by rw [h, text, length_append, length_singleton]; omega)]

theorem draft_longer (hs : s.cacheSize = h.length) (hd : text d = h ++ c) (hc : c ≠ [])
    (g : List Nat) (t : Nat) :
    (s.draft d.1 d.2).cacheSize = (text d).length ∧
      (s.draft d.1 d.2).ngramCacheContext g t =
        s.ngramCacheContext g t + if 1 ≤ g.length ∧ g.length ≤ 4 then followed c g t else 0 := by
  have hlen := congrArg length hd
  rw [text, length_append, length_singleton, length_append] at hlen
  have hpos := length_pos_iff.mpr hc
  have hnew : d.1.drop s.cacheSize ++ [d.2] = c := by
    rw [← drop_append_of_le_length (by omega)]
    change (text d).drop s.cacheSize = c
    rw [hd, hs, drop_left]
  rw [State.draft, if_pos (by omega), hnew]
  exact ⟨by rw [text, length_append, length_singleton], update_all ..⟩

/-- While the text stays, the counts do; when it grows, they miss the place where it did. -/
theorem countsAll_from {first : List Nat × Nat} {drafts : List (List Nat × Nat)}
    (hsize : s.cacheSize = (text first).length) (hs : s.Counts (text first))
    (hext : IsChain (fun d e => text d <+: text e) (first :: drafts)) :
    CountsAll s drafts ↔ ∀ d ∈ drafts, text d = text first := by
  induction drafts with
  | nil => simp [CountsAll]
  | cons d drafts ih =>
    obtain ⟨⟨c, hc⟩, hrest⟩ := isChain_cons_cons.mp hext
    rw [forall_mem_cons]
    by_cases hsame : text d = text first
    · rw [CountsAll, draft_same (hsize.trans (congrArg length hsame.symm)), ← text, hsame,
        and_iff_right hs, and_iff_right rfl]
      refine ih ?_
      cases drafts with
      | nil => exact .singleton _
      | cons e rest =>
        obtain ⟨hde, hrest⟩ := isChain_cons_cons.mp hrest
        exact .cons_cons (hsame ▸ hde) hrest
    · refine iff_of_false (fun hall => ?_) fun h => hsame h.1
      cases c with
      | nil => exact hsame (by rw [← hc, append_nil])
      | cons b c =>
        have hcount := hall.1 [first.2] b (by simp) (by simp)
        rw [(draft_longer hsize hc.symm (cons_ne_nil b c) _ _).2, hs _ _ (by simp) (by simp),
          if_pos (by simp), ← text, ← hc] at hcount
        exact absurd hcount (Nat.ne_of_lt (followed_append_lt first.1 c first.2 b))

/-- In a run whose texts extend one another, the counts are those of the whole text after each
draft if and only if no draft after the first has a new token. -/
theorem countsAll_iff (drafts : List (List Nat × Nat))
    (hext : IsChain (fun d e => text d <+: text e) drafts) :
    CountsAll .start drafts ↔ ∀ d ∈ drafts, ∀ e ∈ drafts, text d = text e := by
  cases drafts with
  | nil => simp [CountsAll]
  | cons first drafts =>
    have hfirst := draft_longer (s := .start) (h := []) rfl (nil_append (text first)).symm
      (by simp [text])
    have hcounts : (State.start.draft first.1 first.2).Counts (text first) := fun g t h1 h4 => by
      rw [(hfirst g t).2, if_pos ⟨h1, h4⟩]
      exact Nat.zero_add _
    rw [CountsAll, ← text, and_iff_right hcounts, countsAll_from (hfirst [] 0).1 hcounts hext]
    refine ⟨fun h d hd e he => ?_, fun h d hd => h d (mem_cons_of_mem _ hd) _ (mem_cons_self ..)⟩
    have hall : ∀ d ∈ first :: drafts, text d = text first := forall_mem_cons.mpr ⟨rfl, h⟩
    rw [hall d hd, hall e he]

theorem countsAll_iff_twice : CountsAll .start [([1], 2), ([1], 2)] ↔
    ∀ d ∈ [([1], 2), ([1], 2)], ∀ e ∈ [([1], 2), ([1], 2)], text d = text e :=
  countsAll_iff _ (by simp [text])

/-- Token 3 follows token 2 in the second text and was not counted. -/
theorem draft_misses_seam :
    ((State.start.draft [1] 2).draft [1, 2] 3).ngramCacheContext [2] 3 = 0 ∧
      followed ([1, 2] ++ [3]) [2] 3 = 1 := by
  decide

end Llama.Sampling.NgramCache
