import Llama.Peg.Until
import Mathlib.Computability.Language

/-!
# The exclusion grammar

`gbnf_excluding_pattern` turns the delimiters of an `until` parser into a GBNF expression:
any number of pieces, each a path of the trie that is not a word, followed by a character
that leaves the trie there. The pattern and the parser agree exactly when such a piece
cannot end in the start of a delimiter; the trie has no failure links that would see it.
-/

namespace Llama.Peg

open Computability List

/-- `trie::prefix_and_next`. -/
structure PrefixAndNext where
  before : List Nat
  nextChars : List Nat
  deriving DecidableEq, Repr

/-- The children of a node, as `collect_prefix_and_next` lists them. -/
def TrieNode.keys (n : TrieNode) : List Nat := n.children.map Prod.fst

namespace Trie

/-- `collect_prefix_and_next` below one node. The first argument bounds the depth. -/
def collectFrom (t : Trie) : Nat → Nat → List Nat → List PrefixAndNext
  | 0, _, _ => []
  | n + 1, index, path =>
    (if !(t.node index).isWord && !(t.node index).children.isEmpty then
        [⟨path, (t.node index).keys⟩] else []) ++
      (t.node index).children.flatMap fun e => t.collectFrom n e.2 (path ++ [e.1])

def collectPrefixAndNext (t : Trie) : List PrefixAndNext := t.collectFrom t.nodes.length 0 []

end Trie

/-- The hexadecimal digits of `n`, most significant first. -/
def hexDigitsOf : Nat → Nat → List Char
  | 0, _ => []
  | w + 1, n => hexDigitsOf w (n / 16) ++ ["0123456789ABCDEF".toList.getD (n % 16) '0']

def gbnfEscapeCharClass (c : Nat) : List Char :=
  if c = '-'.toNat ∨ c = ']'.toNat ∨ c = '['.toNat ∨ c = '\\'.toNat then ['\\', Char.ofNat c]
  else if c = '\n'.toNat then "\\n".toList
  else if c = '\t'.toNat then "\\t".toList
  else if c = '\r'.toNat then "\\r".toList
  else if 0x20 ≤ c ∧ c ≤ 0x7e then [Char.ofNat c]
  else if c ≤ 0xff then "\\x".toList ++ hexDigitsOf 2 c
  else if c ≤ 0xffff then "\\u".toList ++ hexDigitsOf 4 c
  else "\\U".toList ++ hexDigitsOf 8 c

theorem toNat_ofNat {c : Nat} (h : c ≤ 0x7e) : (Char.ofNat c).toNat = c := by
  have hv : c.isValidChar := .inl (by omega)
  rw [Char.ofNat, dif_pos hv]
  rfl

def gbnfFormatLiteral (text : List Char) : List Char :=
  '"' :: text.flatMap (fun c =>
    if c = '\r' then "\\r".toList else if c = '\n' then "\\n".toList
    else if c = '"' then "\\\"".toList else if c = '\\' then "\\\\".toList else [c]) ++ ['"']

/-- One alternative of the pattern. -/
def PrefixAndNext.text (p : PrefixAndNext) : List Char :=
  (if p.before = [] then [] else gbnfFormatLiteral (p.before.map Char.ofNat) ++ [' ']) ++
    "[^".toList ++ p.nextChars.flatMap gbnfEscapeCharClass ++ [']']

def gbnfExcludingPattern (delimiters : List (List UInt8)) : List Char :=
  "(".toList ++ " | ".toList.intercalate
    ((Trie.ofWords delimiters).collectPrefixAndNext.map PrefixAndNext.text) ++ ")*".toList

/-- The strings of one alternative: the literal, and a character outside the class. -/
def PrefixAndNext.lang (p : PrefixAndNext) : Language Char :=
  {w | ∃ u c, w = u ++ [c] ∧ u.map Char.toNat = p.before ∧ c.toNat ∉ p.nextChars}

/-- The strings that the pattern generates: any number of alternatives. -/
def excludingLang (delimiters : List (List UInt8)) : Language Char :=
  ({w | ∃ p ∈ (Trie.ofWords delimiters).collectPrefixAndNext, w ∈ p.lang} : Language Char)∗

def Starts (delimiters : List (List Char)) (u : List Char) : Prop := ∃ d ∈ delimiters, u <+: d

namespace Trie

variable {t : Trie} {paths words : List (List Nat)}

private theorem mem_iff_lookup {l : List (Nat × Nat)} (h : (l.map Prod.fst).Nodup) (c v : Nat) :
    (c, v) ∈ l ↔ l.lookup c = some v := by
  induction l with
  | nil => simp
  | cons e rest ih =>
    obtain ⟨key, val⟩ := e
    rw [map_cons, nodup_cons] at h
    rw [lookup_cons, mem_cons, Prod.mk.injEq]
    by_cases hc : c = key
    · subst hc
      have hno : (c, v) ∉ rest := fun hmem => h.1 (mem_map.mpr ⟨_, hmem, rfl⟩)
      simp [hno, eq_comm]
    · have hb : (c == key) = false := by simpa using hc
      rw [hb, ← ih h.2]
      simp [hc]

variable {c k : Nat} {u : List Nat}

private theorem Laid.mem_children (h : t.Laid paths) {k' : Nat} (hk : paths[k]? = some u) :
    (c, k') ∈ (t.node k).children ↔ paths[k']? = some (u ++ [c]) :=
  (mem_iff_lookup (h.keys k) c k').trans (h.child hk c k')

theorem Laid.mem_keys (h : t.Laid paths) (hk : paths[k]? = some u) :
    c ∈ (t.node k).keys ↔ u ++ [c] ∈ paths := by
  rw [TrieNode.keys, mem_map]
  constructor
  · rintro ⟨⟨c', k'⟩, hmem, rfl⟩
    exact mem_of_getElem? ((h.mem_children hk).mp hmem)
  · intro hmem
    obtain ⟨k', hk'⟩ := getElem?_of_mem hmem
    exact ⟨(c, k'), (h.mem_children hk).mpr hk', rfl⟩

private theorem Laid.prefix_mem (h : t.Laid paths) (v z : List Nat) (hv : v ++ z ∈ paths) :
    v ∈ paths := by
  induction z generalizing v with
  | nil => simpa using hv
  | cons c z ih => exact h.parent (ih (v ++ [c]) (by simpa using hv))

/-- A path is shorter than the number of nodes: all its prefixes are nodes too. -/
theorem Laid.length_lt (h : t.Laid paths) (hu : u ∈ paths) : u.length < paths.length := by
  have hsub : (range (u.length + 1)).map u.take ⊆ paths := by
    intro v hv
    obtain ⟨n, -, rfl⟩ := mem_map.mp hv
    exact h.prefix_mem _ (u.drop n) (by simpa using hu)
  have hnodup : ((range (u.length + 1)).map u.take).Nodup := by
    apply List.Nodup.map_on _ nodup_range
    intro i hi j hj he
    have := congrArg List.length he
    simp only [length_take, mem_range] at this hi hj
    omega
  have hle := (hnodup.subperm hsub).length_le
  rw [length_map, length_range] at hle
  exact hle

theorem mem_collectFrom (h : t.Flagged paths words) (n : Nat) (hk : paths[k]? = some u)
    (hn : paths.length ≤ n + u.length) (p : PrefixAndNext) :
    p ∈ t.collectFrom n k u ↔ ∃ k', ∃ y, paths[k']? = some (u ++ y) ∧ u ++ y ∉ words ∧
      (t.node k').keys ≠ [] ∧ p = ⟨u ++ y, (t.node k').keys⟩ := by
  induction n generalizing k u with
  | zero =>
    have := h.length_lt (mem_of_getElem? hk)
    omega
  | succ n ih =>
    have hnext : ∀ e ∈ (t.node k).children, paths[e.2]? = some (u ++ [e.1]) :=
      fun e he => (h.mem_children hk).mp he
    have hlen : ∀ c, paths.length ≤ n + (u ++ [c]).length := by
      intro c
      rw [length_append, length_singleton]
      omega
    rw [collectFrom, mem_append, mem_flatMap]
    constructor
    · rintro (hp | ⟨e, he, hp⟩)
      · split at hp
        next hc =>
          rw [Bool.and_eq_true, Bool.not_eq_true', Bool.not_eq_true'] at hc
          refine ⟨k, [], by simpa using hk, ?_, ?_, by simpa using hp⟩
          · rw [append_nil, ← h.word hk, hc.1]
            simp
          · intro hnil
            rw [TrieNode.keys, map_eq_nil_iff] at hnil
            simp [hnil] at hc
        next => cases hp
      · obtain ⟨k', y, h1, h2, h3, h4⟩ := (ih (hnext e he) (hlen e.1)).mp hp
        rw [append_assoc] at h1 h2 h4
        exact ⟨k', [e.1] ++ y, h1, h2, h3, h4⟩
    · rintro ⟨k', y, h1, h2, h3, h4⟩
      cases y with
      | nil =>
        left
        rw [append_nil] at h1 h2 h4
        obtain rfl := h.index_unique h1 hk
        have hword : (t.node k').isWord = false := by
          rw [← Bool.not_eq_true, h.word hk]
          exact h2
        have hchildren : (t.node k').children.isEmpty = false := by
          rw [isEmpty_eq_false_iff]
          intro hnil
          exact h3 (by simp [TrieNode.keys, hnil])
        simp [hword, hchildren, h4]
      | cons c y =>
        right
        rw [append_cons] at h1 h2 h4
        have hc : u ++ [c] ∈ paths := h.prefix_mem _ y (mem_of_getElem? h1)
        obtain ⟨next, hnext'⟩ := getElem?_of_mem hc
        refine ⟨(c, next), (h.mem_children hk).mpr hnext', ?_⟩
        exact (ih hnext' (hlen c)).mpr ⟨k', y, h1, h2, h3, h4⟩

end Trie

variable {delimiters : List (List Char)}

/-- A string of one alternative leaves the trie with its last character, and not from the
node of a delimiter. -/
theorem mem_pieces (w : List Char) :
    (∃ p ∈ (Trie.ofWords (delimiters.map encode)).collectPrefixAndNext, w ∈ p.lang) ↔
      ∃ u c, w = u ++ [c] ∧ Starts delimiters u ∧ u ∉ delimiters ∧
        ¬ Starts delimiters (u ++ [c]) := by
  obtain ⟨paths, hpaths⟩ := ofWords_encode_holds delimiters
  have hinj : Function.Injective (List.map Char.toNat) :=
    map_injective_iff.mpr fun _ _ h => Char.toNat_inj.mp h
  -- a node that is not the root, read as characters
  have hnode : ∀ (u : List Char) (c : Char),
      u.map Char.toNat ++ [c.toNat] ∈ paths ↔ Starts delimiters (u ++ [c]) := by
    intro u c
    have hmap : u.map Char.toNat ++ [c.toNat] = (u ++ [c]).map Char.toNat := by simp
    rw [hmap, hpaths.closed, Starts]
    constructor
    · rintro (hnil | ⟨w, hw, hpre⟩)
      · simp at hnil
      · obtain ⟨d, hd, rfl⟩ := mem_map.mp hw
        exact ⟨d, hd, prefix_map_toNat.mp hpre⟩
    · rintro ⟨d, hd, hpre⟩
      exact .inr ⟨_, mem_map_of_mem hd, prefix_map_toNat.mpr hpre⟩
  unfold Trie.collectPrefixAndNext
  constructor
  · rintro ⟨p, hp, u, c, rfl, hu, hc⟩
    obtain ⟨k, y, hk, hnw, hkeys, rfl⟩ :=
      (Trie.mem_collectFrom hpaths.toFlagged _ hpaths.root (by simp [hpaths.length]) p).mp hp
    dsimp only at hu hc
    rw [nil_append] at hk hnw hu
    subst hu
    rw [hpaths.mem_keys hk, hnode] at hc
    refine ⟨u, c, rfl, ?_, fun hd => hnw (mem_map_of_mem hd), hc⟩
    obtain ⟨b, hb⟩ := exists_mem_of_ne_nil _ hkeys
    obtain hnil | ⟨w, hw, hpre⟩ := (hpaths.closed _).mp ((hpaths.mem_keys hk).mp hb)
    · simp at hnil
    · obtain ⟨d, hd, rfl⟩ := mem_map.mp hw
      exact ⟨d, hd, prefix_map_toNat.mp ((prefix_append _ _).trans hpre)⟩
  · rintro ⟨u, c, rfl, ⟨d, hd, z, hz⟩, hnd, hc⟩
    cases z with
    | nil =>
      rw [append_nil] at hz
      exact absurd (hz ▸ hd) hnd
    | cons b z =>
      have hstart : Starts delimiters (u ++ [b]) := ⟨d, hd, z, by simpa using hz⟩
      have hmem := (hnode u b).mpr hstart
      obtain ⟨k, hk⟩ := getElem?_of_mem (hpaths.parent hmem)
      refine ⟨⟨u.map Char.toNat, ((Trie.ofWords (delimiters.map encode)).node k).keys⟩, ?_,
        u, c, rfl, rfl, ?_⟩
      · apply (Trie.mem_collectFrom hpaths.toFlagged _ hpaths.root (by simp [hpaths.length]) _).mpr
        refine ⟨k, u.map Char.toNat, hk, ?_, ?_, rfl⟩
        · rw [nil_append, mem_map_of_injective hinj]
          exact hnd
        · exact ne_nil_of_mem ((hpaths.mem_keys hk).mpr hmem)
      · rw [hpaths.mem_keys hk, hnode]
        exact hc

private theorem untouched_append {a b : List Char} (ha : Untouched delimiters a)
    (hb : Untouched delimiters b) : Untouched delimiters (a ++ b) := by
  rintro x ⟨z, hz⟩ hne d hd
  obtain ⟨a', rfl, rfl⟩ | ⟨b', rfl, rfl⟩ := append_eq_append_iff.mp hz
  · by_cases hnil : a' = []
    · subst hnil
      exact hb b (suffix_refl b) hne d hd
    · -- a delimiter that crosses into `b` has started in `a`
      obtain ⟨h1, h2⟩ := ha a' (suffix_append z a') hnil d hd
      constructor
      · intro hpre
        cases prefix_or_prefix_of_prefix hpre (prefix_append a' b) with
        | inl h => exact h1 h
        | inr h => exact h2 h
      · intro hpre
        exact h2 ((prefix_append a' b).trans hpre)
  · exact hb x (suffix_append b' x) hne d hd

variable {w d : List Char}

private theorem untouched_kstar {l : Language Char} (h : ∀ w ∈ l, Untouched delimiters w)
    (hw : w ∈ l∗) :
    Untouched delimiters w := by
  obtain ⟨parts, rfl, hparts⟩ := Language.mem_kstar.mp hw
  clear hw
  induction parts with
  | nil => exact fun x hx hne => absurd (suffix_nil.mp hx) hne
  | cons a parts ih =>
    rw [flatten_cons]
    have hrest : ∀ y ∈ parts, y ∈ l := fun y hy => hparts y (mem_cons_of_mem a hy)
    exact untouched_append (h a (hparts a mem_cons_self)) (ih hrest)

private theorem Untouched.not_infix (hne : [] ∉ delimiters) (h : Untouched delimiters w)
    (hd : d ∈ delimiters) : ¬ d <:+: w := by
  rintro ⟨a, b, rfl⟩
  have hnil : d ++ b ≠ [] := by
    intro hnil
    exact hne ((append_eq_nil_iff.mp hnil).1 ▸ hd)
  apply (h (d ++ b) _ hnil d hd).1 (prefix_append d b)
  rw [append_assoc]
  exact suffix_append a (d ++ b)

private theorem untouched_concat (hne : [] ∉ delimiters) (u : List Char) (c : Char) :
    Untouched delimiters (u ++ [c]) ↔
      (∀ d ∈ delimiters, ¬ d <:+: u) ∧ ∀ v, v <:+ u → ¬ Starts delimiters (v ++ [c]) := by
  constructor
  · intro h
    constructor
    · intro d hd hin
      exact h.not_infix hne hd (hin.trans (prefix_append u [c]).isInfix)
    · rintro v ⟨z, rfl⟩ ⟨d, hd, hpre⟩
      refine (h (v ++ [c]) ⟨z, ?_⟩ (by simp) d hd).2 hpre
      rw [append_assoc]
  · rintro ⟨h1, h2⟩ x hx hxne d hd
    obtain hnil | ⟨v, rfl, hv⟩ := suffix_concat_iff.mp hx
    · exact absurd hnil hxne
    · constructor
      · intro hpre
        obtain rfl | hpre := prefix_concat_iff.mp hpre
        · exact h2 v hv ⟨_, hd, prefix_refl _⟩
        · exact h1 d hd (hpre.isInfix.trans hv.isInfix)
      · exact fun hpre => h2 v hv ⟨d, hd, hpre⟩

/-- The starts of delimiters are closed enough for a trie without failure links: where a
character leaves the start `u` of a delimiter, no delimiter lies inside `u`, and no end of
`u` goes on with that character towards a delimiter. -/
def NoRestart (delimiters : List (List Char)) : Prop :=
  ∀ u c, Starts delimiters u → u ∉ delimiters → ¬ Starts delimiters (u ++ [c]) →
    (∀ d ∈ delimiters, ¬ d <:+: u) ∧ ∀ v, v <:+ u → ¬ Starts delimiters (v ++ [c])

/-- The pattern and the parser agree exactly when no piece restarts a delimiter. -/
theorem excluding_agrees_iff (hne : [] ∉ delimiters) :
    (∀ w ∈ excludingLang (delimiters.map encode),
      (∀ d ∈ delimiters, ¬ d <:+: w) ∧
      ∃ r, (untilArena (delimiters.map encode)).Returns ⟨encode w, false⟩ 0 r ∧
        r.type = .success ∧ r.stop = (encode w).length) ↔ NoRestart delimiters := by
  constructor
  · intro h u c hu hnd hc
    apply (untouched_concat hne u c).mp
    have hpiece := (mem_pieces (u ++ [c])).mpr ⟨u, c, rfl, hu, hnd, hc⟩
    have hmem : u ++ [c] ∈ excludingLang (delimiters.map encode) :=
      Language.mem_kstar.mpr ⟨[u ++ [c]], by simp, by simpa only [forall_mem_singleton]⟩
    obtain ⟨-, r, hr, -, hstop⟩ := h _ hmem
    obtain ⟨r', hr', -, hiff⟩ := until_returns hne (u ++ [c])
    rw [hr.unique hr'] at hstop
    exact hiff.mp hstop
  · intro h w hw
    have hclean : Untouched delimiters w := by
      apply untouched_kstar _ hw
      intro x hx
      obtain ⟨u, c, rfl, hu, hnd, hc⟩ := (mem_pieces x).mp hx
      exact (untouched_concat hne u c).mpr (h u c hu hnd hc)
    obtain ⟨r, hr, ht, hiff⟩ := until_returns hne w
    exact ⟨fun d hd => hclean.not_infix hne hd, r, hr, ht, hiff.mpr hclean⟩

private theorem starts_singleton {u : List Char} : Starts [d] u ↔ u <+: d := by
  simp [Starts]

private theorem noRestart_aa : NoRestart [['a', 'a']] := by
  intro u c hu hnd hc
  rw [starts_singleton] at hu hc
  have hu : u = [] ∨ u = ['a'] := by
    obtain ⟨z, hz⟩ := hu
    rcases u with _ | ⟨a, _ | ⟨b, u⟩⟩
    · exact .inl rfl
    · exact .inr (by simpa using (List.cons.inj hz).1)
    · simp at hz
      simp [hz] at hnd
  have hca : c ≠ 'a' := by
    rintro rfl
    obtain rfl | rfl := hu
    · exact hc (by decide)
    · exact hc (by decide)
  obtain rfl | rfl := hu
  · refine ⟨by decide, fun v hv => ?_⟩
    rw [suffix_nil.mp hv, starts_singleton]
    simpa using hca
  · refine ⟨by decide, fun v hv => ?_⟩
    rw [starts_singleton]
    obtain rfl | hv := suffix_cons_iff.mp hv
    · simpa using hca
    · rw [suffix_nil.mp hv]
      simpa using hca

/-- The delimiter `aa` has no other start, so its pattern is exact. -/
theorem excluding_agrees_aa :
    NoRestart [['a', 'a']] ∧
    ∀ w ∈ excludingLang ([['a', 'a']].map encode),
      (∀ d ∈ [['a', 'a']], ¬ d <:+: w) ∧
      ∃ r, (untilArena ([['a', 'a']].map encode)).Returns ⟨encode w, false⟩ 0 r ∧
        r.type = .success ∧ r.stop = (encode w).length :=
  ⟨noRestart_aa, (excluding_agrees_iff (by decide)).mpr noRestart_aa⟩

/-- The delimiter `ab`: the pieces `aa` and `b` make `aab`, where the delimiter ends. -/
theorem excluding_ab_misses :
    ¬ ∀ w ∈ excludingLang ([['a', 'b']].map encode),
      (∀ d ∈ [['a', 'b']], ¬ d <:+: w) ∧
      ∃ r, (untilArena ([['a', 'b']].map encode)).Returns ⟨encode w, false⟩ 0 r ∧
        r.type = .success ∧ r.stop = (encode w).length := by
  intro h
  have hmem : ['a', 'a', 'b'] ∈ excludingLang ([['a', 'b']].map encode) := by
    apply Language.mem_kstar.mpr
    refine ⟨[['a', 'a'], ['b']], rfl, ?_⟩
    intro y hy
    apply (mem_pieces y).mpr
    rw [mem_cons, mem_singleton] at hy
    obtain rfl | rfl := hy
    · exact ⟨['a'], 'a', rfl, by simp [starts_singleton], by decide, by simp [starts_singleton]⟩
    · exact ⟨[], 'b', rfl, by simp [starts_singleton], by decide, by simp [starts_singleton]⟩
  exact (h _ hmem).1 ['a', 'b'] (by decide) ⟨['a'], [], rfl⟩

end Llama.Peg
