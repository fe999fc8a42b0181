import Mathlib.Data.List.Infix

/-!
# The naive trie

`naive_trie` of the tokenizers: a node has a value or none, and one child for some of the
bytes. The map of the children is a partial function. A trie that was filled by insertions
answers for every path whether it is the prefix of a key, and for every key which value was
inserted last.
-/

namespace Llama.Vocab

open List Option

inductive NaiveTrie where
  | node (value : Option Nat) (children : UInt8 → Option NaiveTrie)

namespace NaiveTrie

def value : NaiveTrie → Option Nat
  | node v _ => v

def traverse : NaiveTrie → UInt8 → Option NaiveTrie
  | node _ cs, c => cs c

def empty : NaiveTrie := node none fun _ => none

def insert : NaiveTrie → List UInt8 → Nat → NaiveTrie
  | node _ cs, [], v => node (some v) cs
  | node w cs, c :: key, v =>
    node w fun d => if d = c then some (((cs c).getD empty).insert key v) else cs d

/-- `naive_trie::get_longest_prefix` with the bytes from `offset` on: the length it returns. -/
def getLongestPrefix : NaiveTrie → List UInt8 → Nat → Nat
  | _, [], offset => offset
  | t, c :: key, offset =>
    match t.traverse c with
    | some u => u.getLongestPrefix key (offset + 1)
    | none => offset

/-- The node at the end of a path. -/
def walk : NaiveTrie → List UInt8 → Option NaiveTrie
  | t, [] => some t
  | t, c :: path => (t.traverse c).bind fun u => u.walk path

/-- The value at the end of a path. -/
def lookup (t : NaiveTrie) (key : List UInt8) : Option Nat := (t.walk key).bind value

/-- A trie after insertions, in order. -/
def ofEntries (entries : List (List UInt8 × Nat)) : NaiveTrie :=
  entries.foldl (fun t e => t.insert e.1 e.2) empty

variable {t u : NaiveTrie} {key path : List UInt8} {c : UInt8} {v : Nat}

@[simp] theorem walk_nil (t : NaiveTrie) : t.walk [] = some t := by cases t; rfl

theorem walk_cons (t : NaiveTrie) (c : UInt8) (path : List UInt8) :
    t.walk (c :: path) = (t.traverse c).bind fun u => u.walk path := by cases t; rfl

theorem walk_singleton (t : NaiveTrie) (c : UInt8) : t.walk [c] = t.traverse c := by
  rw [walk_cons]
  cases t.traverse c <;> simp

theorem walk_empty_cons (c : UInt8) (path : List UInt8) : empty.walk (c :: path) = none := rfl

@[simp] theorem lookup_empty (path : List UInt8) : empty.lookup path = none := by
  cases path <;> rfl

section

variable (t : NaiveTrie)

theorem lookup_nil : t.lookup [] = t.value := by
  rw [lookup, walk_nil, bind_some]

theorem lookup_cons (c : UInt8) (path : List UInt8) :
    t.lookup (c :: path) = (t.traverse c).bind fun u => u.lookup path := by
  rw [lookup, walk_cons]
  cases t.traverse c <;> rfl

theorem traverse_insert_cons (c d : UInt8) (key : List UInt8) (v : Nat) :
    (t.insert (c :: key) v).traverse d =
      if d = c then some (((t.traverse c).getD empty).insert key v) else t.traverse d := by
  cases t
  rfl

theorem value_insert (key : List UInt8) (v : Nat) :
    (t.insert key v).value = if key = [] then some v else t.value := by
  cases t
  cases key <;> rfl

/-- An insertion adds the paths along its key. -/
theorem walk_insert_isSome (key path : List UInt8) (v : Nat) :
    ((t.insert key v).walk path).isSome ↔ path <+: key ∨ (t.walk path).isSome := by
  induction path generalizing t key with
  | nil => simp
  | cons d path ih =>
    cases key with
    | nil =>
      cases t
      simp [insert, walk_cons, traverse]
    | cons c key =>
      rw [walk_cons, walk_cons, traverse_insert_cons]
      by_cases hd : d = c
      · subst hd
        rw [if_pos rfl, bind_some, ih, cons_prefix_cons]
        cases t.traverse d with
        | none => cases path <;> simp [walk_empty_cons]
        | some u => simp
      · rw [if_neg hd, cons_prefix_cons]
        simp [hd]

/-- An insertion changes the value of its key only. -/
theorem lookup_insert (key path : List UInt8) (v : Nat) :
    (t.insert key v).lookup path = if path = key then some v else t.lookup path := by
  induction path generalizing t key with
  | nil =>
    rw [lookup_nil, lookup_nil, value_insert]
    cases key <;> simp
  | cons d path ih =>
    cases key with
    | nil =>
      cases t
      simp [insert, lookup_cons, traverse]
    | cons c key =>
      rw [lookup_cons, lookup_cons, traverse_insert_cons]
      by_cases hd : d = c
      · subst hd
        rw [if_pos rfl, bind_some, ih]
        cases t.traverse d <;> simp
      · rw [if_neg hd]
        simp [hd]

end

theorem ofEntries_append (es : List (List UInt8 × Nat)) (e : List UInt8 × Nat) :
    ofEntries (es ++ [e]) = (ofEntries es).insert e.1 e.2 := by
  simp [ofEntries]

/-- The paths of a filled trie are the prefixes of the keys. -/
theorem walk_ofEntries_isSome (es : List (List UInt8 × Nat)) (path : List UInt8) :
    ((ofEntries es).walk path).isSome ↔ path = [] ∨ ∃ e ∈ es, path <+: e.1 := by
  induction es using List.reverseRecOn with
  | nil => cases path <;> simp [ofEntries, walk_empty_cons]
  | append_singleton es e ih =>
    rw [ofEntries_append, walk_insert_isSome, ih]
    simp only [mem_append, mem_singleton]
    constructor
    · rintro (h | h | ⟨x, hx, h⟩)
      · exact .inr ⟨e, .inr rfl, h⟩
      · exact .inl h
      · exact .inr ⟨x, .inl hx, h⟩
    · rintro (h | ⟨x, hx | rfl, h⟩)
      · exact .inr (.inl h)
      · exact .inr (.inr ⟨x, hx, h⟩)
      · exact .inl h

variable {es : List (List UInt8 × Nat)}

/-- A value of a filled trie was inserted with its key. -/
theorem mem_of_lookup (h : (ofEntries es).lookup key = some v) : (key, v) ∈ es := by
  induction es using List.reverseRecOn with
  | nil => simp [ofEntries] at h
  | append_singleton es e ih =>
    rw [ofEntries_append, lookup_insert] at h
    split at h
    · rename_i hk
      cases h
      simp [hk]
    · exact mem_append_left _ (ih h)

theorem lookup_isSome : ((ofEntries es).lookup key).isSome ↔ ∃ e ∈ es, e.1 = key := by
  constructor
  · intro h
    obtain ⟨v, hv⟩ := isSome_iff_exists.mp h
    exact ⟨_, mem_of_lookup hv, rfl⟩
  · induction es using List.reverseRecOn with
    | nil => simp
    | append_singleton es e ih =>
      rintro ⟨x, hx, rfl⟩
      rw [ofEntries_append, lookup_insert]
      split
      · rfl
      · rename_i hne
        rcases mem_append.mp hx with hx | hx
        · exact ih ⟨x, hx, rfl⟩
        · exact absurd (by simpa using congrArg Prod.fst (mem_singleton.mp hx)) hne

theorem getLongestPrefix_add (t : NaiveTrie) (key : List UInt8) (offset : Nat) :
    t.getLongestPrefix key offset = offset + t.getLongestPrefix key 0 := by
  induction key generalizing t offset with
  | nil => cases t; rfl
  | cons c key ih =>
    simp only [getLongestPrefix]
    cases t.traverse c with
    | none => rfl
    | some u =>
      simp only
      rw [ih u (offset + 1), ih u (0 + 1)]
      omega

/-- `get_longest_prefix` returns the length of the longest path along the bytes. -/
theorem getLongestPrefix_spec (t : NaiveTrie) (key : List UInt8) :
    t.getLongestPrefix key 0 ≤ key.length ∧
      ∀ m ≤ key.length, (t.walk (key.take m)).isSome ↔ m ≤ t.getLongestPrefix key 0 := by
  induction key generalizing t with
  | nil =>
    cases t
    simp [getLongestPrefix]
  | cons c key ih =>
    have hcons : t.getLongestPrefix (c :: key) 0 =
        match t.traverse c with
        | some u => u.getLongestPrefix key (0 + 1)
        | none => 0 := by
      cases t
      rfl
    rw [hcons]
    cases ht : t.traverse c with
    | none =>
      refine ⟨Nat.zero_le _, fun m hm => ?_⟩
      cases m <;> simp [walk_cons, ht]
    | some u =>
      obtain ⟨hle, hiff⟩ := ih u
      simp only
      rw [getLongestPrefix_add]
      refine ⟨by simp; omega, fun m hm => ?_⟩
      cases m with
      | zero => simp
      | succ m =>
        rw [take_succ_cons, walk_cons, ht, bind_some, hiff m (by simpa using hm)]
        omega

end NaiveTrie

end Llama.Vocab
