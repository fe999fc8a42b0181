import Llama.Lib.JsonTree
import Mathlib.Data.Char
import Mathlib.Data.List.Lex
import Mathlib.Data.List.Nodup
import Mathlib.Tactic.IntervalCases

/-!
# Writing JSON, and the order of keys

`dump` writes a value without blanks. What is written is read back when the numbers are, and
no object repeats a key. `Value.sort` puts the members of every object in the order of their
keys, as a map that is ordered by its keys does, and changes exactly the values that are not
in that order.
-/

namespace Llama.Json

open List

variable {α : Type}

/-- A hexadecimal digit in lower case. -/
def hexDigit (n : Nat) : Char := if n < 10 then Char.ofNat (0x30 + n) else Char.ofNat (0x57 + n)

/-- How a character is written in a string. -/
def pieceOf (c : Char) : Piece :=
  if c = '\x08' then .escape 'b' else if c = '\t' then .escape 't'
  else if c = '\n' then .escape 'n' else if c = '\x0c' then .escape 'f'
  else if c = '\r' then .escape 'r' else if c = '"' then .escape '"'
  else if c = '\\' then .escape '\\'
  else if c.toNat ≤ 0x1f then
    .code '0' '0' (hexDigit (c.toNat / 16)) (hexDigit (c.toNat % 16))
  else .plain c

theorem hexValue_hexDigit {n : Nat} (h : n < 16) : hexValue (hexDigit n) = some n := by
  interval_cases n <;> rfl

theorem char_pieceOf (c : Char) : (pieceOf c).char = some c := by
  unfold pieceOf
  split_ifs with h1 h2 h3 h4 h5 h6 h7 h8
  · rw [h1]; rfl
  · rw [h2]; rfl
  · rw [h3]; rfl
  · rw [h4]; rfl
  · rw [h5]; rfl
  · rw [h6]; rfl
  · rw [h7]; rfl
  · have hdigits : ((0 * 16 + 0) * 16 + c.toNat / 16) * 16 + c.toNat % 16 = c.toNat := by omega
    have hcode : hexCode '0' '0' (hexDigit (c.toNat / 16)) (hexDigit (c.toNat % 16)) =
        some c.toNat := by
      have hzero : hexValue '0' = some 0 := rfl
      simp only [hexCode, hzero, hexValue_hexDigit (show c.toNat / 16 < 16 by omega),
        hexValue_hexDigit (show c.toNat % 16 < 16 by omega), Option.bind_some, Option.map_some]
      rw [hdigits]
    simp only [Piece.char, hcode, Option.bind_some, Piece.unit, codeUnit]
    rw [if_neg (by omega), if_neg (by omega)]
    simp
  · simp only [Piece.char]
    rw [if_neg (by simp [h6, h7]; omega)]

mutual

/-- A value without blanks. A number that has no spelling is written as null. -/
def Value.tree (print : α → Option (List Char)) : Value α → Tree
  | .null => .null
  | .bool b => .bool b
  | .number x =>
    match print x with
    | some lexeme => .number lexeme
    | none => .null
  | .string s => .string (s.map pieceOf)
  | .array items => .node .array [] (itemTrees print items)
  | .object members => .node .object [] (memberTrees print members)

/-- The items of an array without blanks. -/
def itemTrees (print : α → Option (List Char)) : List (Value α) → List (Label × Tree × List Char)
  | [] => []
  | v :: rest => (⟨[], [], [], []⟩, v.tree print, []) :: itemTrees print rest

/-- The members of an object without blanks. -/
def memberTrees (print : α → Option (List Char)) :
    List (List Char × Value α) → List (Label × Tree × List Char)
  | [] => []
  | (k, v) :: rest => (⟨[], k.map pieceOf, [], []⟩, v.tree print, []) :: memberTrees print rest

end

def dump (print : α → Option (List Char)) (v : Value α) : List Char := (v.tree print).text

/-- The numbers of a value are read as they are written, and no object repeats a key. -/
inductive Value.Faithful (num : List Char → α) (print : α → Option (List Char)) : Value α → Prop
  | null : Faithful num print .null
  | bool (b : Bool) : Faithful num print (.bool b)
  | number {x : α} {lexeme : List Char} (hp : print x = some lexeme) (hl : IsNumber lexeme)
      (hn : num lexeme = x) : Faithful num print (.number x)
  | string (s : List Char) : Faithful num print (.string s)
  | array {items : List (Value α)} (h : ∀ v ∈ items, Faithful num print v) :
      Faithful num print (.array items)
  | object {members : List (List Char × Value α)} (hk : (members.map Prod.fst).Nodup)
      (h : ∀ m ∈ members, Faithful num print m.2) : Faithful num print (.object members)

section Trip

variable {num : List Char → α} {print : α → Option (List Char)}

theorem mem_itemTrees {items : List (Value α)} {x : Label × Tree × List Char}
    (h : x ∈ itemTrees print items) : ∃ v ∈ items, x = (⟨[], [], [], []⟩, v.tree print, []) := by
  induction items with
  | nil => simp [itemTrees] at h
  | cons v rest ih =>
    rw [itemTrees, mem_cons] at h
    rcases h with rfl | h
    · exact ⟨v, by simp, rfl⟩
    · obtain ⟨u, hu, rfl⟩ := ih h
      exact ⟨u, by simp [hu], rfl⟩

theorem mem_memberTrees {members : List (List Char × Value α)} {x : Label × Tree × List Char}
    (h : x ∈ memberTrees print members) :
    ∃ m ∈ members, x = (⟨[], m.1.map pieceOf, [], []⟩, m.2.tree print, []) := by
  induction members with
  | nil => simp [memberTrees] at h
  | cons m rest ih =>
    rw [memberTrees, mem_cons] at h
    rcases h with rfl | h
    · exact ⟨m, by simp, rfl⟩
    · obtain ⟨u, hu, rfl⟩ := ih h
      exact ⟨u, by simp [hu], rfl⟩

theorem bodyChars_map_pieceOf (s : List Char) : bodyChars (s.map pieceOf) = s := by
  induction s with
  | nil => rfl
  | cons c s ih =>
    rw [bodyChars, map_cons, filterMap_cons_some (char_pieceOf c)]
    exact congrArg _ ih

theorem char_ne_none_of_mem {s : List Char} : ∀ p ∈ s.map pieceOf, p.char ≠ none := by
  intro p hp
  obtain ⟨c, -, rfl⟩ := mem_map.mp hp
  rw [char_pieceOf]
  exact Option.some_ne_none c

theorem blank_nil : Blank [] := fun c hc => by cases hc

theorem Value.Faithful.valid {v : Value α} (h : v.Faithful num print) : (v.tree print).Valid := by
  induction h with
  | null => exact .null
  | bool b => exact .bool b
  | number hp hl hn =>
    rw [Value.tree, hp]
    exact .number hl
  | string s => exact .string char_ne_none_of_mem
  | array h ih =>
    refine .node blank_nil (fun x hx => ?_) fun x hx => ?_
    · obtain ⟨v, hv, rfl⟩ := mem_itemTrees hx
      exact ⟨blank_nil, blank_nil⟩
    · obtain ⟨v, hv, rfl⟩ := mem_itemTrees hx
      exact ih v hv
  | object hk h ih =>
    refine .node blank_nil (fun x hx => ?_) fun x hx => ?_
    · obtain ⟨m, hm, rfl⟩ := mem_memberTrees hx
      exact ⟨⟨blank_nil, char_ne_none_of_mem, blank_nil, blank_nil⟩, blank_nil⟩
    · obtain ⟨m, hm, rfl⟩ := mem_memberTrees hx
      exact ih m hm

theorem entries_itemTrees {items : List (Value α)} (h : ∀ v ∈ items, (v.tree print).value num = v) :
    (Tree.entries num .array (itemTrees print items)).map Prod.snd = items := by
  induction items with
  | nil => rfl
  | cons v rest ih =>
    rw [itemTrees, Tree.entries, map_cons, h v (by simp), ih fun u hu => h u (by simp [hu])]

theorem entries_memberTrees {members : List (List Char × Value α)}
    (h : ∀ m ∈ members, (m.2.tree print).value num = m.2) :
    Tree.entries num .object (memberTrees print members) = members := by
  induction members with
  | nil => rfl
  | cons m rest ih =>
    rw [memberTrees, Tree.entries, h m (by simp), ih fun u hu => h u (by simp [hu]), Label.name,
      bodyChars_map_pieceOf]

/-- Members with different keys stay as they are. -/
theorem foldl_put {ms done : List (List Char × Value α)} (h : ((done ++ ms).map Prod.fst).Nodup) :
    ms.foldl (fun acc m => put m.1 m.2 acc) done = done ++ ms := by
  induction ms generalizing done with
  | nil => simp
  | cons m rest ih =>
    have hm : m.1 ∉ done.map Prod.fst := by
      intro hmem
      rw [map_append, map_cons] at h
      exact (disjoint_of_nodup_append h) hmem (by simp)
    rw [foldl_cons, put_of_notMem hm, ih (by simpa using h), append_assoc, singleton_append]

theorem Value.Faithful.value_tree {v : Value α} (h : v.Faithful num print) :
    (v.tree print).value num = v := by
  induction h with
  | null => rfl
  | bool b => rfl
  | number hp hl hn =>
    rw [Value.tree, hp]
    exact congrArg _ hn
  | string s => exact congrArg _ (bodyChars_map_pieceOf s)
  | array h ih => exact congrArg _ (entries_itemTrees ih)
  | object hk h ih =>
    rw [Value.tree, Tree.value, entries_memberTrees ih]
    exact congrArg _ (foldl_put hk)

theorem parse_dump {v : Value α} (h : v.Faithful num print) :
    parse num (dump print v) = some v := by
  have hparse := parse_text num h.valid blank_nil blank_nil
  rwa [nil_append, append_nil, h.value_tree] at hparse

end Trip

section Keys

variable {β : Type}

/-- Adds a member to members in the order of their keys. A key that is there keeps its
value. -/
def insertKey (m : List Char × β) : List (List Char × β) → List (List Char × β)
  | [] => [m]
  | a :: rest =>
    if m.1 < a.1 then m :: a :: rest
    else if m.1 = a.1 then a :: rest
    else a :: insertKey m rest

/-- Members in the order of their keys. -/
def keySort (ms : List (List Char × β)) : List (List Char × β) :=
  ms.foldl (fun acc m => insertKey m acc) []

/-- The keys are in order. -/
def KeysAscend (ms : List (List Char × β)) : Prop := ms.Pairwise fun a b => a.1 < b.1

theorem mem_insertKey {m x : List Char × β} {ms : List (List Char × β)}
    (h : x ∈ insertKey m ms) : x = m ∨ x ∈ ms := by
  induction ms with
  | nil => exact .inl (mem_singleton.mp h)
  | cons a rest ih =>
    rw [insertKey] at h
    split at h
    · exact mem_cons.mp h
    · split at h
      · exact .inr h
      · rcases mem_cons.mp h with rfl | h
        · exact .inr (by simp)
        · exact (ih h).imp_right fun hx => by simp [hx]

theorem ascend_insertKey {m : List Char × β} {ms : List (List Char × β)} (h : KeysAscend ms) :
    KeysAscend (insertKey m ms) := by
  induction ms with
  | nil => exact pairwise_singleton _ _
  | cons a rest ih =>
    obtain ⟨ha, hrest⟩ := pairwise_cons.mp h
    rw [insertKey]
    split
    · rename_i hlt
      refine pairwise_cons.mpr ⟨fun x hx => ?_, h⟩
      rcases mem_cons.mp hx with rfl | hx
      · exact hlt
      · exact hlt.trans (ha x hx)
    · rename_i hge
      split
      · exact h
      · rename_i hne
        refine pairwise_cons.mpr ⟨fun x hx => ?_, ih hrest⟩
        rcases mem_insertKey hx with rfl | hx
        · exact lt_of_le_of_ne (not_lt.mp hge) fun he => hne he.symm
        · exact ha x hx

theorem insertKey_of_last {m : List Char × β} {ms : List (List Char × β)}
    (h : ∀ x ∈ ms, x.1 < m.1) : insertKey m ms = ms ++ [m] := by
  induction ms with
  | nil => rfl
  | cons a rest ih =>
    have ha := h a (by simp)
    rw [insertKey, if_neg ha.asymm, if_neg ha.ne', ih fun x hx => h x (by simp [hx]), cons_append]

theorem lookup_insertKey (k : List Char) (m : List Char × β) {ms : List (List Char × β)}
    (h : KeysAscend ms) : (insertKey m ms).lookup k = (ms ++ [m]).lookup k := by
  induction ms with
  | nil => rfl
  | cons a rest ih =>
    obtain ⟨ha, hrest⟩ := pairwise_cons.mp h
    have hsingle : k ≠ m.1 → [m].lookup k = none := by
      intro hk
      rw [lookup_cons, beq_eq_false_iff_ne.mpr hk]
      rfl
    rw [insertKey]
    split
    · rename_i hlt
      by_cases hk : k = m.1
      · have hnone : (a :: rest).lookup m.1 = none := by
          rw [lookup_eq_none_iff]
          intro x hx
          rcases mem_cons.mp hx with rfl | hx
          · simpa using hlt.ne
          · simpa using (hlt.trans (ha x hx)).ne
        rw [hk, lookup_cons_self, lookup_append, hnone, Option.none_or, lookup_cons_self]
      · rw [lookup_append, hsingle hk, Option.or_none, lookup_cons, beq_eq_false_iff_ne.mpr hk]
    · split
      · rename_i heq
        by_cases hk : k = a.1
        · rw [hk, cons_append, lookup_cons_self, lookup_cons_self]
        · rw [← heq] at hk
          rw [lookup_append, hsingle hk, Option.or_none]
      · rw [cons_append, lookup_cons, lookup_cons, ih hrest]

theorem foldl_insertKey (ms acc : List (List Char × β)) (h : KeysAscend acc) :
    KeysAscend (ms.foldl (fun acc m => insertKey m acc) acc) ∧
    (∀ x ∈ ms.foldl (fun acc m => insertKey m acc) acc, x ∈ acc ++ ms) ∧
    ∀ k, (ms.foldl (fun acc m => insertKey m acc) acc).lookup k = (acc ++ ms).lookup k := by
  induction ms generalizing acc with
  | nil => simpa using h
  | cons m rest ih =>
    obtain ⟨hasc, hmem, hlookup⟩ := ih (insertKey m acc) (ascend_insertKey h)
    refine ⟨hasc, fun x hx => ?_, fun k => ?_⟩
    · rcases mem_append.mp (hmem x hx) with hx | hx
      · rcases mem_insertKey hx with rfl | hx
        · simp
        · simp [hx]
      · simp [hx]
    · rw [foldl_cons, hlookup, lookup_append, lookup_insertKey k m h,
        ← lookup_append, append_assoc, singleton_append]

theorem ascend_keySort (ms : List (List Char × β)) : KeysAscend (keySort ms) :=
  (foldl_insertKey ms [] List.Pairwise.nil).1

theorem mem_of_mem_keySort {ms : List (List Char × β)} {x : List Char × β}
    (h : x ∈ keySort ms) : x ∈ ms :=
  (foldl_insertKey ms [] List.Pairwise.nil).2.1 x h

theorem lookup_keySort (ms : List (List Char × β)) (k : List Char) :
    (keySort ms).lookup k = ms.lookup k :=
  (foldl_insertKey ms [] List.Pairwise.nil).2.2 k

theorem keySort_of_ascend {ms : List (List Char × β)} (h : KeysAscend ms) : keySort ms = ms := by
  have hfold : ∀ (ms acc : List (List Char × β)), KeysAscend (acc ++ ms) →
      ms.foldl (fun acc m => insertKey m acc) acc = acc ++ ms := by
    intro ms
    induction ms with
    | nil => simp
    | cons m rest ih =>
      intro acc hacc
      have hlast : ∀ x ∈ acc, x.1 < m.1 := fun x hx =>
        (pairwise_append.mp hacc).2.2 x hx m (by simp)
      rw [foldl_cons, insertKey_of_last hlast, ih _ (by simpa using hacc),
        append_assoc, singleton_append]
  exact hfold ms [] h

theorem KeysAscend.nodup {ms : List (List Char × β)} (h : KeysAscend ms) :
    (ms.map Prod.fst).Nodup := by
  rw [Nodup, pairwise_map]
  exact h.imp fun hlt => hlt.ne

end Keys

mutual

/-- The value with the members of every object in the order of their keys. -/
def Value.sort : Value α → Value α
  | .array items => .array (sortItems items)
  | .object members => .object (keySort (sortMembers members))
  | v => v

/-- The items of an array, each in order. -/
def sortItems : List (Value α) → List (Value α)
  | [] => []
  | v :: rest => v.sort :: sortItems rest

/-- The members of an object, each in order. -/
def sortMembers : List (List Char × Value α) → List (List Char × Value α)
  | [] => []
  | (k, v) :: rest => (k, v.sort) :: sortMembers rest

end

/-- Every object has its keys in order. -/
inductive Value.Sorted : Value α → Prop
  | null : Sorted .null
  | bool (b : Bool) : Sorted (.bool b)
  | number (x : α) : Sorted (.number x)
  | string (s : List Char) : Sorted (.string s)
  | array {items : List (Value α)} (h : ∀ v ∈ items, Sorted v) : Sorted (.array items)
  | object {members : List (List Char × Value α)} (hk : KeysAscend members)
      (h : ∀ m ∈ members, Sorted m.2) : Sorted (.object members)

theorem sortItems_eq_map (items : List (Value α)) : sortItems items = items.map Value.sort := by
  induction items with
  | nil => rfl
  | cons v rest ih => rw [sortItems, ih, map_cons]

theorem sortMembers_eq_map (members : List (List Char × Value α)) :
    sortMembers members = members.map fun m => (m.1, m.2.sort) := by
  induction members with
  | nil => rfl
  | cons m rest ih => rw [sortMembers, ih, map_cons]

theorem Value.sorted_sort (v : Value α) : v.sort.Sorted := by
  induction v with
  | null => exact .null
  | bool b => exact .bool b
  | number x => exact .number x
  | string s => exact .string s
  | array items ih =>
    rw [Value.sort, sortItems_eq_map]
    refine .array fun v hv => ?_
    obtain ⟨u, hu, rfl⟩ := mem_map.mp hv
    exact ih u hu
  | object members ih =>
    rw [Value.sort, sortMembers_eq_map]
    refine .object (ascend_keySort _) fun m hm => ?_
    obtain ⟨u, hu, rfl⟩ := mem_map.mp (mem_of_mem_keySort hm)
    exact ih u hu

theorem Value.Sorted.sort_eq {v : Value α} (h : v.Sorted) : v.sort = v := by
  induction h with
  | null | bool | number | string => rfl
  | @array items h ih =>
    rw [Value.sort, sortItems_eq_map, map_congr_left ih, map_id']
  | @object members hk h ih =>
    have hmembers : members.map (fun m => (m.1, m.2.sort)) = members := by
      rw [map_congr_left fun m hm => congrArg (Prod.mk m.1) (ih m hm)]
      exact map_id members
    rw [Value.sort, sortMembers_eq_map, hmembers, keySort_of_ascend hk]

end Llama.Json
