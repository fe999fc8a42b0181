import Llama.Schema.Primitives

/-!
# Keys that are none of some names

`_not_strings` writes a rule from a trie of the names. A key may leave the trie at any node, by a
class that keeps out the quote and the letters of the node.
-/

namespace Llama.Schema

open Common Backtrack Computability List

/-- `TrieNode`, with the children in the order of the map. -/
inductive TrieNode where
  | node (children : List (Char × TrieNode)) (isEndOfString : Bool)

def TrieNode.empty : TrieNode := .node [] false

def TrieNode.children : TrieNode → List (Char × TrieNode)
  | .node children _ => children

def TrieNode.isEndOfString : TrieNode → Bool
  | .node _ isEnd => isEnd

/-- The node at `children[c]`, which is there afterwards, is changed. -/
def updateChild (c : Char) (f : TrieNode → TrieNode) :
    List (Char × TrieNode) → List (Char × TrieNode)
  | [] => [(c, f .empty)]
  | (d, t) :: rest =>
    if c = d then (d, f t) :: rest
    else if c < d then (c, f .empty) :: (d, t) :: rest
    else (d, t) :: updateChild c f rest

def TrieNode.insert : Str → TrieNode → TrieNode
  | [], .node children _ => .node children true
  | c :: s, .node children isEnd => .node (updateChild c (TrieNode.insert s) children) isEnd

def trieOf (strings : List Str) : TrieNode := strings.foldl (fun t s => t.insert s) .empty

section

variable (charRule : Str)

mutual

def TrieNode.visit : TrieNode → Str
  | .node children _ =>
    visitChildren true children ++
      if children = [] then []
      else str " | " ++ str "[^\"" ++ children.map Prod.fst ++ str "] " ++ charRule ++ str "*"

/-- The loop of `visit`. -/
def visitChildren : Bool → List (Char × TrieNode) → Str
  | _, [] => []
  | first, (c, t) :: rest =>
    (if first then [] else str " | ") ++ str "[" ++ [c] ++ str "]" ++
      (if t.children = [] then if t.isEndOfString then str " " ++ charRule ++ str "+" else []
      else str " (" ++ t.visit ++ str ")") ++
      visitChildren false rest

end

end

def notStrings (strings : List Str) (c : Converter) : Str × Converter :=
  let trie := trieOf strings
  let (charRule, c) := addPrimitive (str "char") c
  (str "[\"] ( " ++ trie.visit charRule ++ str " )" ++
    (if trie.isEndOfString then [] else str "?") ++ str " [\"] space", c)

section

variable (L : Language Char)

mutual

/-- What `visit` writes, when the rule for a character generates `L`. -/
def TrieNode.words : TrieNode → Language Char
  | .node children _ =>
    childrenWords children +
      symbols (inClass true (('"', '"') :: children.map fun e => (e.1, e.1))) * repWords L 0 none

def childrenWords : List (Char × TrieNode) → Language Char
  | [] => 0
  | (c, t) :: rest =>
    symbols (inClass false [(c, c)]) *
      (if t.children = [] then if t.isEndOfString then repWords L 1 none else 1 else t.words) +
      childrenWords rest

end

end

section

variable (p : Char → Prop)

mutual

/-- Every letter of the trie has the property. -/
def TrieNode.All : TrieNode → Prop
  | .node children _ => ChildrenAll children

def ChildrenAll : List (Char × TrieNode) → Prop
  | [] => True
  | (c, t) :: rest => p c ∧ t.All ∧ ChildrenAll rest

end

private theorem childrenAll_updateChild {c : Char} (hc : p c) {f : TrieNode → TrieNode}
    (hf : ∀ t, TrieNode.All p t → TrieNode.All p (f t)) (hempty : TrieNode.All p (f .empty))
    {children : List (Char × TrieNode)} (h : ChildrenAll p children) :
    ChildrenAll p (updateChild c f children) := by
  induction children with
  | nil => exact ⟨hc, hempty, trivial⟩
  | cons e rest ih =>
    obtain ⟨d, t⟩ := e
    obtain ⟨hd, ht, hrest⟩ := h
    rw [updateChild]
    split
    · exact ⟨hd, hf t ht, hrest⟩
    · split
      · exact ⟨hc, hempty, hd, ht, hrest⟩
      · exact ⟨hd, ht, ih hrest⟩

private theorem TrieNode.all_insert {s : Str} (hs : ∀ c ∈ s, p c) {t : TrieNode} (h : t.All p) :
    (t.insert s).All p := by
  induction s generalizing t with
  | nil =>
    cases t
    exact h
  | cons c s ih =>
    obtain ⟨children, isEnd⟩ := t
    rw [forall_mem_cons] at hs
    have hempty : TrieNode.All p .empty := trivial
    exact childrenAll_updateChild p hs.1 (fun t => ih hs.2) (ih hs.2 hempty) h

private theorem all_trieOf {strings : List Str} (h : ∀ s ∈ strings, ∀ c ∈ s, p c) :
    (trieOf strings).All p := by
  have hfold : ∀ t : TrieNode, t.All p → (strings.foldl (fun t s => t.insert s) t).All p := by
    induction strings with
    | nil => exact fun t ht => ht
    | cons s strings ih =>
      rw [forall_mem_cons] at h
      exact fun t ht => ih h.2 _ (t.all_insert p h.1 ht)
  exact hfold .empty trivial

end

private theorem updateChild_ne_nil (c : Char) (f : TrieNode → TrieNode)
    (children : List (Char × TrieNode)) : updateChild c f children ≠ [] := by
  cases children with
  | nil => simp [updateChild]
  | cons e rest =>
    rw [updateChild]
    split
    · simp
    · split <;> simp

/-- Some name that is not empty gives the root a child. -/
theorem children_trieOf_ne_nil {strings : List Str} (hne : strings ≠ [])
    (h : ∀ s ∈ strings, s ≠ []) : (trieOf strings).children ≠ [] := by
  have hinsert : ∀ (s : Str) (t : TrieNode), s ≠ [] → (t.insert s).children ≠ [] := by
    intro s t hs
    cases s with
    | nil => exact absurd rfl hs
    | cons c s =>
      obtain ⟨children, isEnd⟩ := t
      exact updateChild_ne_nil c _ children
  have hkeeps : ∀ (strings : List Str) (t : TrieNode), (∀ s ∈ strings, s ≠ []) →
      t.children ≠ [] → (strings.foldl (fun t s => t.insert s) t).children ≠ [] := by
    intro strings
    induction strings with
    | nil => exact fun t _ ht => ht
    | cons s strings ih =>
      intro t hs _
      rw [forall_mem_cons] at hs
      exact ih _ hs.2 (hinsert s t hs.1)
  cases strings with
  | nil => exact absurd rfl hne
  | cons s strings =>
    rw [forall_mem_cons] at h
    exact hkeeps strings _ h.2 (hinsert s _ h.1)

/-- Letters and digits need no escape in a class. -/
structure PlainLetter (c : Char) : Prop where
  bracket : c ≠ ']'
  escape : c ≠ '\\'
  dash : c ≠ '-'
  caret : c ≠ '^'
  quote : c ≠ '"'

private theorem plain_of_isAlphanum {c : Char} (h : c.isAlphanum = true) : PlainLetter c := by
  constructor <;>
    · rintro rfl
      exact absurd h (by decide)

variable {env : Str → Language Char} {charRule : Str}

private theorem denotes_letter {c : Char} (hc : PlainLetter c) :
    ItemDenotes env (str "[" ++ [c] ++ str "]") (symbols (inClass false [(c, c)])) := by
  apply ItemDenotes.cls (RangesText.nil.char hc.bracket hc.escape (by simp))
  intro d hd
  obtain rfl := Option.some.inj hd
  exact hc.caret

private theorem rangesText_letters {cs : List Char} (h : ∀ c ∈ cs, PlainLetter c) :
    RangesText cs (cs.map fun c => (c, c)) := by
  induction cs with
  | nil => exact RangesText.nil
  | cons c cs ih =>
    rw [forall_mem_cons] at h
    refine (ih h.2).char h.1.bracket h.1.escape fun d hd => ?_
    exact (h.2 d (mem_of_mem_head? hd)).dash

private theorem plain_of_childrenAll {children : List (Char × TrieNode)}
    (h : ChildrenAll PlainLetter children) : ∀ c ∈ children.map Prod.fst, PlainLetter c := by
  induction children with
  | nil => simp
  | cons e rest ih =>
    obtain ⟨d, t⟩ := e
    rw [map_cons, forall_mem_cons]
    exact ⟨h.1, ih h.2.2⟩

/-- Leaving the trie by another letter. -/
theorem denotes_divert (hchar : ItemDenotes env charRule (env charRule))
    {children : List (Char × TrieNode)} (h : ChildrenAll PlainLetter children) :
    SequenceDenotes env
      (str "[^\"" ++ children.map Prod.fst ++ str "] " ++ charRule ++ str "*")
      (symbols (inClass true (('"', '"') :: children.map fun e => (e.1, e.1))) *
        repWords (env charRule) 0 none) := by
  have hplain := plain_of_childrenAll h
  have hranges := (rangesText_letters hplain).char (c := '"') (by decide) (by decide)
    fun d hd => (hplain d (mem_of_mem_head? hd)).dash
  rw [map_map] at hranges
  have hclass : ItemDenotes env _ _ := ItemDenotes.notCls hranges
  have hseq := hclass.sequence.append hchar.star.sequence
  have htext : str "[^\"" ++ children.map Prod.fst ++ str "] " ++ charRule ++ str "*" =
      str "[^" ++ '"' :: children.map Prod.fst ++ str "]" ++ str " " ++ (charRule ++ str "*") := by
    simp [str]
  rw [htext]
  exact hseq

private theorem denotes_child (hchar : ItemDenotes env charRule (env charRule)) {c : Char}
    {t : TrieNode} (hc : PlainLetter c)
    (ht : t.children ≠ [] → AlternatesDenotes env (t.visit charRule) (t.words (env charRule))) :
    SequenceDenotes env
      (str "[" ++ [c] ++ str "]" ++
        (if t.children = [] then if t.isEndOfString then str " " ++ charRule ++ str "+" else []
        else str " (" ++ t.visit charRule ++ str ")"))
      (symbols (inClass false [(c, c)]) *
        (if t.children = [] then if t.isEndOfString then repWords (env charRule) 1 none else 1
        else t.words (env charRule))) := by
  have hletter : SequenceDenotes env _ _ := (denotes_letter hc).sequence
  split
  next hnil =>
    split
    next =>
      have htext : str "[" ++ [c] ++ str "]" ++ (str " " ++ charRule ++ str "+") =
          str "[" ++ [c] ++ str "]" ++ str " " ++ (charRule ++ str "+") := by simp
      rw [htext]
      exact hletter.append hchar.plus.sequence
    next =>
      rw [append_nil, mul_one]
      exact hletter
  next hne =>
    have htext : str "[" ++ [c] ++ str "]" ++ (str " (" ++ t.visit charRule ++ str ")") =
        str "[" ++ [c] ++ str "]" ++ str " " ++ (str "(" ++ t.visit charRule ++ str ")") := by
      simp [str]
    rw [htext]
    exact hletter.append (ht hne).group.sequence

mutual

private theorem TrieNode.visit_denotes (hchar : ItemDenotes env charRule (env charRule)) :
    ∀ t : TrieNode, t.All PlainLetter → t.children ≠ [] →
      AlternatesDenotes env (t.visit charRule) (t.words (env charRule))
  | .node [] _, _, hne => absurd rfl hne
  | .node ((c, t) :: rest) isEnd, h, _ => by
    have hchild := (denotes_child hchar h.1 (t.visit_denotes hchar h.2.1)).alternates
    have hrest := visitChildren_denotes hchar rest h.2.2 hchild
    have hdivert : SequenceDenotes env _ _ := denotes_divert hchar h
    have hall := hrest.append hdivert.alternates
    rw [TrieNode.visit, TrieNode.words, if_neg (cons_ne_nil _ _), childrenWords]
    have htext : visitChildren charRule true ((c, t) :: rest) ++
        (str " | " ++ str "[^\"" ++ ((c, t) :: rest).map Prod.fst ++ str "] " ++ charRule ++
          str "*") =
        str "[" ++ [c] ++ str "]" ++
          (if t.children = [] then
            if t.isEndOfString then str " " ++ charRule ++ str "+" else []
          else str " (" ++ t.visit charRule ++ str ")") ++ visitChildren charRule false rest ++
          str " | " ++ (str "[^\"" ++ ((c, t) :: rest).map Prod.fst ++ str "] " ++ charRule ++
            str "*") := by
      rw [visitChildren, if_pos rfl]
      simp only [append_assoc, nil_append]
    rw [htext]
    exact hall

private theorem visitChildren_denotes (hchar : ItemDenotes env charRule (env charRule)) :
    ∀ children : List (Char × TrieNode), ChildrenAll PlainLetter children →
      ∀ {front : Str} {M : Language Char}, AlternatesDenotes env front M →
        AlternatesDenotes env (front ++ visitChildren charRule false children)
          (M + childrenWords (env charRule) children)
  | [], _, front, M, hfront => by
    rw [visitChildren, childrenWords, append_nil, add_zero]
    exact hfront
  | (c, t) :: rest, h, front, M, hfront => by
    have hchild := (denotes_child hchar h.1 (t.visit_denotes hchar h.2.1)).alternates
    have hrest := visitChildren_denotes hchar rest h.2.2 (hfront.append hchild)
    rw [visitChildren, childrenWords, if_neg Bool.false_ne_true, ← add_assoc]
    simp only [append_assoc] at hrest ⊢
    exact hrest

end

private theorem isEndOfString_trieOf {strings : List Str} (h : ∀ s ∈ strings, s ≠ []) :
    (trieOf strings).isEndOfString = false := by
  have hfold : ∀ (strings : List Str) (t : TrieNode), (∀ s ∈ strings, s ≠ []) →
      t.isEndOfString = false →
      (strings.foldl (fun t s => t.insert s) t).isEndOfString = false := by
    intro strings
    induction strings with
    | nil => exact fun t _ ht => ht
    | cons s strings ih =>
      intro t hs ht
      rw [forall_mem_cons] at hs
      refine ih _ hs.2 ?_
      obtain ⟨children, isEnd⟩ := t
      cases s with
      | nil => exact absurd rfl hs.1
      | cons c s => exact ht
  exact hfold strings .empty h rfl

private theorem notStrings_eq (strings : List Str) (c : Converter) :
    notStrings strings c =
      (str "[\"] ( " ++ (trieOf strings).visit (c.addRule (str "char") charRuleText).1 ++
        str " )" ++ (if (trieOf strings).isEndOfString then [] else str "?") ++ str " [\"] space",
        (c.addRule (str "char") charRuleText).2) := rfl

/-- What the rule generates, given what a character and the space generate. -/
def notStringsWords (strings : List Str) (L space : Language Char) : Language Char :=
  symbols (inClass false [('"', '"')]) *
    (repWords ((trieOf strings).words L) 0 (some 1) *
      (symbols (inClass false [('"', '"')]) * space))

private theorem denotes_quote :
    ItemDenotes env (str "[\"]") (symbols (inClass false [('"', '"')])) :=
  ItemDenotes.cls (t := ['"']) (RangesText.nil.char (by decide) (by decide) (by simp)) (by simp)

private theorem textWords_notStrings {strings : List Str} (hne : strings ≠ [])
    (h : ∀ s ∈ strings, s ≠ [] ∧ ∀ c ∈ s, c.isAlphanum = true) (c : Converter)
    (env : Str → Language Char) :
    textWords env (notStrings strings c).1 =
      notStringsWords strings (env (c.addRule (str "char") charRuleText).1)
        (env (str "space")) := by
  have hplain : (trieOf strings).All PlainLetter :=
    all_trieOf PlainLetter fun s hs d hd => plain_of_isAlphanum ((h s hs).2 d hd)
  have hname : str "char" ≠ [] := by decide
  have hchar := c.addRule_denotes hname charRuleText env
  have hvisit := (trieOf strings).visit_denotes hchar hplain
    (children_trieOf_ne_nil hne fun s hs => (h s hs).1)
  have hspace : ItemDenotes env (str "space") _ := ItemDenotes.spaceName
  rw [notStrings_eq]
  dsimp only
  rw [isEndOfString_trieOf fun s hs => (h s hs).1, if_neg Bool.false_ne_true]
  have htext : str "[\"] ( " ++ (trieOf strings).visit (c.addRule (str "char") charRuleText).1 ++
      str " )" ++ str "?" ++ str " [\"] space" =
      str "[\"]" ++ str " " ++
        (str "( " ++ (trieOf strings).visit (c.addRule (str "char") charRuleText).1 ++ str " )" ++
          str "?" ++ str " " ++ (str "[\"]" ++ str " " ++ str "space")) := by
    simp [str]
  rw [htext]
  exact (denotes_quote.sequence.append (hvisit.spacedGroup.opt.sequence.append
    (denotes_quote.sequence.append hspace.sequence))).alternates.textWords_eq

private theorem mem_repWords_opt {M : Language Char} {w : Str} :
    w ∈ repWords M 0 (some 1) ↔ w = [] ∨ w ∈ M := by
  constructor
  · rintro ⟨k, -, hk, hw⟩
    have hk1 : k ≤ 1 := hk 1 rfl
    match k, hk1 with
    | 0, _ => exact .inl (by simpa using hw)
    | 1, _ => exact .inr (by simpa using hw)
  · rintro (rfl | hw)
    · exact ⟨0, Nat.zero_le 0, fun n hn => Nat.zero_le n, by simp⟩
    · exact ⟨1, Nat.zero_le 1, fun n hn => Option.some.inj hn ▸ Nat.le_refl 1, by simpa using hw⟩

private theorem mem_notStringsWords {strings : List Str} {L space : Language Char} {w : Str} :
    w ∈ notStringsWords strings L space ↔
      ∃ x v, (x = [] ∨ x ∈ (trieOf strings).words L) ∧ v ∈ space ∧ w = '"' :: (x ++ '"' :: v) := by
  constructor
  · rintro hw
    obtain ⟨a, ha, b, hb, rfl⟩ := Language.mem_mul.mp hw
    obtain ⟨x, hx, d, hd, rfl⟩ := Language.mem_mul.mp hb
    obtain ⟨e, he, v, hv, rfl⟩ := Language.mem_mul.mp hd
    obtain rfl := mem_symbols_self.mp ha
    obtain rfl := mem_symbols_self.mp he
    exact ⟨x, v, mem_repWords_opt.mp hx, hv, rfl⟩
  · rintro ⟨x, v, hx, hv, rfl⟩
    exact Language.mem_mul.mpr ⟨['"'], mem_symbols_self.mpr rfl, _,
      Language.mem_mul.mpr ⟨x, mem_repWords_opt.mpr hx, _,
        Language.mem_mul.mpr ⟨['"'], mem_symbols_self.mpr rfl, v, hv, rfl⟩, rfl⟩, rfl⟩

/-- A class that keeps out what needs no escape lets a backslash in. -/
theorem backslash_mem_words {t : TrieNode} (h : t.All PlainLetter) (L : Language Char) :
    ['\\'] ∈ t.words L := by
  obtain ⟨children, isEnd⟩ := t
  rw [TrieNode.words]
  refine (Language.mem_add _ _ _).mpr (.inr (Language.mem_mul.mpr
    ⟨['\\'], ⟨'\\', ?_, rfl⟩, [], ⟨0, Nat.le_refl 0, nofun, by simp⟩, rfl⟩))
  have hplain := plain_of_childrenAll h
  have hany : (('"', '"') :: children.map fun e => (e.1, e.1)).any
      (fun r => r.1 ≤ '\\' && '\\' ≤ r.2) = false := by
    rw [any_eq_false]
    rintro ⟨a, b⟩ hab
    rcases mem_cons.mp hab with heq | hmem
    · obtain ⟨rfl, rfl⟩ := Prod.mk.inj heq
      decide
    · obtain ⟨e, he, heq⟩ := mem_map.mp hmem
      obtain ⟨rfl, rfl⟩ := Prod.mk.inj heq
      intro hle
      rw [Bool.and_eq_true, decide_eq_true_eq, decide_eq_true_eq] at hle
      exact (hplain e.1 (mem_map_of_mem he)).escape (Char.le_antisymm hle.1 hle.2)
  rw [inClass, hany]
  rfl

private theorem head_of_mem_childrenWords {L : Language Char} {children : List (Char × TrieNode)}
    (h : ChildrenAll PlainLetter children) {w : Str} (hw : w ∈ childrenWords L children) :
    ∃ c s, w = c :: s ∧ PlainLetter c := by
  induction children with
  | nil =>
    rw [childrenWords] at hw
    exact absurd hw (Language.notMem_zero w)
  | cons e rest ih =>
    obtain ⟨c, t⟩ := e
    rw [childrenWords] at hw
    rcases (Language.mem_add _ _ _).mp hw with hw | hw
    · obtain ⟨a, ha, b, -, rfl⟩ := Language.mem_mul.mp hw
      obtain rfl := mem_symbols_self.mp ha
      exact ⟨c, b, rfl, h.1⟩
    · exact ih h.2.2 hw

/-- An escaped quote is not let through. -/
theorem escapedQuote_notMem_words {t : TrieNode} (h : t.All PlainLetter) {L : Language Char}
    (hL : ∀ u ∈ L, ∃ c s, u = c :: s ∧ c ≠ '"') : ['\\', '"'] ∉ t.words L := by
  obtain ⟨children, isEnd⟩ := t
  rw [TrieNode.words]
  intro hw
  rcases (Language.mem_add _ _ _).mp hw with hw | hw
  · obtain ⟨c, s, heq, hc⟩ := head_of_mem_childrenWords h hw
    exact hc.escape (List.cons.inj heq).1.symm
  · obtain ⟨a, ⟨d, -, rfl⟩, b, ⟨k, -, -, hb⟩, heq⟩ := Language.mem_mul.mp hw
    have hbq : b = ['"'] := (List.cons.inj heq).2
    subst hbq
    cases k with
    | zero => simp at hb
    | succ k =>
      rw [pow_succ'] at hb
      obtain ⟨u, hu, v, -, huv⟩ := Language.mem_mul.mp hb
      obtain ⟨c, s, rfl, hc⟩ := hL u hu
      exact hc (List.cons.inj huv).1

private theorem head_of_mem_charWords {u : Str} (hu : u ∈ charWords) :
    ∃ c s, u = c :: s ∧ c ≠ '"' := by
  rcases (Language.mem_add _ _ _).mp hu with hu | hu
  · obtain ⟨a, ha, rfl⟩ := hu
    refine ⟨a, [], rfl, ?_⟩
    rintro rfl
    exact absurd ha (by decide)
  · obtain ⟨a, ha, b, -, rfl⟩ := Language.mem_mul.mp hu
    obtain rfl := mem_symbols_self.mp ha
    exact ⟨'\\', b, rfl, by decide⟩

private theorem escapedQuote_mem_charWords : ['\\', '"'] ∈ charWords :=
  (Language.mem_add _ _ _).mpr (.inr (Language.mem_mul.mpr
    ⟨['\\'], mem_symbols_self.mpr rfl, ['"'],
      (Language.mem_add _ _ _).mpr (.inl ⟨'"', by decide, rfl⟩), rfl⟩))

private theorem nil_mem_spaceWords : [] ∈ spaceWords :=
  (Language.mem_add _ _ _).mpr (.inl Language.nil_mem_one)

private theorem quote_notMem_spaceWords {v : Str} (hv : v ∈ spaceWords) : '"' ∉ v := by
  have hpow : ∀ {M : Language Char}, (∀ u ∈ M, '"' ∉ u) → ∀ {min max u}, u ∈ repWords M min max →
      '"' ∉ u := by
    rintro M hM min max u ⟨k, -, -, hu⟩
    induction k generalizing u with
    | zero =>
      obtain rfl : u = [] := by simpa using hu
      simp
    | succ k ih =>
      rw [pow_succ] at hu
      obtain ⟨a, ha, b, hb, rfl⟩ := Language.mem_mul.mp hu
      rw [mem_append, not_or]
      exact ⟨ih ha, hM b hb⟩
  rcases (Language.mem_add _ _ _).mp hv with hv | hv
  · obtain rfl : v = [] := by simpa using hv
    simp
  · rcases (Language.mem_add _ _ _).mp hv with hv | hv
    · obtain rfl : v = str " " := hv
      decide
    · obtain ⟨a, ha, b, hb, rfl⟩ := Language.mem_mul.mp hv
      rw [mem_append, not_or]
      constructor
      · refine hpow ?_ ha
        rintro u rfl
        decide
      · refine hpow ?_ hb
        rintro u ⟨d, hd, rfl⟩ hq
        obtain rfl := mem_singleton.mp hq
        exact absurd hd (by decide)

/-- A character of a JSON string, or an escape. -/
def jsonCharacters : Language Char :=
  symbols (fun c => ' ' ≤ c && c ≠ '"' && c ≠ '\\') +
    {['\\']} * (symbols (fun c => c ∈ ['"', '\\', '/', 'b', 'f', 'n', 'r', 't']) +
      {['u']} * symbols (inClass false hexRanges) ^ 4)

/-- A key is generated exactly when it is none of the names. -/
def KeysExact (env : Str → Language Char) (strings : List Str) (charRule text : Str) : Prop :=
  ∀ t ∈ (env charRule)∗, '"' :: (t ++ ['"']) ∈ textWords env text ↔ t ∉ strings

/-- Everything that is generated is a JSON string and the space behind it. -/
def OnlyJsonStrings (env : Str → Language Char) (text : Str) : Prop :=
  ∀ w ∈ textWords env text, ∃ u ∈ jsonCharacters∗, ∃ v ∈ env (str "space"),
    w = '"' :: (u ++ '"' :: v)

private theorem bareBackslash_notMem : ['\\'] ∉ jsonCharacters∗ := by
  intro h
  rw [Language.kstar_eq_iSup_pow] at h
  obtain ⟨k, hk⟩ := Language.mem_iSup.mp h
  cases k with
  | zero => simp at hk
  | succ k =>
    rw [pow_succ'] at hk
    obtain ⟨u, hu, v, hv, huv⟩ := Language.mem_mul.mp hk
    rcases (Language.mem_add _ _ _).mp hu with hu | hu
    · obtain ⟨a, ha, rfl⟩ := hu
      obtain rfl := (List.cons.inj huv).1
      exact absurd ha (by decide)
    · obtain ⟨a, rfl, b, hb, rfl⟩ := Language.mem_mul.mp hu
      -- something stands behind the backslash of an escape
      have hnil : b = [] := (append_eq_nil_iff.mp (List.cons.inj huv).2).1
      subst hnil
      rcases (Language.mem_add _ _ _).mp hb with hb | hb
      · obtain ⟨d, -, hd⟩ := hb
        cases hd
      · obtain ⟨d, rfl, e, -, hd⟩ := Language.mem_mul.mp hb
        cases hd

/-- The words of the languages that the rule is put together from. -/
structure FitsRules (env : Str → Language Char) (charRule : Str) : Prop where
  char : env charRule = charWords
  space : env (str "space") = spaceWords

private theorem fitsRules {c : Converter} (hspace : c.rules.lookup (str "space") = some spaceRule)
    {strings : List Str} {env : Str → Language Char}
    (hsolves : Solves (notStrings strings c).2.rules env) :
    FitsRules env (addPrimitive (str "char") c).1 := by
  constructor
  · rw [← textWords_charRuleText env]
    exact hsolves _ _ (c.lookup_addRule (str "char") charRuleText)
  · rw [← textWords_spaceRule env]
    exact hsolves _ _ (Converter.addRule_keeps hspace (str "char") charRuleText)

/-- A backslash alone gets in, whatever the names are. -/
theorem bareBackslash_generated {strings : List Str} (hne : strings ≠ [])
    (h : ∀ s ∈ strings, s ≠ [] ∧ ∀ c ∈ s, c.isAlphanum = true) {c : Converter}
    {env : Str → Language Char} (hfits : FitsRules env (addPrimitive (str "char") c).1) :
    ['"', '\\', '"'] ∈ textWords env (notStrings strings c).1 := by
  have hplain : (trieOf strings).All PlainLetter :=
    all_trieOf PlainLetter fun s hs d hd => plain_of_isAlphanum ((h s hs).2 d hd)
  rw [textWords_notStrings hne h, hfits.space]
  exact mem_notStringsWords.mpr
    ⟨['\\'], [], .inr (backslash_mem_words hplain _), nil_mem_spaceWords, rfl⟩

/-- An escaped quote does not get in, whatever the names are. -/
theorem escapedQuote_not_generated {strings : List Str} (hne : strings ≠ [])
    (h : ∀ s ∈ strings, s ≠ [] ∧ ∀ c ∈ s, c.isAlphanum = true) {c : Converter}
    {env : Str → Language Char} (hfits : FitsRules env (addPrimitive (str "char") c).1) :
    ['"', '\\', '"', '"'] ∉ textWords env (notStrings strings c).1 := by
  have hplain : (trieOf strings).All PlainLetter :=
    all_trieOf PlainLetter fun s hs d hd => plain_of_isAlphanum ((h s hs).2 d hd)
  have hchar : env (c.addRule (str "char") charRuleText).1 = charWords := hfits.char
  rw [textWords_notStrings hne h, hfits.space, hchar, mem_notStringsWords]
  rintro ⟨x, v, hx, hv, heq⟩
  have hq := quote_notMem_spaceWords hv
  have htail : ['\\', '"', '"'] = x ++ '"' :: v := (List.cons.inj heq).2
  match x with
  | [] => cases htail
  | [_] =>
    have hv' : ['"'] = v := (List.cons.inj (List.cons.inj htail).2).2
    exact hq (hv' ▸ mem_singleton.mpr rfl)
  | [a, b] =>
    obtain ⟨ha, hb⟩ := List.cons.inj htail
    obtain ⟨hb, -⟩ := List.cons.inj hb
    subst ha hb
    exact escapedQuote_notMem_words hplain (fun u => head_of_mem_charWords)
      (hx.resolve_left (by simp))
  | _ :: _ :: _ :: x =>
    have hlen := congrArg List.length htail
    simp at hlen

/-- For no names is the rule exact, and for none does it keep to JSON strings. -/
theorem notStrings_never {c : Converter}
    (hspace : c.rules.lookup (str "space") = some spaceRule) {strings : List Str}
    (hne : strings ≠ []) (h : ∀ s ∈ strings, s ≠ [] ∧ ∀ d ∈ s, d.isAlphanum = true)
    {env : Str → Language Char} (hsolves : Solves (notStrings strings c).2.rules env) :
    ¬ KeysExact env strings (addPrimitive (str "char") c).1 (notStrings strings c).1 ∧
      ¬ OnlyJsonStrings env (notStrings strings c).1 := by
  have hfits := fitsRules hspace hsolves
  constructor
  · intro hkeys
    refine escapedQuote_not_generated hne h hfits ((hkeys ['\\', '"'] ?_).mpr fun hmem => ?_)
    · rw [hfits.char, Language.kstar_eq_iSup_pow]
      exact Language.mem_iSup.mpr ⟨1, by simpa using escapedQuote_mem_charWords⟩
    · exact absurd ((h _ hmem).2 '"' (by simp)) (by decide)
  · intro honly
    obtain ⟨u, hu, v, hv, heq⟩ := honly _ (bareBackslash_generated hne h hfits)
    rw [hfits.space] at hv
    have hq := quote_notMem_spaceWords hv
    have htail : ['\\', '"'] = u ++ '"' :: v := (List.cons.inj heq).2
    match u, hu with
    | [], _ => cases htail
    | [a], hu =>
      obtain ⟨rfl, -⟩ := List.cons.inj htail
      exact bareBackslash_notMem hu
    | _ :: _ :: u, _ =>
      have hlen := congrArg List.length htail
      simp at hlen

/-- A converter that has only the rule for the space. -/
def Converter.start : Converter :=
  { dotall := false, rules := [(str "space", spaceRule)], errors := [], warnings := [] }

/-- The languages of the first rules. -/
def firstWords (name : Str) : Language Char :=
  if name = str "char" then charWords else if name = str "space" then spaceWords else 0

private theorem solves_firstWords (strings : List Str) :
    Solves (notStrings strings Converter.start).2.rules firstWords := by
  intro name text hlookup
  have hrules : (notStrings strings Converter.start).2.rules =
      [(str "space", spaceRule), (str "char", charRuleText)] := rfl
  rw [hrules, lookup_cons, lookup_cons, lookup_nil] at hlookup
  split at hlookup
  next hname =>
    obtain rfl := Option.some.inj hlookup
    obtain rfl : name = str "space" := by simpa using hname
    rw [textWords_spaceRule]
    rfl
  next =>
    split at hlookup
    next hname =>
      obtain rfl := Option.some.inj hlookup
      obtain rfl : name = str "char" := by simpa using hname
      rw [textWords_charRuleText]
      rfl
    next => cases hlookup

private theorem alphanum_of_all {strings : List Str}
    (h : strings.all (fun s => !s.isEmpty && s.all Char.isAlphanum) = true) :
    ∀ s ∈ strings, s ≠ [] ∧ ∀ c ∈ s, c.isAlphanum = true := by
  intro s hs
  have hboth := all_eq_true.mp h s hs
  rw [Bool.and_eq_true, Bool.not_eq_true', isEmpty_eq_false_iff, all_eq_true] at hboth
  exact hboth

theorem notStrings_never_prefixes :
    ¬ KeysExact firstWords [str "and", str "also", str "an"] (str "char")
        (notStrings [str "and", str "also", str "an"] Converter.start).1 ∧
      ¬ OnlyJsonStrings firstWords
        (notStrings [str "and", str "also", str "an"] Converter.start).1 :=
  notStrings_never (c := Converter.start) rfl (by decide) (alphanum_of_all rfl)
    (solves_firstWords _)

/-- For the name `a`, a backslash alone is a key, and an escaped quote is none. -/
theorem notStrings_inexact :
    Solves (notStrings [str "a"] Converter.start).2.rules firstWords ∧
      ['"', '\\', '"'] ∈ textWords firstWords (notStrings [str "a"] Converter.start).1 ∧
      ¬ (KeysExact firstWords [str "a"] (str "char") (notStrings [str "a"] Converter.start).1 ∧
        OnlyJsonStrings firstWords (notStrings [str "a"] Converter.start).1) := by
  have hsolves := solves_firstWords [str "a"]
  have hfits : FitsRules firstWords (str "char") := fitsRules (c := Converter.start) rfl hsolves
  have hne : [str "a"] ≠ [] := by decide
  have halphanum : ∀ s ∈ [str "a"], s ≠ [] ∧ ∀ c ∈ s, c.isAlphanum = true := alphanum_of_all rfl
  refine ⟨hsolves, bareBackslash_generated hne halphanum hfits, fun hboth => ?_⟩
  refine escapedQuote_not_generated (c := Converter.start) hne halphanum hfits
    ((hboth.1 ['\\', '"'] ?_).mpr (by decide))
  rw [hfits.char, Language.kstar_eq_iSup_pow]
  exact Language.mem_iSup.mpr ⟨1, by simpa using escapedQuote_mem_charWords⟩

end Llama.Schema
