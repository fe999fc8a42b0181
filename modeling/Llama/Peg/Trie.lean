import Llama.Peg.Unicode

/-!
# The trie of delimiters

The `until` parser and the exclusion grammar share one trie of code points. A node has a
sorted map of children, each an index into the node list, and a flag for the end of a
word.
-/

namespace Llama.Peg

/-- Code points of the bytes, up to the first position where none can be read. The first
argument bounds the number of code points. -/
def codepointsFrom : Nat → List UInt8 → List Nat
  | 0, _ => []
  | n + 1, bytes =>
    match decodeCodepoint bytes with
    | .success cp k => cp :: codepointsFrom n (bytes.drop k)
    | _ => []

/-- The code points that a loop over `bytes` reads before it stops. -/
def codepoints (bytes : List UInt8) : List Nat := codepointsFrom bytes.length bytes

/-- `trie::node`: children in the order of their code points. -/
structure TrieNode where
  children : List (Nat × Nat)
  isWord : Bool
  deriving DecidableEq, Repr

/-- `trie`, whose node 0 is the root. -/
structure Trie where
  nodes : List TrieNode
  deriving DecidableEq, Repr

/-- Assignment to a missing key of a sorted map. -/
def insertChild (cp child : Nat) : List (Nat × Nat) → List (Nat × Nat)
  | [] => [(cp, child)]
  | (k, v) :: rest =>
    if cp < k then (cp, child) :: (k, v) :: rest else (k, v) :: insertChild cp child rest

namespace Trie

/-- `nodes[index]`, with a blank node where the source has none. -/
def node (t : Trie) (index : Nat) : TrieNode := t.nodes.getD index ⟨[], false⟩

/-- `nodes[index].children.find(cp)`. -/
def child (t : Trie) (index cp : Nat) : Option Nat := (t.node index).children.lookup cp

/-- The child of `current` for `cp`, which is created when it is missing. -/
def grow (t : Trie) (current cp : Nat) : Trie × Nat :=
  match t.child current cp with
  | some next => (t, next)
  | none =>
    let index := t.nodes.length
    let nodes := t.nodes.modify current
      fun n => { n with children := insertChild cp index n.children }
    (⟨nodes ++ [⟨[], false⟩]⟩, index)

/-- The loop of `trie::insert` over the code points of a word. -/
def insertFrom (t : Trie) (current : Nat) : List Nat → Trie
  | [] => ⟨t.nodes.modify current fun n => { n with isWord := true }⟩
  | cp :: rest => (t.grow current cp).1.insertFrom (t.grow current cp).2 rest

def insert (t : Trie) (word : List UInt8) : Trie := t.insertFrom 0 (codepoints word)

/-- The constructor of `trie`. -/
def ofWords (words : List (List UInt8)) : Trie := words.foldl insert ⟨[⟨[], false⟩]⟩

/-- `trie::match_result`. -/
inductive MatchResult where
  | noMatch
  | partialMatch
  | completeMatch
  deriving DecidableEq, Repr

/-- The loop of `trie::check_at` over the code points of the input. -/
def checkFrom (t : Trie) (current : Nat) : List Nat → MatchResult
  -- the input ended in the middle of a word, or at the root
  | [] => if current ≠ 0 then .partialMatch else .noMatch
  | cp :: rest =>
    match t.child current cp with
    | none => .noMatch
    | some next => if (t.node next).isWord then .completeMatch else t.checkFrom next rest

def checkAt (t : Trie) (input : List UInt8) (startPos : Nat) : MatchResult :=
  t.checkFrom 0 (codepoints (input.drop startPos))

end Trie

end Llama.Peg
