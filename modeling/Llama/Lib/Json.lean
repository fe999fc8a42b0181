import Mathlib.Data.List.Basic

/-!
# JSON values and the texts that spell them

A value is read from a text one character at a time. The reader keeps the containers that
are open, innermost first, each with the children it has so far, and a mode that says what
may follow. A text that is cut off has a state of its own, and to read on is to read from
that state.

The reader accepts the grammar of RFC 8259 and takes the value of a number from a function
of its spelling.
-/

namespace Llama.Json

open List

/-- A JSON value over a type of numbers, with the members of an object in a given order. -/
inductive Value (α : Type) where
  | null
  | bool (b : Bool)
  | number (x : α)
  | string (s : List Char)
  | array (items : List (Value α))
  | object (members : List (List Char × Value α))

variable {α β : Type}

/-- Induction on a value: a container may use its children. -/
@[elab_as_elim, induction_eliminator]
theorem Value.induct {motive : Value α → Prop} (null : motive .null)
    (bool : ∀ b, motive (.bool b)) (number : ∀ x, motive (.number x))
    (string : ∀ s, motive (.string s))
    (array : ∀ items, (∀ v ∈ items, motive v) → motive (.array items))
    (object : ∀ members, (∀ m ∈ members, motive m.2) → motive (.object members))
    (v : Value α) : motive v := by
  refine @Value.rec α motive (fun items => ∀ v ∈ items, motive v)
    (fun members => ∀ m ∈ members, motive m.2) (fun m => motive m.2)
    null bool number string array object ?_ ?_ ?_ ?_ ?_ v
  · intro v hv
    cases hv
  · intro v items hv hitems x hx
    rcases mem_cons.mp hx with rfl | hx
    · exact hv
    · exact hitems x hx
  · intro m hm
    cases hm
  · intro m members hm hmembers x hx
    rcases mem_cons.mp hx with rfl | hx
    · exact hm
    · exact hmembers x hx
  · intro k v hv
    exact hv

/-- Sets the value of a key: in place when the key is there, and at the end otherwise. -/
def put (k : List Char) (v : β) : List (List Char × β) → List (List Char × β)
  | [] => [(k, v)]
  | m :: rest => if m.1 = k then (k, v) :: rest else m :: put k v rest

theorem put_of_notMem {k : List Char} {v : β} {ms : List (List Char × β)}
    (h : k ∉ ms.map Prod.fst) : put k v ms = ms ++ [(k, v)] := by
  induction ms with
  | nil => rfl
  | cons m rest ih =>
    rw [map_cons, mem_cons, not_or] at h
    rw [put, if_neg (fun hm => h.1 hm.symm), ih h.2, cons_append]

/-- Blank space between tokens. -/
def isBlank (c : Char) : Bool := c = ' ' || c = '\t' || c = '\n' || c = '\r'

/-- The value of a hexadecimal digit. -/
def hexValue (c : Char) : Option Nat :=
  if '0' ≤ c ∧ c ≤ '9' then some (c.toNat - 0x30)
  else if 'A' ≤ c ∧ c ≤ 'F' then some (c.toNat - 0x37)
  else if 'a' ≤ c ∧ c ≤ 'f' then some (c.toNat - 0x57)
  else none

/-- The character of an escape of one letter. -/
def simpleEscape (c : Char) : Option Char :=
  if c = '"' then some '"' else if c = '\\' then some '\\' else if c = '/' then some '/'
  else if c = 'b' then some '\x08' else if c = 'f' then some '\x0c'
  else if c = 'n' then some '\n' else if c = 'r' then some '\r'
  else if c = 't' then some '\t' else none

/-- How far an escape in a string has come. `hex hi n code` has read `n` digits of a code
unit, after the high surrogate `hi` if there is one. -/
inductive Escape where
  | plain
  | slash
  | hex (hi : Option Nat) (n code : Nat)
  | high (code : Nat)
  | highSlash (code : Nat)
  deriving DecidableEq, Repr

/-- A code unit with all its digits. A high surrogate waits for a low one. -/
def codeUnit (hi : Option Nat) (code : Nat) : Option (List Char × Escape) :=
  match hi with
  | none =>
    if 0xd800 ≤ code ∧ code ≤ 0xdbff then some ([], .high code)
    else if 0xdc00 ≤ code ∧ code ≤ 0xdfff then none
    else some ([Char.ofNat code], .plain)
  | some h =>
    if 0xdc00 ≤ code ∧ code ≤ 0xdfff then
      some ([Char.ofNat (0x10000 + (h - 0xd800) * 0x400 + (code - 0xdc00))], .plain)
    else none

/-- One character inside a string: what it adds, and the escape after it. -/
def Escape.step : Escape → Char → Option (List Char × Escape)
  | .plain, c =>
    if c = '\\' then some ([], .slash)
    else if c.toNat < 0x20 then none
    else some ([c], .plain)
  | .slash, c =>
    if c = 'u' then some ([], .hex none 0 0)
    else (simpleEscape c).map fun d => ([d], .plain)
  | .hex hi n code, c =>
    (hexValue c).bind fun d =>
      if n < 3 then some ([], .hex hi (n + 1) (code * 16 + d))
      else codeUnit hi (code * 16 + d)
  | .high h, c => if c = '\\' then some ([], .highSlash h) else none
  | .highSlash h, c => if c = 'u' then some ([], .hex (some h) 0 0) else none

/-- How far a number has come. -/
inductive Phase where
  | minus
  | zero
  | int
  | point
  | frac
  | exp
  | sign
  | expInt
  deriving DecidableEq, Repr

def isDigit (c : Char) : Bool := '0' ≤ c && c ≤ '9'

/-- The exponent letter. -/
def isExp (c : Char) : Bool := c = 'e' || c = 'E'

/-- The first character of a number. -/
def Phase.start (c : Char) : Option Phase :=
  if c = '-' then some .minus else if c = '0' then some .zero
  else if isDigit c then some .int else none

/-- One more character of a number. -/
def Phase.next (p : Phase) (c : Char) : Option Phase :=
  match p with
  | .minus => if c = '0' then some .zero else if isDigit c then some .int else none
  | .zero => if c = '.' then some .point else if isExp c then some .exp else none
  | .int =>
    if isDigit c then some .int else if c = '.' then some .point
    else if isExp c then some .exp else none
  | .point => if isDigit c then some .frac else none
  | .frac => if isDigit c then some .frac else if isExp c then some .exp else none
  | .exp =>
    if c = '+' ∨ c = '-' then some .sign else if isDigit c then some .expInt else none
  | .sign => if isDigit c then some .expInt else none
  | .expInt => if isDigit c then some .expInt else none

/-- A number may end here. -/
def Phase.complete : Phase → Bool
  | .zero | .int | .frac | .expInt => true
  | _ => false

/-- An open container: an array, an object between two members, or an object whose last key
waits for its value. -/
inductive Frame (α : Type) where
  | array (items : List (Value α))
  | object (members : List (List Char × Value α))
  | member (members : List (List Char × Value α)) (key : List Char)

/-- What may follow. -/
inductive Mode (α : Type) where
  | value
  | item
  | firstKey
  | key
  | colon
  | after
  | done (v : Value α)
  | string (isKey : Bool) (acc : List Char) (esc : Escape)
  | number (phase : Phase) (lexeme : List Char)
  | literal (rest : List Char) (v : Value α)

/-- The reader in the middle of a text. -/
structure State (α : Type) where
  frames : List (Frame α)
  mode : Mode α

namespace State

/-- Nothing is read yet. -/
def start : State α := ⟨[], .value⟩

/-- A value is complete and goes to the container around it. -/
def deliver : List (Frame α) → Value α → State α
  | [], v => ⟨[], .done v⟩
  | .array items :: fs, v => ⟨.array (items ++ [v]) :: fs, .after⟩
  | .member ms k :: fs, v => ⟨.object (put k v ms) :: fs, .after⟩
  -- no value is read between two members
  | .object ms :: fs, _ => ⟨.object ms :: fs, .after⟩

/-- The first character of a value. -/
def startValue (fs : List (Frame α)) (c : Char) : Option (State α) :=
  if c = '{' then some ⟨.object [] :: fs, .firstKey⟩
  else if c = '[' then some ⟨.array [] :: fs, .item⟩
  else if c = '"' then some ⟨fs, .string false [] .plain⟩
  else if c = 't' then some ⟨fs, .literal ['r', 'u', 'e'] (.bool true)⟩
  else if c = 'f' then some ⟨fs, .literal ['a', 'l', 's', 'e'] (.bool false)⟩
  else if c = 'n' then some ⟨fs, .literal ['u', 'l', 'l'] .null⟩
  else (Phase.start c).map fun p => ⟨fs, .number p [c]⟩

/-- A closing bracket. -/
def close : List (Frame α) → Char → Option (State α)
  | .array items :: fs, c => if c = ']' then some (deliver fs (.array items)) else none
  | .object ms :: fs, c => if c = '}' then some (deliver fs (.object ms)) else none
  | _, _ => none

def comma : List (Frame α) → Option (State α)
  | .array items :: fs => some ⟨.array items :: fs, .value⟩
  | .object ms :: fs => some ⟨.object ms :: fs, .key⟩
  | _ => none

/-- One character between two tokens. -/
def between (s : State α) (c : Char) : Option (State α) :=
  if isBlank c then some s
  else
    match s.mode with
    | .value => startValue s.frames c
    | .item => if c = ']' then close s.frames c else startValue s.frames c
    | .firstKey =>
      if c = '}' then close s.frames c
      else if c = '"' then some ⟨s.frames, .string true [] .plain⟩ else none
    | .key => if c = '"' then some ⟨s.frames, .string true [] .plain⟩ else none
    | .colon => if c = ':' then some ⟨s.frames, .value⟩ else none
    | .after => if c = ',' then comma s.frames else close s.frames c
    | _ => none

def endString : List (Frame α) → Bool → List Char → State α
  | .object ms :: fs, true, acc => ⟨.member ms acc :: fs, .colon⟩
  | fs, _, acc => deliver fs (.string acc)

variable (num : List Char → α)

/-- One character of the text. -/
def feed (s : State α) (c : Char) : Option (State α) :=
  match s.mode with
  | .string isKey acc esc =>
    if esc = .plain ∧ c = '"' then some (endString s.frames isKey acc)
    else (esc.step c).map fun r => ⟨s.frames, .string isKey (acc ++ r.1) r.2⟩
  | .number phase lexeme =>
    match phase.next c with
    | some phase' => some ⟨s.frames, .number phase' (lexeme ++ [c])⟩
    | none =>
      if phase.complete then between (deliver s.frames (.number (num lexeme))) c else none
  | .literal [] _ => none
  | .literal [d] v => if c = d then some (deliver s.frames v) else none
  | .literal (d :: rest) v => if c = d then some ⟨s.frames, .literal rest v⟩ else none
  | _ => between s c

/-- A run over a text. -/
def run (s : State α) (text : List Char) : Option (State α) := text.foldlM (feed num) s

/-- At the end of the text a number that may end does. -/
def settle (s : State α) : State α :=
  match s.mode with
  | .number phase lexeme =>
    if phase.complete then deliver s.frames (.number (num lexeme)) else s
  | _ => s

/-- The value of a text that ends here. -/
def finish (s : State α) : Option (Value α) :=
  match (settle num s).mode with
  | .done v => some v
  | _ => none

@[simp] theorem run_nil (s : State α) : run num s [] = some s := rfl

@[simp] theorem run_cons (s : State α) (c : Char) (text : List Char) :
    run num s (c :: text) = (feed num s c).bind fun s => run num s text := rfl

theorem run_append (s : State α) (a b : List Char) :
    run num s (a ++ b) = (run num s a).bind fun s => run num s b :=
  foldlM_append

theorem run_append_of {s s' : State α} {a : List Char} (h : run num s a = some s')
    (b : List Char) : run num s (a ++ b) = run num s' b := by
  rw [run_append, h, Option.bind_some]

end State

/-- The value that a text spells. -/
def parse (num : List Char → α) (text : List Char) : Option (Value α) :=
  (State.run num .start text).bind (State.finish num)

end Llama.Json
