import Llama.Lib.Json

/-!
# Every JSON text is read

A tree is a JSON text with its structure: the blanks between the tokens, the spelling of
every string and every number. `Tree.text` is the text and `Tree.value` what it means. The
reader accepts the text of every valid tree, and reads its value.
-/

namespace Llama.Json

open List

variable {α : Type}

/-- A part of a string: a character that stands for itself, an escape of one letter, a code
unit in four digits, or two of them. -/
inductive Piece where
  | plain (c : Char)
  | escape (c : Char)
  | code (a b c d : Char)
  | pair (a b c d a' b' c' d' : Char)

/-- The code unit of four digits. -/
def hexCode (a b c d : Char) : Option Nat :=
  (hexValue a).bind fun a => (hexValue b).bind fun b => (hexValue c).bind fun c =>
    (hexValue d).map fun d => (((0 * 16 + a) * 16 + b) * 16 + c) * 16 + d

namespace Piece

/-- What is written. -/
def text : Piece → List Char
  | .plain c => [c]
  | .escape c => ['\\', c]
  | .code a b c d => ['\\', 'u', a, b, c, d]
  | .pair a b c d a' b' c' d' => ['\\', 'u', a, b, c, d, '\\', 'u', a', b', c', d']

/-- The character that a code unit gives by itself or after another one. -/
def unit (hi : Option Nat) (code : Nat) : Option Char :=
  match codeUnit hi code with
  | some ([x], .plain) => some x
  | _ => none

/-- The character that is meant, if there is one. -/
def char : Piece → Option Char
  | .plain c => if c = '"' ∨ c = '\\' ∨ c.toNat < 0x20 then none else some c
  | .escape c => simpleEscape c
  | .code a b c d => (hexCode a b c d).bind (unit none)
  | .pair a b c d a' b' c' d' =>
    (hexCode a b c d).bind fun h =>
      if 0xd800 ≤ h ∧ h ≤ 0xdbff then (hexCode a' b' c' d').bind (unit (some h)) else none

end Piece

/-- The text of a string without its quotes. -/
def bodyText (body : List Piece) : List Char := body.flatMap Piece.text

/-- The characters of a string. -/
def bodyChars (body : List Piece) : List Char := body.filterMap Piece.char

/-- Blanks only. -/
def Blank (w : List Char) : Prop := ∀ c ∈ w, isBlank c = true

/-- A number of the grammar. -/
def IsNumber : List Char → Prop
  | [] => False
  | c :: cs => ∃ p, (Phase.start c).bind (fun p => cs.foldlM Phase.next p) = some p ∧
    p.complete = true

/-- The two containers. -/
inductive Kind where
  | array
  | object
  deriving DecidableEq

/-- What stands before a child: a blank, and in an object the key, the colon and the blanks
around it. -/
structure Label where
  before : List Char
  key : List Piece
  gap : List Char
  after : List Char

/-- A JSON text with its structure. A child of a container has its label before it and a
blank behind. -/
inductive Tree where
  | null
  | bool (b : Bool)
  | number (lexeme : List Char)
  | string (body : List Piece)
  | node (kind : Kind) (blank : List Char) (children : List (Label × Tree × List Char))

namespace Label

def text (l : Label) : Kind → List Char
  | .array => l.before
  | .object => l.before ++ '"' :: bodyText l.key ++ '"' :: l.gap ++ ':' :: l.after

/-- The key that a label gives. -/
def name (l : Label) : Kind → List Char
  | .array => []
  | .object => bodyChars l.key

/-- A label of the grammar. -/
def Valid (l : Label) : Kind → Prop
  | .array => Blank l.before
  | .object => Blank l.before ∧ (∀ p ∈ l.key, p.char ≠ none) ∧ Blank l.gap ∧ Blank l.after

end Label

namespace Kind

/-- The opening bracket. -/
def opening : Kind → Char
  | .array => '['
  | .object => '{'

/-- The closing bracket. -/
def closing : Kind → Char
  | .array => ']'
  | .object => '}'

/-- A container whose first children are read. -/
def frame : Kind → List (List Char × Value α) → Frame α
  | .array, done => .array (done.map Prod.snd)
  | .object, done => .object (done.foldl (fun ms m => put m.1 m.2 ms) [])

/-- A container that waits for a child with the key `k`. -/
def waiting : Kind → List (List Char × Value α) → List Char → Frame α
  | .array, done, _ => .array (done.map Prod.snd)
  | .object, done, k => .member (done.foldl (fun ms m => put m.1 m.2 ms) []) k

/-- The complete container. -/
def value : Kind → List (List Char × Value α) → Value α
  | .array, done => .array (done.map Prod.snd)
  | .object, done => .object (done.foldl (fun ms m => put m.1 m.2 ms) [])

/-- What may follow the opening bracket. -/
def first : Kind → Mode α
  | .array => .item
  | .object => .firstKey

/-- What may follow a comma. -/
def next : Kind → Mode α
  | .array => .value
  | .object => .key

theorem deliver_waiting (k : Kind) (done : List (List Char × Value α)) (key : List Char)
    (fs : List (Frame α)) (v : Value α) :
    State.deliver (k.waiting done key :: fs) v = ⟨k.frame (done ++ [(key, v)]) :: fs, .after⟩ := by
  cases k <;> simp [waiting, frame, State.deliver]

end Kind

namespace Tree

mutual

def text : Tree → List Char
  | .null => ['n', 'u', 'l', 'l']
  | .bool true => ['t', 'r', 'u', 'e']
  | .bool false => ['f', 'a', 'l', 's', 'e']
  | .number lexeme => lexeme
  | .string body => '"' :: bodyText body ++ ['"']
  | .node kind blank children => kind.opening :: blank ++ childrenText kind children

/-- The children of a container, up to its closing bracket. -/
def childrenText (kind : Kind) : List (Label × Tree × List Char) → List Char
  | [] => [kind.closing]
  | (label, t, blank) :: rest => label.text kind ++ t.text ++ blank ++ moreText kind rest

/-- The children after the first. -/
def moreText (kind : Kind) : List (Label × Tree × List Char) → List Char
  | [] => [kind.closing]
  | (label, t, blank) :: rest => ',' :: (label.text kind ++ t.text ++ blank ++ moreText kind rest)

end

variable (num : List Char → α)

mutual

def value : Tree → Value α
  | .null => .null
  | .bool b => .bool b
  | .number lexeme => .number (num lexeme)
  | .string body => .string (bodyChars body)
  | .node kind _ children => kind.value (entries kind children)

/-- The keys and the values of children. -/
def entries (kind : Kind) : List (Label × Tree × List Char) → List (List Char × Value α)
  | [] => []
  | (label, t, _) :: rest => (label.name kind, t.value) :: entries kind rest

end

/-- A tree of the grammar. -/
inductive Valid : Tree → Prop
  | null : Valid .null
  | bool (b : Bool) : Valid (.bool b)
  | number {lexeme : List Char} (h : IsNumber lexeme) : Valid (.number lexeme)
  | string {body : List Piece} (h : ∀ p ∈ body, p.char ≠ none) : Valid (.string body)
  | node {kind : Kind} {blank : List Char} {children : List (Label × Tree × List Char)}
      (hb : Blank blank) (hl : ∀ x ∈ children, x.1.Valid kind ∧ Blank x.2.2)
      (ht : ∀ x ∈ children, Valid x.2.1) : Valid (.node kind blank children)

end Tree

namespace State

variable (num : List Char → α)

/-- No token is begun. -/
def Rests (s : State α) : Prop :=
  match s.mode with
  | .string _ _ _ | .number _ _ | .literal _ _ => False
  | _ => True

theorem feed_of_rests {s : State α} (h : s.Rests) (c : Char) : feed num s c = between s c := by
  obtain ⟨fs, m⟩ := s
  cases m with
  | string | number | literal => exact h.elim
  | _ => rfl

theorem between_blank (s : State α) {c : Char} (h : isBlank c = true) : between s c = some s := by
  unfold between
  rw [if_pos h]

theorem run_blank {s : State α} (h : s.Rests) {w : List Char} (hw : Blank w) :
    run num s w = some s := by
  induction w with
  | nil => rfl
  | cons c w ih =>
    rw [run_cons, feed_of_rests num h, between_blank s (hw c (by simp)), Option.bind_some]
    exact ih fun d hd => hw d (by simp [hd])

theorem rests_deliver (fs : List (Frame α)) (v : Value α) : (deliver fs v).Rests := by
  cases fs with
  | nil => trivial
  | cons f fs => cases f <;> trivial

/-- The characters that may follow a value. -/
def isEnd (c : Char) : Bool := isBlank c || c = ',' || c = ']' || c = '}'

/-- After the last character of a value: a number goes to its container with the next
character only, and any other value is there already. -/
structure Ends (s d : State α) : Prop where
  settled : settle num s = d
  next : ∀ c, isEnd c = true → feed num s c = between d c

theorem ends_deliver (fs : List (Frame α)) (v : Value α) :
    Ends num (deliver fs v) (deliver fs v) := by
  refine ⟨?_, fun c _ => feed_of_rests num (rests_deliver fs v) c⟩
  cases fs with
  | nil => rfl
  | cons f fs => cases f <;> rfl

theorem Phase.next_isEnd {c : Char} (h : isEnd c = true) (p : Phase) : p.next c = none := by
  have hcases : c = ' ' ∨ c = '\t' ∨ c = '\n' ∨ c = '\r' ∨ c = ',' ∨ c = ']' ∨ c = '}' := by
    simpa [isEnd, isBlank, or_assoc] using h
  rcases hcases with rfl | rfl | rfl | rfl | rfl | rfl | rfl <;> cases p <;> rfl

theorem ends_number (fs : List (Frame α)) {p : Phase} (h : p.complete = true) (lexeme : List Char) :
    Ends num ⟨fs, .number p lexeme⟩ (deliver fs (.number (num lexeme))) := by
  refine ⟨by simp [settle, h], fun c hc => ?_⟩
  simp only [feed, Phase.next_isEnd hc, h, if_true]

/-- A value, a blank and a character that ends it. -/
theorem Ends.run_end {s d : State α} (h : Ends num s d) (hd : d.Rests) {w : List Char}
    (hw : Blank w) {c : Char} (hc : isEnd c = true) (rest : List Char) :
    run num s (w ++ c :: rest) = (between d c).bind fun s => run num s rest := by
  cases w with
  | nil => rw [nil_append, run_cons, h.next c hc]
  | cons b w =>
    have hb : isEnd b = true := by simp [isEnd, hw b (by simp)]
    rw [cons_append, run_cons, h.next b hb, between_blank d (hw b (by simp)), Option.bind_some,
      run_append_of num (run_blank num hd fun x hx => hw x (by simp [hx])), run_cons,
      feed_of_rests num hd]

theorem run_hexCode {fs : List (Frame α)} {k : Bool} {acc : List Char} {hi : Option Nat}
    {a b c d : Char} {n : Nat} {r : List Char × Escape} (h : hexCode a b c d = some n)
    (hr : codeUnit hi n = some r) :
    run num ⟨fs, .string k acc (.hex hi 0 0)⟩ [a, b, c, d] =
      some ⟨fs, .string k (acc ++ r.1) r.2⟩ := by
  simp only [hexCode, Option.bind_eq_some_iff, Option.map_eq_some_iff] at h
  obtain ⟨va, ha, vb, hb, vc, hc, vd, hd, rfl⟩ := h
  rw [Nat.zero_mul, Nat.zero_add] at hr
  simp [feed, Escape.step, ha, hb, hc, hd, hr]

theorem unit_eq_some {hi : Option Nat} {n : Nat} {x : Char} (h : Piece.unit hi n = some x) :
    codeUnit hi n = some ([x], .plain) := by
  unfold Piece.unit at h
  split at h
  · rename_i y hy
    cases h
    exact hy
  · cases h

section

variable (fs : List (Frame α))

theorem run_piece (k : Bool) (acc : List Char) {p : Piece} {x : Char} (h : p.char = some x) :
    run num ⟨fs, .string k acc .plain⟩ p.text = some ⟨fs, .string k (acc ++ [x]) .plain⟩ := by
  cases p with
  | plain c =>
    simp only [Piece.char] at h
    split at h
    · cases h
    · rename_i hc
      rw [not_or, not_or] at hc
      cases h
      simp [Piece.text, feed, Escape.step, hc.1, hc.2.1, hc.2.2]
  | escape c =>
    simp only [Piece.char] at h
    have hu : c ≠ 'u' := by
      rintro rfl
      simp [simpleEscape] at h
    simp [Piece.text, feed, Escape.step, hu, h]
  | code a b c d =>
    obtain ⟨n, hn, hx⟩ := Option.bind_eq_some_iff.mp h
    simpa [Piece.text, feed, Escape.step] using run_hexCode num hn (unit_eq_some hx)
  | pair a b c d a' b' c' d' =>
    obtain ⟨n, hn, hx⟩ := Option.bind_eq_some_iff.mp h
    split at hx
    · rename_i hhigh
      obtain ⟨m, hm, hx⟩ := Option.bind_eq_some_iff.mp hx
      have hcode : codeUnit none n = some ([], .high n) := by simp [codeUnit, hhigh]
      have hhi : run num ⟨fs, .string k acc .plain⟩ ['\\', 'u', a, b, c, d] =
          some ⟨fs, .string k acc (.high n)⟩ := by
        simpa [feed, Escape.step] using run_hexCode num hn hcode
      have hlo : run num ⟨fs, .string k acc (.high n)⟩ ['\\', 'u', a', b', c', d'] =
          some ⟨fs, .string k (acc ++ [x]) .plain⟩ := by
        simpa [feed, Escape.step] using run_hexCode num hm (unit_eq_some hx)
      exact (run_append_of num hhi _).trans hlo
    · cases hx

theorem run_body (k : Bool) (acc : List Char) {body : List Piece} (h : ∀ p ∈ body, p.char ≠ none) :
    run num ⟨fs, .string k acc .plain⟩ (bodyText body) =
      some ⟨fs, .string k (acc ++ bodyChars body) .plain⟩ := by
  induction body generalizing acc with
  | nil => simp [bodyText, bodyChars]
  | cons p body ih =>
    obtain ⟨x, hx⟩ := Option.ne_none_iff_exists'.mp (h p (by simp))
    have htext : bodyText (p :: body) = p.text ++ bodyText body := rfl
    have hchars : bodyChars (p :: body) = x :: bodyChars body := by simp [bodyChars, hx]
    rw [htext, run_append_of num (run_piece num fs k acc hx), hchars,
      ih (acc ++ [x]) fun q hq => h q (by simp [hq]), append_assoc, singleton_append]

theorem run_string (k : Bool) {body : List Piece} (h : ∀ p ∈ body, p.char ≠ none) :
    run num ⟨fs, .string k [] .plain⟩ (bodyText body ++ ['"']) =
      some (endString fs k (bodyChars body)) := by
  rw [run_append_of num (run_body num fs k [] h), nil_append]
  simp [feed]

theorem run_lexeme {p q : Phase} {cs : List Char} (lexeme : List Char)
    (h : cs.foldlM Phase.next p = some q) :
    run num ⟨fs, .number p lexeme⟩ cs = some ⟨fs, .number q (lexeme ++ cs)⟩ := by
  induction cs generalizing p lexeme with
  | nil =>
    cases h
    simp
  | cons c cs ih =>
    rw [foldlM_cons] at h
    obtain ⟨p', hp, h⟩ := Option.bind_eq_some_iff.mp h
    have hstep : feed num ⟨fs, .number p lexeme⟩ c = some ⟨fs, .number p' (lexeme ++ [c])⟩ := by
      simp only [feed, hp]
    rw [run_cons, hstep, Option.bind_some, ih (lexeme ++ [c]) h, append_assoc, singleton_append]

end

def Expects (m : Mode α) : Prop := m = .value ∨ m = .item

/-- The first character of a value, after an opening bracket as elsewhere. -/
theorem feed_expects {m : Mode α} (hm : Expects m) (fs : List (Frame α)) {c : Char}
    (hb : isBlank c = false) (hc : c ≠ ']') :
    feed num ⟨fs, m⟩ c = startValue fs c := by
  rcases hm with rfl | rfl <;> simp [feed, between, hb, hc]

theorem startValue_number (fs : List (Frame α)) {c : Char} {p : Phase}
    (h : Phase.start c = some p) :
    isBlank c = false ∧ c ≠ ']' ∧ startValue fs c = some ⟨fs, .number p [c]⟩ := by
  have hne : ∀ d, Phase.start d = none → c ≠ d := by
    rintro d hd rfl
    rw [hd] at h
    cases h
  refine ⟨?_, hne ']' rfl, ?_⟩
  · simp [isBlank, hne ' ' rfl, hne '\t' rfl, hne '\n' rfl, hne '\r' rfl]
  · simp [startValue, hne '{' rfl, hne '[' rfl, hne '"' rfl, hne 't' rfl, hne 'f' rfl,
      hne 'n' rfl, h]

theorem run_label {k : Kind} {l : Label} (hl : l.Valid k) (done : List (List Char × Value α))
    (fs : List (Frame α)) {m : Mode α} (hm : m = k.first ∨ m = k.next) :
    ∃ m', Expects m' ∧ run num ⟨k.frame done :: fs, m⟩ (l.text k) =
      some ⟨k.waiting done (l.name k) :: fs, m'⟩ := by
  cases k with
  | array =>
    have hrests : (⟨Kind.array.frame done :: fs, m⟩ : State α).Rests := by
      rcases hm with rfl | rfl <;> trivial
    exact ⟨m, hm.symm, run_blank num hrests hl⟩
  | object =>
    obtain ⟨hbefore, hkey, hgap, hafter⟩ := hl
    have hrests : (⟨Kind.object.frame done :: fs, m⟩ : State α).Rests := by
      rcases hm with rfl | rfl <;> trivial
    have hquote : feed num ⟨Kind.object.frame done :: fs, m⟩ '"' =
        some ⟨Kind.object.frame done :: fs, .string true [] .plain⟩ := by
      rcases hm with rfl | rfl <;> rfl
    have htext : l.text .object =
        l.before ++ '"' :: ((bodyText l.key ++ ['"']) ++ (l.gap ++ ':' :: l.after)) := by
      simp [Label.text]
    have hname : (endString (Kind.object.frame done :: fs) true (bodyChars l.key)).Rests := trivial
    have hvalue : (⟨Kind.object.waiting done (bodyChars l.key) :: fs, .value⟩ : State α).Rests :=
      trivial
    refine ⟨.value, .inl rfl, ?_⟩
    rw [htext, run_append_of num (run_blank num hrests hbefore), run_cons, hquote, Option.bind_some,
      run_append_of num (run_string num _ true hkey), run_append_of num (run_blank num hname hgap)]
    exact run_blank num hvalue hafter

open Json.Tree in
/-- The children after one that is complete, up to the end of their container. -/
theorem run_moreText {k : Kind} (children : List (Label × Tree × List Char))
    (hl : ∀ x ∈ children, x.1.Valid k ∧ Blank x.2.2)
    (ht : ∀ x ∈ children, ∀ (fs : List (Frame α)) (m : Mode α), Expects m →
      ∃ s, run num ⟨fs, m⟩ x.2.1.text = some s ∧ Ends num s (deliver fs (x.2.1.value num)))
    (done : List (List Char × Value α)) (fs : List (Frame α)) {s : State α}
    (hs : Ends num s ⟨k.frame done :: fs, .after⟩) {blank : List Char} (hb : Blank blank) :
    run num s (blank ++ moreText k children) =
      some (deliver fs (k.value (done ++ entries num k children))) := by
  induction children generalizing done s blank with
  | nil =>
    have hend : isEnd k.closing = true := by cases k <;> rfl
    have hclose : between ⟨k.frame done :: fs, .after⟩ k.closing =
        some (deliver fs (k.value done)) := by
      cases k <;> rfl
    rw [moreText, hs.run_end num trivial hb hend, hclose, entries, append_nil]
    rfl
  | cons x rest ih =>
    obtain ⟨label, t, after⟩ := x
    obtain ⟨hlabel, hafter⟩ := hl (label, t, after) (by simp)
    have hcomma : between ⟨k.frame done :: fs, .after⟩ ',' =
        some ⟨k.frame done :: fs, k.next⟩ := by
      cases k <;> rfl
    obtain ⟨m, hm, hrun⟩ := run_label num hlabel done fs (m := k.next) (.inr rfl)
    obtain ⟨s', hs', hends⟩ := ht (label, t, after) (by simp) _ m hm
    rw [Kind.deliver_waiting] at hends
    rw [moreText, hs.run_end num trivial hb rfl, hcomma, Option.bind_some, append_assoc,
      append_assoc, run_append_of num hrun, run_append_of num hs',
      ih (fun y hy => hl y (by simp [hy])) (fun y hy => ht y (by simp [hy])) _ hends hafter,
      entries, append_assoc, singleton_append]

open Json.Tree in
/-- The text of a tree is read where a value is expected, and gives its value. -/
theorem run_text {t : Tree} (h : t.Valid) (fs : List (Frame α)) {m : Mode α} (hm : Expects m) :
    ∃ s, run num ⟨fs, m⟩ t.text = some s ∧ Ends num s (deliver fs (t.value num)) := by
  induction h generalizing fs m with
  | null => exact ⟨_, by rcases hm with rfl | rfl <;> rfl, ends_deliver num fs .null⟩
  | bool b =>
    cases b
    · exact ⟨_, by rcases hm with rfl | rfl <;> rfl, ends_deliver num fs _⟩
    · exact ⟨_, by rcases hm with rfl | rfl <;> rfl, ends_deliver num fs _⟩
  | @number lexeme hlexeme =>
    cases lexeme with
    | nil => exact hlexeme.elim
    | cons c cs =>
      obtain ⟨q, hq, hcomplete⟩ := hlexeme
      obtain ⟨p, hp, hq⟩ := Option.bind_eq_some_iff.mp hq
      obtain ⟨hblank, hne, hstart⟩ := startValue_number fs hp
      refine ⟨_, ?_, ends_number num fs hcomplete (c :: cs)⟩
      rw [text, run_cons, feed_expects num hm fs hblank hne, hstart, Option.bind_some,
        run_lexeme num fs [c] hq, singleton_append]
  | @string body hbody =>
    refine ⟨_, ?_, ends_deliver num fs _⟩
    have hquote : feed num ⟨fs, m⟩ '"' = some ⟨fs, .string false [] .plain⟩ :=
      feed_expects num hm fs rfl (by decide)
    rw [text, cons_append, run_cons, hquote, Option.bind_some, run_string num fs false hbody]
    cases fs with
    | nil => rfl
    | cons f fs => cases f <;> rfl
  | @node kind blank children hb hl ht ih =>
    have hopen : feed num ⟨fs, m⟩ kind.opening = some ⟨kind.frame [] :: fs, kind.first⟩ := by
      rw [feed_expects num hm fs (by cases kind <;> rfl) (by cases kind <;> decide)]
      cases kind <;> rfl
    have hrests : (⟨kind.frame [] :: fs, kind.first⟩ : State α).Rests := by cases kind <;> trivial
    refine ⟨_, ?_, ends_deliver num fs _⟩
    rw [text, cons_append, run_cons, hopen, Option.bind_some,
      run_append_of num (run_blank num hrests hb)]
    cases children with
    | nil => cases kind <;> rfl
    | cons x rest =>
      obtain ⟨label, t, after⟩ := x
      obtain ⟨hlabel, hafter⟩ := hl (label, t, after) (by simp)
      obtain ⟨m', hm', hrun⟩ := run_label num hlabel [] fs (m := kind.first) (.inl rfl)
      obtain ⟨s', hs', hends⟩ :=
        ih (label, t, after) (by simp) (kind.waiting [] (label.name kind) :: fs) hm'
      rw [Kind.deliver_waiting] at hends
      rw [childrenText, append_assoc, append_assoc, run_append_of num hrun,
        run_append_of num hs', run_moreText num rest (fun y hy => hl y (by simp [hy]))
          (fun y hy fs m hm => ih y (by simp [hy]) fs hm) _ fs hends hafter]
      rfl

/-- A blank behind a value changes nothing. -/
theorem Ends.run_blank {s d : State α} (h : Ends num s d) (hd : d.Rests) {w : List Char}
    (hw : Blank w) : ∃ s', State.run num s w = some s' ∧ Ends num s' d := by
  have hself : Ends num d d := by
    refine ⟨?_, fun c _ => feed_of_rests num hd c⟩
    obtain ⟨fs, m⟩ := d
    cases m with
    | string | number | literal => exact hd.elim
    | _ => rfl
  cases w with
  | nil => exact ⟨s, rfl, h⟩
  | cons b w =>
    refine ⟨d, ?_, hself⟩
    have hb : isEnd b = true := by simp [isEnd, hw b (by simp)]
    rw [run_cons, h.next b hb, between_blank d (hw b (by simp)), Option.bind_some]
    exact State.run_blank num hd fun x hx => hw x (by simp [hx])

end State

/-- The reader accepts every text of the grammar, with the value that it spells. -/
theorem parse_text (num : List Char → α) {t : Tree} (h : t.Valid) {lead trail : List Char}
    (hlead : Blank lead) (htrail : Blank trail) :
    parse num (lead ++ t.text ++ trail) = some (t.value num) := by
  obtain ⟨s, hs, hends⟩ : ∃ s, State.run num .start t.text = some s ∧
      State.Ends num s (State.deliver [] (t.value num)) :=
    State.run_text num h [] (.inl rfl)
  have hrests : (State.start : State α).Rests := trivial
  obtain ⟨s', hs', hdone⟩ := hends.run_blank num (State.rests_deliver [] _) htrail
  have hrun : State.run num .start (lead ++ t.text ++ trail) = some s' := by
    rw [append_assoc, State.run_append_of num (State.run_blank num hrests hlead),
      State.run_append_of num hs, hs']
  rw [parse, hrun, Option.bind_some, State.finish, hdone.settled]
  rfl

end Llama.Json
