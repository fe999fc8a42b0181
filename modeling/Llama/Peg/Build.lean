import Llama.Peg.Sound

/-!
# Building an arena

A builder adds parsers one after another and hands out their indices. A rule may be named
before its parser is built; `build` replaces every such reference by the rule's own index.
-/

namespace Llama.Peg

open List

open Loop (bind_ok)

/-- The parsers that a parser holds by their index. -/
def Parser.children : Parser → List Nat
  | .sequence children | .choice children => children
  | .repetition child _ _ | .lookahead child | .negate child | .schema child _ _ _
  | .rule _ child _ | .atomic child | .tag child _ => [child]
  | _ => []

/-- The value is an `int`. -/
def isInt32 (n : Int) : Bool := -2 ^ 31 ≤ n && n < 2 ^ 31

/-- The counts and the code points of a parser are values of their C types. -/
def Parser.typed : Parser → Bool
  | .repetition _ minCount maxCount => isInt32 minCount && isInt32 maxCount
  | .chars _ ranges _ minCount maxCount =>
    isInt32 minCount && isInt32 maxCount && ranges.all fun r => r.start < 2 ^ 32 && r.stop < 2 ^ 32
  | _ => true

/-- The characters of a rule name. -/
def isNameChar (c : Char) : Bool :=
  ('a' ≤ c && c ≤ 'z') || ('A' ≤ c && c ≤ 'Z') || ('0' ≤ c && c ≤ '9') || c = '-'

/-- Every run of other characters becomes a dash; the flag says that one is on. -/
def cleanName : Bool → List Char → List Char
  | _, [] => []
  | run, c :: cs =>
    if isNameChar c then c :: cleanName false cs
    else if run then cleanName true cs
    else '-' :: cleanName true cs

def ruleName (name : String) : String := String.ofList (cleanName false name.toList)

namespace Arena

variable (a : Arena)

def addParser (p : Parser) : Arena := { a with parsers := a.parsers ++ [p] }

def addRule (name : String) (id : Nat) : Arena :=
  { a with rules := (name, id) :: a.rules.filter fun r => r.1 ≠ name }

/-- The loop of `sequence` and of `choice`: a parser of the same kind gives its children. -/
def flatten (inner : Parser → Option (List Nat)) : List Nat → Option (List Nat)
  | [] => some []
  | id :: rest => do
    let p ← a.parsers[id]?
    let others ← flatten inner rest
    some ((inner p).getD [id] ++ others)

end Arena

/-- The calls on a builder. Every parser without flattening is an `add`; a rule that is built
by a function is opened before the function runs and closed behind it. -/
inductive BuildStep where
  | add (p : Parser)
  | sequence (ids : List Nat)
  | choice (ids : List Nat)
  | rule (name : String) (child : Nat) (trigger : Bool)
  | openRule (name : String) (trigger : Bool)
  | closeRule (name : String) (child : Nat) (trigger : Bool)
  | setRoot (id : Nat)

def Parser.sequenceChildren : Parser → Option (List Nat)
  | .sequence children => some children
  | _ => none

def Parser.choiceChildren : Parser → Option (List Nat)
  | .choice children => some children
  | _ => none

namespace Arena

/-- A rule with its parser, and a reference to it. -/
def addRuleParser (a : Arena) (name : String) (child : Nat) (trigger : Bool) : Arena :=
  ((a.addParser (.rule name child trigger)).addRule name a.parsers.length).addParser (.ref name)

/-- One call. The indices that are passed are those of the builder's own parsers. -/
def buildStep (a : Arena) : BuildStep → Option Arena
  | .add p =>
    if p.typed = true ∧ ∀ c ∈ p.children, c < a.parsers.length then some (a.addParser p) else none
  | .sequence ids => (a.flatten Parser.sequenceChildren ids).map fun cs =>
    a.addParser (.sequence cs)
  | .choice ids => (a.flatten Parser.choiceChildren ids).map fun cs => a.addParser (.choice cs)
  | .rule name child trigger =>
    if child < a.parsers.length then some (a.addRuleParser (ruleName name) child trigger) else none
  | .openRule name trigger =>
    if (a.rules.lookup (ruleName name)).isSome then some (a.addParser (.ref (ruleName name)))
    else
      -- the placeholder that the rule's own references use meanwhile
      some (((a.addParser .any).addParser (.rule (ruleName name) a.parsers.length trigger)).addRule
        (ruleName name) (a.parsers.length + 1))
  | .closeRule name child trigger =>
    if child < a.parsers.length then some (a.addRuleParser (ruleName name) child trigger) else none
  | .setRoot id => if id < a.parsers.length then some { a with root := some id } else none

/-- The calls one after another, in a vector of at most 2^63 parsers. -/
def buildSteps : Arena → List BuildStep → Option Arena
  | a, [] => some a
  | a, s :: rest => do
    let b ← a.buildStep s
    if b.parsers.length < 2 ^ 63 then b.buildSteps rest else none

def resolveRef (a : Arena) (id : Nat) : Except Error Nat :=
  match a.parsers[id]? with
  | none => .error (.outOfRange id)
  | some (.ref name) => a.getRule name
  | some _ => .ok id

/-- `resolve_ref` on every child of a list. -/
def resolveAll (a : Arena) : List Nat → Except Error (List Nat)
  | [] => .ok []
  | id :: rest => do
    let id ← a.resolveRef id
    let rest ← a.resolveAll rest
    .ok (id :: rest)

/-- The turn of `resolve_refs` for one parser. Which parsers are references does not change
in the loop. -/
def resolve (a : Arena) : Parser → Except Error Parser
  | .sequence children => do .ok (.sequence (← a.resolveAll children))
  | .choice children => do .ok (.choice (← a.resolveAll children))
  | .repetition child minCount maxCount => do
    .ok (.repetition (← a.resolveRef child) minCount maxCount)
  | .lookahead child => do .ok (.lookahead (← a.resolveRef child))
  | .negate child => do .ok (.negate (← a.resolveRef child))
  | .tag child tag => do .ok (.tag (← a.resolveRef child) tag)
  | .atomic child => do .ok (.atomic (← a.resolveRef child))
  | .rule name child trigger => do .ok (.rule name (← a.resolveRef child) trigger)
  | .schema child name schema raw => do .ok (.schema (← a.resolveRef child) name schema raw)
  | p => .ok p

/-- The loop of `resolve_refs`. -/
def resolveParsers (a : Arena) : List Parser → Except Error (List Parser)
  | [] => .ok []
  | p :: rest => do
    let p ← a.resolve p
    let rest ← a.resolveParsers rest
    .ok (p :: rest)

def resolveRefs (a : Arena) : Except Error Arena := do
  let parsers ← a.resolveParsers a.parsers
  match a.root with
  | none => .ok { a with parsers := parsers }
  | some id =>
    let root ← a.resolveRef id
    .ok { a with parsers := parsers, root := some root }

end Arena

/-- `common_peg_parser_builder::build` after some calls on the builder. -/
def Built (a : Arena) : Prop :=
  ∃ steps b, Arena.buildSteps ⟨[], [], none⟩ steps = some b ∧ b.resolveRefs = .ok a

/-- Every index is that of a parser, and every field a value of its C type. -/
structure Arena.Sized (a : Arena) : Prop where
  length : a.parsers.length < 2 ^ 63
  parsers : ∀ p ∈ a.parsers, p.typed = true ∧ ∀ c ∈ p.children, c < a.parsers.length
  rules : ∀ r ∈ a.rules, r.2 < a.parsers.length
  root : ∀ id, a.root = some id → id < a.parsers.length

namespace Arena

variable {a b : Arena}

private theorem Sized.addParser (h : a.Sized) {p : Parser} (hp : p.typed = true)
    (hc : ∀ c ∈ p.children, c < a.parsers.length) (hl : a.parsers.length + 1 < 2 ^ 63) :
    (a.addParser p).Sized := by
  have hlen : (a.addParser p).parsers.length = a.parsers.length + 1 := by simp [Arena.addParser]
  refine ⟨by rw [hlen]; exact hl, fun q hq => ?_, fun r hr => ?_, fun id hid => ?_⟩
  · rw [hlen]
    rcases mem_append.mp hq with hq | hq
    · exact ⟨(h.parsers q hq).1, fun c hcq => Nat.lt_succ_of_lt ((h.parsers q hq).2 c hcq)⟩
    · rw [mem_singleton.mp hq]
      exact ⟨hp, fun c hcq => Nat.lt_succ_of_lt (hc c hcq)⟩
  · rw [hlen]
    exact Nat.lt_succ_of_lt (h.rules r hr)
  · rw [hlen]
    exact Nat.lt_succ_of_lt (h.root id hid)

theorem Sized.addRule (h : a.Sized) {name : String} {id : Nat} (hid : id < a.parsers.length) :
    (a.addRule name id).Sized := by
  refine ⟨h.length, h.parsers, fun r hr => ?_, h.root⟩
  rcases mem_cons.mp hr with rfl | hr
  · exact hid
  · exact h.rules r (mem_filter.mp hr).1

private theorem flatten_lt (h : a.Sized) {inner : Parser → Option (List Nat)}
    (hinner : ∀ p cs, inner p = some cs → cs = p.children) {ids cs : List Nat}
    (hf : a.flatten inner ids = some cs) : ∀ c ∈ cs, c < a.parsers.length := by
  induction ids generalizing cs with
  | nil =>
    cases hf
    intro c hc
    cases hc
  | cons id rest ih =>
    rw [flatten] at hf
    obtain ⟨p, hp, hf⟩ := Option.bind_eq_some_iff.mp hf
    obtain ⟨others, hothers, hf⟩ := Option.bind_eq_some_iff.mp hf
    cases hf
    intro c hc
    rcases mem_append.mp hc with hc | hc
    · cases hi : inner p with
      | none =>
        rw [hi, Option.getD_none, mem_singleton] at hc
        rw [hc]
        exact (List.getElem?_eq_some_iff.mp hp).1
      | some children =>
        rw [hi, Option.getD_some, hinner p children hi] at hc
        exact (h.parsers p (mem_of_getElem? hp)).2 c hc
    · exact ih hothers c hc

private theorem Sized.addRuleParser (h : a.Sized) {name : String} {child : Nat} {trigger : Bool}
    (hc : child < a.parsers.length) (hl : a.parsers.length + 2 < 2 ^ 63) :
    (a.addRuleParser name child trigger).Sized := by
  have hrule :=
    h.addParser (p := .rule name child trigger) rfl (by simpa [Parser.children] using hc)
    (by omega)
  have hnamed : ((a.addParser (.rule name child trigger)).addRule name a.parsers.length).Sized :=
    hrule.addRule (by simp [Arena.addParser])
  refine hnamed.addParser rfl (by simp [Parser.children]) ?_
  simpa [Arena.addRule, Arena.addParser] using hl

private theorem Sized.buildStep (h : a.Sized) {s : BuildStep} (hs : a.buildStep s = some b)
    (hl : b.parsers.length < 2 ^ 63) : b.Sized := by
  cases s with
  | add p =>
    simp only [Arena.buildStep] at hs
    split at hs
    · rename_i hp
      cases hs
      exact h.addParser hp.1 hp.2 (by simpa [Arena.addParser] using hl)
    · cases hs
  | sequence ids =>
    obtain ⟨cs, hcs, rfl⟩ := Option.map_eq_some_iff.mp hs
    refine h.addParser rfl (flatten_lt h ?_ hcs) (by simpa [Arena.addParser] using hl)
    intro p cs hp
    cases p <;> cases hp
    rfl
  | choice ids =>
    obtain ⟨cs, hcs, rfl⟩ := Option.map_eq_some_iff.mp hs
    refine h.addParser rfl (flatten_lt h ?_ hcs) (by simpa [Arena.addParser] using hl)
    intro p cs hp
    cases p <;> cases hp
    rfl
  | rule name child trigger | closeRule name child trigger =>
    simp only [Arena.buildStep] at hs
    split at hs
    · rename_i hc
      cases hs
      refine h.addRuleParser hc ?_
      simpa [Arena.addRuleParser, Arena.addRule, Arena.addParser] using hl
    · cases hs
  | openRule name trigger =>
    simp only [Arena.buildStep] at hs
    split at hs
    · cases hs
      exact h.addParser rfl (by simp [Parser.children]) (by simpa [Arena.addParser] using hl)
    · cases hs
      have hlen : a.parsers.length + 2 < 2 ^ 63 := by
        simpa [Arena.addRule, Arena.addParser] using hl
      have hany := h.addParser (p := .any) rfl (by simp [Parser.children]) (by omega)
      have hrule := hany.addParser (p := .rule (ruleName name) a.parsers.length trigger) rfl
        (by simp [Parser.children, Arena.addParser]) (by simpa [Arena.addParser] using hlen)
      exact hrule.addRule (by simp [Arena.addParser])
  | setRoot id =>
    simp only [Arena.buildStep] at hs
    split at hs
    · rename_i hid
      cases hs
      refine ⟨h.length, h.parsers, h.rules, fun i hi => ?_⟩
      cases hi
      exact hid
    · cases hs

private theorem Sized.buildSteps (h : a.Sized) {steps : List BuildStep}
    (hs : a.buildSteps steps = some b) : b.Sized := by
  induction steps generalizing a with
  | nil =>
    cases hs
    exact h
  | cons s rest ih =>
    rw [Arena.buildSteps] at hs
    obtain ⟨c, hc, hs⟩ := Option.bind_eq_some_iff.mp hs
    split at hs
    · rename_i hl
      exact ih (h.buildStep hc hl) hs
    · cases hs

private theorem resolveRef_lt (h : a.Sized) {id target : Nat} (hr : a.resolveRef id = .ok target) :
    target < a.parsers.length := by
  unfold resolveRef at hr
  split at hr
  · cases hr
  · rename_i name hp
    unfold getRule at hr
    split at hr
    · rename_i found hfound
      cases hr
      obtain ⟨l₁, l₂, hrules, -⟩ := lookup_eq_some_iff.mp hfound
      exact h.rules (name, target) (by rw [hrules]; simp)
    · cases hr
  · rename_i hp
    cases hr
    exact (List.getElem?_eq_some_iff.mp hp).1

private theorem resolveAll_lt (h : a.Sized) {ids targets : List Nat}
    (hr : a.resolveAll ids = .ok targets) : ∀ c ∈ targets, c < a.parsers.length := by
  induction ids generalizing targets with
  | nil =>
    cases hr
    intro c hc
    cases hc
  | cons id rest ih =>
    rw [resolveAll] at hr
    obtain ⟨target, htarget, hr⟩ := bind_ok.mp hr
    obtain ⟨others, hothers, hr⟩ := bind_ok.mp hr
    cases hr
    intro c hc
    rcases mem_cons.mp hc with rfl | hc
    · exact resolveRef_lt h htarget
    · exact ih hothers c hc

private theorem resolve_sized (h : a.Sized) {p q : Parser} (hp : p.typed = true)
    (hr : a.resolve p = .ok q) : q.typed = true ∧ ∀ c ∈ q.children, c < a.parsers.length := by
  cases p with
  | sequence children | choice children =>
    obtain ⟨targets, htargets, hr⟩ := bind_ok.mp hr
    cases hr
    exact ⟨rfl, resolveAll_lt h htargets⟩
  | repetition child minCount maxCount =>
    obtain ⟨target, htarget, hr⟩ := bind_ok.mp hr
    cases hr
    exact ⟨hp, by simpa [Parser.children] using resolveRef_lt h htarget⟩
  | lookahead child | negate child | tag child tag | atomic child | rule name child trigger
  | schema child name s raw =>
    obtain ⟨target, htarget, hr⟩ := bind_ok.mp hr
    cases hr
    exact ⟨rfl, by simpa [Parser.children] using resolveRef_lt h htarget⟩
  | chars pattern ranges negated minCount maxCount =>
    cases hr
    exact ⟨hp, by simp [Parser.children]⟩
  | _ =>
    cases hr
    exact ⟨rfl, by simp [Parser.children]⟩

private theorem resolveParsers_sized (h : a.Sized) {ps qs : List Parser}
    (hp : ∀ p ∈ ps, p.typed = true) (hr : a.resolveParsers ps = .ok qs) :
    qs.length = ps.length ∧ ∀ q ∈ qs, q.typed = true ∧ ∀ c ∈ q.children, c < a.parsers.length := by
  induction ps generalizing qs with
  | nil =>
    cases hr
    exact ⟨rfl, fun q hq => by cases hq⟩
  | cons p rest ih =>
    rw [resolveParsers] at hr
    obtain ⟨q, hq, hr⟩ := bind_ok.mp hr
    obtain ⟨others, hothers, hr⟩ := bind_ok.mp hr
    cases hr
    obtain ⟨hlen, hrest⟩ := ih (fun p hp' => hp p (by simp [hp'])) hothers
    refine ⟨by rw [length_cons, length_cons, hlen], fun x hx => ?_⟩
    rcases mem_cons.mp hx with rfl | hx
    · exact resolve_sized h (hp p (by simp)) hq
    · exact hrest x hx

private theorem Sized.resolveRefs (h : a.Sized) (hr : a.resolveRefs = .ok b) : b.Sized := by
  obtain ⟨parsers, hparsers, hr⟩ := bind_ok.mp hr
  obtain ⟨hlen, hsized⟩ := resolveParsers_sized h (fun p hp => (h.parsers p hp).1) hparsers
  rw [← hlen] at hsized
  have hrules : ∀ r ∈ a.rules, r.2 < parsers.length := fun r hrule => hlen ▸ h.rules r hrule
  have hlength : parsers.length < 2 ^ 63 := hlen ▸ h.length
  split at hr
  · rename_i hroot
    cases hr
    exact ⟨hlength, hsized, hrules, fun id hid => by rw [hroot] at hid; cases hid⟩
  · rename_i id hroot
    obtain ⟨target, htarget, hr⟩ := bind_ok.mp hr
    cases hr
    refine ⟨hlength, hsized, hrules, fun i hi => ?_⟩
    cases hi
    exact hlen ▸ resolveRef_lt h htarget

end Arena

theorem Built.sized {a : Arena} (h : Built a) : a.Sized := by
  obtain ⟨steps, b, hb, ha⟩ := h
  have hempty : Arena.Sized ⟨[], [], none⟩ := by
    refine ⟨by simp, fun p hp => ?_, fun r hr => ?_, fun id hid => ?_⟩
    · cases hp
    · cases hr
    · cases hid
  exact (hempty.buildSteps hb).resolveRefs ha

end Llama.Peg
