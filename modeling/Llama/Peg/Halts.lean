import Llama.Peg.Sound
import Mathlib.Data.Set.Card

/-!
# When a parse returns

A parse in an arena whose references resolve and that has no left recursion returns, at a
depth that is linear in the input. A parser that succeeds without consuming anything is
nullable, so a call at the position of its caller is a left call, and there are at most as
many of those in a row as there are parsers.
-/

namespace Llama.Peg

open List

open Loop (bind_ok)

/-- A success that consumes nothing is possible for the parser `id`. -/
inductive Arena.Nullable (a : Arena) : Nat → Prop where
  | epsilon {id} : a.parsers[id]? = some .epsilon → Nullable a id
  | start {id} : a.parsers[id]? = some .start → Nullable a id
  | stop {id} : a.parsers[id]? = some .stop → Nullable a id
  | literal {id} : a.parsers[id]? = some (.literal []) → Nullable a id
  | sequence {id children} : a.parsers[id]? = some (.sequence children) →
      (∀ c ∈ children, Nullable a c) → Nullable a id
  | choice {id children c} : a.parsers[id]? = some (.choice children) → c ∈ children →
      Nullable a c → Nullable a id
  | repetition {id child minCount maxCount} :
      a.parsers[id]? = some (.repetition child minCount maxCount) → minCount ≤ 0 → Nullable a id
  | lookahead {id child} : a.parsers[id]? = some (.lookahead child) → Nullable a id
  | negate {id child} : a.parsers[id]? = some (.negate child) → Nullable a id
  | space {id} : a.parsers[id]? = some .space → Nullable a id
  | chars {id pattern ranges negated minCount maxCount} :
      a.parsers[id]? = some (.chars pattern ranges negated minCount maxCount) → minCount ≤ 0 →
      Nullable a id
  | string {id delimiter} : a.parsers[id]? = some (.string delimiter) → Nullable a id
  | untilOneOf {id delimiters} : a.parsers[id]? = some (.untilOneOf delimiters) → Nullable a id
  | schema {id child name s raw} : a.parsers[id]? = some (.schema child name s raw) →
      Nullable a child → Nullable a id
  | rule {id name child trigger} : a.parsers[id]? = some (.rule name child trigger) →
      Nullable a child → Nullable a id
  | ref {id name target} : a.parsers[id]? = some (.ref name) →
      a.rules.lookup name = some target → Nullable a target → Nullable a id
  | atomic {id child} : a.parsers[id]? = some (.atomic child) → Nullable a child → Nullable a id
  | tag {id child tag} : a.parsers[id]? = some (.tag child tag) → Nullable a child → Nullable a id

/-- The parsers that `p` may call. -/
def Arena.callees (a : Arena) : Parser → List Nat
  | .sequence children | .choice children => children
  | .repetition child _ _ | .lookahead child | .negate child | .schema child _ _ _
  | .rule _ child _ | .atomic child | .tag child _ => [child]
  | .ref name => (a.rules.lookup name).toList
  | _ => []

/-- The parser `id` may call `target`. -/
def Arena.Calls (a : Arena) (id target : Nat) : Prop :=
  ∃ p, a.parsers[id]? = some p ∧ target ∈ a.callees p

/-- The parser `id` may call `target` before it has consumed anything. -/
def Arena.LeftCalls (a : Arena) (id target : Nat) : Prop :=
  (∃ before after, a.parsers[id]? = some (.sequence (before ++ target :: after)) ∧
    ∀ c ∈ before, a.Nullable c) ∨
  ∃ p, a.parsers[id]? = some p ∧ (∀ children, p ≠ .sequence children) ∧ target ∈ a.callees p

/-- The parsers that a run may come to. -/
def Arena.Reachable (a : Arena) (id : Nat) : Prop :=
  ∃ root, a.root = some root ∧ Relation.ReflTransGen a.Calls root id

/-- What the builder ensures and what the parser needs: every index and every rule name
that a run comes to is defined, and no parser comes back to itself at the same position. -/
structure Arena.WellFormed (a : Arena) : Prop where
  defined : ∀ id, a.Reachable id → ∃ p, a.parsers[id]? = some p ∧
    ∀ name, p = .ref name → ∃ target, a.rules.lookup name = some target
  noLeftRecursion : ∀ id, a.Reachable id → ¬ Relation.TransGen a.LeftCalls id id

namespace Arena

variable {a : Arena} {ctx : Context} {call : Nat → Nat → Except Error Result} {start : Nat}

/-- A success of `call` that consumes nothing is one of a nullable parser. -/
def CallNullable (a : Arena) (ctx : Context) (call : Nat → Nat → Except Error Result) : Prop :=
  ∀ id pos r, pos ≤ ctx.input.length → call id pos = .ok r → r.type = .success → r.stop = pos →
    a.Nullable id

variable {pos count child id target : Nat} {nodes : List AstNode} {r : Result}
  {minCount maxCount : Int} {p : Parser}

private theorem sequence_nullable (hs : Context.CallSound ctx call) (hc : a.CallNullable ctx call)
    (children : List Nat) (hp : pos ≤ ctx.input.length)
    (hr : Context.sequence call start children pos nodes = .ok r) (ht : r.type = .success)
    (he : r.stop = pos) : ∀ c ∈ children, a.Nullable c := by
  induction children generalizing pos nodes with
  | nil => simp
  | cons child rest ih =>
    rw [Context.sequence, bind_ok] at hr
    obtain ⟨rc, hcall, hr⟩ := hr
    split at hr
    next =>
      cases hr
      cases ht
    next =>
      cases hr
      cases ht
    next hn =>
      -- the rest only moves forward, so the first child has consumed nothing
      obtain ⟨h1, h2⟩ := (hs child pos rc hp hcall).bounds hn
      have hle := ((Context.sequence_sound hs rest (Nat.le_refl _) h2 hr).bounds ht).1
      have hpos : rc.stop = pos := by omega
      intro c hmem
      cases mem_cons.mp hmem with
      | inl h => exact h ▸ hc child pos rc hp hcall hn hpos
      | inr h => exact ih h2 hr (by omega) c h

private theorem choice_nullable (hc : a.CallNullable ctx call) (children : List Nat)
    (hp : start ≤ ctx.input.length) (hr : Context.choice call start children = .ok r)
    (ht : r.type = .success) (he : r.stop = start) : ∃ c ∈ children, a.Nullable c := by
  induction children with
  | nil =>
    cases hr
    cases ht
  | cons child rest ih =>
    rw [Context.choice, bind_ok] at hr
    obtain ⟨rc, hcall, hr⟩ := hr
    split at hr
    next =>
      cases hr
      exact ⟨child, mem_cons_self, hc child start r hp hcall ht he⟩
    next =>
      obtain ⟨c, hmem, hn⟩ := ih hr
      exact ⟨c, mem_cons_of_mem _ hmem, hn⟩

private theorem repetitionEnd_success
    (h : (ctx.repetitionEnd minCount start pos count nodes).type = .success) :
    (ctx.repetitionEnd minCount start pos count nodes).stop = pos ∧
      (minCount ≤ 0 ∨ minCount ≤ count) := by
  unfold Context.repetitionEnd at h ⊢
  split at h
  next => split at h <;> cases h
  next hc =>
    rw [if_neg hc]
    exact ⟨rfl, by omega⟩

/-- A success of a repetition has matched often enough, each time a byte or more. -/
theorem repetition_count (hs : Context.CallSound ctx call) (n : Nat) (hp : pos ≤ ctx.input.length)
    (hr : ctx.repetition call child minCount maxCount start n pos count nodes = .ok r)
    (ht : r.type = .success) :
    pos ≤ r.stop ∧ (minCount ≤ 0 ∨ minCount ≤ count + (r.stop - pos : Nat)) := by
  have stays : ∀ {pos count : Nat} {nodes : List AstNode},
      Except.ok (ctx.repetitionEnd minCount start pos count nodes) = Except.ok (ε := Error) r →
      pos ≤ r.stop ∧ (minCount ≤ 0 ∨ minCount ≤ count + (r.stop - pos : Nat)) := by
    intro pos count nodes h
    cases h
    obtain ⟨h1, h2⟩ := repetitionEnd_success ht
    omega
  induction n generalizing pos count nodes with
  | zero => cases hr
  | succ n ih =>
    unfold Context.repetition at hr
    split at hr
    next =>
      split at hr
      next => exact stays hr
      next =>
        obtain ⟨rc, hcall, hr⟩ := bind_ok.mp hr
        split at hr
        next hn =>
          split at hr
          next => exact stays hr
          next hne =>
            obtain ⟨h1, h2⟩ := (hs child pos rc hp hcall).bounds hn
            obtain ⟨h3, h4⟩ := ih h2 hr
            push_cast at h4
            omega
        next =>
          cases hr
          cases ht
        next => exact stays hr
    next => exact stays hr

private theorem exec_nullable (hs : Context.CallSound ctx call) (hc : a.CallNullable ctx call)
    (hp : start ≤ ctx.input.length) (hid : a.parsers[id]? = some p)
    (hr : a.exec ctx call start p = .ok r) (ht : r.type = .success) (he : r.stop = start) :
    a.Nullable id := by
  cases p with
  | epsilon => exact .epsilon hid
  | start => exact .start hid
  | stop => exact .stop hid
  | literal text =>
    cases hr
    rw [Context.literal_stop text ht] at he
    obtain rfl : text = [] := length_eq_zero_iff.mp (by omega)
    exact .literal hid
  | sequence children => exact .sequence hid (sequence_nullable hs hc children hp hr ht he)
  | choice children =>
    obtain ⟨c, hmem, hn⟩ := choice_nullable hc children hp hr ht he
    exact .choice hid hmem hn
  | repetition child minCount maxCount =>
    obtain ⟨_, h⟩ := repetition_count hs _ hp hr ht
    exact .repetition hid (by omega)
  | lookahead child => exact .lookahead hid
  | negate child => exact .negate hid
  | any =>
    cases hr
    have := Context.any_stop ht
    omega
  | space => exact .space hid
  | chars pattern ranges negated minCount maxCount =>
    obtain ⟨_, h⟩ := Context.charsFrom_count _ (Except.ok.inj hr) ht
    exact .chars hid (by omega)
  | string delimiter => exact .string hid
  | untilOneOf delimiters => exact .untilOneOf hid
  | schema child name s raw => exact .schema hid (hc child start r hp hr ht he)
  | rule name child trigger =>
    obtain ⟨rc, hcall, hr⟩ := bind_ok.mp hr
    cases hr
    rw [Context.wrap_type] at ht
    rw [Context.wrap_stop] at he
    exact .rule hid (hc child start rc hp hcall ht he)
  | ref name =>
    obtain ⟨target, hget, hr⟩ := bind_ok.mp hr
    unfold getRule at hget
    split at hget
    next hl =>
      cases hget
      exact .ref hid hl (hc target start r hp hr ht he)
    next => cases hget
  | atomic child =>
    obtain ⟨rc, hcall, hr⟩ := bind_ok.mp hr
    cases hr
    split at ht
    next hn => exact absurd (hn.symm.trans ht) (by simp)
    next hn =>
      rw [if_neg hn] at he
      exact .atomic hid (hc child start rc hp hcall ht he)
  | tag child tag =>
    obtain ⟨rc, hcall, hr⟩ := bind_ok.mp hr
    cases hr
    rw [Context.wrap_type] at ht
    rw [Context.wrap_stop] at he
    exact .tag hid (hc child start rc hp hcall ht he)

private theorem parse_nullable (depth : Nat) : a.CallNullable ctx (a.parse ctx depth) := by
  induction depth with
  | zero =>
    intro id pos r _ hr
    cases hr
  | succ depth ih =>
    intro id pos r hp hr ht he
    rw [parse] at hr
    split at hr
    next => cases hr
    next p hid => exact exec_nullable (parse_sound depth) ih hp hid hr ht he

/-- The calls that the parser `id` may make at `start` return: those of its callees
further on, and of its left callees at `start` itself. -/
def Ready (a : Arena) (ctx : Context) (call : Nat → Nat → Except Error Result) (id start : Nat) :
    Prop :=
  ∀ target pos, pos ≤ ctx.input.length →
    (start < pos ∧ a.Calls id target ∨ pos = start ∧ a.LeftCalls id target) →
    ∃ r, call target pos = .ok r

private theorem sequence_returns (hs : Context.CallSound ctx call) (hn : a.CallNullable ctx call)
    (hc : a.Ready ctx call id start) {children : List Nat}
    (hid : a.parsers[id]? = some (.sequence children)) (before rest : List Nat)
    (hsplit : before ++ rest = children) (hp : pos ≤ ctx.input.length)
    (hpos : start < pos ∨ pos = start ∧ ∀ c ∈ before, a.Nullable c) :
    ∃ r, Context.sequence call start rest pos nodes = .ok r := by
  induction rest generalizing before pos nodes with
  | nil => exact ⟨_, rfl⟩
  | cons child rest ih =>
    have hcalls : a.Calls id child := ⟨_, hid, by simp [callees, ← hsplit]⟩
    have hready : start < pos ∧ a.Calls id child ∨ pos = start ∧ a.LeftCalls id child := by
      cases hpos with
      | inl h => exact .inl ⟨h, hcalls⟩
      | inr h => exact .inr ⟨h.1, .inl ⟨before, rest, by rw [hsplit]; exact hid, h.2⟩⟩
    obtain ⟨rc, hcall⟩ := hc child pos hp hready
    rw [Context.sequence, hcall]
    dsimp only [bind, Except.bind]
    cases ht : rc.type with
    | fail => exact ⟨_, rfl⟩
    | needMoreInput => exact ⟨_, rfl⟩
    | success =>
      obtain ⟨h1, h2⟩ := (hs child pos rc hp hcall).bounds ht
      apply ih (before ++ [child]) (by simpa using hsplit) h2
      by_cases hstop : start < rc.stop
      · exact .inl hstop
      · right
        obtain ⟨hpeq, hbefore⟩ : pos = start ∧ ∀ c ∈ before, a.Nullable c := by
          cases hpos with
          | inl h => omega
          | inr h => exact h
        refine ⟨by omega, fun c hmem => ?_⟩
        cases mem_append.mp hmem with
        | inl h => exact hbefore c h
        | inr h =>
          rw [mem_singleton.mp h]
          exact hn child pos rc hp hcall ht (by omega)

private theorem choice_returns (children : List Nat)
    (hc : ∀ c ∈ children, ∃ r, call c start = .ok r) :
    ∃ r, Context.choice call start children = .ok r := by
  induction children with
  | nil => exact ⟨_, rfl⟩
  | cons child rest ih =>
    obtain ⟨rc, hcall⟩ := hc child mem_cons_self
    rw [Context.choice, hcall]
    dsimp only [bind, Except.bind]
    split
    next => exact ⟨_, rfl⟩
    next => exact ih fun c hmem => hc c (mem_cons_of_mem _ hmem)

private theorem repetition_returns (hs : Context.CallSound ctx call)
    (hc : ∀ pos, start ≤ pos → pos ≤ ctx.input.length → ∃ r, call child pos = .ok r) (n : Nat)
    (h : start ≤ pos) (hp : pos ≤ ctx.input.length) (hsteps : ctx.input.length - pos < n) :
    ∃ r, ctx.repetition call child minCount maxCount start n pos count nodes = .ok r := by
  induction n generalizing pos count nodes with
  | zero => omega
  | succ n ih =>
    unfold Context.repetition
    split
    next =>
      split
      next => exact ⟨_, rfl⟩
      next hl =>
        obtain ⟨rc, hcall⟩ := hc pos h hp
        rw [hcall]
        dsimp only [bind, Except.bind]
        cases ht : rc.type with
        | fail => exact ⟨_, rfl⟩
        | needMoreInput => exact ⟨_, rfl⟩
        | success =>
          obtain ⟨h1, h2⟩ := (hs child pos rc hp hcall).bounds ht
          dsimp only
          split
          next => exact ⟨_, rfl⟩
          next hne => exact ih (by omega) h2 (by omega)
    next => exact ⟨_, rfl⟩

private theorem exec_returns (hs : Context.CallSound ctx call) (hn : a.CallNullable ctx call)
    (hc : a.Ready ctx call id start) (hp : start ≤ ctx.input.length) (hid : a.parsers[id]? = some p)
    (href : ∀ name, p = .ref name → ∃ target, a.rules.lookup name = some target) :
    ∃ r, a.exec ctx call start p = .ok r := by
  -- a parser other than a sequence makes its first call at `start`
  have first : (∀ children, p ≠ .sequence children) → ∀ target ∈ a.callees p,
      ∃ r, call target start = .ok r := by
    intro hseq target hmem
    exact hc target start hp (.inr ⟨rfl, .inr ⟨p, hid, hseq, hmem⟩⟩)
  cases p with
  | sequence children =>
    exact sequence_returns hs hn hc hid [] children rfl hp (.inr ⟨rfl, by simp⟩)
  | choice children => exact choice_returns children (first (by simp))
  | repetition child minCount maxCount =>
    apply repetition_returns hs _ _ (Nat.le_refl _) hp (by omega)
    intro pos hle hpos
    by_cases hlt : start < pos
    · exact hc child pos hpos (.inl ⟨hlt, _, hid, by simp [callees]⟩)
    · obtain rfl : pos = start := by omega
      exact first (by simp) child (by simp [callees])
  | schema child name s raw => exact first (by simp) child (by simp [callees])
  | ref name =>
    obtain ⟨target, ht⟩ := href name rfl
    obtain ⟨r, hr⟩ := first (by simp) target (by simp [callees, ht])
    refine ⟨r, bind_ok.mpr ⟨target, ?_, hr⟩⟩
    rw [getRule, ht]
  | lookahead child | negate child | rule name child trigger | atomic child | tag child tag =>
    obtain ⟨rc, hcall⟩ := first (by simp) child (by simp [callees])
    exact ⟨_, bind_ok.mpr ⟨rc, hcall, rfl⟩⟩
  | _ => exact ⟨_, rfl⟩

theorem Reachable.step (h : a.Reachable id) (hc : a.Calls id target) : a.Reachable target := by
  obtain ⟨root, hroot, hpath⟩ := h
  exact ⟨root, hroot, hpath.tail hc⟩

theorem LeftCalls.calls (h : a.LeftCalls id target) : a.Calls id target := by
  obtain ⟨before, after, hid, _⟩ | ⟨p, hid, _, hmem⟩ := h
  · exact ⟨_, hid, by simp [callees]⟩
  · exact ⟨p, hid, hmem⟩

theorem Reachable.left (h : a.Reachable id) (hc : Relation.TransGen a.LeftCalls id target) :
    a.Reachable target := by
  induction hc with
  | single hc => exact h.step hc.calls
  | tail _ hc ih => exact ih.step hc.calls

/-- How many parsers `id` may come to without consuming anything. -/
noncomputable def rank (a : Arena) (id : Nat) : Nat :=
  Set.ncard {target | Relation.TransGen a.LeftCalls id target}

private theorem WellFormed.left_subset (h : a.WellFormed) {id : Nat} (hid : a.Reachable id) :
    {target | Relation.TransGen a.LeftCalls id target} ⊆ ↑(Finset.range a.parsers.length) := by
  intro target ht
  obtain ⟨p, hp, _⟩ := h.defined target (hid.left ht)
  simpa using (List.getElem?_eq_some_iff.mp hp).1

private theorem WellFormed.rank_le (h : a.WellFormed) (hid : a.Reachable id) :
    a.rank id ≤ a.parsers.length := by
  have hle := Set.ncard_le_ncard (h.left_subset hid) (Finset.finite_toSet _)
  rwa [Set.ncard_coe_finset, Finset.card_range] at hle

private theorem WellFormed.rank_lt (h : a.WellFormed) (hid : a.Reachable id)
    (hc : a.LeftCalls id target) :
    a.rank target < a.rank id := by
  apply Set.ncard_lt_ncard _ ((Finset.finite_toSet _).subset (h.left_subset hid))
  refine ⟨fun u hu => .head hc hu, fun hsub => ?_⟩
  exact h.noLeftRecursion target (hid.step hc.calls) (hsub (.single hc))

/-- A depth that suffices for the parser `id` at `start`. -/
noncomputable def depthFor (a : Arena) (ctx : Context) (id start : Nat) : Nat :=
  (ctx.input.length - start) * (a.parsers.length + 1) + a.rank id + 1

private theorem parse_returns_at (h : a.WellFormed) (depth : Nat) {id : Nat} (hid : a.Reachable id)
    (hp : start ≤ ctx.input.length) (hd : a.depthFor ctx id start ≤ depth) :
    ∃ r, a.parse ctx depth id start = .ok r := by
  induction depth generalizing id start with
  | zero => simp [depthFor] at hd
  | succ depth ih =>
    obtain ⟨p, hget, href⟩ := h.defined id hid
    rw [parse, hget]
    apply exec_returns (parse_sound depth) (parse_nullable depth) _ hp hget href
    intro target pos hpos hcase
    obtain ⟨hlt, hcalls⟩ | ⟨rfl, hleft⟩ := hcase
    · -- further on, any parser has a smaller bound
      have hr := hid.step hcalls
      apply ih hr hpos
      have hrank := h.rank_le hr
      have hmul : (ctx.input.length - pos + 1) * (a.parsers.length + 1) ≤
          (ctx.input.length - start) * (a.parsers.length + 1) :=
        Nat.mul_le_mul_right _ (by omega)
      rw [Nat.add_mul] at hmul
      unfold depthFor at hd ⊢
      omega
    · apply ih (hid.step hleft.calls) hp
      have hrank := h.rank_lt hid hleft
      unfold depthFor at hd ⊢
      omega

/-- In a well-formed arena every parse returns, at a depth linear in the input. -/
theorem parse_returns (h : a.WellFormed) (hid : a.Reachable id) (hp : start ≤ ctx.input.length)
    {depth : Nat} (hd : (ctx.input.length + 1) * (a.parsers.length + 1) ≤ depth) :
    ∃ r, a.parse ctx depth id start = .ok r := by
  apply parse_returns_at h depth hid hp
  have hrank := h.rank_le hid
  have hmul : (ctx.input.length - start) * (a.parsers.length + 1) ≤
      ctx.input.length * (a.parsers.length + 1) := Nat.mul_le_mul_right _ (by omega)
  rw [Nat.add_mul] at hd
  unfold depthFor
  omega

/-- An arena whose parsers only name earlier ones is well formed. -/
theorem wellFormed_of_descending {root : Nat} (hroot : a.root = some root)
    (hlt : root < a.parsers.length)
    (hdown : ∀ (id : Nat) (p : Parser), a.parsers[id]? = some p → ∀ c ∈ a.callees p, c < id)
    (href : ∀ (id : Nat) (name : String), a.parsers[id]? = some (Parser.ref name) →
      ∃ target, a.rules.lookup name = some target) : a.WellFormed := by
  have bound : ∀ id, a.Reachable id → id < a.parsers.length := by
    rintro id ⟨root', hroot', hpath⟩
    obtain rfl : root' = root := Option.some.inj (hroot'.symm.trans hroot)
    induction hpath with
    | refl => exact hlt
    | tail _ hcall ih =>
      obtain ⟨p, hget, hmem⟩ := hcall
      exact Nat.lt_trans (hdown _ p hget _ hmem) ih
  have down : ∀ id target, Relation.TransGen a.LeftCalls id target → target < id := by
    intro id target hpath
    induction hpath with
    | single hcall =>
      obtain ⟨p, hget, hmem⟩ := hcall.calls
      exact hdown _ p hget _ hmem
    | tail _ hcall ih =>
      obtain ⟨p, hget, hmem⟩ := hcall.calls
      exact Nat.lt_trans (hdown _ p hget _ hmem) ih
  refine ⟨fun id hid => ?_, fun id _ hpath => Nat.lt_irrefl id (down id id hpath)⟩
  refine ⟨_, getElem?_eq_getElem (bound id hid), fun name hname => ?_⟩
  exact href id name (hname ▸ getElem?_eq_getElem (bound id hid))

end Arena

end Llama.Peg
