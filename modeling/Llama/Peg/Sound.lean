import Llama.Lib.Loop
import Llama.Peg.Arena

/-!
# Results of one run

Three facts hold of every run, in every arena: a success ends between its start and the
end of the input, a strict run never asks for more input, and a greater depth gives the
same result.
-/

namespace Llama.Peg

open Loop (bind_ok)

/-- A result of a run at `start`: a success ends in the input and not before the start,
and only a lenient run asks for more. -/
structure Result.Sound (ctx : Context) (start : Nat) (r : Result) : Prop where
  bounds : r.type = .success → start ≤ r.stop ∧ r.stop ≤ ctx.input.length
  strict : ctx.lenient = false → r.type ≠ .needMoreInput

theorem Result.Sound.of_eq {ctx : Context} {start : Nat} {r r' : Result} (h : r.Sound ctx start)
    (ht : r'.type = r.type) (hs : r'.stop = r.stop) : r'.Sound ctx start :=
  ⟨fun h' => hs ▸ h.bounds (ht ▸ h'), fun hl => ht ▸ h.strict hl⟩

/-! ### Terminal parsers -/

namespace Context

variable {ctx : Context} {start : Nat}

private theorem atStart_sound {type : ResultType} (hs : start ≤ ctx.input.length)
    (ht : ctx.lenient = false → type ≠ .needMoreInput) :
    (Result.atStart type start).Sound ctx start :=
  ⟨fun _ => ⟨Nat.le_refl _, hs⟩, ht⟩

variable {lo pos count : Nat} {nodes : List AstNode} {minCount maxCount : Int}
  {ranges : List CharRange} {negated : Bool} {r : Result} {delimiter : UInt8}

private theorem fail_sound (pos : Nat) :
    Result.Sound ctx lo ⟨.fail, start, pos, []⟩ := ⟨by simp, by simp⟩

private theorem success_sound (h : lo ≤ pos) (hp : pos ≤ ctx.input.length) :
    Result.Sound ctx lo ⟨.success, start, pos, nodes⟩ :=
  ⟨fun _ => ⟨h, hp⟩, by simp⟩

private theorem exhausted_sound (pos : Nat) : (ctx.exhausted start pos).Sound ctx lo := by
  unfold exhausted
  cases h : ctx.lenient with
  | false => exact fail_sound start
  | true => exact ⟨by simp, by simp [h]⟩

private theorem lt_length_of_getElem? {b : UInt8} (h : ctx.input[pos]? = some b) :
    pos < ctx.input.length :=
  (List.getElem?_eq_some_iff.mp h).1

theorem parseUtf8_success {input : List UInt8} {cp n : Nat}
    (h : parseUtf8Codepoint input pos = .success cp n) : 1 ≤ n ∧ pos + n ≤ input.length := by
  have hb := decode_success h
  rw [List.length_drop] at hb
  omega

private theorem literal_sound (text : List UInt8) (h : start ≤ pos) (hp : pos ≤ ctx.input.length) :
    (ctx.literal start text pos).Sound ctx start := by
  induction text generalizing pos with
  | nil => exact success_sound h hp
  | cons b rest ih =>
    unfold literal
    split
    next => exact exhausted_sound pos
    next c hc =>
      split
      next => exact fail_sound start
      next => exact ih (by omega) (lt_length_of_getElem? hc)

/-- A literal that succeeds has consumed itself. -/
theorem literal_stop (text : List UInt8) (h : (ctx.literal start text pos).type = .success) :
    (ctx.literal start text pos).stop = pos + text.length := by
  induction text generalizing pos with
  | nil => rfl
  | cons b rest ih =>
    unfold literal at h ⊢
    cases hc : ctx.input[pos]? with
    | none =>
      rw [hc] at h
      simp only [exhausted] at h
      split at h <;> simp [Result.atStart] at h
    | some c =>
      simp only [hc] at h ⊢
      split
      next hne => simp [hne, Result.atStart] at h
      next heq =>
        rw [if_neg heq] at h
        rw [ih h, List.length_cons]
        omega

private theorem any_sound : (ctx.any start).Sound ctx start := by
  unfold any
  split
  next => exact exhausted_sound start
  next => exact fail_sound start
  next cp n hd =>
    obtain ⟨_, hn⟩ := parseUtf8_success hd
    exact success_sound (by omega) hn

theorem any_stop (h : (ctx.any start).type = .success) : start < (ctx.any start).stop := by
  unfold any at h ⊢
  split at h
  next =>
    simp only [exhausted] at h
    split at h <;> simp [Result.atStart] at h
  next => simp [Result.atStart] at h
  next cp n hd =>
    obtain ⟨hn, _⟩ := parseUtf8_success hd
    simp only
    omega

private theorem space_sound (h : start ≤ ctx.input.length) : (ctx.space start).Sound ctx start := by
  apply success_sound (Nat.le_add_right _ _)
  have hle := (List.takeWhile_sublist isSpace (l := ctx.input.drop start)).length_le
  rw [List.length_drop] at hle
  omega

private theorem charsEnd_sound (h : start ≤ pos) (hp : pos ≤ ctx.input.length) :
    (ctx.charsEnd minCount start pos count).Sound ctx start := by
  unfold charsEnd
  split
  next =>
    split
    next hl => exact ⟨by simp, by simp [hl.2]⟩
    next => exact fail_sound pos
  next => exact success_sound h hp

private theorem charsFrom_sound (n : Nat) (h : start ≤ pos) (hp : pos ≤ ctx.input.length) :
    (ctx.charsFrom ranges negated minCount maxCount start n pos count).Sound ctx start := by
  induction n generalizing pos count with
  | zero => exact charsEnd_sound h hp
  | succ n ih =>
    unfold charsFrom
    split
    next =>
      split
      next =>
        split
        next => exact success_sound h hp
        next => exact exhausted_sound pos
      next =>
        split
        next => exact success_sound h hp
        next => exact fail_sound start
      next cp k hd =>
        obtain ⟨_, hk⟩ := parseUtf8_success hd
        split
        next => exact ih (by omega) hk
        next => exact charsEnd_sound h hp
    next => exact charsEnd_sound h hp

/-- A success of `chars` has read enough characters, each of a byte or more. -/
theorem charsFrom_count (n : Nat)
    (hr : ctx.charsFrom ranges negated minCount maxCount start n pos count = r)
    (h : r.type = .success) : pos ≤ r.stop ∧ minCount ≤ count + (r.stop - pos : Nat) := by
  subst hr
  have stays : ∀ {pos count : Nat},
      (ctx.charsEnd minCount start pos count).type = .success →
      pos ≤ (ctx.charsEnd minCount start pos count).stop ∧
      minCount ≤ count + ((ctx.charsEnd minCount start pos count).stop - pos : Nat) := by
    intro pos count h
    unfold charsEnd at h ⊢
    split at h
    next => split at h <;> simp at h
    next hc => simp [hc]; omega
  induction n generalizing pos count with
  | zero => exact stays h
  | succ n ih =>
    unfold charsFrom at h ⊢
    split at h
    next hm =>
      rw [if_pos hm]
      split at h
      next =>
        split at h
        next hc => simp [hc]
        next => simp only [exhausted] at h; split at h <;> simp [Result.atStart] at h
      next =>
        split at h
        next hc => simp [hc]
        next => simp [Result.atStart] at h
      next cp k hd =>
        obtain ⟨hk, _⟩ := parseUtf8_success hd
        split at h
        next hin =>
          obtain ⟨h1, h2⟩ := ih h
          simp only [hin, if_true]
          constructor
          · omega
          · push_cast at h2
            omega
        next hin =>
          simp only [hin]
          exact stays h
    next hm =>
      rw [if_neg hm]
      exact stays h

private theorem hexDigits_sound (n : Nat) (h : lo ≤ pos) (hp : pos ≤ ctx.input.length) :
    (ctx.hexDigits start n pos).Sound ctx lo := by
  induction n generalizing pos with
  | zero => exact success_sound h hp
  | succ n ih =>
    unfold hexDigits
    split
    next => exact exhausted_sound pos
    next c hc =>
      split
      next => exact ih (by omega) (lt_length_of_getElem? hc)
      next => exact fail_sound start

theorem escapeSequence_sound (h : lo ≤ pos + 2) :
    (ctx.escapeSequence start pos delimiter).Sound ctx lo := by
  unfold escapeSequence
  split
  next => exact exhausted_sound _
  next c hc =>
    have hlt := lt_length_of_getElem? hc
    split
    next => exact success_sound (by omega) hlt
    next =>
      split
      next => exact hexDigits_sound 4 (by omega) hlt
      next => exact fail_sound start

private theorem unterminated_sound (pos : Nat) :
    Result.Sound ctx start
      (if ctx.lenient then ⟨.needMoreInput, start, pos, []⟩ else ⟨.fail, start, pos, []⟩) := by
  cases h : ctx.lenient with
  | false => exact fail_sound pos
  | true => exact ⟨by simp, by simp [h]⟩

private theorem stringFrom_sound (n : Nat) (h : start ≤ pos) :
    (ctx.stringFrom delimiter start n pos).Sound ctx start := by
  induction n generalizing pos with
  | zero => exact unterminated_sound pos
  | succ n ih =>
    unfold stringFrom
    split
    next => exact unterminated_sound pos
    next c hc =>
      split
      next => exact success_sound h (Nat.le_of_lt (lt_length_of_getElem? hc))
      next =>
        split
        next =>
          have he : (ctx.escapeSequence start pos delimiter).Sound ctx start :=
            escapeSequence_sound (by omega)
          dsimp only
          split
          next => exact he
          next hs => exact ih (he.bounds (not_not.mp hs)).1
        next =>
          split
          next => exact exhausted_sound pos
          next => exact fail_sound start
          next => exact ih (by omega)

private theorem untilEnd_sound (h : start ≤ pos) (hp : pos ≤ ctx.input.length) :
    (ctx.untilEnd start pos).Sound ctx start := by
  unfold untilEnd
  split
  next hl => exact ⟨by simp, by simp [hl.2]⟩
  next => exact success_sound h hp

private theorem untilFrom_sound {matcher : Trie} (n : Nat) (h : start ≤ pos)
    (hp : pos ≤ ctx.input.length) :
    (ctx.untilFrom matcher start n pos).Sound ctx start := by
  induction n generalizing pos with
  | zero => exact untilEnd_sound h hp
  | succ n ih =>
    unfold untilFrom
    split
    next =>
      split
      next => exact exhausted_sound pos
      next => exact fail_sound start
      next cp k hd =>
        obtain ⟨_, hk⟩ := parseUtf8_success hd
        split
        next => exact ih (by omega) hk
        next => exact success_sound h hp
    next => exact untilEnd_sound h hp

/-! ### Parsers with children -/

private theorem repetitionEnd_sound (h : start ≤ pos) (hp : pos ≤ ctx.input.length) :
    (ctx.repetitionEnd minCount start pos count nodes).Sound ctx start := by
  unfold repetitionEnd
  split
  next =>
    split
    next hl => exact ⟨by simp, by simp [hl.2]⟩
    next => exact fail_sound pos
  next => exact success_sound h hp

/-- Every result of `call` is sound. -/
def CallSound (ctx : Context) (call : Nat → Nat → Except Error Result) : Prop :=
  ∀ id pos r, pos ≤ ctx.input.length → call id pos = .ok r → r.Sound ctx pos

variable {call : Nat → Nat → Except Error Result}

theorem sequence_sound (hc : CallSound ctx call) (children : List Nat) (h : lo ≤ pos)
    (hp : pos ≤ ctx.input.length) (hr : sequence call start children pos nodes = .ok r) :
    r.Sound ctx lo := by
  induction children generalizing pos nodes with
  | nil =>
    cases hr
    exact success_sound h hp
  | cons child rest ih =>
    rw [sequence, bind_ok] at hr
    obtain ⟨rc, hcall, hr⟩ := hr
    have hs := hc child pos rc hp hcall
    split at hr
    next =>
      cases hr
      exact fail_sound _
    next hn =>
      cases hr
      exact ⟨by simp, fun hl => absurd hn (hs.strict hl)⟩
    next hn =>
      obtain ⟨h1, h2⟩ := hs.bounds hn
      exact ih (by omega) h2 hr

private theorem choice_sound (hc : CallSound ctx call) (children : List Nat)
    (hp : start ≤ ctx.input.length)
    (hr : choice call start children = .ok r) : r.Sound ctx start := by
  induction children with
  | nil =>
    cases hr
    exact fail_sound start
  | cons child rest ih =>
    rw [choice, bind_ok] at hr
    obtain ⟨rc, hcall, hr⟩ := hr
    split at hr
    next =>
      cases hr
      exact hc child start _ hp hcall
    next => exact ih hr

private theorem repetition_sound (hc : CallSound ctx call) {child : Nat} (n : Nat) (h : start ≤ pos)
    (hp : pos ≤ ctx.input.length)
    (hr : ctx.repetition call child minCount maxCount start n pos count nodes = .ok r) :
    r.Sound ctx start := by
  induction n generalizing pos count nodes with
  | zero => cases hr
  | succ n ih =>
    unfold repetition at hr
    split at hr
    next =>
      split at hr
      next =>
        cases hr
        exact repetitionEnd_sound h hp
      next =>
        rw [bind_ok] at hr
        obtain ⟨rc, hcall, hr⟩ := hr
        have hs := hc child pos rc hp hcall
        split at hr
        next hn =>
          split at hr
          next =>
            cases hr
            exact repetitionEnd_sound h hp
          next =>
            obtain ⟨h1, h2⟩ := hs.bounds hn
            exact ih (by omega) h2 hr
        next hn =>
          cases hr
          exact ⟨by simp, fun hl => absurd hn (hs.strict hl)⟩
        next =>
          cases hr
          exact repetitionEnd_sound h hp
    next =>
      cases hr
      exact repetitionEnd_sound h hp

theorem wrap_type (rule tag : String) (r : Result) : (ctx.wrap rule tag r).type = r.type := by
  unfold wrap
  split <;> rfl

theorem wrap_stop (rule tag : String) (r : Result) : (ctx.wrap rule tag r).stop = r.stop := by
  unfold wrap
  split <;> rfl

end Context

namespace Arena

variable {a : Arena} {ctx : Context} {call call' : Nat → Nat → Except Error Result} {start : Nat}

variable {p : Parser} {r : Result} {pos : Nat} {nodes : List AstNode}

private theorem exec_sound (hc : Context.CallSound ctx call) (hp : start ≤ ctx.input.length)
    (hr : a.exec ctx call start p = .ok r) : r.Sound ctx start := by
  cases p with
  | epsilon =>
    cases hr
    exact Context.success_sound (Nat.le_refl _) hp
  | start =>
    cases hr
    exact Context.atStart_sound hp (by split <;> simp)
  | stop =>
    cases hr
    exact Context.atStart_sound hp (by split <;> simp)
  | literal text =>
    cases hr
    exact Context.literal_sound text (Nat.le_refl _) hp
  | sequence children => exact Context.sequence_sound hc children (Nat.le_refl _) hp hr
  | choice children => exact Context.choice_sound hc children hp hr
  | repetition child minCount maxCount =>
    exact Context.repetition_sound hc _ (Nat.le_refl _) hp hr
  | lookahead child =>
    obtain ⟨rc, hcall, hr⟩ := bind_ok.mp hr
    cases hr
    exact Context.atStart_sound hp (hc child start rc hp hcall).strict
  | negate child =>
    obtain ⟨rc, hcall, hr⟩ := bind_ok.mp hr
    cases hr
    have hs := (hc child start rc hp hcall).strict
    cases ht : rc.type with
    | fail => exact Context.success_sound (Nat.le_refl _) hp
    | success => exact Context.fail_sound start
    | needMoreInput =>
      exact ⟨by simp [Context.negated, Result.atStart], fun hl => absurd ht (hs hl)⟩
  | any =>
    cases hr
    exact Context.any_sound
  | space =>
    cases hr
    exact Context.space_sound hp
  | chars pattern ranges negated minCount maxCount =>
    cases hr
    exact Context.charsFrom_sound _ (Nat.le_refl _) hp
  | string delimiter =>
    cases hr
    exact Context.stringFrom_sound _ (Nat.le_refl _)
  | untilOneOf delimiters =>
    cases hr
    exact Context.untilFrom_sound _ (Nat.le_refl _) hp
  | schema child name s raw => exact hc child start r hp hr
  | rule name child trigger =>
    obtain ⟨rc, hcall, hr⟩ := bind_ok.mp hr
    cases hr
    exact (hc child start rc hp hcall).of_eq (Context.wrap_type _ _ _) (Context.wrap_stop _ _ _)
  | ref name =>
    obtain ⟨id, _, hr⟩ := bind_ok.mp hr
    exact hc id start r hp hr
  | atomic child =>
    obtain ⟨rc, hcall, hr⟩ := bind_ok.mp hr
    cases hr
    exact (hc child start rc hp hcall).of_eq (by split <;> rfl) (by split <;> rfl)
  | tag child tag =>
    obtain ⟨rc, hcall, hr⟩ := bind_ok.mp hr
    cases hr
    exact (hc child start rc hp hcall).of_eq (Context.wrap_type _ _ _) (Context.wrap_stop _ _ _)

/-! ### A run of every parser -/

theorem parse_sound (depth : Nat) : Context.CallSound ctx (a.parse ctx depth) := by
  induction depth with
  | zero =>
    intro id pos r _ hr
    cases hr
  | succ depth ih =>
    intro id pos r hp hr
    rw [parse] at hr
    split at hr
    next => cases hr
    next p _ => exact exec_sound ih hp hr

/-! ### A greater depth -/

/-- Every result of `call` is one of `call'`. -/
def CallLe (call call' : Nat → Nat → Except Error Result) : Prop :=
  ∀ id pos r, call id pos = .ok r → call' id pos = .ok r

section

variable (h : CallLe call call')
include h

private theorem sequence_mono (children : List Nat)
    (hr : Context.sequence call start children pos nodes = .ok r) :
    Context.sequence call' start children pos nodes = .ok r := by
  induction children generalizing pos nodes with
  | nil => exact hr
  | cons child rest ih =>
    rw [Context.sequence, bind_ok] at hr ⊢
    obtain ⟨rc, hcall, hr⟩ := hr
    refine ⟨rc, h child pos rc hcall, ?_⟩
    cases ht : rc.type with
    | fail => simpa only [ht] using hr
    | needMoreInput => simpa only [ht] using hr
    | success =>
      simp only [ht] at hr ⊢
      exact ih hr

private theorem choice_mono (children : List Nat)
    (hr : Context.choice call start children = .ok r) :
    Context.choice call' start children = .ok r := by
  induction children with
  | nil => exact hr
  | cons child rest ih =>
    rw [Context.choice, bind_ok] at hr ⊢
    obtain ⟨rc, hcall, hr⟩ := hr
    refine ⟨rc, h child start rc hcall, ?_⟩
    split at hr
    next hn => rwa [if_pos hn]
    next hn =>
      rw [if_neg hn]
      exact ih hr

private theorem repetition_mono {child : Nat} {minCount maxCount : Int} (n : Nat) {count : Nat}
    (hr : ctx.repetition call child minCount maxCount start n pos count nodes = .ok r) :
    ctx.repetition call' child minCount maxCount start n pos count nodes = .ok r := by
  induction n generalizing pos count nodes with
  | zero => cases hr
  | succ n ih =>
    unfold Context.repetition at hr ⊢
    split at hr
    next hm =>
      rw [if_pos hm]
      split at hr
      next hl => rwa [if_pos hl]
      next hl =>
        rw [if_neg hl, bind_ok]
        obtain ⟨rc, hcall, hr⟩ := bind_ok.mp hr
        refine ⟨rc, h child pos rc hcall, ?_⟩
        cases ht : rc.type with
        | fail => simpa only [ht] using hr
        | needMoreInput => simpa only [ht] using hr
        | success =>
          simp only [ht] at hr ⊢
          split at hr
          next he => rwa [if_pos he]
          next he =>
            rw [if_neg he]
            exact ih hr
    next hm => rwa [if_neg hm]

private theorem exec_mono (hr : a.exec ctx call start p = .ok r) :
    a.exec ctx call' start p = .ok r := by
  cases p with
  | sequence children => exact sequence_mono h children hr
  | choice children => exact choice_mono h children hr
  | repetition child minCount maxCount => exact repetition_mono h _ hr
  | schema child name s raw => exact h child start r hr
  | ref name =>
    obtain ⟨id, hid, hr⟩ := bind_ok.mp hr
    exact bind_ok.mpr ⟨id, hid, h id start r hr⟩
  | lookahead child | negate child | rule name child trigger | atomic child | tag child tag =>
    obtain ⟨rc, hcall, hr⟩ := bind_ok.mp hr
    exact bind_ok.mpr ⟨rc, h _ start rc hcall, hr⟩
  | _ => exact hr

end

theorem parse_succ (depth : Nat) : CallLe (a.parse ctx depth) (a.parse ctx (depth + 1)) := by
  induction depth with
  | zero =>
    intro id pos r hr
    cases hr
  | succ depth ih =>
    intro id pos r hr
    rw [parse] at hr ⊢
    split at hr
    next => cases hr
    next p _ => exact exec_mono ih hr

/-- A greater depth gives the same result. -/
theorem parse_mono {depth depth' : Nat} (h : depth ≤ depth') :
    CallLe (a.parse ctx depth) (a.parse ctx depth') := by
  induction h with
  | refl => exact fun _ _ _ hr => hr
  | step _ ih => exact fun id pos r hr => parse_succ _ id pos r (ih id pos r hr)

theorem Returns.unique {r' : Result} (h : a.Returns ctx start r) (h' : a.Returns ctx start r') :
    r = r' := by
  obtain ⟨d, hd⟩ := h
  obtain ⟨d', hd'⟩ := h'
  unfold parseRoot at hd hd'
  split at hd
  next => cases hd
  next id hid =>
    rw [hid] at hd'
    have h1 := parse_mono (Nat.le_max_left d d') id start r hd
    have h2 := parse_mono (Nat.le_max_right d d') id start r' hd'
    rw [h1] at h2
    exact Except.ok.inj h2

end Arena

end Llama.Peg
