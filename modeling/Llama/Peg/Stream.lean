import Llama.Peg.Halts

/-!
# Streaming

A lenient parse sees the part `p` of the text that has arrived. A strict parse of the
whole text `p ++ t` runs beside it: as long as the lenient one is inside `p`, both are at
the same position and see the same bytes. Once the lenient one stands at the end of `p`
the strict one may be anywhere behind it, and the lenient one decides only what holds for
every continuation.
-/

namespace Llama.Peg

open List

open Loop (bind_ok)

/-- The position `i` in the first `n` bytes and the position `j` in the whole text: the
same one inside, and any one from `n` on when `i` is the end. -/
def Follows (n i j : Nat) : Prop := i < n ∧ j = i ∨ i = n ∧ n ≤ j

variable {i j n start start' : Nat}

theorem Follows.add {k : Nat} (h : Follows n i j) (hi : i < n) (hk : i + k ≤ n) :
    Follows n (i + k) (j + k) := by
  unfold Follows at *
  omega

theorem Follows.refl (h : i ≤ n) : Follows n i i := by
  unfold Follows
  omega

private theorem Follows.eq_of_lt (h : Follows n i j) (hi : i < n) : j = i := by
  unfold Follows at h
  omega

/-- The strict result `r'` agrees with the decision of the lenient result `r`. -/
def Keeps (n : Nat) (r r' : Result) : Prop :=
  r'.type = r.type ∧ (r.type = .success → Follows n r.stop r'.stop)

/-- The lenient result asks for more, or the strict run returns one that agrees. -/
def Foretells (n : Nat) (r : Result) (o : Except Error Result) : Prop :=
  r.type = .needMoreInput ∨ ∃ r', o = .ok r' ∧ Keeps n r r'

/-- A parser that goes on from the result of another one. -/
theorem Foretells.bind {rc r : Result} {o : Except Error Result}
    {f : Result → Except Error Result} (h : Foretells n rc o)
    (hneed : rc.type = .needMoreInput → r.type = .needMoreInput)
    (hf : ∀ rc', Keeps n rc rc' → Foretells n r (f rc')) : Foretells n r (o >>= f) := by
  obtain hn | ⟨rc', rfl, hk⟩ := h
  · exact .inl (hneed hn)
  · exact hf rc' hk

theorem Foretells.ok {r r' : Result} (h : Keeps n r r') : Foretells n r (.ok r') :=
  .inr ⟨r', rfl, h⟩

theorem Foretells.wrap {rule tag : String} {rc : Result} {o : Except Error Result}
    {cl cs : Context} (h : Foretells n rc o) :
    Foretells n (cl.wrap rule tag rc) (o >>= fun rc' => .ok (cs.wrap rule tag rc')) :=
  h.bind (fun hn => (Context.wrap_type ..).trans hn) fun rc' hk =>
    .ok (by simpa only [Keeps, Context.wrap_type, Context.wrap_stop] using hk)

private theorem keeps_fail {pos pos' : Nat} :
    Keeps n ⟨.fail, start, pos, []⟩ ⟨.fail, start', pos', []⟩ :=
  ⟨rfl, fun h => nomatch h⟩

private theorem keeps_success {nodes nodes' : List AstNode} (h : Follows n i j) :
    Keeps n ⟨.success, start, i, nodes⟩ ⟨.success, start', j, nodes'⟩ :=
  ⟨rfl, fun _ => h⟩

/-- The decoder has an answer at every position inside the bytes. -/
def Complete (p : List UInt8) : Prop := ∀ i < p.length, decodeCodepoint (p.drop i) ≠ .incomplete

private theorem encode_complete (cs : List Char) : Complete (encode cs) :=
  fun _ h => decode_encode_drop cs h

namespace Stream

variable {p t : List UInt8} {i j start start' : Nat}

private theorem getElem?_follows (h : Follows p.length i j) (hi : i < p.length) :
    (p ++ t)[j]? = p[i]? := by
  rw [h.eq_of_lt hi, getElem?_append_left hi]

private theorem getElem?_end (hi : ¬ i < p.length) : p[i]? = none := by
  apply getElem?_eq_none
  omega

private theorem decode_follows (hp : Complete p) (h : Follows p.length i j) (hi : i < p.length) :
    parseUtf8Codepoint (p ++ t) j = parseUtf8Codepoint p i ∧
      parseUtf8Codepoint p i ≠ .incomplete := by
  unfold parseUtf8Codepoint
  rw [h.eq_of_lt hi, drop_append_of_le_length (Nat.le_of_lt hi)]
  exact ⟨decode_append (hp i hi) t, hp i hi⟩

private theorem decode_end (hi : ¬ i < p.length) : parseUtf8Codepoint p i = .incomplete := by
  unfold parseUtf8Codepoint
  rw [drop_eq_nil_of_le (by omega)]
  rfl

private theorem literal_keeps (text : List UInt8) (h : Follows p.length i j) :
    (Context.literal ⟨p, true⟩ start text i).type = .needMoreInput ∨
      Keeps p.length (Context.literal ⟨p, true⟩ start text i)
        (Context.literal ⟨p ++ t, false⟩ start' text j) := by
  induction text generalizing i j with
  | nil => exact .inr (keeps_success h)
  | cons b rest ih =>
    unfold Context.literal
    by_cases hi : i < p.length
    · obtain ⟨c, hc⟩ : ∃ c, p[i]? = some c := ⟨_, getElem?_eq_getElem hi⟩
      simp only [getElem?_follows h hi, hc]
      split
      next => exact .inr keeps_fail
      next => exact ih (h.add hi (by omega))
    · simp only [getElem?_end hi]
      exact .inl rfl

private theorem any_keeps (hp : Complete p) (h : Follows p.length i j) :
    (Context.any ⟨p, true⟩ i).type = .needMoreInput ∨
      Keeps p.length (Context.any ⟨p, true⟩ i) (Context.any ⟨p ++ t, false⟩ j) := by
  unfold Context.any
  by_cases hi : i < p.length
  · obtain ⟨hd, hne⟩ := decode_follows (t := t) hp h hi
    simp only [hd]
    cases hr : parseUtf8Codepoint p i with
    | incomplete => exact absurd hr hne
    | invalid => exact .inr keeps_fail
    | success cp k =>
      obtain ⟨_, hk⟩ := Context.parseUtf8_success hr
      exact .inr (keeps_success (h.add hi hk))
  · simp only [decode_end hi]
    exact .inl rfl

private theorem space_keeps (h : Follows p.length i j) :
    Keeps p.length (Context.space ⟨p, true⟩ i) (Context.space ⟨p ++ t, false⟩ j) := by
  apply keeps_success
  have hle := (takeWhile_sublist Context.isSpace (l := p.drop i)).length_le
  rw [length_drop] at hle
  dsimp only
  by_cases hi : i < p.length
  · rw [h.eq_of_lt hi, drop_append_of_le_length (Nat.le_of_lt hi), takeWhile_append]
    split
    next hall =>
      rw [length_append, hall, length_drop]
      unfold Follows
      omega
    next => exact Follows.refl (by omega)
  · unfold Follows at *
    omega

variable {ctx : Context} {ranges : List CharRange} {negated : Bool} {maxCount minCount : Int}
  {count pos n' child : Nat} {delimiter : UInt8} {nodes nodes' : List AstNode} {r : Result}

/-- Enough characters: the loop only goes on. -/
theorem charsFrom_enough (n : Nat) (h : minCount ≤ count) :
    (ctx.charsFrom ranges negated minCount maxCount start n pos count).type = .success ∧
      pos ≤ (ctx.charsFrom ranges negated minCount maxCount start n pos count).stop := by
  induction n generalizing pos count with
  | zero => simp [Context.charsFrom, Context.charsEnd, not_lt.mpr h]
  | succ n ih =>
    unfold Context.charsFrom
    split
    next =>
      split
      next => simp
      next => simp
      next cp k hd =>
        split
        next =>
          obtain ⟨h1, h2⟩ : (ctx.charsFrom ranges negated minCount maxCount start n (pos + k)
              (count + 1)).type = .success ∧ _ := ih (by omega)
          exact ⟨h1, by omega⟩
        next => simp [Context.charsEnd, not_lt.mpr h]
    next => simp [Context.charsEnd, not_lt.mpr h]

private theorem charsEnd_inside (h : Follows p.length i j) (hi : i < p.length) :
    Keeps p.length (Context.charsEnd ⟨p, true⟩ minCount start i count)
      (Context.charsEnd ⟨p ++ t, false⟩ minCount start' j count) := by
  unfold Context.charsEnd
  split
  next =>
    rw [if_neg (by simp; omega), if_neg (by simp)]
    exact keeps_fail
  next => exact keeps_success h

private theorem charsFrom_end (hi : ¬ i < p.length) :
    Context.charsFrom ⟨p, true⟩ ranges negated minCount maxCount start (n + 1) i count =
      if minCount ≤ count then ⟨.success, start, i, []⟩ else ⟨.needMoreInput, start, i, []⟩ := by
  unfold Context.charsFrom
  split
  next =>
    simp only [decode_end hi]
    rfl
  next =>
    unfold Context.charsEnd
    by_cases hmin : minCount ≤ count
    · rw [if_neg (by omega), if_pos hmin]
    · rw [if_pos (by omega), if_neg hmin, if_pos ⟨not_lt.mp hi, rfl⟩]

theorem charsFrom_keeps (hp : Complete p) (n : Nat) (h : Follows p.length i j)
    (hn : p.length - i < n) (hn' : (p ++ t).length - j < n') :
    (Context.charsFrom ⟨p, true⟩ ranges negated minCount maxCount start n i count).type =
        .needMoreInput ∨
      Keeps p.length (Context.charsFrom ⟨p, true⟩ ranges negated minCount maxCount start n i count)
        (Context.charsFrom ⟨p ++ t, false⟩ ranges negated minCount maxCount start' n' j count) := by
  induction n generalizing i j n' count with
  | zero => omega
  | succ n ih =>
    obtain ⟨n', rfl⟩ : ∃ k, n' = k + 1 := ⟨n' - 1, by omega⟩
    by_cases hi : i < p.length
    · obtain ⟨hd, hne⟩ := decode_follows (t := t) hp h hi
      unfold Context.charsFrom
      split
      next =>
        simp only [hd]
        cases hr : parseUtf8Codepoint p i with
        | incomplete => exact absurd hr hne
        | invalid =>
          simp only
          split
          next => exact .inr (keeps_success h)
          next => exact .inr keeps_fail
        | success cp k =>
          obtain ⟨hk1, hk⟩ := Context.parseUtf8_success hr
          simp only
          split
          next =>
            have hj := h.eq_of_lt hi
            rw [length_append] at hn'
            exact ih (h.add hi hk) (by omega) (by rw [length_append]; omega)
          next => exact .inr (charsEnd_inside h hi)
      next => exact .inr (charsEnd_inside h hi)
    · -- at the end of the part the strict loop may go on, with enough characters already
      rw [charsFrom_end hi]
      split
      next hmin =>
        right
        obtain ⟨h1, h2⟩ : (Context.charsFrom ⟨p ++ t, false⟩ ranges negated minCount maxCount start'
          (n' + 1) j count).type = .success ∧ _ := charsFrom_enough (n' + 1) hmin
        unfold Follows at h
        exact ⟨h1, fun _ => .inr ⟨by dsimp only; omega, by omega⟩⟩
      next => exact .inl rfl

theorem hexDigits_keeps (n : Nat) (h : Follows p.length i j) :
    (Context.hexDigits ⟨p, true⟩ start n i).type = .needMoreInput ∨
      Keeps p.length (Context.hexDigits ⟨p, true⟩ start n i)
        (Context.hexDigits ⟨p ++ t, false⟩ start' n j) := by
  induction n generalizing i j with
  | zero => exact .inr (keeps_success h)
  | succ n ih =>
    unfold Context.hexDigits
    by_cases hi : i < p.length
    · obtain ⟨c, hc⟩ : ∃ c, p[i]? = some c := ⟨_, getElem?_eq_getElem hi⟩
      simp only [getElem?_follows h hi, hc]
      split
      next => exact ih (h.add hi (by omega))
      next => exact .inr keeps_fail
    · simp only [getElem?_end hi]
      exact .inl rfl

theorem escapeSequence_keeps (h : Follows p.length i j) (hi : i < p.length) :
    (Context.escapeSequence ⟨p, true⟩ start i delimiter).type = .needMoreInput ∨
      Keeps p.length (Context.escapeSequence ⟨p, true⟩ start i delimiter)
        (Context.escapeSequence ⟨p ++ t, false⟩ start' j delimiter) := by
  have h1 := h.add hi (k := 1) (by omega)
  unfold Context.escapeSequence
  by_cases hi1 : i + 1 < p.length
  · obtain ⟨c, hc⟩ : ∃ c, p[i + 1]? = some c := ⟨_, getElem?_eq_getElem hi1⟩
    have h2 := h1.add hi1 (k := 1) (by omega)
    simp only [getElem?_follows h1 hi1, hc]
    split
    next => exact .inr (keeps_success h2)
    next =>
      split
      next => exact hexDigits_keeps 4 h2
      next => exact .inr keeps_fail
  · simp only [getElem?_end hi1]
    exact .inl rfl

theorem stringFrom_keeps (hp : Complete p) (n : Nat) (h : Follows p.length i j)
    (hn : p.length - i ≤ n) (hn' : (p ++ t).length - j ≤ n') :
    (Context.stringFrom ⟨p, true⟩ delimiter start n i).type = .needMoreInput ∨
      Keeps p.length (Context.stringFrom ⟨p, true⟩ delimiter start n i)
        (Context.stringFrom ⟨p ++ t, false⟩ delimiter start' n' j) := by
  induction n generalizing i j n' with
  | zero => exact .inl rfl
  | succ n ih =>
    by_cases hi : i < p.length
    · have hj := h.eq_of_lt hi
      rw [length_append] at hn'
      obtain ⟨n', rfl⟩ : ∃ k, n' = k + 1 := ⟨n' - 1, by omega⟩
      have next : ∀ {i' j' : Nat}, Follows p.length i' j' → i < i' →
          (Context.stringFrom ⟨p, true⟩ delimiter start n i').type = .needMoreInput ∨
            Keeps p.length (Context.stringFrom ⟨p, true⟩ delimiter start n i')
              (Context.stringFrom ⟨p ++ t, false⟩ delimiter start' n' j') := by
        intro i' j' h' hlt
        apply ih h' (by omega)
        rw [length_append]
        unfold Follows at h'
        omega
      obtain ⟨c, hc⟩ : ∃ c, p[i]? = some c := ⟨_, getElem?_eq_getElem hi⟩
      unfold Context.stringFrom
      simp only [getElem?_follows h hi, hc]
      split
      next => exact .inr (keeps_success h)
      next =>
        split
        next =>
          obtain hneed | ⟨htype, hstop⟩ :
              (Context.escapeSequence ⟨p, true⟩ start i delimiter).type = .needMoreInput ∨
                Keeps p.length _ (Context.escapeSequence ⟨p ++ t, false⟩ start' j delimiter) :=
            escapeSequence_keeps h hi
          · left
            rw [if_pos (by simp [hneed]), hneed]
          · rw [htype]
            split
            next hne => exact .inr ⟨htype, fun hs => absurd hs hne⟩
            next hs =>
              have hs := not_not.mp hs
              have hsound : (Context.escapeSequence ⟨p, true⟩ start i delimiter).Sound
                ⟨p, true⟩ (i + 1) := Context.escapeSequence_sound (by omega)
              exact next (hstop hs) (hsound.bounds hs).1
        next =>
          obtain ⟨hd, hne⟩ := decode_follows (t := t) hp h hi
          rw [hd]
          cases hr : parseUtf8Codepoint p i with
          | incomplete => exact absurd hr hne
          | invalid => exact .inr keeps_fail
          | success cp k =>
            obtain ⟨hk1, hk⟩ := Context.parseUtf8_success hr
            exact next (h.add hi hk) (by omega)
    · left
      unfold Context.stringFrom
      simp only [getElem?_end hi]
      rfl

variable {callL callS : Nat → Nat → Except Error Result}

/-- The strict run of `target` agrees with the lenient one wherever they start. -/
def CallForetells (p t : List UInt8) (callL callS : Nat → Nat → Except Error Result)
    (target : Nat) : Prop :=
  ∀ i j r, Follows p.length i j → j ≤ (p ++ t).length → callL target i = .ok r →
    Foretells p.length r (callS target j)

theorem sequence_foretells (hs : Context.CallSound ⟨p ++ t, false⟩ callS) (children : List Nat)
    (hc : ∀ c ∈ children, CallForetells p t callL callS c) (h : Follows p.length i j)
    (hj : j ≤ (p ++ t).length) (hr : Context.sequence callL start children i nodes = .ok r) :
    Foretells p.length r (Context.sequence callS start' children j nodes') := by
  induction children generalizing i j nodes nodes' with
  | nil =>
    cases hr
    exact .ok (keeps_success h)
  | cons child rest ih =>
    obtain ⟨rc, hcall, hr⟩ := bind_ok.mp hr
    obtain hneed | ⟨rc', hcall', htype, hstop⟩ := hc child mem_cons_self i j rc h hj hcall
    · left
      rw [hneed] at hr
      cases hr
      rfl
    · rw [Context.sequence, hcall']
      dsimp only [bind, Except.bind]
      cases ht : rc.type with
      | fail =>
        simp only [ht] at hr htype
        cases hr
        rw [htype]
        exact .ok keeps_fail
      | needMoreInput =>
        left
        simp only [ht] at hr
        cases hr
        rfl
      | success =>
        simp only [ht] at hr htype
        rw [htype]
        apply ih (fun c hmem => hc c (mem_cons_of_mem _ hmem)) (hstop ht) _ hr
        exact ((hs child j rc' hj hcall').bounds htype).2

theorem choice_foretells (children : List Nat)
    (hc : ∀ c ∈ children, CallForetells p t callL callS c) (h : Follows p.length i j)
    (hj : j ≤ (p ++ t).length) (hr : Context.choice callL i children = .ok r) :
    Foretells p.length r (Context.choice callS j children) := by
  induction children with
  | nil =>
    cases hr
    exact .ok keeps_fail
  | cons child rest ih =>
    obtain ⟨rc, hcall, hr⟩ := bind_ok.mp hr
    have hchild := hc child mem_cons_self i j rc h hj hcall
    split at hr
    next hne =>
      cases hr
      obtain hneed | ⟨rc', hcall', htype, hstop⟩ := hchild
      · exact .inl hneed
      · rw [Context.choice, hcall']
        dsimp only [bind, Except.bind]
        rw [if_pos (htype ▸ hne)]
        exact .ok ⟨htype, hstop⟩
    next hfail =>
      have hfail := not_not.mp hfail
      obtain hneed | ⟨rc', hcall', htype, hstop⟩ := hchild
      · rw [hfail] at hneed
        cases hneed
      · rw [Context.choice, hcall']
        dsimp only [bind, Except.bind]
        rw [if_neg (by simp [htype, hfail])]
        exact ih (fun c hmem => hc c (mem_cons_of_mem _ hmem)) hr

theorem repetitionEnd_enough (h : ¬ (0 < minCount ∧ (count : Int) < minCount)) :
    ctx.repetitionEnd minCount start pos count nodes = ⟨.success, start, pos, nodes⟩ :=
  if_neg h

/-- Enough matches: a strict repetition only goes on. -/
theorem repetition_enough {s : List UInt8} (hs : Context.CallSound ⟨s, false⟩ callS)
    (hret : ∀ pos ≤ s.length, ∃ r, callS child pos = .ok r) (n : Nat)
    (hmin : ¬ (0 < minCount ∧ (count : Int) < minCount)) (hp : pos ≤ s.length)
    (hn : s.length - pos < n) :
    ∃ r, Context.repetition ⟨s, false⟩ callS child minCount maxCount start n pos count nodes =
      .ok r ∧ r.type = .success ∧ pos ≤ r.stop := by
  induction n generalizing pos count nodes with
  | zero => omega
  | succ n ih =>
    unfold Context.repetition
    rw [repetitionEnd_enough hmin]
    split
    next =>
      split
      next => exact ⟨_, rfl, rfl, Nat.le_refl _⟩
      next hl =>
        obtain ⟨rc, hcall⟩ := hret pos hp
        have hsound := hs child pos rc hp hcall
        rw [hcall]
        dsimp only [bind, Except.bind]
        cases ht : rc.type with
        | fail => exact ⟨_, rfl, rfl, Nat.le_refl _⟩
        | needMoreInput => exact absurd ht (hsound.strict rfl)
        | success =>
          obtain ⟨h1, h2⟩ := hsound.bounds ht
          dsimp only at h2 hl ⊢
          split
          next => exact ⟨_, rfl, rfl, Nat.le_refl _⟩
          next hne =>
            have hmin' : ¬ (0 < minCount ∧ ((count + 1 : Nat) : Int) < minCount) := by
              push_cast
              omega
            obtain ⟨r, hr, hrt, hrs⟩ := ih hmin' h2 (by omega)
            exact ⟨r, hr, hrt, by omega⟩
    next => exact ⟨_, rfl, rfl, Nat.le_refl _⟩

/-- A repetition that ends inside the part ends there in the whole text too. -/
theorem repetitionEnd_inside (h : Follows p.length i j) (hi : i < p.length) :
    Keeps p.length (Context.repetitionEnd ⟨p, true⟩ minCount start i count nodes)
      (Context.repetitionEnd ⟨p ++ t, false⟩ minCount start' j count nodes') := by
  unfold Context.repetitionEnd
  split
  next =>
    rw [if_neg (by simp; omega), if_neg (by simp)]
    exact keeps_fail
  next => exact keeps_success h

theorem repetition_foretells (hs : Context.CallSound ⟨p ++ t, false⟩ callS)
    (hsL : Context.CallSound ⟨p, true⟩ callL)
    (hret : ∀ pos ≤ (p ++ t).length, ∃ r, callS child pos = .ok r)
    (hc : CallForetells p t callL callS child) (n : Nat) (h : Follows p.length i j)
    (hj : j ≤ (p ++ t).length) (hn' : (p ++ t).length - j < n')
    (hr : Context.repetition ⟨p, true⟩ callL child minCount maxCount start n i count nodes =
      .ok r) :
    Foretells p.length r
      (Context.repetition ⟨p ++ t, false⟩ callS child minCount maxCount start' n' j count
        nodes') := by
  induction n generalizing i j n' count nodes nodes' with
  | zero => cases hr
  | succ n ih =>
    obtain ⟨n', rfl⟩ : ∃ k, n' = k + 1 := ⟨n' - 1, by omega⟩
    by_cases hi : i < p.length
    · have hjlt : ¬ (p ++ t).length ≤ j := by
        rw [length_append, h.eq_of_lt hi]
        omega
      unfold Context.repetition at hr ⊢
      split at hr
      next hmax =>
        rw [if_neg (by simpa using hi)] at hr
        rw [if_pos hmax, if_neg hjlt]
        obtain ⟨rc, hcall, hr⟩ := bind_ok.mp hr
        obtain hneed | ⟨rc', hcall', htype, hstop⟩ := hc i j rc h hj hcall
        · left
          rw [hneed] at hr
          cases hr
          rfl
        · rw [hcall']
          dsimp only [bind, Except.bind]
          cases ht : rc.type with
          | needMoreInput =>
            left
            simp only [ht] at hr
            cases hr
            rfl
          | fail =>
            simp only [ht] at hr htype
            cases hr
            rw [htype]
            exact .ok (repetitionEnd_inside h hi)
          | success =>
            simp only [ht] at hr htype
            rw [htype]
            have hf := hstop ht
            obtain ⟨h1, h2⟩ := (hsL child i rc (Nat.le_of_lt hi) hcall).bounds ht
            obtain ⟨h3, h4⟩ := (hs child j rc' hj hcall').bounds htype
            dsimp only at h2 h4 ⊢
            have hji := h.eq_of_lt hi
            split at hr
            next he =>
              have he' : rc'.stop = j := by
                rw [hf.eq_of_lt (by omega), he, hji]
              cases hr
              rw [if_pos he']
              exact .ok (repetitionEnd_inside h hi)
            next he =>
              have he' : rc'.stop ≠ j := by
                unfold Follows at hf
                omega
              rw [if_neg he']
              exact ih hf h4 (by omega) hr
      next hmax =>
        rw [if_neg hmax]
        cases hr
        exact .ok (repetitionEnd_inside h hi)
    · -- at the end of the part the loop stops, and the strict one may go on
      have hend : r = Context.repetitionEnd ⟨p, true⟩ minCount start i count nodes := by
        unfold Context.repetition at hr
        split at hr
        next =>
          rw [if_pos (by simpa using hi)] at hr
          exact (Except.ok.inj hr).symm
        next => exact (Except.ok.inj hr).symm
      by_cases hmin : 0 < minCount ∧ (count : Int) < minCount
      · left
        rw [hend, Context.repetitionEnd, if_pos hmin, if_pos ⟨not_lt.mp hi, rfl⟩]
      · right
        obtain ⟨r', hr', ht, hle⟩ := repetition_enough hs hret (n' + 1) hmin hj hn'
        rw [hend, repetitionEnd_enough hmin]
        refine ⟨r', hr', ht, fun _ => .inr ⟨?_, ?_⟩⟩
        · dsimp only
          unfold Follows at h
          omega
        · unfold Follows at h
          omega

end Stream

/-- The parsers that decide by the bytes before the end of the input only. -/
def Parser.Streams : Parser → Bool
  | .start | .stop | .untilOneOf _ | .schema _ _ _ _ => false
  | _ => true

namespace Stream

variable {a : Arena} {p t : List UInt8} {i j : Nat}
  {callL callS : Nat → Nat → Except Error Result}

variable {q : Parser} {id : Nat}

/-- One step of a parser that streams: its callees foretell, and so does it. -/
theorem exec_foretells (hp : Complete p) (hsL : Context.CallSound ⟨p, true⟩ callL)
    (hs : Context.CallSound ⟨p ++ t, false⟩ callS) (hq : q.Streams = true)
    (hc : ∀ c ∈ a.callees q, CallForetells p t callL callS c)
    (hret : ∀ c ∈ a.callees q, ∀ pos ≤ (p ++ t).length, ∃ r, callS c pos = .ok r) {r : Result}
    (h : Follows p.length i j) (hj : j ≤ (p ++ t).length)
    (hr : a.exec ⟨p, true⟩ callL i q = .ok r) :
    Foretells p.length r (a.exec ⟨p ++ t, false⟩ callS j q) := by
  have terminal : ∀ {r r' : Result}, r.type = .needMoreInput ∨ Keeps p.length r r' →
      Foretells p.length r (.ok r') := fun h => h.imp_right fun hk => ⟨_, rfl, hk⟩
  cases q with
  | epsilon =>
    cases hr
    exact .ok (keeps_success h)
  | start => cases hq
  | stop => cases hq
  | literal text =>
    cases hr
    exact terminal (literal_keeps text h)
  | sequence children => exact sequence_foretells hs children hc h hj hr
  | choice children => exact choice_foretells children hc h hj hr
  | repetition child minCount maxCount =>
    have hmem : child ∈ a.callees (.repetition child minCount maxCount) := by simp [Arena.callees]
    exact repetition_foretells hs hsL (hret child hmem) (hc child hmem) _ h hj
      (Nat.lt_succ_of_le (Nat.sub_le _ _)) hr
  | lookahead child =>
    obtain ⟨rc, hcall, hr⟩ := bind_ok.mp hr
    cases hr
    exact (hc child (by simp [Arena.callees]) i j rc h hj hcall).bind id fun rc' hk =>
      .ok ⟨hk.1, fun _ => h⟩
  | negate child =>
    obtain ⟨rc, hcall, hr⟩ := bind_ok.mp hr
    cases hr
    refine (hc child (by simp [Arena.callees]) i j rc h hj hcall).bind
      (fun hneed => by rw [hneed]; rfl)
      fun rc' hk => .ok ?_
    rw [hk.1]
    cases rc.type with
    | fail => exact keeps_success h
    | success => exact keeps_fail
    | needMoreInput => exact ⟨rfl, fun h => by cases h⟩
  | any =>
    cases hr
    exact terminal (any_keeps hp h)
  | space =>
    cases hr
    exact .ok (space_keeps h)
  | chars pattern ranges negated minCount maxCount =>
    cases hr
    apply terminal
    apply charsFrom_keeps hp _ h
    · dsimp only
      omega
    · dsimp only
      omega
  | string delimiter =>
    cases hr
    apply terminal
    apply stringFrom_keeps hp _ h
    · dsimp only
      omega
    · dsimp only
      omega
  | untilOneOf delimiters => cases hq
  | schema child name s raw => cases hq
  | rule name child trigger =>
    obtain ⟨rc, hcall, hr⟩ := bind_ok.mp hr
    cases hr
    exact (hc child (by simp [Arena.callees]) i j rc h hj hcall).wrap
  | ref name =>
    obtain ⟨target, hget, hr⟩ := bind_ok.mp hr
    have hmem : target ∈ a.callees (.ref name) := by
      unfold Arena.getRule at hget
      split at hget
      next hl =>
        cases hget
        simp [Arena.callees, hl]
      next => cases hget
    apply (hc target hmem i j r h hj hr).imp_right
    rintro ⟨r', hcall', hk⟩
    exact ⟨r', bind_ok.mpr ⟨target, hget, hcall'⟩, hk⟩
  | atomic child =>
    obtain ⟨rc, hcall, hr⟩ := bind_ok.mp hr
    cases hr
    by_cases hneed : rc.type = .needMoreInput
    · left
      rw [if_pos hneed]
      exact hneed
    · rw [if_neg hneed]
      refine (hc child (by simp [Arena.callees]) i j rc h hj hcall).bind id fun rc' hk => ?_
      rw [if_neg (hk.1 ▸ hneed)]
      exact .ok hk
  | tag child tag =>
    obtain ⟨rc, hcall, hr⟩ := bind_ok.mp hr
    cases hr
    exact (hc child (by simp [Arena.callees]) i j rc h hj hcall).wrap

/-- Runs of any parser that is reached, by induction on the depth of the lenient one. The
strict one has a depth that suffices everywhere. -/
theorem parse_foretells (h : a.WellFormed) (hq : ∀ id, a.Reachable id → ∀ q,
      a.parsers[id]? = some q → q.Streams = true) (hp : Complete p) {full : Nat}
    (hfull : ((p ++ t).length + 1) * (a.parsers.length + 1) ≤ full) (depth : Nat)
    (hid : a.Reachable id) :
    CallForetells p t (a.parse ⟨p, true⟩ depth) (a.parse ⟨p ++ t, false⟩ full) id := by
  induction depth generalizing id with
  | zero =>
    intro i j r _ _ hr
    cases hr
  | succ depth ih =>
    intro i j r hf hj hr
    obtain ⟨q, hget, _⟩ := h.defined id hid
    -- the strict run at `id` is one step over the runs at the same depth
    have returns : ∀ c, a.Reachable c → ∀ pos ≤ (p ++ t).length,
        ∃ r, a.parse ⟨p ++ t, false⟩ full c pos = .ok r :=
      fun c hreach pos hpos => Arena.parse_returns h hreach hpos hfull
    obtain ⟨rs, hrs⟩ := returns id hid j hj
    have hstep := Arena.parse_succ full id j rs hrs
    rw [Arena.parse, hget] at hr hstep
    have reach : ∀ c ∈ a.callees q, a.Reachable c := fun c hmem => hid.step ⟨q, hget, hmem⟩
    have hexec := exec_foretells hp (Arena.parse_sound depth)
      (Arena.parse_sound full) (hq id hid q hget) (fun c hmem => ih (reach c hmem))
      (fun c hmem => returns c (reach c hmem)) hf hj hr
    rw [hrs, ← hstep]
    exact hexec

/-- What a lenient parse of the part that has arrived decides stays decided: a failure, and
a match that ends before the end of the part. -/
theorem lenient_decision_stands (h : a.WellFormed)
    (hq : ∀ id, a.Reachable id → ∀ q, a.parsers[id]? = some q → q.Streams = true)
    (cs ds : List Char) {r : Result} (hr : a.Returns ⟨encode cs, true⟩ 0 r) :
    (r.type = .fail → ∃ r', a.Returns ⟨encode (cs ++ ds), false⟩ 0 r' ∧ r'.type = .fail) ∧
    (r.type = .success → r.stop < (encode cs).length →
      ∃ r', a.Returns ⟨encode (cs ++ ds), false⟩ 0 r' ∧ r'.type = .success ∧
        r'.stop = r.stop) := by
  obtain ⟨depth, hdepth⟩ := hr
  unfold Arena.parseRoot at hdepth
  split at hdepth
  next => cases hdepth
  next root hroot =>
    have hid : a.Reachable root := ⟨root, hroot, .refl⟩
    rw [encode_append]
    have hf := parse_foretells (t := encode ds) h hq (encode_complete cs) (Nat.le_refl _) depth hid
      0 0 r (.refl (Nat.zero_le _)) (Nat.zero_le _) hdepth
    have returns : ∀ {full r'}, a.parse ⟨encode cs ++ encode ds, false⟩ full root 0 = .ok r' →
        a.Returns ⟨encode cs ++ encode ds, false⟩ 0 r' := by
      intro full r' hr'
      refine ⟨full, ?_⟩
      rw [Arena.parseRoot, hroot]
      exact hr'
    obtain hneed | ⟨r', hr', htype, hstop⟩ := hf
    · constructor
      · intro ht
        rw [hneed] at ht
        cases ht
      · intro ht
        rw [hneed] at ht
        cases ht
    · constructor
      · intro ht
        exact ⟨r', returns hr', htype.trans ht⟩
      · intro ht hlt
        exact ⟨r', returns hr', htype.trans ht, (hstop ht).eq_of_lt hlt⟩

/-- `("a" | "b")* "c"` under a tag. -/
def abStarC : Arena where
  parsers := [.literal [0x61], .literal [0x62], .choice [0, 1], .repetition 2 0 (-1),
    .literal [0x63], .sequence [3, 4], .tag 5 "word"]
  rules := []
  root := some 6

theorem abStarC_cases (h : abStarC.parsers[id]? = some q) :
    (∀ c ∈ abStarC.callees q, c < id) ∧ q.Streams = true ∧ ∀ name, q ≠ .ref name := by
  obtain ⟨hid, hq⟩ := List.getElem?_eq_some_iff.mp h
  change id < 7 at hid
  subst hq
  interval_cases id <;> simp [abStarC, Arena.callees, Parser.Streams]

theorem abStarC_wellFormed : abStarC.WellFormed := by
  apply Arena.wellFormed_of_descending rfl (by decide)
  · exact fun id q h => (abStarC_cases h).1
  · exact fun id name h => absurd rfl ((abStarC_cases h).2.2 name)

/-- After `abcx` the match of `abc` is final. -/
theorem lenient_decision_stands_abcx :
    ∃ r', abStarC.Returns ⟨encode (['a', 'b', 'c', 'x'] ++ ['y']), false⟩ 0 r' ∧
      r'.type = .success ∧ r'.stop = 3 := by
  have hr : ∃ nodes, abStarC.Returns ⟨encode ['a', 'b', 'c', 'x'], true⟩ 0
      ⟨.success, 0, 3, nodes⟩ := ⟨_, 5, rfl⟩
  obtain ⟨nodes, hr⟩ := hr
  have hlt : 3 < (encode ['a', 'b', 'c', 'x']).length := by decide
  exact (lenient_decision_stands abStarC_wellFormed (fun _ _ _ h => (abStarC_cases h).2.1)
    ['a', 'b', 'c', 'x'] ['y'] hr).2 rfl hlt

end Stream

end Llama.Peg
