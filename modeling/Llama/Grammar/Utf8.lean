import Llama.Grammar.Filter

/-!
# Decoding in pieces

`decode_utf8` resumes a character that the last piece left incomplete, and the first bytes of the
next piece must then be continuation bytes. Inside one piece nothing checks the bytes after the
first of a character. So a text may decode differently in two pieces than in one; this module
says exactly when it does not.
-/

namespace Llama.Grammar

open List

/-- The number of bytes that a first byte announces; 0 for a continuation byte. -/
def width (b : UInt8) : Nat := (utf8Lookup (b.toNat / 16)).toNat

/-- The byte is a continuation byte. -/
def isContinuation (b : UInt8) : Bool := b.toNat / 64 == 2

/-- A character is complete when no byte is missing. -/
def emit (value missing : Nat) (r : List Nat × Nat × Nat) : List Nat × Nat × Nat :=
  (if missing = 0 then value :: r.1 else r.1, r.2)

/-- What the loops decode from the bits so far and the number of missing bytes: the code points,
and the bits and the missing bytes of an incomplete character. `none` is a continuation byte
where a first byte should stand. -/
def decodeFrom : List UInt8 → Nat → Nat → Option (List Nat × Nat × Nat)
  | [], value, missing => some ([], value, missing)
  | b :: bs, value, missing + 1 =>
    (decodeFrom bs (value * 64 + b.toNat % 64) missing).map
      (emit (value * 64 + b.toNat % 64) missing)
  | b :: bs, _, 0 =>
    match width b with
    | 0 => none
    | missing + 1 =>
      (decodeFrom bs (b.toNat % 2 ^ (7 - missing)) missing).map
        (emit (b.toNat % 2 ^ (7 - missing)) missing)

/-- The result of a call: an invalid sequence drops all code points. -/
def finish : Option (List Nat × Nat × Nat) → List Nat × PartialUtf8
  | none => ([0], { value := 0, nRemain := -1 })
  | some (cps, value, missing) => (cps ++ [0], { value := value, nRemain := missing })

theorem decodeFrom_append (s t : List UInt8) : ∀ value missing,
    decodeFrom (s ++ t) value missing = (decodeFrom s value missing).bind fun r =>
      (decodeFrom t r.2.1 r.2.2).map fun q => (r.1 ++ q.1, q.2) := by
  have hemit : ∀ (value missing : Nat) (r q : List Nat × Nat × Nat),
      emit value missing (r.1 ++ q.1, q.2) = ((emit value missing r).1 ++ q.1, q.2) := by
    intro value missing r q
    simp only [emit]
    split <;> rfl
  induction s with
  | nil =>
    intro value missing
    simp [decodeFrom]
  | cons b s ih =>
    have hstep : ∀ value missing, (decodeFrom (s ++ t) value missing).map (emit value missing) =
        ((decodeFrom s value missing).map (emit value missing)).bind fun r =>
          (decodeFrom t r.2.1 r.2.2).map fun q => (r.1 ++ q.1, q.2) := by
      intro value missing
      rw [ih]
      cases decodeFrom s value missing with
      | none => rfl
      | some r =>
        simp only [Option.bind_some, Option.map_some, Option.map_map]
        congr 1
        funext q
        exact hemit value missing r q
    intro value missing
    cases missing with
    | succ missing => exact hstep _ _
    | zero =>
      rw [cons_append, decodeFrom, decodeFrom]
      split
      · rfl
      · exact hstep _ _

theorem emit_pos (value missing : Nat) : emit value (missing + 1) = id := by
  funext r
  simp [emit]

theorem decodeRest_zero (bs : List UInt8) (value : Nat) :
    decodeRest bs value 0 = (bs, value, 0) := by
  cases bs with
  | nil => rfl
  | cons b bs => rw [decodeRest, if_neg (by simp)]

variable {bs s b1 b2 : List UInt8} {r : List Nat × Nat × Nat}

/-- The loop over the rest of a character ends with the character or with the bytes. -/
theorem decodeRest_spec (h0 : 0 ∉ bs) : ∀ value missing : Nat,
    ∃ (rest : List UInt8) (value' missing' : Nat),
      decodeRest bs value missing = (rest, value', (missing' : Int)) ∧
      (rest = [] ∨ missing' = 0) ∧ 0 ∉ rest ∧ rest.length ≤ bs.length ∧
      (decodeFrom bs value missing).map (emit value missing) =
        (decodeFrom rest value' missing').map (emit value' missing') := by
  induction bs with
  | nil => exact fun value missing =>
    ⟨[], value, missing, rfl, .inl rfl, by simp, Nat.le_refl _, rfl⟩
  | cons b bs ih =>
    intro value missing
    have hb : b ≠ 0 := fun hb => h0 (hb ▸ mem_cons_self ..)
    have hbs : 0 ∉ bs := fun hbs => h0 (mem_cons_of_mem _ hbs)
    cases missing with
    | zero => exact ⟨b :: bs, value, 0, decodeRest_zero _ _, .inr rfl, h0, Nat.le_refl _, rfl⟩
    | succ missing =>
      obtain ⟨rest, value', missing', h1, h2, h3, h4, h5⟩ :=
        ih hbs (value * 64 + b.toNat % 64) missing
      refine ⟨rest, value', missing', ?_, h2, h3, Nat.le_succ_of_le h4, ?_⟩
      · rw [decodeRest, if_pos ⟨hb, by omega⟩,
          show ((missing + 1 : Nat) : Int) - 1 = missing by omega, h1]
      · rw [emit_pos, Option.map_id, id, decodeFrom, h5]

theorem utf8Lookup_eq (b : UInt8) : utf8Lookup (b.toNat / 16) = width b := by
  rw [width, utf8Lookup]
  repeat' split
  all_goals rfl

theorem decodeLoop_eq : ∀ (turns : Nat) (bs : List UInt8) (cps : List Nat) (value missing : Nat),
    0 ∉ bs → bs.length ≤ turns → bs = [] ∨ missing = 0 →
    decodeLoop turns bs cps value missing =
      finish ((decodeFrom bs value missing).map fun r => (cps ++ r.1, r.2)) := by
  intro turns
  induction turns with
  | zero =>
    intro bs cps value missing _ hlen _
    obtain rfl : bs = [] := eq_nil_of_length_eq_zero (Nat.le_zero.mp hlen)
    simp [decodeLoop, decodeFrom, finish]
  | succ turns ih =>
    intro bs cps value missing h0 hlen hor
    cases bs with
    | nil => simp [decodeLoop, decodeFrom, finish]
    | cons b bs =>
      obtain rfl : missing = 0 := by simpa using hor
      have hb : b ≠ 0 := fun hb => h0 (hb ▸ mem_cons_self ..)
      have hbs : 0 ∉ bs := fun hbs => h0 (mem_cons_of_mem _ hbs)
      have hlen' : bs.length ≤ turns := Nat.le_of_succ_le_succ hlen
      rw [decodeLoop, if_neg hb, utf8Lookup_eq, decodeFrom]
      cases hw : width b with
      | zero => rfl
      | succ k =>
        simp only [show ((k + 1 : Nat) : Int) - 1 = k by omega,
          show ((7 : Int) - k).toNat = 7 - k by omega]
        obtain ⟨rest, value', missing', h1, h2, h3, h4, h5⟩ :=
          decodeRest_spec hbs (b.toNat % 2 ^ (7 - k)) k
        rw [if_neg (by omega), h1, h5]
        simp only
        rw [ih rest _ value' missing' h3 (Nat.le_trans h4 hlen') h2, Option.map_map]
        congr 2
        funext r
        by_cases hm : missing' = 0 <;> simp [emit, hm]

/-- The loop that continues the character of the last piece. -/
theorem continueDecode_eq (h0 : 0 ∉ bs) : ∀ value missing : Nat,
    continueDecode bs value missing =
      if (bs.take missing).all isContinuation
        then some (decodeRest bs value missing) else none := by
  induction bs with
  | nil => exact fun value missing => by simp [continueDecode, decodeRest]
  | cons b bs ih =>
    intro value missing
    have hb : b ≠ 0 := fun hb => h0 (hb ▸ mem_cons_self ..)
    have hbs : 0 ∉ bs := fun hbs => h0 (mem_cons_of_mem _ hbs)
    cases missing with
    | zero => simp [continueDecode, decodeRest]
    | succ missing =>
      have hpos : b ≠ 0 ∧ (0 : Int) < ((missing + 1 : Nat) : Int) := ⟨hb, by omega⟩
      rw [continueDecode, decodeRest, if_pos hpos, if_pos hpos,
        show ((missing + 1 : Nat) : Int) - 1 = missing by omega, ih hbs, take_succ_cons,
        all_cons]
      by_cases hc : b.toNat / 64 = 2 <;> simp [hc, isContinuation]

/-- One call, after a piece that was valid so far. -/
theorem decodeUtf8_eq (h0 : 0 ∉ s) (value missing : Nat) :
    decodeUtf8 s { value := value, nRemain := missing } =
      finish (if (s.take missing).all isContinuation
        then decodeFrom s value missing else none) := by
  rw [decodeUtf8]
  simp only
  rw [continueDecode_eq h0]
  split
  · rename_i h
    split at h
    · cases h
    · rename_i hc
      rw [if_neg hc]
      rfl
  · rename_i rest value' n h
    split at h
    · rename_i hc
      obtain ⟨rest', value'', missing', h1, h2, h3, h4, h5⟩ := decodeRest_spec h0 value missing
      rw [h1] at h
      cases h
      rw [if_pos hc, decodeLoop_eq _ _ _ _ _ h3 (Nat.le_refl _) h2]
      cases missing with
      | zero =>
        have hzero := (decodeRest_zero s value).symm.trans h1
        cases hzero
        simp
      | succ missing =>
        rw [emit_pos, Option.map_id, id] at h5
        rw [h5]
        congr 2
        funext r
        by_cases hm : missing' = 0 <;> simp [emit, hm]
    · cases h

/-- The empty partial state. -/
def PartialUtf8.empty : PartialUtf8 := { value := 0, nRemain := 0 }

/-- Two pieces decode to the same code points as one, and to the same partial state. -/
def ChunksAgree (b1 b2 : List UInt8) : Prop :=
  let r := decodeUtf8 (b1 ++ b2) .empty
  let r1 := decodeUtf8 b1 .empty
  let r2 := decodeUtf8 b2 r1.2
  r1.1.dropLast ++ r2.1.dropLast = r.1.dropLast ∧ r2.2 = r.2

/-- A continuation byte stands where a first byte should, when the given number of bytes is
missing of a character at the start. -/
def broken : List UInt8 → Nat → Bool
  | [], _ => false
  | _ :: bs, missing + 1 => broken bs missing
  | b :: bs, 0 => width b == 0 || broken bs (width b - 1)

/-- The number of bytes that are missing of the last character. -/
def missingAfter : List UInt8 → Nat → Nat
  | [], missing => missing
  | _ :: bs, missing + 1 => missingAfter bs missing
  | b :: bs, 0 => missingAfter bs (width b - 1)

/-- The bytes hold no complete character. -/
def Unfinished (bs : List UInt8) : Prop := ∀ b ∈ bs.head?, bs.length < width b

/-- The bytes that complete the last character of the first piece are continuation bytes. -/
def Resumes (b1 b2 : List UInt8) : Prop :=
  ∀ b ∈ b2.take (missingAfter b1 0), isContinuation b = true

/-- When the pieces agree. -/
structure ChunkSafe (b1 b2 : List UInt8) : Prop where
  restart : broken b1 0 = true → b2 = [] ∨ broken b2 0 = true
  /-- After a valid piece, either the text is valid and the second piece goes on with the last
  character, or the text is invalid and nothing has been decoded yet. -/
  resume : broken b1 0 = false → (Resumes b1 b2 ∧ broken (b1 ++ b2) 0 = false) ∨
    (Unfinished b1 ∧ broken (b1 ++ b2) 0 = true)

theorem decodeFrom_eq_none : ∀ {value missing : Nat},
    decodeFrom s value missing = none ↔ broken s missing = true := by
  induction s with
  | nil => simp [decodeFrom, broken]
  | cons b s ih =>
    intro value missing
    cases missing with
    | succ missing => rw [decodeFrom, broken, Option.map_eq_none_iff, ih]
    | zero =>
      rw [decodeFrom, broken]
      cases hw : width b with
      | zero => simp
      | succ k => simp [ih]

theorem missingAfter_eq : ∀ {value missing : Nat} {r : List Nat × Nat × Nat},
    decodeFrom s value missing = some r → missingAfter s missing = r.2.2 := by
  induction s with
  | nil =>
    intro value missing r h
    cases h
    rfl
  | cons b s ih =>
    intro value missing r h
    cases missing with
    | succ missing =>
      rw [decodeFrom] at h
      obtain ⟨q, hq, rfl⟩ := Option.map_eq_some_iff.mp h
      exact (ih hq).trans rfl
    | zero =>
      rw [decodeFrom] at h
      rw [missingAfter]
      cases hw : width b with
      | zero =>
        rw [hw] at h
        cases h
      | succ k =>
        rw [hw] at h
        obtain ⟨q, hq, rfl⟩ := Option.map_eq_some_iff.mp h
        exact (ih hq).trans rfl

theorem decoded_nil_of_missing : ∀ {value missing : Nat}
    {r : List Nat × Nat × Nat}, decodeFrom s value missing = some r → 0 < missing →
    (r.1 = [] ↔ s.length < missing) := by
  induction s with
  | nil =>
    intro value missing r h hpos
    cases h
    simpa using hpos
  | cons b s ih =>
    intro value missing r h hpos
    obtain ⟨k, rfl⟩ : ∃ k, missing = k + 1 := ⟨missing - 1, by omega⟩
    rw [decodeFrom] at h
    obtain ⟨q, hq, rfl⟩ := Option.map_eq_some_iff.mp h
    rw [length_cons]
    cases k with
    | zero => simp [emit]
    | succ k =>
      rw [emit_pos, id, ih hq (Nat.succ_pos k)]
      omega

/-- Nothing is decoded from the bytes of an incomplete character. -/
theorem decoded_nil_iff {value : Nat} (h : decodeFrom s value 0 = some r) :
    r.1 = [] ↔ Unfinished s := by
  cases s with
  | nil =>
    cases h
    simp [Unfinished]
  | cons b s =>
    rw [decodeFrom] at h
    simp only [Unfinished, head?_cons, Option.mem_some_iff, forall_eq', length_cons]
    cases hw : width b with
    | zero =>
      rw [hw] at h
      cases h
    | succ k =>
      rw [hw] at h
      obtain ⟨q, hq, rfl⟩ := Option.map_eq_some_iff.mp h
      cases k with
      | zero => simp [emit]
      | succ k =>
        rw [emit_pos, id, decoded_nil_of_missing hq (Nat.succ_pos k)]
        omega

theorem resumes_iff (h : decodeFrom b1 0 0 = some r) :
    (b2.take r.2.2).all isContinuation = true ↔ Resumes b1 b2 := by
  rw [Resumes, missingAfter_eq h, all_eq_true]

theorem decodeUtf8_start (h0 : 0 ∉ s) : decodeUtf8 s .empty = finish (decodeFrom s 0 0) := by
  have h := decodeUtf8_eq h0 0 0
  rw [take_zero, all_nil, if_pos rfl] at h
  exact h

/-- From the state of an invalid sequence, decoding starts anew. -/
theorem decodeUtf8_restart (h0 : 0 ∉ s) (hne : s ≠ []) :
    decodeUtf8 s { value := 0, nRemain := -1 } = finish (decodeFrom s 0 0) := by
  rw [← decodeUtf8_start h0]
  obtain ⟨b, bs, rfl⟩ := exists_cons_of_ne_nil hne
  have hb : b ≠ 0 := fun hb => h0 (hb ▸ mem_cons_self ..)
  simp [decodeUtf8, PartialUtf8.empty, continueDecode, decodeLoop, hb]

theorem chunks_agree_of_broken (h0 : 0 ∉ b1 ++ b2) (hb1 : broken b1 0 = true) :
    ChunksAgree b1 b2 ↔ b2 = [] ∨ broken b2 0 = true := by
  have h1 : 0 ∉ b1 := fun h => h0 (mem_append_left _ h)
  have h2 : 0 ∉ b2 := fun h => h0 (mem_append_right _ h)
  have hd1 : decodeFrom b1 0 0 = none := decodeFrom_eq_none.mpr hb1
  have hd : decodeFrom (b1 ++ b2) 0 0 = none := by rw [decodeFrom_append, hd1, Option.bind_none]
  simp only [ChunksAgree]
  rw [decodeUtf8_start h0, decodeUtf8_start h1, hd, hd1]
  by_cases hne : b2 = []
  · subst hne
    exact iff_of_true ⟨rfl, rfl⟩ (.inl rfl)
  · simp only [finish]
    rw [decodeUtf8_restart h2 hne]
    cases hd2 : decodeFrom b2 0 0 with
    | none => exact iff_of_true ⟨rfl, rfl⟩ (.inr (decodeFrom_eq_none.mp hd2))
    | some r =>
      have hb2 : ¬ broken b2 0 = true := fun h => by
        rw [decodeFrom_eq_none.mpr h] at hd2
        cases hd2
      refine iff_of_false (fun h => ?_) fun h => h.elim hne hb2
      have hmissing := congrArg PartialUtf8.nRemain h.2
      simp only [finish] at hmissing
      omega

theorem chunks_agree_of_valid (h0 : 0 ∉ b1 ++ b2) (hb1 : broken b1 0 = false) : ChunksAgree b1 b2 ↔
      (Resumes b1 b2 ∧ broken (b1 ++ b2) 0 = false) ∨
        (Unfinished b1 ∧ broken (b1 ++ b2) 0 = true) := by
  have h1 : 0 ∉ b1 := fun h => h0 (mem_append_left _ h)
  have h2 : 0 ∉ b2 := fun h => h0 (mem_append_right _ h)
  obtain ⟨r, hd1⟩ : ∃ r, decodeFrom b1 0 0 = some r := by
    rw [← Option.ne_none_iff_exists', Ne, decodeFrom_eq_none, hb1]
    exact nofun
  have happ : decodeFrom (b1 ++ b2) 0 0 =
      (decodeFrom b2 r.2.1 r.2.2).map fun q => (r.1 ++ q.1, q.2) := by
    rw [decodeFrom_append, hd1, Option.bind_some]
  have hbr : broken (b1 ++ b2) 0 = true ↔ decodeFrom b2 r.2.1 r.2.2 = none := by
    rw [← @decodeFrom_eq_none (b1 ++ b2) 0, happ, Option.map_eq_none_iff]
  simp only [ChunksAgree]
  rw [decodeUtf8_start h0, decodeUtf8_start h1, ← decoded_nil_iff hd1, ← @resumes_iff _ b2 _ hd1,
    happ, hd1]
  simp only [finish]
  rw [decodeUtf8_eq h2]
  cases hd2 : decodeFrom b2 r.2.1 r.2.2 with
  | none =>
    have hb := hbr.mpr hd2
    simp [finish, hb]
  | some q =>
    have hb : broken (b1 ++ b2) 0 = false := by
      rw [← Bool.not_eq_true, hbr, hd2]
      simp
    by_cases hc : (b2.take r.2.2).all isContinuation = true
    · simp only [hc, hb, if_true]
      simp [finish]
    · simp only [hc, hb]
      simp [finish]

/-- Two pieces of a text without NUL agree exactly when that is safe. -/
theorem chunks_agree_iff {b1 b2 : List UInt8} (h0 : 0 ∉ b1 ++ b2) :
    ChunksAgree b1 b2 ↔ ChunkSafe b1 b2 := by
  cases hb1 : broken b1 0 with
  | true =>
    rw [chunks_agree_of_broken h0 hb1]
    exact ⟨fun h => ⟨fun _ => h, fun hb => (Bool.false_ne_true (hb.symm.trans hb1)).elim⟩,
      fun h => h.restart hb1⟩
  | false =>
    rw [chunks_agree_of_valid h0 hb1]
    exact ⟨fun h => ⟨fun hb => (Bool.false_ne_true (hb1.symm.trans hb)).elim, fun _ => h⟩,
      fun h => h.resume hb1⟩

/-- The two bytes of a character in two pieces. -/
theorem chunks_agree_twoBytes : ChunksAgree [0xc3] [0xa9] ↔ ChunkSafe [0xc3] [0xa9] :=
  chunks_agree_iff (by decide)

/-- A first byte and a letter are one code point in one piece, and invalid in two. -/
theorem chunks_disagree : ¬ ChunksAgree [0xc3] [0x41] := by
  unfold ChunksAgree
  decide

end Llama.Grammar
