import Llama.Lib.Bytes

/-!
# Readers of untrusted bytes

A reader of bytes nobody vouches for ends with a value, rejects its input, or faults: a failed
assertion, a division by zero. `Covers` describes such a reader completely, by the bytes it
accepts and the inputs on which it faults, and its rules follow the shape of the reader.
-/

namespace Llama.Bytes

open List

/-- How a run ends without a value. -/
inductive Stop (ε : Type) where
  /-- The input is rejected. -/
  | reject
  /-- The program dies. -/
  | fault (e : ε)
  deriving DecidableEq, Repr

/-- Consume bytes from the front, with three ways to end. -/
abbrev Run (ε : Type) := StateT (List UInt8) (Except (Stop ε))

variable {ε α β : Type}

/-- A reader that never faults. -/
def Run.ofReader (r : Reader α) : Run ε α := fun s =>
  match r s with
  | some p => .ok p
  | none => .error .reject

/-- Reject unless a check holds. -/
def Run.guard (b : Bool) : Run ε Unit := fun s => if b then .ok ((), s) else .error .reject

/-- Fault unless an assertion holds. -/
def Run.ensure (b : Bool) (e : ε) : Run ε Unit := fun s =>
  if b then .ok ((), s) else .error (.fault e)

variable {r : Run ε α} {f : α → Run ε β} {s : List UInt8} {b : Bool} {n w : Nat}
  {L L' : List UInt8 → α → Prop} {F : List UInt8 → Prop}

theorem Run.bind_ok {s' : List UInt8} {a : α} (h : r s = .ok (a, s')) : (r >>= f) s = f a s' := by
  change (r s).bind (fun p => f p.1 p.2) = _
  rw [h]
  rfl

theorem Run.bind_error {e : Stop ε} (h : r s = .error e) : (r >>= f) s = .error e := by
  change (r s).bind (fun p => f p.1 p.2) = _
  rw [h]
  rfl

theorem Run.guard_of_true (h : b = true) (s : List UInt8) :
    (Run.guard b : Run ε Unit) s = .ok ((), s) := by rw [Run.guard, if_pos h]

theorem Run.guard_of_false (h : b = false) (s : List UInt8) :
    (Run.guard b : Run ε Unit) s = .error .reject := by rw [Run.guard, if_neg (by simp [h])]

theorem Run.ensure_of_true (h : b = true) (e : ε) (s : List UInt8) :
    (Run.ensure b e : Run ε Unit) s = .ok ((), s) := by rw [Run.ensure, if_pos h]

theorem leNat_lt (bs : List UInt8) : leNat bs < 256 ^ bs.length := by
  induction bs with
  | nil => simp [leNat]
  | cons b bs ih =>
    have hb := b.toNat_lt
    rw [leNat, length_cons, Nat.pow_succ]
    omega

theorem leBytes_leNat (bs : List UInt8) : leBytes bs.length (leNat bs) = bs := by
  induction bs with
  | nil => rfl
  | cons b bs ih =>
    have hb : b.toNat < 256 := b.toNat_lt
    have hdiv : (b.toNat + 256 * leNat bs) / 256 = leNat bs := by omega
    rw [length_cons, leBytes, leNat, hdiv, ih]
    congr 1
    apply UInt8.toNat_inj.mp
    rw [UInt8.toNat_ofNat']
    omega

theorem fitsInt_signed (h : n < 256 ^ w) : FitsInt w (signed w n) := by
  unfold FitsInt signed
  split
  · constructor <;> omega
  · constructor <;> omega

theorem intBytes_signed (h : n < 256 ^ w) : intBytes w (signed w n) = leBytes w n := by
  have hmod : signed w n % (256 ^ w : Nat) = n := by
    unfold signed
    split
    · exact Int.emod_eq_of_lt (by omega) (by omega)
    · rw [Int.sub_emod_right]
      exact Int.emod_eq_of_lt (by omega) (by omega)
  rw [intBytes, hmod, Int.toNat_natCast]

/-- The reader accepts the front `bs` of its input as `a` exactly when `L bs a`, and faults
exactly on the inputs in `F`. -/
structure Covers (r : Run ε α) (L : List UInt8 → α → Prop) (F : List UInt8 → Prop) : Prop where
  ok : ∀ s a s', r s = .ok (a, s') ↔ ∃ bs, s = bs ++ s' ∧ L bs a
  fault : ∀ s, (∃ e, r s = .error (.fault e)) ↔ F s

theorem Covers.congr {F' : List UInt8 → Prop} (h : Covers r L F) (hL : ∀ bs a, L bs a ↔ L' bs a)
    (hF : ∀ s, F s ↔ F' s) : Covers r L' F' :=
  ⟨fun s a s' => by simp only [h.ok, hL], fun s => (h.fault s).trans (hF s)⟩

theorem covers_pure (a : α) :
    Covers (Pure.pure a : Run ε α) (fun bs b => bs = [] ∧ b = a) fun _ => False := by
  refine ⟨fun s b s' => ?_, fun s => ?_⟩
  · change Except.ok (a, s) = Except.ok (b, s') ↔ _
    simp only [Except.ok.injEq, Prod.mk.injEq]
    constructor
    · rintro ⟨rfl, rfl⟩
      exact ⟨[], rfl, rfl, rfl⟩
    · rintro ⟨bs, rfl, rfl, rfl⟩
      exact ⟨rfl, rfl⟩
  · refine iff_of_false ?_ not_false
    rintro ⟨e, he⟩
    cases he

theorem covers_guard (b : Bool) :
    Covers (Run.guard b : Run ε Unit) (fun bs _ => bs = [] ∧ b = true) fun _ => False := by
  refine ⟨fun s a s' => ?_, fun s => ?_⟩
  · cases b <;> simp [Run.guard]
  · cases b <;> simp [Run.guard]

theorem covers_ensure (b : Bool) (e : ε) :
    Covers (Run.ensure b e : Run ε Unit) (fun bs _ => bs = [] ∧ b = true) fun _ => b = false := by
  refine ⟨fun s a s' => ?_, fun s => ?_⟩
  · cases b <;> simp [Run.ensure]
  · cases b <;> simp [Run.ensure]

theorem Covers.bind {r : Run ε α} {f : α → Run ε β} {L : List UInt8 → α → Prop}
    {F : List UInt8 → Prop} {M : α → List UInt8 → β → Prop} {G : α → List UInt8 → Prop}
    (h : Covers r L F) (h' : ∀ a, (∃ bs, L bs a) → Covers (f a) (M a) (G a)) :
    Covers (r >>= f) (fun bs b => ∃ a bs₁ bs₂, bs = bs₁ ++ bs₂ ∧ L bs₁ a ∧ M a bs₂ b)
      (fun s => F s ∨ ∃ a bs s', s = bs ++ s' ∧ L bs a ∧ G a s') := by
  have hbind : ∀ s, (r >>= f) s = (r s).bind fun p => f p.1 p.2 := fun s => rfl
  refine ⟨fun s b s'' => ?_, fun s => ?_⟩
  · rw [hbind]
    constructor
    · intro hr
      cases hs : r s with
      | error e => simp [hs, Except.bind] at hr
      | ok p =>
        rw [hs] at hr
        obtain ⟨bs₁, h1, hL⟩ := (h.ok s p.1 p.2).mp hs
        obtain ⟨bs₂, h2, hM⟩ := ((h' p.1 ⟨bs₁, hL⟩).ok p.2 b s'').mp hr
        exact ⟨bs₁ ++ bs₂, by rw [h1, h2, append_assoc], p.1, bs₁, bs₂, rfl, hL, hM⟩
    · rintro ⟨_, rfl, a, bs₁, bs₂, rfl, hL, hM⟩
      rw [append_assoc, (h.ok _ a (bs₂ ++ s'')).mpr ⟨bs₁, rfl, hL⟩]
      exact ((h' a ⟨bs₁, hL⟩).ok _ b s'').mpr ⟨bs₂, rfl, hM⟩
  · rw [hbind]
    cases hs : r s with
    | error e =>
      have hno : ∀ a bs s', s = bs ++ s' → ¬ L bs a := by
        intro a bs s' hb hL
        rw [(h.ok s a s').mpr ⟨bs, hb, hL⟩] at hs
        cases hs
      constructor
      · rintro ⟨e', he⟩
        cases he
        exact .inl ((h.fault s).mp ⟨e', hs⟩)
      · rintro (hF | ⟨a, bs, s', hb, hL, -⟩)
        · obtain ⟨e', he⟩ := (h.fault s).mpr hF
          exact ⟨e', by rw [← hs, he]; rfl⟩
        · exact (hno a bs s' hb hL).elim
    | ok p =>
      obtain ⟨bs, hb, hL⟩ := (h.ok s p.1 p.2).mp hs
      constructor
      · intro hf
        exact .inr ⟨p.1, bs, p.2, hb, hL, ((h' p.1 ⟨bs, hL⟩).fault p.2).mp hf⟩
      · rintro (hF | ⟨a, bs', s', hb', hL', hG⟩)
        · obtain ⟨e', he⟩ := (h.fault s).mpr hF
          rw [hs] at he
          cases he
        · have hp := (h.ok s a s').mpr ⟨bs', hb', hL'⟩
          rw [hs] at hp
          cases hp
          exact ((h' a ⟨bs', hL'⟩).fault s').mpr hG

theorem Covers.guard {f : Unit → Run ε α} (h : b = true → Covers (f ()) L F) :
    Covers (Run.guard b >>= f) (fun bs a => b = true ∧ L bs a) (fun s => b = true ∧ F s) := by
  refine ((covers_guard b).bind (M := fun _ => L) (G := fun _ => F) ?_).congr ?_ ?_
  · rintro ⟨⟩ ⟨bs, -, hb⟩
    exact h hb
  · intro bs a
    constructor
    · rintro ⟨-, _, bs₂, rfl, ⟨rfl, hb⟩, hL⟩
      exact ⟨hb, hL⟩
    · rintro ⟨hb, hL⟩
      exact ⟨(), [], bs, rfl, ⟨rfl, hb⟩, hL⟩
  · intro s
    constructor
    · rintro (hF | ⟨-, _, s', rfl, ⟨rfl, hb⟩, hF⟩)
      · exact hF.elim
      · exact ⟨hb, hF⟩
    · rintro ⟨hb, hF⟩
      exact .inr ⟨(), [], s, rfl, ⟨rfl, hb⟩, hF⟩

/-- A value computed from the one read. -/
theorem Covers.map {g : α → β} (h : Covers r L F) :
    Covers (r >>= fun a => Pure.pure (g a)) (fun bs b => ∃ a, L bs a ∧ b = g a) F := by
  refine (h.bind fun a _ => covers_pure (g a)).congr ?_ ?_
  · intro bs b
    constructor
    · rintro ⟨a, bs₁, _, rfl, hL, rfl, rfl⟩
      exact ⟨a, by rwa [append_nil], rfl⟩
    · rintro ⟨a, hL, rfl⟩
      exact ⟨a, bs, [], (append_nil bs).symm, hL, rfl, rfl⟩
  · intro s
    simp

/-- The reader accepts exactly the fronts in `L`. -/
def Spells (r : Reader α) (L : List UInt8 → α → Prop) : Prop :=
  ∀ s a s', r s = some (a, s') ↔ ∃ bs, s = bs ++ s' ∧ L bs a

theorem Spells.covers {r : Reader α} (h : Spells r L) :
    Covers (Run.ofReader r : Run ε α) L fun _ => False := by
  refine ⟨fun s a s' => ?_, fun s => ?_⟩
  · rw [← h s a s', Run.ofReader]
    cases r s <;> simp
  · rw [Run.ofReader]
    cases r s <;> simp

theorem Spells.of_covers {r : Reader α} (h : Covers (Run.ofReader r : Run Empty α) L F) :
    Spells r L := by
  intro s a s'
  rw [← h.ok s a s', Run.ofReader]
  cases r s <;> simp

theorem ofReader_bind (r : Reader α) (f : α → Reader β) :
    (Run.ofReader (r >>= f) : Run ε β) = Run.ofReader r >>= fun a => Run.ofReader (f a) := by
  funext s
  change (match (r s).bind fun p => f p.1 p.2 with
    | some p => Except.ok p
    | none => Except.error Stop.reject) = (Run.ofReader r s).bind fun p => Run.ofReader (f p.1) p.2
  rw [Run.ofReader]
  cases hs : r s with
  | none => rfl
  | some p => rfl

theorem ofReader_pure (a : α) : (Run.ofReader (Pure.pure a) : Run ε α) = Pure.pure a := rfl

theorem ofReader_check (b : Bool) : (Run.ofReader (Reader.check b) : Run ε Unit) = Run.guard b := by
  funext s
  cases b <;> rfl

theorem Spells.congr {r : Reader α} (h : Spells r L) (hL : ∀ bs a, L bs a ↔ L' bs a) :
    Spells r L' := by
  intro s a s'
  simp only [h s a s', hL]

theorem Spells.bind {r : Reader α} {f : α → Reader β} {L : List UInt8 → α → Prop}
    {M : α → List UInt8 → β → Prop} (h : Spells r L)
    (h' : ∀ a, (∃ bs, L bs a) → Spells (f a) (M a)) :
    Spells (r >>= f) fun bs b => ∃ a bs₁ bs₂, bs = bs₁ ++ bs₂ ∧ L bs₁ a ∧ M a bs₂ b := by
  apply Spells.of_covers
  · rw [ofReader_bind]
    exact h.covers.bind fun a ha => (h' a ha).covers

theorem Spells.check {f : Unit → Reader α} (h : b = true → Spells (f ()) L) :
    Spells (Reader.check b >>= f) fun bs a => b = true ∧ L bs a := by
  apply Spells.of_covers
  · rw [ofReader_bind, ofReader_check]
    exact Covers.guard fun hb => (h hb).covers

theorem Spells.map {r : Reader α} {g : α → β} {L : List UInt8 → α → Prop} (h : Spells r L) :
    Spells (r >>= fun a => Pure.pure (g a)) fun bs b => ∃ a, L bs a ∧ b = g a := by
  apply Spells.of_covers
  · rw [ofReader_bind]
    exact h.covers.map

theorem spells_pure (a : α) : Spells (Pure.pure a : Reader α) fun bs b => bs = [] ∧ b = a :=
  Spells.of_covers (covers_pure a)

theorem spells_fail : Spells (Reader.fail : Reader α) fun _ _ => False := by
  intro s a s'
  simp [Reader.fail]

theorem spells_bytes (n : Nat) : Spells (Reader.bytes n) fun bs a => bs = a ∧ a.length = n := by
  intro s a s'
  rw [Reader.bytes]
  constructor
  · intro h
    split at h
    · rename_i hn
      cases h
      exact ⟨s.take n, (take_append_drop n s).symm, rfl, by rw [length_take]; omega⟩
    · cases h
  · rintro ⟨_, rfl, rfl, rfl⟩
    simp

theorem spells_uint (w : Nat) :
    Spells (Reader.uint w) fun bs n => bs = leBytes w n ∧ n < 256 ^ w := by
  refine (spells_bytes w).map.congr fun bs n => ?_
  constructor
  · rintro ⟨_, ⟨rfl, rfl⟩, rfl⟩
    exact ⟨(leBytes_leNat bs).symm, leNat_lt bs⟩
  · rintro ⟨rfl, hn⟩
    exact ⟨_, ⟨rfl, leBytes_length w n⟩, (leNat_leBytes_of_lt hn).symm⟩

theorem spells_int (w : Nat) :
    Spells (Reader.int w) fun bs z => bs = intBytes w z ∧ FitsInt w z := by
  refine (spells_uint w).map.congr fun bs z => ?_
  constructor
  · rintro ⟨n, ⟨rfl, hn⟩, rfl⟩
    exact ⟨(intBytes_signed hn).symm, fitsInt_signed hn⟩
  · rintro ⟨rfl, hz⟩
    have hlt := leNat_lt (intBytes w z)
    rw [intBytes_length] at hlt
    refine ⟨leNat (intBytes w z), ⟨?_, hlt⟩, (signed_leNat_intBytes hz).symm⟩
    conv_lhs => rw [← leBytes_leNat (intBytes w z), intBytes_length]

section Loop

variable {γ ω : Type} {g : List γ → Run ε γ} {l : Nat → List γ → Run ε (List γ)}
  {enc : ω → List UInt8} {dec : ω → γ} {Ok : List γ → ω → Prop} {F : List γ → List UInt8 → Prop}

/-- Every item is in order after those before it. -/
def Chain (dec : ω → γ) (Ok : List γ → ω → Prop) : List γ → List ω → Prop
  | _, [] => True
  | acc, w :: ws => Ok acc w ∧ Chain dec Ok (acc ++ [dec w]) ws

/-- Items that are in order by themselves, under names that are new. -/
theorem chain_fresh {κ : Type} (key : γ → κ) (name : ω → κ) {P : ω → Prop}
    (hk : ∀ w, key (dec w) = name w) (ws : List ω) (acc : List γ) :
    Chain dec (fun acc w => P w ∧ ∀ y ∈ acc, key y ≠ name w) acc ws ↔
      (∀ w ∈ ws, P w) ∧ (ws.map name).Nodup ∧ ∀ w ∈ ws, ∀ y ∈ acc, key y ≠ name w := by
  induction ws generalizing acc with
  | nil => simp [Chain]
  | cons w ws ih =>
    simp only [Chain, ih, forall_mem_append, forall_mem_singleton, hk, forall_mem_cons, map_cons,
      nodup_cons, mem_map, not_exists, not_and]
    constructor
    · rintro ⟨⟨hw, hfresh⟩, hP, hnd, hnew⟩
      exact ⟨⟨hw, hP⟩, ⟨fun v hv he => (hnew v hv).2 he.symm, hnd⟩, hfresh, fun v hv =>
        (hnew v hv).1⟩
    · rintro ⟨⟨hw, hP⟩, ⟨hne, hnd⟩, hfresh, hnew⟩
      exact ⟨⟨hw, hfresh⟩, hP, hnd, fun v hv => ⟨hnew v hv, fun he => hne v hv he.symm⟩⟩

/-- A loop that appends one item per turn accepts the encodings of chains of items, and faults
behind the encoding of a chain where the next item makes it fault. -/
theorem covers_loop (h0 : ∀ acc, l 0 acc = Pure.pure acc)
    (hs : ∀ n acc, l (n + 1) acc = g acc >>= fun x => l n (acc ++ [x]))
    (hitem : ∀ acc, Covers (g acc) (fun bs x => ∃ w, bs = enc w ∧ x = dec w ∧ Ok acc w) (F acc))
    (n : Nat) (acc : List γ) :
    Covers (l n acc)
      (fun bs xs => ∃ ws : List ω, ws.length = n ∧ bs = ws.flatMap enc ∧ xs = acc ++ ws.map dec ∧
        Chain dec Ok acc ws)
      (fun s => ∃ (ws : List ω) (s' : List UInt8), ws.length < n ∧ s = ws.flatMap enc ++ s' ∧
        Chain dec Ok acc ws ∧ F (acc ++ ws.map dec) s') := by
  induction n generalizing acc with
  | zero =>
    rw [h0]
    refine (covers_pure acc).congr (fun bs xs => ?_) (fun s => ?_)
    · constructor
      · rintro ⟨rfl, rfl⟩
        exact ⟨[], rfl, rfl, by simp, trivial⟩
      · rintro ⟨ws, hw, rfl, rfl, -⟩
        rw [length_eq_zero_iff.mp hw]
        exact ⟨rfl, by simp⟩
    · simp
  | succ n ih =>
    rw [hs]
    refine ((hitem acc).bind fun x _ => ih (acc ++ [x])).congr (fun bs xs => ?_) (fun s => ?_)
    · constructor
      · rintro ⟨_, _, _, rfl, ⟨w, rfl, rfl, hok⟩, ws, rfl, rfl, rfl, hch⟩
        exact ⟨w :: ws, rfl, by simp, by simp, hok, hch⟩
      · rintro ⟨ws, hlen, rfl, rfl, hch⟩
        cases ws with
        | nil => cases hlen
        | cons w ws =>
          exact ⟨dec w, enc w, ws.flatMap enc, by simp, ⟨w, rfl, rfl, hch.1⟩, ws,
            Nat.succ.inj hlen, rfl, by simp, hch.2⟩
    · constructor
      · rintro (hF | ⟨_, _, _, rfl, ⟨w, rfl, rfl, hok⟩, ws, s', hlen, rfl, hch, hF⟩)
        · exact ⟨[], s, by simp, by simp, trivial, by simpa using hF⟩
        · exact ⟨w :: ws, s', by simpa using hlen, by simp, ⟨hok, hch⟩, by simpa using hF⟩
      · rintro ⟨ws, s', hlen, rfl, hch, hF⟩
        cases ws with
        | nil => exact .inl (by simpa using hF)
        | cons w ws =>
          exact .inr ⟨dec w, enc w, ws.flatMap enc ++ s', by simp, ⟨w, rfl, rfl, hch.1⟩, ws, s',
            by simpa using hlen, rfl, hch.2, by simpa using hF⟩

end Loop

/-- A l over items that do not depend on each other. -/
theorem spells_loop {γ ω : Type} (item : Reader γ) {loop : Nat → List γ → Reader (List γ)}
    {enc : ω → List UInt8} {dec : ω → γ} {ok : ω → Prop} (h0 : ∀ acc, loop 0 acc = Pure.pure acc)
    (hs : ∀ n acc, loop (n + 1) acc = item >>= fun x => loop n (acc ++ [x]))
    (hitem : Spells item fun bs x => ∃ w, bs = enc w ∧ x = dec w ∧ ok w) (n : Nat) :
    Spells (loop n []) fun bs xs => ∃ ws : List ω, ws.length = n ∧ bs = ws.flatMap enc ∧
      xs = ws.map dec ∧ ∀ w ∈ ws, ok w := by
  have hchain : ∀ (ws : List ω) (acc : List γ),
      Chain dec (fun _ => ok) acc ws ↔ ∀ w ∈ ws, ok w := by
    intro ws
    induction ws with
    | nil => simp [Chain]
    | cons w ws ih => simp [Chain, ih]
  apply Spells.of_covers
  · refine (covers_loop (g := fun _ => Run.ofReader item)
      (l := fun n acc => Run.ofReader (loop n acc)) (fun acc => ?_) (fun n acc => ?_)
      (fun acc => hitem.covers) n []).congr (fun bs xs => ?_) (fun s => Iff.rfl)
    · rw [h0, ofReader_pure]
    · rw [hs, ofReader_bind]
    · simp only [nil_append, hchain]

end Llama.Bytes
