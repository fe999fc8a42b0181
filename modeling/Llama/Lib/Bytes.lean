import Mathlib.Data.List.Basic
import Mathlib.Tactic.Ring

/-!
# Byte streams

Little-endian integers, and readers that consume a byte list from the front. `Reads`
states the result of a reader on one input; its rules follow the shape of the reader,
so a round trip is proved by walking through the reader once.
-/

namespace Llama.Bytes

open List

/-- The `w` low bytes of `n`, least significant first. -/
def leBytes : Nat → Nat → List UInt8
  | 0, _ => []
  | w + 1, n => UInt8.ofNat n :: leBytes w (n / 256)

/-- Value of little-endian bytes. -/
def leNat : List UInt8 → Nat
  | [] => 0
  | b :: bs => b.toNat + 256 * leNat bs

@[simp] theorem leBytes_length (w n : Nat) : (leBytes w n).length = w := by
  induction w generalizing n with
  | zero => rfl
  | succ w ih => simp [leBytes, ih]

theorem leNat_leBytes (w n : Nat) : leNat (leBytes w n) = n % 256 ^ w := by
  induction w generalizing n with
  | zero => simp [leBytes, leNat, Nat.mod_one]
  | succ w ih =>
    rw [leBytes, leNat, ih, Nat.pow_succ, Nat.mul_comm _ 256, Nat.mod_mul]
    simp

variable {n w : Nat} {z : Int}

theorem leNat_leBytes_of_lt (h : n < 256 ^ w) : leNat (leBytes w n) = n := by
  rw [leNat_leBytes, Nat.mod_eq_of_lt h]

/-- Two's complement of `w` bytes. -/
def intBytes (w : Nat) (z : Int) : List UInt8 := leBytes w (z % (256 ^ w : Nat)).toNat

/-- Signed value of `w` bytes that were read as `n`. -/
def signed (w n : Nat) : Int := if 2 * n < 256 ^ w then n else (n : Int) - (256 ^ w : Nat)

/-- A signed integer of `w` bytes. -/
def FitsInt (w : Nat) (z : Int) : Prop := -(256 ^ w : Nat) ≤ 2 * z ∧ 2 * z < (256 ^ w : Nat)

instance (w : Nat) (z : Int) : Decidable (FitsInt w z) := instDecidableAnd

@[simp] theorem intBytes_length (w : Nat) (z : Int) : (intBytes w z).length = w :=
  leBytes_length _ _

theorem signed_leNat_intBytes (h : FitsInt w z) : signed w (leNat (intBytes w z)) = z := by
  obtain ⟨h1, h2⟩ := h
  have hpos : (0 : Int) < (256 ^ w : Nat) := Int.natCast_pos.mpr (Nat.pow_pos (by decide))
  generalize hm : (256 ^ w : Nat) = m at *
  have hlt : (z % (m : Int)).toNat < 256 ^ w := by
    have := Int.emod_lt_of_pos z hpos
    have := Int.emod_nonneg z (ne_of_gt hpos)
    omega
  rw [intBytes, hm, leNat_leBytes_of_lt hlt, signed, hm]
  rcases lt_or_ge z 0 with hz | hz
  · have he : z % (m : Int) = z + m := by
      rw [← Int.add_emod_right]
      exact Int.emod_eq_of_lt (by omega) (by omega)
    rw [he]
    split <;> omega
  · have he : z % (m : Int) = z := Int.emod_eq_of_lt hz (by omega)
    rw [he]
    split <;> omega

/-- Consume bytes from the front; `none` is a failed read or a rejected value. -/
abbrev Reader := StateT (List UInt8) Option

/-- The next `n` bytes. -/
def Reader.bytes (n : Nat) : Reader (List UInt8) := fun s =>
  if n ≤ s.length then some (s.take n, s.drop n) else none

/-- An unsigned integer of `w` bytes. -/
def Reader.uint (w : Nat) : Reader Nat := do
  let bs ← Reader.bytes w
  pure (leNat bs)

/-- A signed integer of `w` bytes. -/
def Reader.int (w : Nat) : Reader Int := do
  let n ← Reader.uint w
  pure (signed w n)

/-- Reject unless a check holds. -/
def Reader.check (b : Bool) : Reader Unit := fun s => if b then some ((), s) else none

/-- Reject unless that many bytes remain. -/
def Reader.remain (n : Nat) : Reader Unit := fun s => if n ≤ s.length then some ((), s) else none

variable {α β : Type}

/-- Reject. -/
def Reader.fail : Reader α := fun _ => none

/-- A value that may be missing. -/
def Reader.ofOption (o : Option α) : Reader α := fun s => o.map fun a => (a, s)

/-- Reader `r` consumes the front of `s`, gives `a` and leaves `s'`. -/
def Reads (r : Reader α) (s : List UInt8) (a : α) (s' : List UInt8) : Prop := r s = some (a, s')

theorem Reads.pure (a : α) (s : List UInt8) : Reads (Pure.pure a) s a s := rfl

theorem Reads.bind {r : Reader α} {f : α → Reader β} {s s' s'' : List UInt8} {a : α} {b : β}
    (h : Reads r s a s') (h' : Reads (f a) s' b s'') : Reads (r >>= f) s b s'' := by
  change (r s).bind (fun p => f p.1 p.2) = some (b, s'')
  rw [h]
  exact h'

variable {r : Reader α} {f : α → Reader β} {s s' bs : List UInt8} {a : α} {b : Bool} {ok : Prop}

theorem bind_fails (h : r s = none) : (r >>= f) s = none := by
  change (r s).bind (fun p => f p.1 p.2) = none
  rw [h]
  rfl

/-- A reader that fails after its first part. -/
theorem Reads.bind_fails (h : Reads r s a s') (h' : f a s' = none) : (r >>= f) s = none := by
  change (r s).bind (fun p => f p.1 p.2) = none
  rw [h]
  exact h'

theorem Reads.unique {s'' : List UInt8} {b : α} (h : Reads r s a s') (h' : Reads r s b s'') :
    a = b ∧ s' = s'' := by
  have := (h.symm.trans h')
  simpa using this

theorem reads_bytes (h : bs.length = n) (s : List UInt8) :
    Reads (Reader.bytes n) (bs ++ s) bs s := by
  subst h
  simp [Reads, Reader.bytes]

theorem reads_uint (h : n < 256 ^ w) (s : List UInt8) :
    Reads (Reader.uint w) (leBytes w n ++ s) n s := by
  have := Reads.bind (f := fun bs => Pure.pure (leNat bs))
    (reads_bytes (leBytes_length w n) s) (Reads.pure _ _)
  rwa [leNat_leBytes_of_lt h] at this

theorem reads_int (h : FitsInt w z) (s : List UInt8) :
    Reads (Reader.int w) (intBytes w z ++ s) z s := by
  have h1 : Reads (Reader.uint w) (intBytes w z ++ s) (leNat (intBytes w z)) s :=
    Reads.bind (reads_bytes (intBytes_length w z) s) (Reads.pure _ _)
  have := Reads.bind (f := fun n => Pure.pure (signed w n)) h1 (Reads.pure _ _)
  rwa [signed_leNat_intBytes h] at this

theorem reads_check (h : b = true) (s : List UInt8) :
    Reads (Reader.check b) s () s := by simp [Reads, Reader.check, h]

/-- A loop that reads one encoded item per turn. -/
theorem reads_foldlM {γ : Type} {f : β → γ → Reader β} {e : γ → List UInt8} {g : β → γ → β} :
    ∀ (l : List γ) (b : β) (s : List UInt8),
    (∀ b, ∀ x ∈ l, ∀ s, Reads (f b x) (e x ++ s) (g b x) s) →
    Reads (l.foldlM f b) (l.flatMap e ++ s) (l.foldl g b) s
  | [], b, s, _ => Reads.pure b s
  | x :: l, b, s, h => by
    rw [foldlM_cons, flatMap_cons, append_assoc, foldl_cons]
    exact Reads.bind (h b x mem_cons_self _)
      (reads_foldlM l (g b x) s fun b y hy => h b y (mem_cons_of_mem x hy))

/-- A counting loop with an invariant on the number of finished turns. -/
theorem reads_range {f : β → Nat → Reader β} {e : Nat → List UInt8} {P : Nat → β → Prop} {b : β} :
    ∀ (n : Nat), P 0 b → (∀ k < n, ∀ b, P k b → ∃ b', P (k + 1) b' ∧
      ∀ s, Reads (f b k) (e k ++ s) b' s) →
    ∃ b', P n b' ∧ ∀ s, Reads ((range n).foldlM f b) ((range n).flatMap e ++ s) b' s
  | 0, h0, _ => ⟨b, h0, fun s => Reads.pure b s⟩
  | n + 1, h0, hs => by
    obtain ⟨b1, hP, hr⟩ := reads_range n h0 fun k hk => hs k (by omega)
    obtain ⟨b2, hP', hr'⟩ := hs n (Nat.lt_succ_self n) b1 hP
    refine ⟨b2, hP', fun s => ?_⟩
    rw [range_succ, foldlM_append, flatMap_append, append_assoc]
    refine Reads.bind (hr _) ?_
    rw [flatMap_singleton]
    simpa only [foldlM_cons, foldlM_nil, bind_pure] using hr' s

/-! ### What every result of a reader satisfies -/

/-- Whatever the input, a value that the reader gives satisfies `P`. -/
def Ensures (r : Reader α) (P : α → Prop) : Prop := ∀ s a s', Reads r s a s' → P a

theorem Ensures.pure {P : α → Prop} {a : α} (h : P a) : Ensures (Pure.pure a) P := by
  intro s b s' hr
  obtain ⟨rfl, -⟩ := (Reads.pure a s).unique hr
  exact h

theorem Ensures.of_fails (h : ∀ s, r s = none) (P : α → Prop) : Ensures r P := by
  intro s a s' hr
  rw [Reads, h s] at hr
  cases hr

theorem Ensures.trivial (r : Reader α) : Ensures r fun _ => True := fun _ _ _ _ => True.intro

theorem Ensures.bind {r : Reader α} {f : α → Reader β} {P : α → Prop} {Q : β → Prop}
    (hr : Ensures r P) (hf : ∀ a, P a → Ensures (f a) Q) : Ensures (r >>= f) Q := by
  intro s b s'' h
  change (r s).bind (fun p => f p.1 p.2) = some (b, s'') at h
  obtain ⟨⟨a, s'⟩, ha, hb⟩ := Option.bind_eq_some_iff.mp h
  exact hf a (hr s a s' ha) s' b s'' hb

/-- A first part whose result does not matter. -/
theorem Ensures.after {Q : β → Prop} (hf : ∀ a, Ensures (f a) Q) : Ensures (r >>= f) Q :=
  (Ensures.trivial r).bind fun a _ => hf a

theorem Ensures.foldlM {γ : Type} {f : β → γ → Reader β} {P : β → Prop}
    (hf : ∀ b c, P b → Ensures (f b c) P) : ∀ (l : List γ) (b : β), P b → Ensures (l.foldlM f b) P
  | [], _, h => Ensures.pure h
  | c :: l, b, h => (hf b c h).bind fun b' hb' => Ensures.foldlM hf l b' hb'

/-- Counting through a list is the list. -/
theorem map_getD_range {γ : Type} (l : List γ) (d : γ) :
    (range l.length).map (fun j => l.getD j d) = l := by
  apply ext_getElem
  · simp
  · intro i h1 h2
    simp [getD_eq_getElem?_getD, h2]

/-- On `bs` and whatever follows, the reader gives `a` and leaves the rest when `ok` holds, and
fails when it does not. -/
def Codes (r : Reader α) (bs : List UInt8) (ok : Prop) (a : α) : Prop :=
  ∀ s, (ok → r (bs ++ s) = some (a, s)) ∧ (¬ ok → r (bs ++ s) = none)

theorem Codes.of_reads (h : ∀ s, Reads r (bs ++ s) a s) : Codes r bs True a :=
  fun s => ⟨fun _ => h s, fun hn => (hn trivial).elim⟩

theorem Codes.congr {ok' : Prop} (h : Codes r bs ok a) (hok : ok ↔ ok') : Codes r bs ok' a :=
  fun s => ⟨fun h' => (h s).1 (hok.mpr h'), fun h' => (h s).2 fun h'' => h' (hok.mp h'')⟩

theorem Codes.pure (a : α) : Codes (Pure.pure a) [] True a := Codes.of_reads fun s => Reads.pure a s

theorem Codes.bind {r : Reader α} {f : α → Reader β} {bs bs' : List UInt8} {ok ok' : Prop}
    {a : α} {b : β} (h : Codes r bs ok a) (h' : Codes (f a) bs' ok' b) :
    Codes (r >>= f) (bs ++ bs') (ok ∧ ok') b := by
  intro s
  have hbind : (r >>= f) (bs ++ bs' ++ s) =
      (r (bs ++ (bs' ++ s))).bind fun p => f p.1 p.2 := by
    rw [append_assoc]
    rfl
  rw [hbind]
  constructor
  · rintro ⟨h1, h2⟩
    rw [(h (bs' ++ s)).1 h1]
    exact (h' s).1 h2
  · intro hn
    by_cases h1 : ok
    · rw [(h (bs' ++ s)).1 h1]
      exact (h' s).2 fun h2 => hn ⟨h1, h2⟩
    · rw [(h (bs' ++ s)).2 h1]
      rfl

theorem codes_check (b : Bool) : Codes (Reader.check b) [] (b = true) () := by
  intro s
  cases b <;> simp [Reader.check]

theorem Codes.check {f : Unit → Reader α} (h : Codes (f ()) bs ok a) :
    Codes (Reader.check b >>= f) bs (b = true ∧ ok) a :=
  (codes_check b).bind h

theorem Codes.check_true {f : Unit → Reader α} (hb : b = true) (h : Codes (f ()) bs ok a) :
    Codes (Reader.check b >>= f) bs ok a :=
  h.check.congr (and_iff_right hb)

/-- A test of the number of remaining bytes that the encoding passes. -/
theorem Codes.remain {f : Unit → Reader α} {n : Nat} {bs : List UInt8} {ok : Prop} {a : α}
    (hn : n ≤ bs.length) (h : Codes (f ()) bs ok a) : Codes (Reader.remain n >>= f) bs ok a := by
  intro s
  have hbind : (Reader.remain n >>= f) (bs ++ s) = f () (bs ++ s) := by
    change (Reader.remain n (bs ++ s)).bind (fun p => f p.1 p.2) = _
    rw [Reader.remain, if_pos (by rw [length_append]; omega)]
    rfl
  rw [hbind]
  exact h s

theorem Codes.ofOption {f : β → Reader α} {o : Option β} {b : β} {bs : List UInt8} {ok : Prop}
    {a : α} (ho : o = some b) (h : Codes (f b) bs ok a) :
    Codes (Reader.ofOption o >>= f) bs ok a := by
  intro s
  have hbind : (Reader.ofOption o >>= f) (bs ++ s) = f b (bs ++ s) := by
    rw [ho]
    rfl
  rw [hbind]
  exact h s

theorem codes_uint (h : n < 256 ^ w) : Codes (Reader.uint w) (leBytes w n) True n :=
  Codes.of_reads fun s => reads_uint h s

theorem codes_int (h : FitsInt w z) : Codes (Reader.int w) (intBytes w z) True z :=
  Codes.of_reads fun s => reads_int h s

theorem codes_bytes (h : bs.length = n) : Codes (Reader.bytes n) bs True bs :=
  Codes.of_reads fun s => reads_bytes h s

/-- A loop that appends one item per turn. -/
theorem codes_loop {γ : Type} (item : List γ → Reader γ) (loop : Nat → List γ → Reader (List γ))
    (h0 : ∀ acc, loop 0 acc = Pure.pure acc)
    (hs : ∀ n acc, loop (n + 1) acc = item acc >>= fun x => loop n (acc ++ [x]))
    {e : γ → List UInt8} {ok : γ → Prop} : ∀ (l acc : List γ),
    (∀ pre x post, l = pre ++ x :: post → Codes (item (acc ++ pre)) (e x) (ok x) x) →
    Codes (loop l.length acc) (l.flatMap e) (∀ x ∈ l, ok x) (acc ++ l)
  | [], acc, _ => by
    rw [length_nil, h0, append_nil]
    exact (Codes.pure acc).congr (by simp)
  | x :: l, acc, h => by
    rw [length_cons, hs, flatMap_cons]
    have hx := h [] x l rfl
    rw [append_nil] at hx
    have hl := codes_loop item loop h0 hs l (acc ++ [x]) fun pre y post hy => by
      have := h (x :: pre) y post (by rw [hy]; rfl)
      rwa [append_cons] at this
    have := hx.bind (f := fun x => loop l.length (acc ++ [x])) hl
    rw [append_assoc] at this
    exact this.congr (by simp)

/-- An item is not longer than the list of items. -/
theorem length_le_flatMap {γ : Type} {e : γ → List UInt8} {l : List γ} {x : γ} (h : x ∈ l) :
    (e x).length ≤ (l.flatMap e).length := by
  obtain ⟨pre, post, rfl⟩ := append_of_mem h
  simp only [flatMap_append, flatMap_cons, length_append]
  omega

/-- Bytes of a memory from an offset. -/
def slice (m : Nat → UInt8) (off n : Nat) : List UInt8 := (range n).map fun j => m (off + j)

@[simp] theorem slice_length (m : Nat → UInt8) (off n : Nat) : (slice m off n).length = n := by
  simp [slice]

theorem slice_append (m : Nat → UInt8) (off n k : Nat) :
    slice m off (n + k) = slice m off n ++ slice m (off + n) k := by
  simp [slice, range_add, map_map, Function.comp_def, Nat.add_assoc]

/-- Overwrite a memory from an offset. -/
def blit (m : Nat → UInt8) (off : Nat) (bs : List UInt8) : Nat → UInt8 := fun p =>
  if off ≤ p ∧ p < off + bs.length then bs.getD (p - off) 0 else m p

theorem blit_of_outside {m : Nat → UInt8} {off p : Nat} (h : p < off ∨ off + bs.length ≤ p) :
    blit m off bs p = m p := by
  rw [blit, if_neg]
  omega

theorem blit_nil (m : Nat → UInt8) (off : Nat) : blit m off [] = m :=
  funext fun p => blit_of_outside (by simp; omega)

theorem slice_blocks (m : Nat → UInt8) (w : Nat) (base : Nat) : ∀ (n a : Nat),
    slice m ((a + base) * w) (n * w) = (range' a n).flatMap fun i => slice m ((i + base) * w) w
  | 0, a => by simp [slice]
  | n + 1, a => by
    rw [range'_succ, flatMap_cons, ← slice_blocks m w base n (a + 1), Nat.succ_mul,
      Nat.add_comm (n * w) w, slice_append]
    congr 2
    ring

/-- Block `i` of a concatenation of equal blocks. -/
theorem getElem?_flatMap_block {γ δ : Type} {enc : γ → List δ} {w : Nat} : ∀ (l : List γ)
    (i j : Nat) (hi : i < l.length), (∀ x ∈ l, (enc x).length = w) → j < w →
    (l.flatMap enc)[i * w + j]? = (enc l[i])[j]?
  | x :: l, 0, j, _, h, hj => by
    have hx := h x mem_cons_self
    simp only [Nat.zero_mul, Nat.zero_add, flatMap_cons, getElem_cons_zero]
    exact getElem?_append_left (by omega)
  | x :: l, i + 1, j, hi, h, hj => by
    have hx := h x mem_cons_self
    have hi' : i < l.length := by simpa using hi
    have hsucc : (i + 1) * w = i * w + w := Nat.succ_mul i w
    rw [flatMap_cons, getElem_cons_succ,
      ← getElem?_flatMap_block l i j hi' (fun y hy => h y (mem_cons_of_mem x hy)) hj,
      getElem?_append_right (by omega)]
    congr 1
    omega

theorem length_flatMap_block {γ δ : Type} {enc : γ → List δ} (l : List γ)
    (h : ∀ x ∈ l, (enc x).length = w) : (l.flatMap enc).length = l.length * w := by
  induction l with
  | nil => simp
  | cons x l ih =>
    rw [flatMap_cons, length_append, h x mem_cons_self,
      ih fun y hy => h y (mem_cons_of_mem x hy), length_cons, Nat.succ_mul, Nat.add_comm]

section Scatter

variable {w base : Nat}

/-- The blocks of `src`, from block `n` on, stored at the listed block numbers. -/
def scatterFrom (w base : Nat) (src : List UInt8) (n : Nat) (idxs : List Nat)
    (m : Nat → UInt8) : Nat → UInt8 :=
  (idxs.zipIdx n).foldl (fun m p => blit m ((p.1 + base) * w) ((src.drop (p.2 * w)).take w)) m

/-- The blocks of `src` stored at the listed block numbers. -/
def scatter (w base : Nat) (src : List UInt8) (idxs : List Nat) (m : Nat → UInt8) : Nat → UInt8 :=
  scatterFrom w base src 0 idxs m

theorem scatterFrom_cons (src : List UInt8) (n i : Nat) (idxs : List Nat) (m : Nat → UInt8) :
    scatterFrom w base src n (i :: idxs) m = scatterFrom w base src (n + 1) idxs
      (blit m ((i + base) * w) ((src.drop (n * w)).take w)) := by
  rw [scatterFrom, zipIdx_cons, foldl_cons]
  rfl

variable {src : List UInt8} {idxs : List Nat} {b j : Nat}

/-- Bytes of another block are not written. -/
theorem scatterFrom_of_notMem (hj : j < w) :
    ∀ (n : Nat) (m : Nat → UInt8), (∀ i ∈ idxs, i + base ≠ b) →
      scatterFrom w base src n idxs m (b * w + j) = m (b * w + j) := by
  induction idxs with
  | nil => exact fun _ _ _ => rfl
  | cons i idxs ih =>
    intro n m h
    rw [scatterFrom_cons, ih (n + 1) _ fun k hk => h k (mem_cons_of_mem i hk)]
    apply blit_of_outside
    have hlen : ((src.drop (n * w)).take w).length ≤ w := length_take_le _ _
    rcases Nat.lt_or_gt_of_ne (h i mem_cons_self) with hlt | hgt
    · right
      have := Nat.mul_le_mul_right w (Nat.succ_le_of_lt hlt)
      rw [Nat.succ_mul] at this
      omega
    · left
      have := Nat.mul_le_mul_right w (Nat.succ_le_of_lt hgt)
      rw [Nat.succ_mul] at this
      omega

theorem scatterFrom_of_mem (base : Nat) (hj : j < w) :
    ∀ (n k : Nat) (m : Nat → UInt8) (hk : k < idxs.length), idxs.Nodup →
      (n + idxs.length) * w ≤ src.length →
      scatterFrom w base src n idxs m ((idxs[k] + base) * w + j) =
        src.getD ((n + k) * w + j) 0 := by
  induction idxs with
  | nil => exact fun _ _ _ hk => absurd hk (by simp)
  | cons i idxs ih =>
    intro n k m hk hnd hlen
    rw [nodup_cons] at hnd
    rw [length_cons] at hk hlen
    rw [scatterFrom_cons]
    cases k with
    | zero =>
      -- the later blocks are elsewhere
      have hne : ∀ a ∈ idxs, a + base ≠ i + base := by
        intro a ha he
        rw [Nat.add_right_cancel he] at ha
        exact hnd.1 ha
      rw [getElem_cons_zero, scatterFrom_of_notMem hj (n + 1) _ hne]
      have hn : n * w + w ≤ src.length := by
        rw [← Nat.succ_mul]
        exact (Nat.mul_le_mul_right w (by omega)).trans hlen
      have htake : ((src.drop (n * w)).take w).length = w := by
        rw [length_take, length_drop]
        omega
      rw [blit, if_pos ⟨Nat.le_add_right _ _, by omega⟩, Nat.add_sub_cancel_left, Nat.add_zero]
      rw [getD_eq_getElem?_getD, getD_eq_getElem?_getD, getElem?_take_of_lt hj, getElem?_drop]
    | succ k =>
      have hk' : k < idxs.length := by omega
      rw [getElem_cons_succ, ih (n + 1) k _ hk' hnd.2]
      · congr 3
        omega
      · rwa [Nat.add_assoc, Nat.add_comm 1]

/-- A block that is not listed is unchanged. -/
theorem slice_scatter_of_notMem (m : Nat → UInt8) (h : ∀ i ∈ idxs, i + base ≠ b) :
    slice (scatter w base src idxs m) (b * w) w = slice m (b * w) w := by
  unfold slice
  apply map_congr_left
  intro j hj
  exact scatterFrom_of_notMem (mem_range.mp hj) 0 m h

theorem slice_scatter_of_mem {γ : Type} {enc : γ → List UInt8} (l : List γ) (m : Nat → UInt8)
    (hnd : idxs.Nodup) (hlen : l.length = idxs.length) (hw : ∀ x ∈ l, (enc x).length = w) {k : Nat}
    (hk : k < l.length) (hk' : k < idxs.length) :
    slice (scatter w base (l.flatMap enc) idxs m) ((idxs[k] + base) * w) w = enc l[k] := by
  have hxk := hw l[k] (getElem_mem hk)
  apply ext_getElem
  · rw [slice_length, hxk]
  · intro j hj hj'
    rw [slice_length] at hj
    simp only [slice, getElem_map, getElem_range]
    rw [scatter, scatterFrom_of_mem _ hj 0 k m hk' hnd, Nat.zero_add,
      getD_eq_getElem?_getD, getElem?_flatMap_block l k j hk hw hj, getElem?_eq_getElem hj',
      Option.getD_some]
    rw [length_flatMap_block l hw, hlen, Nat.zero_add]

/-- Consecutive blocks may be written at once. -/
theorem scatter_range' {h : Nat} (hlen : src.length = n * w) (m : Nat → UInt8) :
    scatter w base src (range' h n) m = blit m ((h + base) * w) src := by
  rcases Nat.eq_zero_or_pos w with rfl | hw
  · have hsrc : src = [] := length_eq_zero_iff.mp (by omega)
    subst hsrc
    have hblit : ∀ (off : Nat) (m : Nat → UInt8), blit m off [] = m := by
      intro off m
      funext p
      exact blit_of_outside (by simp; omega)
    rw [scatter, scatterFrom, hblit]
    generalize (range' h n).zipIdx 0 = l
    induction l generalizing m with
    | nil => rfl
    | cons p l ih =>
      rw [foldl_cons, drop_nil, take_nil, hblit]
      exact ih m
  · funext p
    obtain ⟨b, j, hj, rfl⟩ : ∃ b j, j < w ∧ p = b * w + j :=
      ⟨p / w, p % w, Nat.mod_lt p hw, (Nat.div_add_mod' p w).symm⟩
    by_cases hb : h + base ≤ b ∧ b < h + base + n
    · -- block `k` of the source
      obtain ⟨k, rfl⟩ : ∃ k, b = h + k + base := ⟨b - (h + base), by omega⟩
      have hk : k < (range' h n).length := by
        rw [length_range']
        omega
      have hget : (range' h n)[k] = h + k := by simp
      have key := scatterFrom_of_mem base hj 0 k m hk nodup_range'
        (by rw [length_range', Nat.zero_add, hlen])
      rw [hget] at key
      rw [scatter, key, blit, if_pos]
      · congr 1
        have : (h + k + base) * w = (h + base) * w + k * w := by ring
        rw [Nat.zero_add]
        omega
      · have h1 : (h + k + base) * w = (h + base) * w + k * w := by ring
        have h2 := Nat.mul_le_mul_right w (show k + 1 ≤ n by omega)
        rw [Nat.succ_mul] at h2
        omega
    · rw [scatter, scatterFrom_of_notMem hj 0 m]
      · rw [blit_of_outside]
        rcases Nat.lt_or_ge b (h + base) with hlt | hge
        · left
          have := Nat.mul_le_mul_right w (Nat.succ_le_of_lt hlt)
          rw [Nat.succ_mul] at this
          omega
        · right
          have := Nat.mul_le_mul_right w (show h + base + n ≤ b by omega)
          rw [Nat.add_mul _ n] at this
          omega
      · intro i hi
        rw [mem_range'_1] at hi
        omega

end Scatter

end Llama.Bytes
