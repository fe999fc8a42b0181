import Llama.Gguf.ReadBack

/-!
# Round trips of GGUF files

The reader pads the header and the tensors to the alignment that the key `general.alignment`
asks for, the builder and the writer to the default alignment. A file is read back exactly when
the limits of the reader are met and the two paddings do not differ where it matters.
-/

namespace Llama.Gguf

open Bytes List

variable {T : Traits}

variable {a b A : Nat} {bs buf : List UInt8} {l : List Info} {t : Info} {c : Ctx}

theorem pad_eq_add (ha : 0 < a) (x : Nat) : pad x a = x + (a - x % a) % a := by
  have hx := Nat.div_add_mod x a
  have hlt := Nat.mod_lt x ha
  rw [pad]
  rcases Nat.eq_zero_or_pos (x % a) with h0 | hpos
  · have hdiv : (x + a - 1) / a = x / a := by
      rw [Nat.div_eq_iff ha]
      rw [Nat.mul_comm] at hx
      omega
    rw [hdiv, h0, Nat.sub_zero, Nat.mod_self, Nat.mul_comm]
    omega
  · have hdiv : (x + a - 1) / a = x / a + 1 := by
      rw [Nat.div_eq_iff ha, Nat.succ_mul]
      rw [Nat.mul_comm] at hx
      omega
    rw [hdiv, Nat.mod_eq_of_lt (by omega), Nat.succ_mul, Nat.mul_comm]
    omega

theorem le_pad (ha : 0 < a) (x : Nat) : x ≤ pad x a := by
  rw [pad_eq_add ha]
  omega

theorem dvd_pad (x a : Nat) : a ∣ pad x a := ⟨(x + a - 1) / a, Nat.mul_comm _ _⟩

@[simp] theorem padTo_length (ha : 0 < a) (buf : List UInt8) :
    (padTo a buf).length = pad buf.length a := by
  rw [padTo, length_append, length_replicate, pad_eq_add ha]

/-- Padding behind an aligned buffer does not depend on the buffer. -/
theorem padTo_append (h : a ∣ buf.length) : padTo a (buf ++ bs) = buf ++ padTo a bs := by
  rw [padTo, padTo, append_assoc, length_append,
    Nat.add_mod, Nat.mod_eq_zero_of_dvd h, Nat.zero_add, Nat.mod_mod]

/-- A tensor in the data section. -/
def block (T : Traits) (a : Nat) (t : TensorInfo) : List UInt8 :=
  padTo a (slice t.data 0 (t.nbytes T))

/-- Bytes of the data section. -/
def total (T : Traits) (a : Nat) (l : List Info) : Nat := (l.map fun t => pad (t.nbytes T) a).sum

theorem total_cons (a : Nat) (t : Info) (l : List Info) :
    total T a (t :: l) = pad (t.nbytes T) a + total T a l := by
  rw [total, map_cons, sum_cons, ← total]

theorem block_length (ha : 0 < a) (t : TensorInfo) : (block T a t).length = pad (t.nbytes T) a := by
  rw [block, padTo_length ha, slice_length]

section

variable (ha : 0 < a) (l : List TensorInfo)
include ha

theorem foldl_writeTensorData (h : a ∣ buf.length) :
    l.foldl (writeTensorData T a) buf = buf ++ l.flatMap (block T a) := by
  induction l generalizing buf with
  | nil => simp
  | cons t l ih =>
    have hw : writeTensorData T a buf t = buf ++ block T a t := padTo_append h
    have hdvd : a ∣ (buf ++ block T a t).length := by
      rw [length_append, block_length ha]
      exact Nat.dvd_add h (dvd_pad _ _)
    rw [foldl_cons, hw, ih hdvd, flatMap_cons, append_assoc]

theorem flatMap_block_length :
    (l.flatMap (block T a)).length = total T a (l.map TensorInfo.toInfo) := by
  induction l with
  | nil => rfl
  | cons t l ih =>
    rw [flatMap_cons, length_append, block_length ha, ih, map_cons, total_cons]

/-- The tensors are written at their offsets. -/
theorem offsetsWritable_of_laid {off : Nat} (h : a ∣ buf.length) (hoff : off ≤ buf.length)
    (hl : Laid T a (buf.length - off) (l.map TensorInfo.toInfo)) :
    offsetsWritable T a off buf l = true := by
  induction l generalizing buf with
  | nil => rfl
  | cons t l ih =>
    have hw : writeTensorData T a buf t = buf ++ block T a t := padTo_append h
    have hlen : (buf ++ block T a t).length = buf.length + pad (t.nbytes T) a := by
      rw [length_append, block_length ha]
    rw [map_cons] at hl
    rw [offsetsWritable, Bool.and_eq_true, decide_eq_true_eq, hw]
    refine ⟨hl.1.symm, ih ?_ ?_ ?_⟩
    · rw [hlen]
      exact Nat.dvd_add h (dvd_pad _ _)
    · omega
    · rw [hlen, Nat.sub_add_comm hoff]
      exact hl.2

end

theorem drop_flatMap_block (ha : 0 < a) {l : List TensorInfo}
    (hl : Laid T a b (l.map TensorInfo.toInfo)) {t : TensorInfo} (ht : t ∈ l) :
    b ≤ t.offset ∧ t.offset - b + t.nbytes T ≤ (l.flatMap (block T a)).length ∧
      ((l.flatMap (block T a)).drop (t.offset - b)).take (t.nbytes T) =
        slice t.data 0 (t.nbytes T) := by
  induction l generalizing b with
  | nil => cases ht
  | cons u l ih =>
    rw [map_cons] at hl
    obtain ⟨hu, hl⟩ := hl
    rw [flatMap_cons]
    rcases mem_cons.mp ht with rfl | ht
    · have hle := le_pad ha (t.nbytes T)
      have hlen := block_length (T := T) ha t
      refine ⟨hu.ge, ?_, ?_⟩
      · rw [length_append]
        omega
      · rw [hu, Nat.sub_self, drop_zero, block, padTo, append_assoc]
        exact take_left' (slice_length _ _ _)
    · obtain ⟨h1, h2, h3⟩ := ih hl ht
      have hlen := block_length (T := T) ha u
      refine ⟨by omega, ?_, ?_⟩
      · rw [length_append]
        omega
      · rw [show t.offset - b = (block T a u).length + (t.offset - (b + pad (u.nbytes T) a)) by
          omega, drop_append, ← drop_drop, drop_length, drop_nil,
          nil_append, Nat.add_sub_cancel_left]
        exact h3

theorem defaultAlignment_pos : 0 < defaultAlignment := by decide

theorem Kv.WF.writable {x : Kv} (hx : x.WF) : x.writable = true := by
  simp only [Kv.writable, Bool.and_eq_true, Bool.or_eq_true, bne_iff_ne, beq_iff_eq]
  refine ⟨⟨hx.type, ?_⟩, ?_⟩
  · cases hi : x.isArray with
    | true => exact .inl rfl
    | false =>
      right
      by_cases hs : x.type = .string
      · rw [Kv.ne, if_pos hs]
        exact (hx.string hs).2 hi
      · exact (hx.data hs).2.2 hi
  · by_cases hs : x.type = .string
    · exact .inl hs
    · right
      rw [(hx.data hs).2.1]
      exact Nat.mul_mod_left _ _

/-- The data section of a file. -/
def Ctx.dataSection (T : Traits) (c : Ctx) : List UInt8 := c.info.flatMap (block T defaultAlignment)

theorem Ctx.dataSection_length (c : Ctx) :
    (c.dataSection T).length = total T defaultAlignment c.infos :=
  flatMap_block_length defaultAlignment_pos c.info

theorem Ctx.Valid.file_eq (h : c.Valid T) :
    c.file T = padTo defaultAlignment c.header ++ c.dataSection T := by
  rw [Ctx.file, h.alignment]
  refine foldl_writeTensorData defaultAlignment_pos c.info ?_
  rw [padTo_length defaultAlignment_pos]
  exact dvd_pad _ _

theorem Ctx.Valid.file_length (h : c.Valid T) :
    (c.file T).length = pad c.header.length defaultAlignment +
      total T defaultAlignment c.infos := by
  rw [h.file_eq, length_append, padTo_length defaultAlignment_pos, c.dataSection_length]

theorem Ctx.Valid.writeToBuf_eq (h : c.Valid T) :
    writeToBuf T c = if (c.file T).length < 2 ^ 63 then some (c.file T) else none := by
  have hkv : c.kv.all Kv.writable = true := by
    rw [all_eq_true]
    exact fun x hx => (h.kv x hx).writable
  have hoff : offsetsWritable T c.alignment (padTo c.alignment c.header).length
      (padTo c.alignment c.header) c.info = true := by
    rw [h.alignment]
    refine offsetsWritable_of_laid defaultAlignment_pos c.info ?_ (le_refl _) ?_
    · rw [padTo_length defaultAlignment_pos]
      exact dvd_pad _ _
    · rw [Nat.sub_self]
      exact h.laid
  rw [writeToBuf]
  simp only [hkv, hoff, true_and]

/-- Offsets are positions in the data section. -/
theorem offset_le_total (h : Laid T a b l) (ht : t ∈ l) : t.offset ≤ b + total T a l := by
  induction l generalizing b with
  | nil => cases ht
  | cons u l ih =>
    rw [total_cons]
    rcases mem_cons.mp ht with rfl | ht
    · rw [h.1]
      omega
    · have := ih h.2 ht
      omega

/-- The reader follows the offsets when its padding is that of the writer, the padding of the
last tensor apart. -/
theorem dataSize_eq_some_iff {s : Nat} (hl : Laid T a b l) (hb : b ≤ sizeMax) :
    dataSize T A b l = some s ↔
      (∀ t ∈ l.dropLast, pad (t.nbytes T) A = pad (t.nbytes T) a) ∧
        b + total T A l ≤ sizeMax ∧ s = b + total T A l := by
  induction l generalizing b with
  | nil => simp [dataSize, total, hb, eq_comm]
  | cons t l ih =>
    rw [dataSize, if_neg (by simpa using hl.1), total_cons]
    split
    · simp only [reduceCtorEq, false_iff, not_and]
      intro _ h
      omega
    · cases l with
      | nil =>
        simp only [dataSize, total, map_nil, sum_nil, dropLast_singleton,
          Option.some.injEq, not_mem_nil, false_implies, implies_true, true_and]
        omega
      | cons u l =>
        rw [dropLast_cons_cons, forall_mem_cons]
        by_cases hp : pad (t.nbytes T) A = pad (t.nbytes T) a
        · have hl2 := hl.2
          rw [← hp] at hl2
          rw [ih hl2 (by omega), and_iff_right hp, Nat.add_assoc]
        · rw [dataSize, if_pos (by have := hl.2.1; omega)]
          simp [hp]

/-- Pads that agree but for the last tensor give the size up to its padding. -/
theorem total_add_last (h : ∀ t ∈ l.dropLast, pad (t.nbytes T) A = pad (t.nbytes T) a)
    (ht : t ∈ l.getLast?) :
    total T A l + pad (t.nbytes T) a = total T a l + pad (t.nbytes T) A := by
  induction l with
  | nil => cases ht
  | cons u l ih =>
    cases l with
    | nil =>
      simp only [getLast?_singleton, Option.mem_def, Option.some.injEq] at ht
      subst ht
      simp only [total, map_cons, map_nil, sum_cons, sum_nil]
      omega
    | cons v l =>
      rw [dropLast_cons_cons, forall_mem_cons] at h
      rw [getLast?_cons_cons] at ht
      have := ih h.2 ht
      rw [total_cons, total_cons (t := u), h.1]
      omega

/-- What the reader makes of the file of a context. -/
def Ctx.loaded (T : Traits) (c : Ctx) : Loaded :=
  { version := c.version, kv := c.kv, alignment := c.keyAlignment, info := c.infos
    offset := pad c.header.length c.keyAlignment
    blob := ((c.file T).drop (pad c.header.length c.keyAlignment)).take
      (total T c.keyAlignment c.infos) }

/-- What the reader asks of a file. -/
structure Ctx.Accepted (T : Traits) (c : Ctx) : Prop where
  header : c.HeaderFits T
  inner : ∀ t ∈ c.infos.dropLast,
    pad (t.nbytes T) c.keyAlignment = pad (t.nbytes T) defaultAlignment
  memory : total T c.keyAlignment c.infos + (c.infos.length + 1) * tensorOverhead ≤ sizeMax
  data : total T c.keyAlignment c.infos ≤ (c.file T).length - pad c.header.length c.keyAlignment

theorem Ctx.Valid.keyAlignment_pos (h : c.Valid T) : 0 < c.keyAlignment :=
  Nat.pos_of_ne_zero h.alignmentOf_kv.2.1

theorem Ctx.Valid.file_eq_header_append (h : c.Valid T) :
    c.file T = c.header ++ (c.file T).drop c.header.length := by
  have hpre : c.header <+: c.file T := by
    rw [h.file_eq, padTo, append_assoc]
    exact prefix_append _ _
  obtain ⟨rest, hrest⟩ := hpre
  rw [← hrest, drop_left]

/-- The reader accepts the file exactly when its checks hold. -/
theorem Ctx.Valid.initFromFile_iff (h : c.Valid T) (hlen : (c.file T).length < 2 ^ 63)
    {r : Loaded} : initFromFile T (c.file T) = some r ↔ c.Accepted T ∧ r = c.loaded T := by
  have hfile := h.file_length
  have hpad := le_pad h.keyAlignment_pos c.header.length
  have hpad' := le_pad defaultAlignment_pos c.header.length
  have hcodes := h.codes_readMeta (by omega) fun t ht => by
    have := offset_le_total h.laid ht
    omega
  have hrest := hcodes ((c.file T).drop c.header.length)
  rw [← h.file_eq_header_append] at hrest
  have hm : (c.file T).length - ((c.file T).length - c.header.length) = c.header.length := by
    omega
  by_cases hfits : c.HeaderFits T
  · rw [initFromFile, hrest.1 hfits]
    simp only [Option.bind_eq_bind, Option.bind_some, Option.bind_eq_some_iff,
      dataSize_eq_some_iff h.laid (Nat.zero_le _), Nat.zero_add, length_take,
      length_drop, hm]
    constructor
    · rintro ⟨_, ⟨hinner, -, rfl⟩, hr⟩
      split at hr
      · cases hr
      · rename_i hdiv
        split at hr
        · cases hr
        · rename_i hmem
          split at hr
          · cases hr
          · split at hr
            · rename_i hblob
              cases hr
              have hmul : (c.infos.length + 1) * tensorOverhead ≤ sizeMax := by
                rw [Nat.mul_comm, ← Nat.le_div_iff_mul_le (Nat.succ_pos _)]
                exact not_lt.mp hdiv
              exact ⟨⟨hfits, hinner, by omega, by omega⟩, rfl⟩
            · cases hr
    · rintro ⟨⟨-, hinner, hmem, hdata⟩, rfl⟩
      refine ⟨_, ⟨hinner, by omega, rfl⟩, ?_⟩
      have hmul : tensorOverhead ≤ sizeMax / (c.infos.length + 1) := by
        rw [Nat.le_div_iff_mul_le (Nat.succ_pos _), Nat.mul_comm]
        exact le_trans (Nat.le_add_left _ _) hmem
      rw [if_neg (by omega), if_neg (by omega), if_neg (by omega), if_pos (by omega)]
      rfl
  · rw [initFromFile, hrest.2 hfits]
    simp only [Option.bind_eq_bind, Option.bind_none, reduceCtorEq, false_iff, not_and]
    exact fun hacc => (hfits hacc.header).elim

/-- The file is read back with the same metadata and the same tensors. -/
def RoundTrips (T : Traits) (c : Ctx) : Prop :=
  ∃ bytes r, writeToBuf T c = some bytes ∧ initFromFile T bytes = some r ∧
    r.version = c.version ∧ r.kv = c.kv ∧ alignmentOf c.kv = some r.alignment ∧
    r.info = c.infos ∧ ∀ t ∈ c.info, r.tensor T t.toInfo = slice t.data 0 (t.nbytes T)

theorem Ctx.Valid.roundTrips_iff (h : c.Valid T) :
    RoundTrips T c ↔ (c.file T).length < 2 ^ 63 ∧ c.Accepted T ∧
      ∀ t ∈ c.info, (c.loaded T).tensor T t.toInfo = slice t.data 0 (t.nbytes T) := by
  rw [RoundTrips, h.writeToBuf_eq]
  constructor
  · rintro ⟨bytes, r, hw, hr, -, -, -, -, hdata⟩
    split at hw
    · rename_i hlen
      cases hw
      obtain ⟨hacc, rfl⟩ := (h.initFromFile_iff hlen).mp hr
      exact ⟨hlen, hacc, hdata⟩
    · cases hw
  · rintro ⟨hlen, hacc, hdata⟩
    refine ⟨_, _, if_pos hlen, (h.initFromFile_iff hlen).mpr ⟨hacc, rfl⟩, rfl, rfl, ?_, rfl, hdata⟩
    exact h.alignmentOf_kv.1

/-- The padding of the reader is that of the writer where it matters, and the limits of the
reader are met. -/
structure Ctx.Fits (T : Traits) (c : Ctx) : Prop where
  size : pad c.header.length defaultAlignment + total T defaultAlignment c.infos < 2 ^ 63
  header : c.HeaderFits T
  memory : total T c.keyAlignment c.infos + (c.infos.length + 1) * tensorOverhead ≤ sizeMax
  start : c.infos ≠ [] → pad c.header.length c.keyAlignment = pad c.header.length defaultAlignment
  inner : ∀ t ∈ c.infos.dropLast,
    pad (t.nbytes T) c.keyAlignment = pad (t.nbytes T) defaultAlignment
  last : ∀ t ∈ c.infos.getLast?, pad (t.nbytes T) c.keyAlignment ≤ pad (t.nbytes T) defaultAlignment

theorem total_nil (a : Nat) : total T a [] = 0 := rfl

theorem Ctx.Fits.total_le (h : c.Fits T) :
    total T c.keyAlignment c.infos ≤ total T defaultAlignment c.infos := by
  cases hl : c.infos.getLast? with
  | none =>
    rw [getLast?_eq_none_iff.mp hl]
    exact le_refl _
  | some t =>
    have h1 := total_add_last h.inner (Option.mem_def.mpr hl)
    have h2 := h.last t hl
    omega

/-- An end of a tensor is in the data section of the reader. -/
theorem offset_add_nbytes_le (hA : 0 < A) (hl : Laid T a b l)
    (h : ∀ t ∈ l.dropLast, pad (t.nbytes T) A = pad (t.nbytes T) a) (ht : t ∈ l) :
    t.offset + t.nbytes T ≤ b + total T A l := by
  induction l generalizing b with
  | nil => cases ht
  | cons u l ih =>
    rw [total_cons]
    rcases mem_cons.mp ht with rfl | ht
    · have := le_pad hA (t.nbytes T)
      have := hl.1
      omega
    · cases l with
      | nil => cases ht
      | cons v l =>
        rw [dropLast_cons_cons, forall_mem_cons] at h
        have := ih hl.2 h.2 ht
        rw [h.1]
        omega

theorem Ctx.Valid.roundTrips_of_fits (h : c.Valid T) (hf : c.Fits T) : RoundTrips T c := by
  have htotal := hf.total_le
  have hlen := h.file_length
  have hdata : total T c.keyAlignment c.infos ≤
      (c.file T).length - pad c.header.length c.keyAlignment := by
    by_cases hnil : c.infos = []
    · rw [hnil, total_nil]
      exact Nat.zero_le _
    · rw [hf.start hnil]
      omega
  rw [h.roundTrips_iff]
  refine ⟨by rw [hlen]; exact hf.size, ⟨hf.header, hf.inner, hf.memory, hdata⟩, fun t ht => ?_⟩
  have hmem : t.toInfo ∈ c.infos := mem_map_of_mem ht
  have hstart := hf.start (ne_nil_of_mem hmem)
  have hdrop : (c.file T).drop (pad c.header.length c.keyAlignment) = c.dataSection T := by
    rw [hstart, h.file_eq, ← padTo_length defaultAlignment_pos, drop_left]
  have hend := offset_add_nbytes_le h.keyAlignment_pos h.laid hf.inner hmem
  obtain ⟨-, -, hblock⟩ := drop_flatMap_block defaultAlignment_pos h.laid ht
  rw [Nat.sub_zero] at hblock
  rw [Loaded.tensor, Ctx.loaded, hdrop, drop_take, take_take, Nat.min_eq_left (by omega)]
  exact hblock

/-- The same context with other data in its tensors. -/
def Ctx.withData (c : Ctx) (d : Nat → Nat → UInt8) : Ctx :=
  { c with info := c.info.mapIdx fun i t => { t with data := d i } }

section

variable (c : Ctx) (d : Nat → Nat → UInt8)

@[simp] theorem Ctx.withData_infos : (c.withData d).infos = c.infos := by
  apply ext_getElem?
  intro i
  simp [Ctx.infos, Ctx.withData, Function.comp_def]

@[simp] theorem Ctx.withData_header : (c.withData d).header = c.header := by
  rw [Ctx.header_eq, Ctx.header_eq, c.withData_infos d]
  rfl

@[simp] theorem Ctx.withData_keyAlignment : (c.withData d).keyAlignment = c.keyAlignment := rfl

end

theorem Ctx.Valid.withData (h : c.Valid T) (d : Nat → Nat → UInt8) : (c.withData d).Valid T := by
  have hi := c.withData_infos d
  exact ⟨h.version, h.alignment, h.keys, h.kv, hi ▸ h.names, hi ▸ h.info, hi ▸ h.laid⟩

theorem Ctx.HeaderFits.withData (d : Nat → Nat → UInt8) :
    (c.withData d).HeaderFits T ↔ c.HeaderFits T := by
  have hi := c.withData_infos d
  exact ⟨fun h => ⟨hi ▸ h.tensors, h.kvs, h.kv, hi ▸ h.info⟩,
    fun h => ⟨hi.symm ▸ h.tensors, h.kvs, h.kv, hi.symm ▸ h.info⟩⟩

theorem Ctx.Fits.withData {c : Ctx} (h : c.Fits T) (d : Nat → Nat → UInt8) :
    (c.withData d).Fits T := by
  have hi := c.withData_infos d
  have hh := c.withData_header d
  constructor
  · rw [hi, hh]
    exact h.size
  · exact (Ctx.HeaderFits.withData d).mpr h.header
  · rw [hi]
    exact h.memory
  · rw [hi, hh]
    exact h.start
  · rw [hi]
    exact h.inner
  · rw [hi]
    exact h.last

/-- Data that is 0 but for the first byte of the first tensor. -/
def mark (i j : Nat) : UInt8 := if i = 0 ∧ j = 0 then 1 else 0

theorem nbytes_pos (ht : t.WF) (hf : t.Fits T) : 0 < t.nbytes T := by
  obtain ⟨h0, h1, h2, h3⟩ := ht.pos
  have hfit := hf.2
  simp only [Traits.fits, decide_eq_true_eq] at hfit
  have hsize := T.size_pos _ hfit.2.1
  rw [Info.nbytes, Traits.nbytes, if_neg (by omega)]
  simp only [Traits.nb]
  split
  · omega
  · have hle : T.blckSize t.type ≤ t.ne.d0 := Nat.le_of_dvd h0 (Nat.dvd_of_mod_eq_zero hfit.2.2.1)
    have hmul : T.blckSize t.type ≤ t.ne.d0 * T.typeSize t.type :=
      le_trans hle (Nat.le_mul_of_pos_right _ hsize)
    have := Nat.div_pos hmul (Nat.pos_of_ne_zero hfit.2.1)
    omega

theorem mem_padTo {b : UInt8} (h : b ∈ padTo a bs) : b ∈ bs ∨ b = 0 := by
  rcases mem_append.mp h with h | h
  · exact .inl h
  · exact .inr (eq_of_mem_replicate h)

/-- The marked data section is 0 behind its first byte. -/
theorem dataSection_mark (hc : c.infos = t :: l) (ht : 0 < t.nbytes T) :
    ∃ z, (c.withData mark).dataSection T = 1 :: z ∧ ∀ b ∈ z, b = 0 := by
  have hinfo : ∃ u us, c.info = u :: us ∧ u.toInfo = t := by
    cases hi : c.info with
    | nil => simp [Ctx.infos, hi] at hc
    | cons u us =>
      rw [Ctx.infos, hi, map_cons, List.cons.injEq] at hc
      exact ⟨u, us, rfl, hc.1⟩
  obtain ⟨u, us, hu, rfl⟩ := hinfo
  obtain ⟨n, hn⟩ : ∃ n, u.nbytes T = n + 1 := ⟨u.nbytes T - 1, by omega⟩
  have hslice : slice (mark 0) 0 (u.nbytes T) = 1 :: replicate n 0 := by
    rw [hn, slice, range_succ_eq_map, map_cons, map_map]
    refine congrArg₂ _ rfl ?_
    rw [eq_replicate_iff]
    refine ⟨by simp, fun b hb => ?_⟩
    obtain ⟨j, -, rfl⟩ := mem_map.mp hb
    simp [mark]
  rw [Ctx.dataSection, Ctx.withData, hu, mapIdx_cons]
  simp only [flatMap_cons, block, padTo]
  rw [show ({ u with data := mark 0 } : TensorInfo).nbytes T = u.nbytes T from rfl, hslice,
    cons_append, cons_append]
  refine ⟨_, rfl, fun b hb => ?_⟩
  simp only [append_assoc, mem_append, mem_flatMap] at hb
  rcases hb with hb | hb | ⟨v, hv, hb⟩
  · exact eq_of_mem_replicate hb
  · exact eq_of_mem_replicate hb
  · rw [mem_mapIdx] at hv
    obtain ⟨i, hi, rfl⟩ := hv
    rcases mem_padTo hb with hb | hb
    · obtain ⟨j, -, rfl⟩ := mem_map.mp hb
      simp [mark]
    · exact hb

/-- The only byte behind a prefix that is not 0. -/
theorem eq_of_getElem?_marked {h z : List UInt8} {k p : Nat} (hz : ∀ b ∈ z, b = 0)
    (hp : h.length ≤ p) (hget : (h ++ replicate k 0 ++ 1 :: z)[p]? = some 1) :
    p = h.length + k := by
  rcases lt_trichotomy p (h.length + k) with hlt | rfl | hgt
  · rw [append_assoc, getElem?_append_right hp,
      getElem?_append_left (by rw [length_replicate]; omega)] at hget
    have := eq_of_mem_replicate (mem_of_getElem? hget)
    cases this
  · rfl
  · have hlen : (h ++ replicate k 0 : List UInt8).length = h.length + k := by simp
    obtain ⟨q, rfl⟩ : ∃ q, p = h.length + k + (q + 1) := ⟨p - (h.length + k) - 1, by omega⟩
    rw [getElem?_append_right (by omega), hlen, Nat.add_sub_cancel_left, getElem?_cons_succ] at hget
    have := hz 1 (mem_of_getElem? hget)
    cases this

theorem exists_mark (hc : c.infos = t :: l) :
    ∃ u ∈ (c.withData mark).info, u.toInfo = t ∧ u.data 0 = 1 := by
  cases hi : c.info with
  | nil => simp [Ctx.infos, hi] at hc
  | cons u us =>
    rw [Ctx.infos, hi, map_cons, List.cons.injEq] at hc
    refine ⟨{ u with data := mark 0 }, ?_, hc.1, rfl⟩
    rw [Ctx.withData, hi, mapIdx_cons]
    exact mem_cons_self

/-- The reader must look for the data section where it was written. -/
theorem Ctx.Valid.start_of_mark (h : c.Valid T) (hr : RoundTrips T (c.withData mark))
    (hne : c.infos ≠ []) :
    pad c.header.length c.keyAlignment = pad c.header.length defaultAlignment := by
  obtain ⟨t, l, hc⟩ := exists_cons_of_ne_nil hne
  have hv := h.withData mark
  obtain ⟨-, hacc, hdata⟩ := hv.roundTrips_iff.mp hr
  have hmem : t ∈ c.infos := by rw [hc]; exact mem_cons_self
  have hfits := ((Ctx.HeaderFits.withData mark).mp hacc.header).info t hmem
  have hpos := nbytes_pos (h.info t hmem) hfits
  have hoff : t.offset = 0 := by
    have := h.laid
    rw [hc] at this
    exact this.1
  obtain ⟨z, hz, hzero⟩ := dataSection_mark hc hpos
  obtain ⟨u, hu, rfl, hu0⟩ := exists_mark hc
  -- the first byte of the first tensor is the marked one
  have hfirst := congrArg (fun bs => bs[0]?) (hdata u hu)
  simp only [Loaded.tensor, Ctx.loaded, hoff, drop_zero, getElem?_take,
    getElem?_drop, hpos, if_true, Nat.add_zero, c.withData_header, slice,
    c.withData_keyAlignment, getElem?_map, getElem?_range hpos, Option.map_some,
    hu0] at hfirst
  split at hfirst
  · rw [hv.file_eq, hz, padTo, c.withData_header] at hfirst
    have := eq_of_getElem?_marked hzero (le_pad h.keyAlignment_pos _) hfirst
    rw [this, pad_eq_add defaultAlignment_pos]
  · cases hfirst

/-- Whatever the data of the tensors, a context that the interface builds is read back from its
file exactly when the paddings of the reader agree with those of the writer and the limits of
the reader are met. -/
theorem build_roundTrips_iff {ops : List Op} {c : Ctx} (hbuild : build T ops = some c) :
    (∀ d, RoundTrips T (c.withData d)) ↔ c.Fits T := by
  have h := build_valid hbuild
  constructor
  · intro hr
    have hstart := h.start_of_mark (hr mark)
    have hv := h.withData mark
    obtain ⟨hlen, hacc, -⟩ := hv.roundTrips_iff.mp (hr mark)
    have hlen' := hv.file_length
    have hmem := hacc.memory
    have hdata := hacc.data
    have hinner := hacc.inner
    simp only [c.withData_infos, c.withData_header, c.withData_keyAlignment]
      at hlen' hmem hdata hinner
    refine ⟨by omega, (Ctx.HeaderFits.withData mark).mp hacc.header, hmem, hstart, hinner,
      fun t ht => ?_⟩
    have h1 := total_add_last hinner ht
    have h2 := hstart (ne_nil_of_mem (mem_of_getLast? ht))
    omega
  · intro hf d
    exact (h.withData d).roundTrips_of_fits (hf.withData d)

/-- `type_traits`: elements and bytes of a block. -/
def typeTraits : List (Nat × Nat) :=
  [(1, 4), (1, 2), (32, 18), (32, 20), (0, 0), (0, 0), (32, 22), (32, 24), (32, 34), (32, 36),
   (256, 84), (256, 110), (256, 144), (256, 176), (256, 210), (256, 292), (256, 66), (256, 74),
   (256, 98), (256, 50), (32, 18), (256, 110), (256, 82), (256, 136), (1, 1), (1, 2), (1, 4),
   (1, 8), (1, 8), (256, 56), (1, 2), (0, 0), (0, 0), (0, 0), (256, 54), (256, 66), (0, 0),
   (0, 0), (0, 0), (32, 17)]

/-- The tensor types of the repository. -/
def ggmlTraits : Traits where
  count := 40
  blckSize t := (typeTraits.getD t (0, 0)).1
  typeSize t := (typeTraits.getD t (0, 0)).2
  size_pos t ht := by
    have hall : ∀ p ∈ typeTraits, p.1 ≠ 0 → 0 < p.2 := by decide
    rw [getD_eq_getElem?_getD] at ht ⊢
    cases hp : typeTraits[t]? with
    | none => simp [hp] at ht
    | some p =>
      rw [hp] at ht
      exact hall p (mem_of_getElem? hp) ht

/-- One number in a tensor `x`. -/
def scalarTensor : Tensor where
  name := ⟨[120], by decide⟩
  type := 0
  ne := ⟨1, 1, 1, 1⟩
  data _ := 1
  type_lt := by decide
  name_lt := by decide
  pos := by decide
  lt := by decide

/-- Ask for an alignment, then add a tensor. -/
def alignedOps (a : UInt32) : List Op :=
  [.setVal ⟨alignmentKey, by decide⟩ (.u32 a), .addTensor scalarTensor]

/-- The context that is built. -/
def alignedCtx (a : UInt32) : Ctx where
  version := 3
  kv := [{ key := alignmentKey, isArray := false, type := .uint32
           data := leBytes 4 a.toNat, strings := [] }]
  info := [{ name := [120], type := 0, ne := ⟨1, 1, 1, 1⟩, offset := 0, data := fun _ => 1 }]
  alignment := 32

theorem alignedCtx_fits : (alignedCtx 32).Fits ggmlTraits where
  size := by decide
  header :=
    { tensors := by decide
      kvs := by decide
      kv := by
        intro x hx
        rw [mem_singleton.mp hx]
        exact ⟨by decide, by decide, by decide⟩
      info := by
        intro t ht
        rw [mem_singleton.mp ht]
        exact ⟨by decide, by decide⟩ }
  memory := by decide
  start := by decide
  inner := by decide
  last := by decide

theorem build_roundTrips_default : build ggmlTraits (alignedOps 32) = some (alignedCtx 32) ∧
    ∀ d, RoundTrips ggmlTraits ((alignedCtx 32).withData d) := by
  have hbuild : build ggmlTraits (alignedOps 32) = some (alignedCtx 32) := rfl
  exact ⟨hbuild, (build_roundTrips_iff hbuild).mpr alignedCtx_fits⟩

/-- With alignment 64 the reader looks for the data behind the end of the file. -/
theorem build_not_roundTrips : build ggmlTraits (alignedOps 64) = some (alignedCtx 64) ∧
    ¬ RoundTrips ggmlTraits (alignedCtx 64) := by
  have hbuild : build ggmlTraits (alignedOps 64) = some (alignedCtx 64) := rfl
  refine ⟨hbuild, fun h => ?_⟩
  have hv := build_valid hbuild
  have hdata := (hv.roundTrips_iff.mp h).2.1.data
  rw [hv.file_length] at hdata
  revert hdata
  decide

end Llama.Gguf
