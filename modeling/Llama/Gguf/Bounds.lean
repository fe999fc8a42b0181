import Llama.Gguf.Total
import Mathlib.Order.Interval.Set.Disjoint
import Mathlib.Order.CompletePartialOrder

/-!
# Tensors inside the data section

A file that is accepted lays its tensors out one after the other inside the data section, unless
the size of a tensor is so large that padding it wraps around to 0: the check of the accumulated
size comes after the padding.
-/

namespace Llama.Gguf

open Bytes
open List hiding Disjoint

variable {T : Traits}

variable {a b size : Nat} {l : List Info} {file : List UInt8} {r : Opened}

theorem IsPowerOfTwo.dvd (h : IsPowerOfTwo a) (ha : a < 2 ^ 64) : a ∣ 2 ^ 64 := by
  obtain ⟨k, rfl⟩ := Nat.ne_zero_and_sub_one_eq_zero_iff_isPowerOfTwo.mp h
  have hk : k < 64 := (Nat.pow_lt_pow_iff_right (by decide)).mp ha
  exact Nat.pow_dvd_pow 2 hk.le

theorem wordPad_of_le {x : Nat} (h : x + a ≤ 2 ^ 64) : wordPad x a = pad x a := by
  rcases Nat.eq_zero_or_pos a with rfl | ha
  · simp [wordPad, pad]
  · rw [wordPad, pad, word, Nat.mod_eq_of_lt (by omega)]

theorem dvd_wordPad (x a : Nat) : a ∣ wordPad x a := ⟨_, Nat.mul_comm _ _⟩

theorem wordDataSize_cons {t : Info} (hb : b ≤ sizeMax) :
    wordDataSize T a b (t :: l) = some size ↔ t.offset = b ∧
      b + wordPad (t.wordNbytes T) a ≤ sizeMax ∧
      wordDataSize T a (b + wordPad (t.wordNbytes T) a) l = some size := by
  rw [wordDataSize]
  by_cases h1 : t.offset = b
  · by_cases h2 : b + wordPad (t.wordNbytes T) a ≤ sizeMax
    · have hmod : word (b + wordPad (t.wordNbytes T) a) = b + wordPad (t.wordNbytes T) a := by
        rw [word, Nat.mod_eq_of_lt]
        rw [sizeMax] at h2
        omega
      rw [if_neg (by simpa using h1), if_neg (by omega), hmod]
      exact ⟨fun h => ⟨h1, h2, h⟩, fun h => h.2.2⟩
    · rw [if_neg (by simpa using h1), if_pos (by omega)]
      exact iff_of_false (by simp) fun h => h2 h.2.1
  · rw [if_pos h1]
    exact iff_of_false (by simp) fun h => h1 h.1

/-- The tensors of a data section follow each other from `b` to `size`. -/
structure Stacked (T : Traits) (a b size : Nat) (l : List Info) : Prop where
  le : b ≤ size
  size_le : size ≤ sizeMax
  dvd : a ∣ size
  aligned : ∀ t ∈ l, a ∣ t.offset
  inside : ∀ t ∈ l, b ≤ t.offset ∧ t.offset + wordPad (t.wordNbytes T) a ≤ size
  sorted : l.Pairwise fun t u => t.offset + wordPad (t.wordNbytes T) a ≤ u.offset

theorem stacked_of_wordDataSize (hb : b ≤ sizeMax) (ha : a ∣ b)
    (h : wordDataSize T a b l = some size) : Stacked T a b size l := by
  induction l generalizing b with
  | nil =>
    cases h
    exact ⟨le_rfl, hb, ha, by simp, by simp, List.Pairwise.nil⟩
  | cons t l ih =>
    obtain ⟨rfl, hle, hrest⟩ := (wordDataSize_cons hb).mp h
    have hl := ih hle (Nat.dvd_add ha (dvd_wordPad _ _)) hrest
    refine ⟨?_, hl.size_le, hl.dvd, ?_, ?_, ?_⟩
    · exact le_trans (Nat.le_add_right _ _) hl.le
    · exact forall_mem_cons.mpr ⟨ha, hl.aligned⟩
    · refine forall_mem_cons.mpr ⟨⟨le_rfl, hl.le⟩, fun u hu => ?_⟩
      have := hl.inside u hu
      exact ⟨by omega, this.2⟩
    · exact pairwise_cons.mpr ⟨fun u hu => (hl.inside u hu).1, hl.sorted⟩

/-- The bytes of a tensor in the data section. -/
def Info.span (T : Traits) (t : Info) : Set Nat := Set.Ico t.offset (t.offset + t.wordNbytes T)

/-- The tensors of a context lie aligned, apart and inside its data section. -/
structure Opened.InBounds (T : Traits) (r : Opened) : Prop where
  aligned : ∀ t ∈ r.info, r.alignment ∣ t.offset
  noWrap : ∀ t ∈ r.info, t.offset + t.wordNbytes T < 2 ^ 64
  within : ∀ t ∈ r.info, t.offset + t.wordNbytes T ≤ r.size
  disjoint : r.info.Pairwise fun t u => Disjoint (t.span T) (u.span T)

/-- No tensor that the file describes is larger than the last multiple of the alignment. -/
def PaddingFits (T : Traits) (file : List UInt8) : Prop :=
  ∀ (h : Head) (rest : List UInt8), h.Ok T → file = h.bytes ++ rest →
    ∀ w ∈ h.infos, w.info.wordNbytes T + fileAlignment h.kvs ≤ 2 ^ 64

theorem Head.Ok.alignment_lt {h : Head} (hok : h.Ok T) : fileAlignment h.kvs < 2 ^ 32 := by
  unfold fileAlignment
  cases hf : findAlignment h.kvs with
  | none => decide
  | some x =>
    have hx : x.type = .uint32 ∧ x.ne = 1 := by
      by_contra hn
      exact hok.alignment ⟨x, hf, hn⟩
    have hr := hok.kvs.readable x (mem_of_find?_eq_some hf)
    have hlen := (hr.data (by rw [hx.1]; decide)).2.1
    rw [hx.1, hx.2] at hlen
    have hlt := leNat_lt x.data
    rw [hlen] at hlt
    exact lt_of_lt_of_le hlt (by decide)

/-- What the reader has checked of a context it returns. -/
theorem exists_head_of_ok {malloc : Nat → Bool} {params : InitParams}
    (h : initFromFileImpl T malloc params file = .ok r) :
    ∃ (hd : Head) (rest : List UInt8), hd.Ok T ∧ file = hd.bytes ++ rest ∧ r.toMeta = hd.kept ∧
      wordDataSize T r.alignment 0 r.info = some r.size := by
  rw [initFromFileImpl] at h
  cases hm : readMetaRun T file with
  | error e =>
    rw [hm] at h
    cases h
  | ok p =>
    rw [hm] at h
    obtain ⟨_, hfile, hd, rfl, hkept, hok⟩ := (covers_readMetaRun.ok file p.1 p.2).mp hm
    change openData T malloc params file p.1 p.2 = .ok r at h
    simp only [openData, require] at h
    split at h
    · cases hs : wordDataSize T p.1.alignment 0 p.1.info with
      | none =>
        rw [hs] at h
        cases h
      | some size =>
        rw [hs] at h
        change (createTensors T malloc params p.1 file p.2.length _ size >>= _) = _ at h
        cases hc : createTensors T malloc params p.1 file p.2.length
            (wordPad (file.length - p.2.length) p.1.alignment) size with
        | error e =>
          rw [hc] at h
          cases h
        | ok blob =>
          rw [hc] at h
          cases h
          exact ⟨hd, p.2, hok, hfile, hkept, hs⟩
    · cases h

/-- In a stack of tensors everything is in bounds exactly when no padding wraps around. -/
theorem Stacked.inBounds_iff (h : Stacked T r.alignment 0 r.size r.info)
    (hpow : IsPowerOfTwo r.alignment) (hlt : r.alignment < 2 ^ 64) :
    r.InBounds T ↔ ∀ t ∈ r.info, t.wordNbytes T + r.alignment ≤ 2 ^ 64 := by
  have hpos : 0 < r.alignment := Nat.pos_of_ne_zero hpow.1
  have hsize := h.size_le
  rw [sizeMax] at hsize
  constructor
  · intro hb t ht
    by_contra hn
    -- the size is a multiple of the alignment below 2 ^ 64
    have hgap := Nat.le_of_dvd (by omega) (Nat.dvd_sub (hpow.dvd hlt) h.dvd)
    have := hb.within t ht
    omega
  · intro hall
    have hpad : ∀ t ∈ r.info, t.wordNbytes T ≤ wordPad (t.wordNbytes T) r.alignment := by
      intro t ht
      rw [wordPad_of_le (hall t ht)]
      exact le_pad hpos _
    have hwithin : ∀ t ∈ r.info, t.offset + t.wordNbytes T ≤ r.size := by
      intro t ht
      have := (h.inside t ht).2
      have := hpad t ht
      omega
    refine ⟨h.aligned, fun t ht => ?_, hwithin, ?_⟩
    · have := hwithin t ht
      omega
    · refine h.sorted.imp_of_mem fun {t u} ht _ hle => ?_
      have := hpad t ht
      exact Set.Ico_disjoint_Ico.mpr (by omega)

/-- A file has one header, so the condition is about that one. -/
theorem paddingFits_iff {hd : Head} {rest : List UInt8} (hok : hd.Ok T)
    (hfile : file = hd.bytes ++ rest) :
    PaddingFits T file ↔ ∀ w ∈ hd.infos, w.info.wordNbytes T + fileAlignment hd.kvs ≤ 2 ^ 64 := by
  refine ⟨fun h => h hd rest hok hfile, fun hall h' rest' hok' hfile' w hw => ?_⟩
  have hm := (covers_readMetaRun.ok file hd.kept rest).mpr ⟨_, hfile, hd, rfl, rfl, hok⟩
  rw [(covers_readMetaRun.ok file h'.kept rest').mpr ⟨_, hfile', h', rfl, rfl, hok'⟩,
    Except.ok.injEq, Prod.mk.injEq] at hm
  have hinfo : h'.infos.map RawInfo.info = hd.infos.map RawInfo.info := congrArg Meta.info hm.1
  have halign : fileAlignment h'.kvs = fileAlignment hd.kvs := congrArg Meta.alignment hm.1
  have hmem : w.info ∈ hd.infos.map RawInfo.info := by
    rw [← hinfo]
    exact mem_map_of_mem hw
  obtain ⟨v, hv, he⟩ := mem_map.mp hmem
  rw [halign, ← he]
  exact hall v hv

/-- The tensors of an accepted file are in bounds exactly when no tensor that the file describes
is larger than the last multiple of the alignment that `size_t` holds. -/
theorem accepted_inBounds_iff {malloc : Nat → Bool} {params : InitParams} {file : List UInt8}
    {r : Opened} (h : initFromFileImpl T malloc params file = .ok r) :
    r.InBounds T ↔ PaddingFits T file := by
  obtain ⟨hd, rest, hok, hfile, hmeta, hsize⟩ := exists_head_of_ok h
  have halign : r.alignment = fileAlignment hd.kvs := by rw [hmeta]; rfl
  have hinfo : r.info = hd.infos.map RawInfo.info := by rw [hmeta]; rfl
  have hstack := stacked_of_wordDataSize (Nat.zero_le _) (Nat.dvd_zero _) hsize
  have hlt : r.alignment < 2 ^ 64 := by
    rw [halign]
    exact lt_trans hok.alignment_lt (by decide)
  rw [hstack.inBounds_iff (by rw [halign]; exact hok.power) hlt, paddingFits_iff hok hfile, halign,
    hinfo]
  simp only [forall_mem_map]

/-- The header of a file with one tensor of `n` numbers of type `double`. -/
def doublesHead (n : Nat) : Head :=
  { version := 3, kvs := [], infos := [{ name := [120], dims := [n], type := 28, offset := 0 }] }

/-- The context of such a file when the data is not loaded. -/
def doublesOpened (n size : Nat) : Opened :=
  { toMeta := (doublesHead n).kept, offset := 64, size := size, blob := none }

theorem doublesHead_ok : (doublesHead 5).Ok ggmlTraits where
  counts := ⟨by decide, by decide, by decide⟩
  kvs := ⟨by simp [doublesHead], by simp [doublesHead], by simp [doublesHead], by decide⟩
  alignment := by
    rintro ⟨x, hx, -⟩
    cases hx
  power := by decide
  infos := by
    refine ⟨?_, ?_, ?_, ?_, by decide⟩
    · exact forall_mem_singleton.mpr ⟨by decide, by decide, by decide⟩
    · exact forall_mem_singleton.mpr (by decide)
    · exact forall_mem_singleton.mpr ⟨by decide, by decide⟩
    · exact forall_mem_singleton.mpr (by decide)

theorem accepted_inBounds_doubles :
    initFromFileImpl ggmlTraits (fun _ => true) ⟨true, false⟩ (doublesHead 5).bytes =
      .ok (doublesOpened 5 64) ∧ (doublesOpened 5 64).InBounds ggmlTraits := by
  have h : initFromFileImpl ggmlTraits (fun _ => true) ⟨true, false⟩ (doublesHead 5).bytes =
      .ok (doublesOpened 5 64) := rfl
  have hfile : (doublesHead 5).bytes = (doublesHead 5).bytes ++ [] := (append_nil _).symm
  refine ⟨h, (accepted_inBounds_iff h).mpr ((paddingFits_iff doublesHead_ok hfile).mpr ?_)⟩
  exact forall_mem_singleton.mpr (by decide)

/-- A tensor of `2 ^ 64 - 8` bytes is accepted with an empty data section. -/
theorem accepted_not_inBounds :
    initFromFileImpl ggmlTraits (fun _ => true) ⟨true, false⟩ (doublesHead (2 ^ 61 - 1)).bytes =
      .ok (doublesOpened (2 ^ 61 - 1) 0) ∧
    ¬ (doublesOpened (2 ^ 61 - 1) 0).InBounds ggmlTraits := by
  refine ⟨rfl, fun h => ?_⟩
  have := h.within _ mem_cons_self
  revert this
  decide

end Llama.Gguf
