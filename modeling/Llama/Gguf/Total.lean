import Llama.Gguf.Spelling
import Llama.Gguf.RoundTrip

/-!
# Hostile files

On every file the reader returns a context or a null pointer, unless the file holds an empty
key, a key `general.alignment` of the wrong type, or a zero among the dimensions by which the
number of elements is checked, or asks for more memory than there is. Nothing else makes an
assertion fail, and no product of element counts overflows.
-/

namespace Llama.Gguf

open Bytes List

variable {T : Traits}

/-- A header as it stands in a file. -/
structure Head where
  /-- Version of the format. -/
  version : Nat
  /-- Key-value pairs. -/
  kvs : List Kv
  /-- Tensors. -/
  infos : List RawInfo

/-- The bytes of a header. -/
def Head.bytes (h : Head) : List UInt8 :=
  countBytes h.version h.infos.length h.kvs.length ++
    (h.kvs.flatMap Kv.raw ++ h.infos.flatMap RawInfo.bytes)

/-- What is kept of a header. -/
def Head.kept (h : Head) : Meta :=
  { version := h.version, kv := h.kvs.map Kv.kept, alignment := fileAlignment h.kvs
    info := h.infos.map RawInfo.info }

/-- Headers that are read without an error. -/
structure Head.Ok (T : Traits) (h : Head) : Prop where
  counts : CountsOk h.version h.infos.length h.kvs.length
  kvs : GoodKvs h.kvs
  alignment : ¬ WrongAlignment h.kvs
  power : IsPowerOfTwo (fileAlignment h.kvs)
  infos : GoodInfos T h.infos

/-- Where the key-value pairs or the tensors make the reader fault. -/
inductive SectionFault (T : Traits) (nTensors nKv : Nat) (s : List UInt8) : Prop where
  /-- A key is empty. -/
  | emptyKey (h : EmptyKeyAt nKv s)
  /-- The alignment has another type. -/
  | alignment (kvs : List Kv) (rest : List UInt8) (hlen : kvs.length = nKv) (hkvs : GoodKvs kvs)
      (hwrong : WrongAlignment kvs) (hs : s = kvs.flatMap Kv.raw ++ rest)
  /-- A dimension is zero. -/
  | zeroDim (kvs : List Kv) (rest : List UInt8) (hlen : kvs.length = nKv) (hkvs : GoodKvs kvs)
      (halign : ¬ WrongAlignment kvs) (hpower : IsPowerOfTwo (fileAlignment kvs))
      (hzero : ZeroDimAt T nTensors rest) (hs : s = kvs.flatMap Kv.raw ++ rest)

/-- Headers that make the reader fault. -/
def HeadFault (T : Traits) (file : List UInt8) : Prop :=
  ∃ (version nTensors nKv : Nat) (s : List UInt8), CountsOk version nTensors nKv ∧
    file = countBytes version nTensors nKv ++ s ∧ SectionFault T nTensors nKv s

/-- The loop over the tensors with the assertion behind it. -/
theorem covers_infoSection (version : Nat) (kv : List Kv) (alignment n : Nat) :
    Covers (do
        let info ← readInfosRun T n []
        Run.ensure (decide (info.length = n)) Fault.assertion
        pure ({ version := version, kv := kv, alignment := alignment, info := info } : Meta))
      (fun bs m => ∃ ws : List RawInfo, ws.length = n ∧ GoodInfos T ws ∧
        bs = ws.flatMap RawInfo.bytes ∧ m = ⟨version, kv, alignment, ws.map RawInfo.info⟩)
      (ZeroDimAt T n) := by
  refine ((covers_readInfosRun n).bind fun info _ => (covers_ensure _ Fault.assertion).map
    (g := fun _ => (⟨version, kv, alignment, info⟩ : Meta))).congr ?_ ?_
  · intro bs m
    constructor
    · rintro ⟨_, _, _, rfl, ⟨ws, hlen, rfl, rfl, hg⟩, -, ⟨rfl, -⟩, rfl⟩
      exact ⟨ws, hlen, hg, append_nil _, rfl⟩
    · rintro ⟨ws, hlen, hg, rfl, rfl⟩
      exact ⟨_, _, [], (append_nil _).symm, ⟨ws, hlen, rfl, rfl, hg⟩, (),
        ⟨rfl, by simpa using hlen⟩, rfl⟩
  · intro s
    constructor
    · rintro (h | ⟨_, _, _, rfl, ⟨ws, hlen, rfl, rfl, hg⟩, h⟩)
      · exact h
      · simp [hlen] at h
    · exact .inl

theorem covers_readMetaRun :
    Covers (readMetaRun T) (fun bs m => ∃ h : Head, bs = h.bytes ∧ m = h.kept ∧ h.Ok T)
      (HeadFault T) := by
  refine (spells_readCounts.covers.bind fun p _ => (covers_readKvSection p.2.2).bind fun q _ =>
    covers_infoSection (T := T) p.1 q.1 q.2 p.2.1).congr ?_ ?_
  · intro bs m
    constructor
    · rintro ⟨⟨version, nTensors, nKv⟩, _, _, rfl, ⟨hc, rfl⟩, _, _, _, rfl,
        ⟨kvs, hk, hg, hw, hp, rfl, rfl⟩, ws, hn, hi, rfl, rfl⟩
      simp only at hk hn hc
      subst hk hn
      exact ⟨⟨version, kvs, ws⟩, rfl, rfl, ⟨hc, hg, hw, hp, hi⟩⟩
    · rintro ⟨h, rfl, rfl, hok⟩
      exact ⟨(h.version, h.infos.length, h.kvs.length), _, _, rfl, ⟨hok.counts, rfl⟩, _, _, _, rfl,
        ⟨h.kvs, rfl, hok.kvs, hok.alignment, hok.power, rfl, rfl⟩, h.infos, rfl, hok.infos, rfl,
        rfl⟩
  · intro s
    constructor
    · rintro (h | ⟨⟨version, nTensors, nKv⟩, _, _, rfl, ⟨hc, rfl⟩,
        (h | ⟨kvs, s', hk, hg, hw, rfl⟩) | ⟨_, _, s', rfl, ⟨kvs, hk, hg, hw, hp, rfl, rfl⟩, hz⟩⟩)
      · exact h.elim
      · exact ⟨version, nTensors, nKv, _, hc, rfl, .emptyKey h⟩
      · exact ⟨version, nTensors, nKv, _, hc, rfl, .alignment kvs s' hk hg hw rfl⟩
      · exact ⟨version, nTensors, nKv, _, hc, rfl, .zeroDim kvs s' hk hg hw hp hz rfl⟩
    · rintro ⟨version, nTensors, nKv, s', hc, rfl, hf⟩
      refine .inr ⟨(version, nTensors, nKv), _, s', rfl, ⟨hc, rfl⟩, ?_⟩
      rcases hf with h | ⟨kvs, r, hk, hg, hw, rfl⟩ | ⟨kvs, r, hk, hg, hw, hp, hz, rfl⟩
      · exact .inl (.inl h)
      · exact .inl (.inr ⟨kvs, r, hk, hg, hw, rfl⟩)
      · exact .inr ⟨_, _, r, rfl, ⟨kvs, hk, hg, hw, hp, rfl, rfl⟩, hz⟩

variable {b : Bool} {p : Pool} {m n size : Nat} {params : InitParams} {h : Meta}

theorem assert_true (h : b = true) : assert b = .ok () := by rw [assert, if_pos h]

theorem require_true (h : b = true) : require b = .ok () := by rw [require, if_pos h]

/-- The code returns: a context or a null pointer. -/
def Returns {α : Type} (r : Res α) : Prop := (∃ a, r = .ok a) ∨ r = .error .reject

theorem returns_ok {α : Type} (a : α) : Returns (.ok a : Res α) := .inl ⟨a, rfl⟩

theorem returns_reject {α : Type} : Returns (.error .reject : Res α) := .inr rfl

theorem not_returns_fault {α : Type} (e : Fault) : ¬ Returns (.error (.fault e) : Res α) := by
  rintro (⟨a, h⟩ | h) <;> cases h

theorem not_returns_iff {α : Type} {r : Res α} : ¬ Returns r ↔ ∃ e, r = .error (.fault e) := by
  rcases r with (- | e) | a
  · simp [Returns]
  · simp [Returns]
  · simp [Returns]

theorem Returns.bind {α β : Type} {r : Res α} {f : α → Res β} (h : Returns r)
    (h' : ∀ a, r = .ok a → Returns (f a)) : Returns (r >>= f) := by
  rcases h with ⟨a, rfl⟩ | rfl
  · exact h' a rfl
  · exact returns_reject

theorem returns_require (b : Bool) : Returns (require b) := by
  cases b
  · exact returns_reject
  · exact returns_ok ()

theorem newObject_ok (p : Pool) (size : Nat) (h1 : size ≤ sizeMax - (memAlign - 1))
    (h2 : p.used + wordPad size memAlign + objectSize ≤ p.memSize) (h3 : p.memSize ≤ sizeMax) :
    newObject p size = .ok { p with used := p.used + wordPad size memAlign + objectSize } := by
  have h4 : p.used ≤ sizeMax - wordPad size memAlign := by omega
  have h5 : p.used + wordPad size memAlign ≤ sizeMax - objectSize := by omega
  rw [newObject, assert_true (decide_eq_true h1)]
  simp only [assert_true (decide_eq_true h4), assert_true (decide_eq_true h5),
    assert_true (decide_eq_true h2)]
  rfl

/-- One more object without data fits while there is room for a tensor. -/
theorem newTensor_zero (hroom : p.used + tensorOverhead ≤ p.memSize) (hsize : p.memSize ≤ sizeMax) :
    newTensor p 0 = .ok { p with used := p.used + tensorOverhead } := by
  have hpad : wordPad (tensorSize + 0) memAlign + objectSize = tensorOverhead := by decide
  have hobj := newObject_ok p (tensorSize + 0) (by decide) (by omega) hsize
  rw [Nat.add_assoc, hpad] at hobj
  rw [newTensor, assert_true (by decide)]
  exact hobj

theorem newTensors_ok {l : List Info} (hl : ∀ t ∈ l, t.type < T.count)
    (hroom : p.used + l.length * tensorOverhead ≤ p.memSize) (hsize : p.memSize ≤ sizeMax) :
    newTensors T p l = .ok { p with used := p.used + l.length * tensorOverhead } := by
  induction l generalizing p with
  | nil => simp [newTensors, pure, Except.pure]
  | cons t l ih =>
    rw [length_cons, Nat.succ_mul] at hroom
    have hstep := newTensor_zero (p := p) (by omega) hsize
    have hrest := ih (p := { p with used := p.used + tensorOverhead })
      (fun u hu => hl u (mem_cons_of_mem t hu))
      (show p.used + tensorOverhead + _ ≤ p.memSize by omega) hsize
    have ht := assert_true (decide_eq_true (hl t mem_cons_self))
    unfold newTensors at hrest ⊢
    rw [foldlM_cons, ht]
    change (newTensor p 0 >>= _) = _
    rw [hstep]
    change List.foldlM _ _ l = _
    rw [hrest, length_cons, Nat.succ_mul, Nat.add_comm (l.length * _), Nat.add_assoc]

/-- A pool that was not refused is as large as was asked for. -/
theorem poolSize_eq (h : poolSize m ≠ 0) (hm : m ≤ sizeMax) (h0 : m ≠ 0) :
    poolSize m = (m + 15) / 16 * 16 ∧ m + 15 ≤ sizeMax := by
  simp only [sizeMax] at hm ⊢
  simp only [poolSize, wordPad, word, memAlign, if_neg h0] at h ⊢
  omega

theorem ggmlInit_eq (malloc : Nat → Bool) (m : Nat) :
    ggmlInit malloc m = if poolSize m ≠ 0 ∧ malloc (poolSize m) = true then
      .ok { memSize := poolSize m, used := 0 } else .error (.fault .assertion) := by
  rw [ggmlInit, assert]
  by_cases h : poolSize m ≠ 0 ∧ malloc (poolSize m) = true
  · rw [if_pos h, if_pos (by simpa using h)]
    rfl
  · rw [if_neg h, if_neg (by simpa using h)]
    rfl

/-- The bytes for a pool are refused. -/
def Refused (malloc : Nat → Bool) (params : InitParams) (n size : Nat) : Prop :=
  ∃ m, memSize params n size = .ok m ∧ ¬ (poolSize m ≠ 0 ∧ malloc (poolSize m) = true)

/-- The data section and every tensor fit into the pool. -/
theorem loadBlob_spec (file : List UInt8) (remain offset : Nat) (hused : p.used = 0)
    (hmem : p.memSize = ((n + 1) * tensorOverhead + size + 15) / 16 * 16)
    (hle : (n + 1) * tensorOverhead + size + 15 ≤ sizeMax) :
    Returns (loadBlob p file remain offset size) ∧ ∀ q blob,
      loadBlob p file remain offset size = .ok (q, blob) →
      q.memSize = p.memSize ∧ q.used + n * tensorOverhead ≤ q.memSize := by
  simp only [tensorOverhead, sizeMax] at hmem hle
  have hpad : wordPad (tensorSize + size) memAlign = (size + 351) / 16 * 16 := by
    simp only [wordPad, word, tensorSize, memAlign]
    omega
  have hobj := newObject_ok p (tensorSize + size)
    (by simp only [tensorSize, sizeMax, memAlign]; omega)
    (by rw [hpad, objectSize]; omega) (by rw [sizeMax]; omega)
  have hnew : newTensor p size = .ok
      { p with used := p.used + wordPad (tensorSize + size) memAlign + objectSize } := by
    rw [newTensor, assert_true (decide_eq_true (by simp only [tensorSize, sizeMax]; omega))]
    exact hobj
  rw [loadBlob, hnew]
  constructor
  · exact (returns_require _).bind fun _ _ => (returns_require _).bind fun _ _ => returns_ok _
  · intro q blob h
    change (require _ >>= fun _ => require _ >>= fun _ => Except.ok _) = _ at h
    simp only [require] at h
    split at h <;> try cases h
    split at h <;> cases h
    refine ⟨rfl, ?_⟩
    rw [hpad, objectSize, tensorOverhead]
    simp only
    omega

theorem memSize_returns (params : InitParams) (n size : Nat) : Returns (memSize params n size) := by
  unfold memSize
  split
  · exact (returns_require _).bind fun _ _ => returns_ok _
  · exact (returns_require _).bind fun _ _ => (returns_require _).bind fun _ _ => returns_ok _

theorem memSize_le (h : memSize params n size = .ok m) :
    m ≤ sizeMax ∧ m = if params.noAlloc then n * tensorOverhead
      else (n + 1) * tensorOverhead + size := by
  unfold memSize at h
  split at h
  · rename_i hna
    simp only [require] at h
    split at h
    · rename_i hn
      cases h
      rw [if_pos hna]
      refine ⟨?_, rfl⟩
      rcases of_decide_eq_true hn with rfl | hn
      · simp
      · exact mul_comm n tensorOverhead ▸ (le_trans (Nat.mul_le_mul_right n hn)
          (Nat.div_mul_le_self sizeMax n))
    · cases h
  · rename_i hna
    simp only [require] at h
    split at h <;> try cases h
    rename_i hn
    split at h <;> cases h
    rename_i hs
    rw [if_neg hna]
    refine ⟨?_, rfl⟩
    have h1 := le_trans (Nat.mul_le_mul_right (n + 1) (of_decide_eq_true hn))
      (Nat.div_mul_le_self sizeMax (n + 1))
    have h2 : size ≤ sizeMax - (n + 1) * tensorOverhead := of_decide_eq_true hs
    rw [mul_comm] at h1
    omega

/-- In a pool that was given, the data section is loaded or rejected, and there is room for the
tensors. -/
theorem loadData_spec (file : List UInt8) (remain offset : Nat) (hm : memSize params n size = .ok m)
    (hpool : poolSize m ≠ 0) :
    Returns (loadData { memSize := poolSize m, used := 0 } params file remain offset size) ∧
    ∀ r, loadData { memSize := poolSize m, used := 0 } params file remain offset size = .ok r →
      r.1.used + n * tensorOverhead ≤ r.1.memSize ∧ r.1.memSize ≤ sizeMax := by
  obtain ⟨hle, heq⟩ := memSize_le hm
  unfold loadData
  cases hna : params.noAlloc with
  | true =>
    rw [if_pos rfl]
    rw [hna, if_pos rfl] at heq
    refine ⟨returns_ok _, fun r hr => ?_⟩
    cases hr
    by_cases h0 : m = 0
    · rw [h0] at heq ⊢
      rw [← heq]
      decide
    · obtain ⟨h1, h2⟩ := poolSize_eq hpool hle h0
      simp only
      omega
  | false =>
    rw [if_neg (by simp)]
    rw [hna, if_neg (by simp)] at heq
    have h0 : m ≠ 0 := by
      rw [heq, tensorOverhead]
      omega
    obtain ⟨h1, h2⟩ := poolSize_eq hpool hle h0
    obtain ⟨hr, hq⟩ := loadBlob_spec (p := { memSize := poolSize m, used := 0 }) file
      remain offset rfl (by rw [← heq]; exact h1) (by rw [← heq]; exact h2)
    refine ⟨hr.bind fun _ _ => returns_ok _, fun r hr' => ?_⟩
    cases hl : loadBlob { memSize := poolSize m, used := 0 } file remain offset size with
    | error e =>
      rw [hl] at hr'
      cases hr'
    | ok q =>
      rw [hl] at hr'
      cases hr'
      obtain ⟨hmem, hroom⟩ := hq q.1 q.2 hl
      refine ⟨hroom, ?_⟩
      rw [hmem]
      simp only
      omega

/-- Creating the tensors faults exactly when the memory is refused. -/
theorem createTensors_returns_iff (malloc : Nat → Bool) (params : InitParams)
    (hinfo : ∀ t ∈ h.info, t.type < T.count) (file : List UInt8) (remain offset size : Nat) :
    Returns (createTensors T malloc params h file remain offset size) ↔
      ¬ (params.ctx = true ∧ Refused malloc params h.info.length size) := by
  unfold createTensors
  cases hctx : params.ctx with
  | false => exact iff_of_true (returns_ok _) (by simp)
  | true =>
    rw [if_pos rfl]
    rcases memSize_returns params h.info.length size with ⟨m, hm⟩ | hm
    · have hinit := ggmlInit_eq malloc m
      rw [hm]
      change Returns (ggmlInit malloc m >>= _) ↔ _
      by_cases hpool : poolSize m ≠ 0 ∧ malloc (poolSize m) = true
      · refine iff_of_true ?_ ?_
        · rw [hinit, if_pos hpool]
          obtain ⟨hr, hroom⟩ := loadData_spec file remain offset hm hpool.1
          refine hr.bind fun r hr' => ?_
          rw [newTensors_ok hinfo (hroom r hr').1 (hroom r hr').2]
          exact returns_ok _
        · rintro ⟨-, m', hm', hn⟩
          rw [hm] at hm'
          cases hm'
          exact hn hpool
      · refine iff_of_false ?_ (not_not_intro ⟨rfl, m, hm, hpool⟩)
        rw [hinit, if_neg hpool]
        exact not_returns_fault _
    · refine iff_of_true ?_ ?_
      · rw [hm]
        exact returns_reject
      · rintro ⟨-, m, hm', -⟩
        rw [hm] at hm'
        cases hm'

/-- Files on which the program dies. -/
inductive Hazard (T : Traits) (malloc : Nat → Bool) (params : InitParams) (file : List UInt8) :
    Prop where
  /-- The header. -/
  | head (h : HeadFault T file)
  /-- The memory for the tensors. -/
  | memory (h : Head) (rest : List UInt8) (size : Nat) (hctx : params.ctx = true) (hok : h.Ok T)
      (hfile : file = h.bytes ++ rest) (hseek : wordPad h.bytes.length h.kept.alignment < 2 ^ 63)
      (hsize : wordDataSize T h.kept.alignment 0 h.kept.info = some size)
      (hrefused : Refused malloc params h.infos.length size)

theorem openData_returns_iff {malloc : Nat → Bool} {file rest : List UInt8}
    (hinfo : ∀ t ∈ h.info, t.type < T.count) :
    Returns (openData T malloc params file h rest) ↔
      ¬ (wordPad (file.length - rest.length) h.alignment < 2 ^ 63 ∧
        ∃ size, wordDataSize T h.alignment 0 h.info = some size ∧
          params.ctx = true ∧ Refused malloc params h.info.length size) := by
  simp only [openData]
  by_cases hseek : wordPad (file.length - rest.length) h.alignment < 2 ^ 63
  · rw [require_true (decide_eq_true hseek)]
    cases hs : wordDataSize T h.alignment 0 h.info with
    | none => exact iff_of_true returns_reject (by simp)
    | some size =>
      have hcreate := createTensors_returns_iff malloc params hinfo file
        rest.length (wordPad (file.length - rest.length) h.alignment) size
      simp only [hseek, true_and, Option.some.injEq, exists_eq_left']
      rw [← hcreate]
      refine ⟨fun hr => ?_, fun hr => hr.bind fun _ _ => returns_ok _⟩
      by_contra hn
      obtain ⟨e, he⟩ := not_returns_iff.mp hn
      change Returns (createTensors _ _ _ _ _ _ _ _ >>= _) at hr
      rw [he] at hr
      exact not_returns_fault e hr
  · have hno : require (decide (wordPad (file.length - rest.length) h.alignment < 2 ^ 63)) =
        .error .reject := by
      rw [decide_eq_false hseek]
      rfl
    rw [hno]
    exact iff_of_true returns_reject fun hn => hseek hn.1

/-- The reader returns a context or a null pointer exactly on the files without a hazard; there
no assertion fails, nothing is divided by zero and no product overflows. -/
theorem initFromFileImpl_returns_iff (T : Traits) (malloc : Nat → Bool) (params : InitParams)
    (file : List UInt8) :
    Returns (initFromFileImpl T malloc params file) ↔ ¬ Hazard T malloc params file := by
  rw [initFromFileImpl]
  cases hm : readMetaRun T file with
  | error e =>
    cases e with
    | reject =>
      refine iff_of_true returns_reject ?_
      rintro (hf | ⟨h, rest, size, -, hok, hfile, -⟩)
      · obtain ⟨e, he⟩ := (covers_readMetaRun.fault file).mpr hf
        rw [hm] at he
        cases he
      · rw [(covers_readMetaRun.ok file h.kept rest).mpr ⟨h.bytes, hfile, h, rfl, rfl, hok⟩] at hm
        cases hm
    | fault e =>
      exact iff_of_false (not_returns_fault e)
        (not_not_intro (.head ((covers_readMetaRun.fault file).mp ⟨e, hm⟩)))
  | ok p =>
    obtain ⟨_, hfile, h, rfl, hkept, hok⟩ := (covers_readMetaRun.ok file p.1 p.2).mp hm
    have hinfo : ∀ t ∈ p.1.info, t.type < T.count := by
      rw [hkept]
      intro t ht
      obtain ⟨w, hw, rfl⟩ := mem_map.mp ht
      exact (Traits.fits_iff.mp (hok.infos.fits w hw).2).1
    have hlen : file.length - p.2.length = h.bytes.length := by
      rw [hfile, length_append]
      omega
    change Returns (openData T malloc params file p.1 p.2) ↔ _
    rw [openData_returns_iff hinfo, hlen, hkept]
    refine not_congr ⟨?_, ?_⟩
    · rintro ⟨hseek, size, hsize, hctx, hr⟩
      exact .memory h p.2 size hctx hok hfile hseek hsize (by simpa [Head.kept] using hr)
    · rintro (hf | ⟨h', rest', size, hctx, hok', hfile', hseek, hsize, hr⟩)
      · obtain ⟨e, he⟩ := (covers_readMetaRun.fault file).mpr hf
        rw [hm] at he
        cases he
      · have hm' := (covers_readMetaRun.ok file h'.kept rest').mpr
          ⟨h'.bytes, hfile', h', rfl, rfl, hok'⟩
        rw [hm] at hm'
        cases hm'
        have hb : h'.bytes.length = h.bytes.length := by
          rw [hfile'] at hlen
          simp only [length_append] at hlen
          omega
        have hn : h'.infos.length = h'.kept.info.length := by simp [Head.kept]
        rw [← hkept, ← hb]
        exact ⟨hseek, size, hsize, hctx, hn ▸ hr⟩

/-- A file with one pair whose key is empty. -/
def emptyKeyFile : List UInt8 :=
  countBytes 3 0 1 ++ ({ key := [], isArray := false, type := .bool, data := [1]
                         strings := [] } : Kv).raw

/-- A file whose alignment is a boolean. -/
def boolAlignmentFile : List UInt8 :=
  countBytes 3 0 1 ++ ({ key := alignmentKey, isArray := false, type := .bool, data := [1]
                         strings := [] } : Kv).raw

/-- A file with a tensor of shape 1 x 0. -/
def zeroDimFile : List UInt8 := countBytes 3 1 0 ++ (shapeBytes [120] [1, 0] ++ [])

/-- Each of the three kinds of headers kills the program, whatever is asked for. -/
theorem hostile_files_fault :
    (¬ ∀ params, Returns (initFromFileImpl ggmlTraits (fun _ => true) params emptyKeyFile)) ∧
    (¬ ∀ params, Returns (initFromFileImpl ggmlTraits (fun _ => true) params boolAlignmentFile)) ∧
    ¬ ∀ params, Returns (initFromFileImpl ggmlTraits (fun _ => true) params zeroDimFile) := by
  refine ⟨fun h => ?_, fun h => ?_, fun h => ?_⟩
  · exact not_returns_fault .assertion (h ⟨true, true⟩)
  · exact not_returns_fault .assertion (h ⟨true, true⟩)
  · exact not_returns_fault .divisionByZero (h ⟨true, true⟩)

end Llama.Gguf
