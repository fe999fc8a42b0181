import Llama.Gguf.Format
import Mathlib.Data.List.Forall2

/-!
# Contexts built through the interface

Whatever calls are made, the keys stay distinct, every value has the bytes of its type, and the
offsets of the tensors follow the default alignment: the alignment of the context is never
changed by the key `general.alignment`.
-/

namespace Llama.Gguf

open Bytes List

variable {T : Traits}

/-- The value has the bytes of its type. -/
structure Kv.WF (x : Kv) : Prop where
  key : x.key ≠ []
  type : x.type ≠ .array
  string : x.type = .string → x.data = [] ∧ (x.isArray = false → x.strings.length = 1)
  data : x.type ≠ .string → x.strings = [] ∧ x.data.length = x.ne * x.type.size ∧
    (x.isArray = false → x.ne = 1)
  bool : x.type = .bool → x.data.map writeBool = x.data
  reserved : x.key = alignmentKey → x.type = .uint32 ∧ x.ne = 1 ∧ leNat x.data ≠ 0 ∧
    leNat x.data &&& (leNat x.data - 1) = 0

/-- The tensor can be named and measured in a file. -/
structure Info.WF (t : Info) : Prop where
  type_lt : t.type < 2 ^ 31
  name_lt : t.name.length < 64
  noNul : 0 ∉ t.name
  pos : 0 < t.ne.d0 ∧ 0 < t.ne.d1 ∧ 0 < t.ne.d2 ∧ 0 < t.ne.d3
  lt : t.ne.d0 < 2 ^ 63 ∧ t.ne.d1 < 2 ^ 63 ∧ t.ne.d2 < 2 ^ 63 ∧ t.ne.d3 < 2 ^ 63

/-- Offsets that follow each other from `b` on. -/
def Laid (T : Traits) (alignment : Nat) : Nat → List Info → Prop
  | _, [] => True
  | b, t :: ts => t.offset = b ∧ Laid T alignment (b + pad (t.nbytes T) alignment) ts

/-- What a file keeps of the tensors. -/
def Ctx.infos (c : Ctx) : List Info := c.info.map TensorInfo.toInfo

/-- Contexts that the interface can build. -/
structure Ctx.Valid (T : Traits) (c : Ctx) : Prop where
  version : c.version = ggufVersion
  alignment : c.alignment = defaultAlignment
  keys : (c.kv.map Kv.key).Nodup
  kv : ∀ x ∈ c.kv, x.WF
  names : (c.infos.map Info.name).Nodup
  info : ∀ t ∈ c.infos, t.WF
  laid : Laid T defaultAlignment 0 c.infos

theorem removeKey_sublist (kv : List Kv) (key : List UInt8) : (removeKey kv key).Sublist kv :=
  eraseP_sublist

/-- Distinct keys: removing one leaves none of that name. -/
theorem notMem_removeKey {kv : List Kv} (h : (kv.map Kv.key).Nodup) (key : List UInt8) :
    key ∉ (removeKey kv key).map Kv.key := by
  induction kv with
  | nil => simp [removeKey]
  | cons x kv ih =>
    rw [map_cons, nodup_cons] at h
    by_cases hx : x.key = key
    · rw [removeKey, eraseP_cons_of_pos (by simp [hx]), ← hx]
      exact h.1
    · rw [removeKey, eraseP_cons_of_neg (by simp [hx]), map_cons, mem_cons]
      rintro (he | hmem)
      · exact hx he.symm
      · exact ih h.2 hmem

theorem Ctx.Valid.removeKey {c : Ctx} (h : c.Valid T) (key : List UInt8) :
    ({ c with kv := Gguf.removeKey c.kv key } : Ctx).Valid T :=
  { h with
    keys := h.keys.sublist ((removeKey_sublist c.kv key).map _)
    kv := fun x hx => h.kv x ((removeKey_sublist c.kv key).subset hx) }

theorem Ctx.Valid.setKv {c c' : Ctx} (h : c.Valid T) {x : Kv} {val : Option Nat}
    (hset : c.setKv x val = some c')
    (hx : checkReservedKeys x.key val = true → x.key ≠ [] → x.WF) : c'.Valid T := by
  rw [Ctx.setKv] at hset
  split at hset
  · rename_i hok
    cases hset
    refine { h with
      keys := ?_
      kv := fun y hy => ?_ }
    · rw [map_append, nodup_append]
      refine ⟨h.keys.sublist ((removeKey_sublist c.kv x.key).map _), by simp, ?_⟩
      rintro k hk _ hkx rfl
      rw [map_singleton, mem_singleton] at hkx
      exact notMem_removeKey h.keys x.key (hkx ▸ hk)
    · rcases mem_append.mp hy with hy | hy
      · exact h.kv y ((removeKey_sublist c.kv x.key).subset hy)
      · rw [mem_singleton.mp hy]
        exact hx hok.1 hok.2
  · cases hset

theorem Scalar.bytes_length (v : Scalar) : v.bytes.length = v.type.size := by
  cases v <;> simp [Scalar.bytes, Scalar.type, GgufType.size]

theorem Scalar.type_size_pos (v : Scalar) : 0 < v.type.size := by
  cases v <;> simp [Scalar.type, GgufType.size]

theorem Scalar.type_ne (v : Scalar) : v.type ≠ .string ∧ v.type ≠ .array := by
  cases v <;> simp [Scalar.type]

variable {v : Scalar} {key name : List UInt8} {a b type : Nat} {l : List Info} {t : Info}
  {ts ts' : List TensorInfo} {c : Ctx}

theorem Scalar.map_writeBool (h : v.type = .bool) : v.bytes.map writeBool = v.bytes := by
  cases v with
  | bool b => cases b <;> rfl
  | _ => simp [Scalar.type] at h

theorem checkReservedKeys_none (h : checkReservedKeys key none = true) : key ≠ alignmentKey := by
  intro hk
  simp [checkReservedKeys, hk] at h

/-- The alignment is set as a power of two of type `uint32_t`. -/
theorem Scalar.reserved (h : checkReservedKeys key v.u32? = true) (hk : key = alignmentKey) :
    v.type = .uint32 ∧ leNat v.bytes ≠ 0 ∧ leNat v.bytes &&& (leNat v.bytes - 1) = 0 := by
  cases v with
  | u32 v =>
    simp only [checkReservedKeys, hk, if_true, Scalar.u32?, decide_eq_true_eq] at h
    have hv : leNat (Scalar.u32 v).bytes = v.toNat :=
      leNat_leBytes_of_lt (by have := v.toNat_lt; norm_num; omega)
    rw [hv]
    exact ⟨rfl, by omega, h.2⟩
  | _ => exact (checkReservedKeys_none h hk).elim

theorem Scalar.wf (h : checkReservedKeys key v.u32? = true) (hk : key ≠ []) :
    ({ key := key, isArray := false, type := v.type, data := v.bytes, strings := [] } : Kv).WF := by
  have hne : ({ key := key, isArray := false, type := v.type, data := v.bytes
                strings := [] } : Kv).ne = 1 := by
    rw [Kv.ne, if_neg v.type_ne.1]
    simp only [v.bytes_length]
    exact Nat.div_self v.type_size_pos
  refine ⟨hk, v.type_ne.2, fun hs => (v.type_ne.1 hs).elim, fun _ => ⟨rfl, ?_, fun _ => hne⟩,
    fun hb => v.map_writeBool hb, fun hkey => ?_⟩
  · rw [hne, Nat.one_mul]
    exact v.bytes_length
  · obtain ⟨h1, h2, h3⟩ := v.reserved h hkey
    exact ⟨h1, hne, h2, h3⟩

theorem ArrData.wf {a : ArrData} (h : checkReservedKeys key none = true) (hk : key ≠ [])
    (hsize : a.type.size ≠ 0) :
    ({ key := key, isArray := true, type := a.type, data := a.bytes, strings := [] } : Kv).WF := by
  have hs : a.type ≠ .string := fun hs => hsize (by rw [hs]; rfl)
  have ha : a.type ≠ .array := fun ha => hsize (by rw [ha]; rfl)
  have hne : ({ key := key, isArray := true, type := a.type, data := a.bytes
                strings := [] } : Kv).ne = a.n := by
    rw [Kv.ne, if_neg hs]
    simp only [a.length_eq]
    exact Nat.mul_div_cancel _ (Nat.pos_of_ne_zero hsize)
  refine ⟨hk, ha, fun h => (hs h).elim, fun _ => ⟨rfl, ?_, fun h => by cases h⟩, fun hb => ?_,
    fun hkey => (checkReservedKeys_none h hkey).elim⟩
  · rw [hne]
    exact a.length_eq
  · refine (map_congr_left fun b hb' => ?_).trans (map_id _)
    rcases a.bool_le hb b hb' with rfl | rfl <;> rfl

theorem laid_append (h : Laid T a b l) (ht : t.offset = match l.getLast? with
      | none => b
      | some x => x.next T a) : Laid T a b (l ++ [t]) := by
  induction l generalizing b with
  | nil => exact ⟨ht, trivial⟩
  | cons x l ih =>
    refine ⟨h.1, ih h.2 ?_⟩
    cases l with
    | nil =>
      simp only [getLast?_singleton] at ht
      rw [ht, Info.next, h.1]
      rfl
    | cons y l =>
      rw [getLast?_cons_cons] at ht
      rw [ht]
      cases hl : (y :: l).getLast? with
      | none => simp at hl
      | some z => rfl

theorem Ctx.Valid.addTensor {c c' : Ctx} (h : c.Valid T) {t : Tensor}
    (hadd : c.addTensor T t = some c') : c'.Valid T := by
  rw [Ctx.addTensor] at hadd
  split at hadd
  · cases hadd
  · rename_i hnew
    cases hadd
    simp only [any_eq_true, beq_iff_eq, not_exists, not_and] at hnew
    have hlast : c.infos.getLast? = c.info.getLast?.map TensorInfo.toInfo := by
      simp [Ctx.infos, getLast?_map]
    refine { h with
      names := ?_
      info := fun x hx => ?_
      laid := ?_ }
    · simp only [Ctx.infos, map_append, map_cons, map_nil]
      rw [nodup_append]
      refine ⟨h.names, by simp, ?_⟩
      rintro n hn _ hn' rfl
      rw [mem_singleton.mp hn'] at hn
      simp only [map_map, mem_map, Function.comp_apply] at hn
      obtain ⟨x, hx, he⟩ := hn
      exact hnew x hx he
    · simp only [Ctx.infos, map_append, map_cons, map_nil] at hx
      rcases mem_append.mp hx with hx | hx
      · exact h.info x hx
      · rw [mem_singleton.mp hx]
        exact ⟨t.type_lt, t.name_lt, t.name.noNul, t.pos, t.lt⟩
    · simp only [Ctx.infos, map_append, map_cons, map_nil]
      refine laid_append h.laid ?_
      rw [show c.info.map TensorInfo.toInfo = c.infos from rfl, hlast]
      cases hl : c.info.getLast? with
      | none => rfl
      | some x => rw [h.alignment]; rfl

/-- The tensors are the same but for their offsets, and those of one name may have a new type. -/
def SameShape (type : Nat) (t u : Info) : Prop :=
  t.name = u.name ∧ t.ne = u.ne ∧ (t.type = u.type ∨ t.type = type)

theorem SameShape.wf {u : Info} (h : SameShape type t u) (hu : u.WF) (htype : type < 2 ^ 31) :
    t.WF := by
  obtain ⟨h1, h2, h3⟩ := h
  refine ⟨?_, h1 ▸ hu.name_lt, h1 ▸ hu.noNul, h2 ▸ hu.pos, h2 ▸ hu.lt⟩
  rcases h3 with h3 | h3
  · rw [h3]
    exact hu.type_lt
  · rw [h3]
    exact htype

theorem forall₂_sameShape_name {l' : List Info} (h : Forall₂ (SameShape type) l l') :
    l.map Info.name = l'.map Info.name := by
  induction h with
  | nil => rfl
  | cons h1 _ ih => rw [map_cons, map_cons, h1.1, ih]

theorem updateOffsets_same (a type : Nat) (prev : TensorInfo) (ts : List TensorInfo) :
    Forall₂ (SameShape type) ((updateOffsets T a prev ts).map TensorInfo.toInfo)
      (ts.map TensorInfo.toInfo) := by
  induction ts generalizing prev with
  | nil => exact List.Forall₂.nil
  | cons t ts ih => exact List.Forall₂.cons ⟨rfl, rfl, .inl rfl⟩ (ih _)

theorem setTensorType_same (h : setTensorType T a name type ts = some ts') :
    Forall₂ (SameShape type) (ts'.map TensorInfo.toInfo) (ts.map TensorInfo.toInfo) := by
  induction ts generalizing ts' with
  | nil => cases h
  | cons t ts ih =>
    rw [setTensorType] at h
    split at h
    · split at h
      · cases h
        exact List.Forall₂.cons ⟨rfl, rfl, .inr rfl⟩ (updateOffsets_same a type _ ts)
      · cases h
    · obtain ⟨us, hus, h⟩ := Option.bind_eq_some_iff.mp h
      cases h
      exact List.Forall₂.cons ⟨rfl, rfl, .inl rfl⟩ (ih hus)

theorem updateOffsets_laid (a : Nat) (prev : TensorInfo) (ts : List TensorInfo) :
    Laid T a (prev.next T a) ((updateOffsets T a prev ts).map TensorInfo.toInfo) := by
  induction ts generalizing prev with
  | nil => exact trivial
  | cons t ts ih => exact ⟨rfl, ih { t with offset := prev.next T a }⟩

theorem setTensorType_laid (h : setTensorType T a name type ts = some ts')
    (hl : Laid T a b (ts.map TensorInfo.toInfo)) : Laid T a b (ts'.map TensorInfo.toInfo) := by
  induction ts generalizing b ts' with
  | nil => cases h
  | cons t ts ih =>
    rw [map_cons] at hl
    rw [setTensorType] at h
    split at h
    · split at h
      · cases h
        refine ⟨hl.1, ?_⟩
        have := updateOffsets_laid (T := T) a { t with type := type } ts
        rw [← hl.1]
        exact this
      · cases h
    · obtain ⟨us, hus, h⟩ := Option.bind_eq_some_iff.mp h
      cases h
      exact ⟨hl.1, ih hus hl.2⟩

theorem Ctx.Valid.setTensorType (h : c.Valid T) (htype : type < 2 ^ 31)
    (hset : setTensorType T c.alignment name type c.info = some ts) :
    ({ c with info := ts } : Ctx).Valid T := by
  have hsame := setTensorType_same hset
  have hnames := forall₂_sameShape_name hsame
  refine { h with
    names := by rw [Ctx.infos, hnames]; exact h.names
    info := fun t ht => ?_
    laid := ?_ }
  · obtain ⟨k, hk, rfl⟩ := getElem_of_mem ht
    have hk' := hsame.length_eq ▸ hk
    exact (hsame.get hk hk').wf (h.info _ (getElem_mem hk')) htype
  · rw [h.alignment] at hset
    exact setTensorType_laid hset h.laid

theorem Ctx.Valid.run {c c' : Ctx} (h : c.Valid T) {op : Op} (hrun : op.run T c = some c') :
    c'.Valid T := by
  cases op with
  | setVal key v => exact h.setKv hrun fun h1 h2 => v.wf h1 h2
  | setValStr key val =>
    exact h.setKv hrun fun h1 h2 => ⟨h2, by simp, fun _ => ⟨rfl, fun _ => rfl⟩, by simp, by simp,
      fun hk => (checkReservedKeys_none h1 hk).elim⟩
  | setArrData key a =>
    simp only [Op.run, Ctx.setArrData] at hrun
    split at hrun
    · cases hrun
    · rename_i hsize
      exact h.setKv hrun fun h1 h2 => a.wf h1 h2 hsize
  | setArrStr key vals =>
    exact h.setKv hrun fun h1 h2 => ⟨h2, by simp, fun _ => ⟨rfl, by simp⟩, by simp, by simp,
      fun hk => (checkReservedKeys_none h1 hk).elim⟩
  | removeKey key =>
    cases hrun
    exact h.removeKey key.bytes
  | addTensor t => exact h.addTensor hrun
  | setTensorType name type htype =>
    obtain ⟨ts, hts, hrun⟩ := Option.bind_eq_some_iff.mp hrun
    cases hrun
    exact h.setTensorType htype hts

theorem empty_valid : Ctx.empty.Valid T :=
  ⟨rfl, rfl, by simp [Ctx.empty], by simp [Ctx.empty], by simp [Ctx.empty, Ctx.infos],
    by simp [Ctx.empty, Ctx.infos], trivial⟩

/-- Every context that the interface builds is valid. -/
theorem build_valid {ops : List Op} (h : build T ops = some c) : c.Valid T := by
  have hrun : ∀ (ops : List Op) (c₀ : Ctx), c₀.Valid T → ops.foldlM (Op.run T) c₀ = some c →
      c.Valid T := by
    intro ops
    induction ops with
    | nil =>
      intro c₀ hv h
      cases h
      exact hv
    | cons op ops ih =>
      intro c₀ hv h
      rw [foldlM_cons] at h
      obtain ⟨c₁, h1, h2⟩ := Option.bind_eq_some_iff.mp h
      exact ih c₁ (hv.run h1) h2
  exact hrun ops _ empty_valid h

end Llama.Gguf
