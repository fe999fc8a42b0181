import Llama.Gguf.Build
import Mathlib.Data.List.TakeWhile

/-!
# Reading the header back

On the bytes that the writer makes of a valid context, the reader gives the same keys, values
and tensors as long as its limits are met, and fails otherwise.
-/

namespace Llama.Gguf

open Bytes List

variable {T : Traits}

/-- Limits of the reader on a key-value pair. -/
structure Kv.Fits (x : Kv) : Prop where
  key : x.key.length ≤ maxStringLength
  ne : x.isArray = true → x.ne ≤ maxArrayElements
  strings : ∀ s ∈ x.strings, s.length ≤ maxStringLength

/-- Limits of the reader on a tensor. -/
def Info.Fits (T : Traits) (t : Info) : Prop := t.ne.fits = true ∧ T.fits t.type t.ne = true

theorem codes_readString {s : List UInt8} (h : s.length < 2 ^ 63) :
    Codes readString (writeString s) (s.length ≤ maxStringLength) s := by
  have h' : s.length < 256 ^ 8 := lt_trans h (by decide)
  refine (Codes.bind (codes_uint h') (Codes.check (codes_bytes rfl))).congr ?_
  simp

theorem GgufType.ofCode_code (t : GgufType) : GgufType.ofCode t.code = some t := by
  cases t <;> rfl

theorem codes_readType (t : GgufType) : Codes readType (writeType t) True (some t) := by
  have hfits : FitsInt 4 (t.code : Int) := by cases t <;> decide
  have h := Codes.bind (f := fun z => Pure.pure (GgufType.ofCode z)) (codes_int hfits)
    (Codes.pure _)
  rw [append_nil, t.ofCode_code] at h
  exact h.congr (by simp)

theorem codes_readStrings {ss : List (List UInt8)} (h : ∀ s ∈ ss, s.length < 2 ^ 63) :
    Codes (readStrings ss.length []) (ss.flatMap writeString)
      (∀ s ∈ ss, s.length ≤ maxStringLength) ss := by
  have := codes_loop (fun _ => readString) readStrings (fun _ => rfl) (fun _ _ => rfl)
    ss [] fun pre x post he => codes_readString (h x (by rw [he]; simp))
  rwa [nil_append] at this

theorem length_flatMap_writeString (ss : List (List UInt8)) :
    ss.length * 8 ≤ (ss.flatMap writeString).length := by
  induction ss with
  | nil => simp
  | cons s ss ih =>
    simp only [length_cons, flatMap_cons, length_append, writeString, leBytes_length]
    omega

variable {n : Nat} {x : Kv} {ne : Dims} {t : Info} {c : Ctx}

theorem readValue_data {key : List UInt8} {isArray : Bool} {type : GgufType} (hs : type ≠ .string)
    (ha : type ≠ .array) :
    readValue key isArray (some type) n = readDataValue key isArray type n := by
  cases type with
  | string => exact (hs rfl).elim
  | array => exact (ha rfl).elim
  | _ => rfl

/-- What the reader asks of a value. -/
def Kv.ValueFits (x : Kv) : Prop :=
  (x.isArray = true → x.ne ≤ maxArrayElements) ∧ ∀ s ∈ x.strings, s.length ≤ maxStringLength

section

variable (hx : x.WF)
include hx

theorem codes_readDataValue (hs : x.type ≠ .string) (hn : x.isArray = true → n = x.ne) :
    Codes (readDataValue x.key x.isArray x.type n) x.payload x.ValueFits x := by
  obtain ⟨hstr, hlen, hone⟩ := hx.data hs
  have hpay : x.payload = x.data := by
    rw [Kv.payload, if_neg hs]
    split
    · rename_i hb
      exact hx.bool hb
    · rfl
  have hbytes : x.data.length = (if x.isArray then n else 1) * x.type.size := by
    rw [hlen]
    cases hi : x.isArray with
    | true => rw [if_pos rfl, hn hi]
    | false => rw [if_neg (by simp), hone hi]
  have hval : (if x.type = .bool then x.data.map writeBool else x.data) = x.data := by
    split
    · rename_i hb
      exact hx.bool hb
    · rfl
  have hres : x = { key := x.key, isArray := x.isArray, type := x.type
                    data := if x.type = .bool then x.data.map writeBool else x.data
                    strings := [] } := by
    rw [hval, ← hstr]
  have h := Codes.check (b := !x.isArray || decide (n ≤ maxArrayElements))
    (f := fun _ => Reader.bytes ((if x.isArray then n else 1) * x.type.size) >>= fun bs =>
      Pure.pure ({ key := x.key, isArray := x.isArray, type := x.type
                   data := if x.type = .bool then bs.map writeBool else bs
                   strings := [] } : Kv))
    (Codes.bind (codes_bytes hbytes) (Codes.pure _))
  rw [append_nil, ← hres, ← hpay] at h
  refine h.congr ?_
  rw [Kv.ValueFits, hstr]
  cases hi : x.isArray with
  | true => simp [hn hi]
  | false => simp

theorem codes_readStringValue (hs : x.type = .string) (hn : x.isArray = true → n = x.ne)
    (hlen : ∀ s ∈ x.strings, s.length < 2 ^ 63) :
    Codes (readStringValue x.key x.isArray n) x.payload x.ValueFits x := by
  obtain ⟨hdata, hone⟩ := hx.string hs
  have hpay : x.payload = x.strings.flatMap writeString := by rw [Kv.payload, if_pos hs]
  have hne : x.ne = x.strings.length := by rw [Kv.ne, if_pos hs]
  rw [hpay, Kv.ValueFits]
  cases hi : x.isArray with
  | true =>
    have hx' : x = { key := x.key, isArray := true, type := .string, data := []
                     strings := x.strings } := by
      rw [← hi, ← hs, ← hdata]
    rw [readStringValue, if_pos rfl, hn hi, hne]
    have h := Codes.check (b := decide (x.strings.length ≤ maxArrayElements))
      (f := fun _ => Reader.remain (x.strings.length * 8) >>= fun _ =>
        readStrings x.strings.length [] >>= fun ss => Pure.pure ({ key := x.key, isArray := true
                                                                   type := .string, data := []
                                                                   strings := ss } : Kv))
      (Codes.remain (by
        rw [append_nil]
        exact length_flatMap_writeString x.strings)
        (Codes.bind (codes_readStrings hlen) (Codes.pure _)))
    rw [append_nil, ← hx'] at h
    exact h.congr (by simp)
  | false =>
    obtain ⟨s, hss⟩ := length_eq_one_iff.mp (hone hi)
    have hx' : x = { key := x.key, isArray := false, type := .string, data := []
                     strings := [s] } := by
      rw [← hi, ← hs, ← hdata, ← hss]
    rw [readStringValue, if_neg (by simp)]
    have h := Codes.bind (codes_readString (hlen s (by rw [hss]; simp)))
      (f := fun s => Pure.pure ({ key := x.key, isArray := false, type := .string, data := []
                                  strings := [s] } : Kv)) (Codes.pure _)
    rw [append_nil, ← hx'] at h
    rw [hss, flatMap_singleton]
    exact h.congr (by simp)

theorem codes_readValue (hn : x.isArray = true → n = x.ne)
    (hlen : ∀ s ∈ x.strings, s.length < 2 ^ 63) :
    Codes (readValue x.key x.isArray (some x.type) n) x.payload x.ValueFits x := by
  by_cases hs : x.type = .string
  · have h := codes_readStringValue hx hs hn hlen
    rw [hs]
    exact h
  · rw [readValue_data hs hx.type]
    exact codes_readDataValue hx hs hn

theorem codes_readTyped (hne : x.ne < 256 ^ 8) (hlen : ∀ s ∈ x.strings, s.length < 2 ^ 63) :
    Codes (readTyped x.key) (x.typeBytes ++ x.payload) x.ValueFits x := by
  have hvalue : ∀ n, (x.isArray = true → n = x.ne) →
      Codes (readValue x.key x.isArray (some x.type) n) x.payload x.ValueFits x :=
    fun n hn => codes_readValue hx hn hlen
  rw [readTyped, Kv.typeBytes]
  cases hi : x.isArray with
  | true =>
    rw [if_pos rfl, append_assoc, append_assoc]
    have h := hvalue x.ne fun _ => rfl
    rw [hi] at h
    have h2 := Codes.bind (codes_readType x.type) (f := fun type => Reader.uint 8 >>= fun n =>
      readValue x.key true type n) (Codes.bind (codes_uint hne) h)
    have h3 := h2.congr (show True ∧ True ∧ x.ValueFits ↔ x.ValueFits by simp)
    refine (Codes.bind (codes_readType .array) ?_).congr (and_iff_right trivial)
    rw [if_pos rfl]
    exact h3
  | false =>
    rw [if_neg (by simp)]
    have h := hvalue 1 fun h => by rw [hi] at h; cases h
    rw [hi] at h
    refine (Codes.bind (codes_readType x.type) ?_).congr (and_iff_right trivial)
    rw [if_neg (by simpa using hx.type)]
    exact h

/-- Strings and counts of a value are not longer than its bytes. -/
theorem Kv.WF.lengths : x.ne ≤ x.payload.length ∧ ∀ s ∈ x.strings, s.length ≤ x.payload.length := by
  by_cases hst : x.type = .string
  · rw [Kv.payload, if_pos hst, Kv.ne, if_pos hst]
    refine ⟨?_, fun s hs => le_trans ?_ (length_le_flatMap (e := writeString) hs)⟩
    · have := length_flatMap_writeString x.strings
      omega
    · simp [writeString]
  · have hp : x.payload.length = x.data.length := by
      rw [Kv.payload, if_neg hst]
      split <;> simp
    rw [hp, Kv.ne, if_neg hst, (hx.data hst).1]
    exact ⟨Nat.div_le_self _ _, by simp⟩

theorem codes_readKv (hlen : (writeKv x).length < 2 ^ 63) {acc : List Kv}
    (hacc : ∀ y ∈ acc, y.key ≠ x.key) : Codes (readKv acc) (writeKv x) x.Fits x := by
  obtain ⟨hne, hstr⟩ := hx.lengths
  have hsum : (writeKv x).length = 8 + x.key.length + (x.typeBytes.length + x.payload.length) := by
    simp only [writeKv, writeString, length_append, leBytes_length]
  have hkey : x.key.length < 2 ^ 63 := by omega
  have hne8 : x.ne < 256 ^ 8 := lt_of_le_of_lt hne (lt_trans (by omega) (by decide : 2 ^ 63 < _))
  have hdup : (acc.all fun y => y.key != x.key) = true := by
    simp only [all_eq_true, bne_iff_ne]
    exact hacc
  have hlast : Codes (Reader.check (decide (x.key ≠ [])) >>= fun _ => Pure.pure x) [] True x :=
    Codes.check_true (by simpa using hx.key) (Codes.pure x)
  have htyped := codes_readTyped hx hne8 fun s hs => lt_of_le_of_lt (hstr s hs) (by omega)
  have hbody := Codes.bind (f := fun y => Reader.check (decide (x.key ≠ [])) >>= fun _ =>
    Pure.pure y) htyped hlast
  rw [append_nil] at hbody
  have h := Codes.bind (f := fun key => Reader.check (acc.all fun y => y.key != key) >>= fun _ =>
    readTyped key >>= fun y => Reader.check (decide (key ≠ [])) >>= fun _ => Pure.pure y)
    (codes_readString hkey) (Codes.check_true hdup hbody)
  refine h.congr ⟨fun h => ⟨h.1, h.2.1.1, h.2.1.2⟩, fun h => ⟨h.key, ⟨h.ne, h.strings⟩, trivial⟩⟩

end

theorem codes_readKvs {l : List Kv} (hl : ∀ x ∈ l, x.WF) (hkeys : (l.map Kv.key).Nodup)
    (hlen : (l.flatMap writeKv).length < 2 ^ 63) :
    Codes (readKvs l.length []) (l.flatMap writeKv) (∀ x ∈ l, x.Fits) l := by
  have h := codes_loop readKv readKvs (fun _ => rfl) (fun _ _ => rfl) l [] fun pre x post he => by
    have hx : x ∈ l := by rw [he]; simp
    refine codes_readKv (hl x hx) (lt_of_le_of_lt (length_le_flatMap hx) hlen) fun y hy => ?_
    rw [nil_append] at hy
    rw [he, map_append, map_cons, nodup_append] at hkeys
    exact hkeys.2.2 _ (mem_map_of_mem hy) _ mem_cons_self
  rwa [nil_append] at h

theorem codes_readDim {d : Nat} (h : d < 2 ^ 63) : Codes readDim (intBytes 8 d) True d := by
  have hfits : FitsInt 8 (d : Int) := by
    constructor <;> push_cast <;> omega
  have h := Codes.bind (f := fun z => Reader.check (decide (0 ≤ z)) >>= fun _ => Pure.pure z.toNat)
    (codes_int hfits) (Codes.check_true (by simp) (Codes.pure _))
  rw [append_nil, Int.toNat_natCast] at h
  exact h.congr (by simp)

theorem codes_readDims {ds : List Nat} (h : ∀ d ∈ ds, d < 2 ^ 63) :
    Codes (readDims ds.length []) (ds.flatMap fun d : Nat => intBytes 8 d) True ds := by
  have h := codes_loop (fun _ => readDim) readDims (fun _ => rfl) (fun _ _ => rfl)
    ds [] fun pre x post he => codes_readDim (h x (by rw [he]; simp))
  rw [nil_append] at h
  exact h.congr (iff_of_true (fun _ _ => trivial) trivial)

theorem Dims.nDims_le (ne : Dims) : ne.nDims ≤ 4 := by
  unfold Dims.nDims
  repeat' split
  all_goals omega

/-- Trailing dimensions that are not in the file are 1. -/
theorem Dims.ofTake (h : 0 < ne.d0 ∧ 0 < ne.d1 ∧ 0 < ne.d2 ∧ 0 < ne.d3) :
    (⟨(ne.toList.take ne.nDims).getD 0 1, (ne.toList.take ne.nDims).getD 1 1,
      (ne.toList.take ne.nDims).getD 2 1, (ne.toList.take ne.nDims).getD 3 1⟩ : Dims) = ne := by
  obtain ⟨d0, d1, d2, d3⟩ := ne
  obtain ⟨h0, h1, h2, h3⟩ := h
  simp only at h0 h1 h2 h3
  simp only [Dims.nDims]
  split
  · rfl
  · split
    · simp [Dims.toList]
      omega
    · split
      · simp [Dims.toList]
        omega
      · simp [Dims.toList]
        omega

theorem Dims.take_lt (h : ne.d0 < 2 ^ 63 ∧ ne.d1 < 2 ^ 63 ∧ ne.d2 < 2 ^ 63 ∧ ne.d3 < 2 ^ 63) :
    ∀ d ∈ ne.toList.take ne.nDims, d < 2 ^ 63 := by
  intro d hd
  have hd := mem_of_mem_take hd
  simp only [Dims.toList, mem_cons, not_mem_nil, or_false] at hd
  omega

theorem Info.WF.takeWhile_name (ht : t.WF) : t.name.takeWhile (fun b => b != 0) = t.name := by
  rw [takeWhile_eq_self_iff]
  intro b hb
  simpa using fun h : b = 0 => ht.noNul (h ▸ hb)

theorem codes_readInfo (ht : t.WF) (hoff : t.offset < 2 ^ 63) {acc : List Info}
    (hacc : ∀ y ∈ acc, y.name ≠ t.name) :
    Codes (readInfo T acc) (writeTensorMeta t) (t.Fits T) t := by
  have hname : t.name.length < 2 ^ 63 := lt_trans ht.name_lt (by decide)
  have hdup : (acc.all fun y => y.name != t.name) = true := by
    simp only [all_eq_true, bne_iff_ne]
    exact hacc
  have hdims : t.ne.nDims < 256 ^ 4 := lt_of_le_of_lt t.ne.nDims_le (by decide)
  have hlen : (t.ne.toList.take t.ne.nDims).length = t.ne.nDims := by
    rw [length_take]
    exact Nat.min_eq_left t.ne.nDims_le
  have htype : FitsInt 4 (t.type : Int) := by
    have := ht.type_lt
    constructor <;> push_cast <;> omega
  have hoff' : t.offset < 256 ^ 8 := lt_trans hoff (by decide)
  have hds := codes_readDims (Dims.take_lt ht.lt)
  rw [hlen] at hds
  simp only [writeTensorMeta, append_assoc]
  apply Codes.congr
  · apply Codes.bind (codes_readString hname)
    apply Codes.check_true (by simpa using ht.name_lt)
    rw [ht.takeWhile_name]
    apply Codes.check_true hdup
    apply Codes.bind (codes_uint hdims)
    apply Codes.check_true (by simpa using t.ne.nDims_le)
    apply Codes.bind hds
    rw [Dims.ofTake ht.pos]
    apply Codes.check
    apply Codes.bind (codes_int htype)
    apply Codes.check
    rw [← append_nil (leBytes 8 t.offset)]
    apply Codes.bind (codes_uint hoff')
    exact Codes.pure _
  · have : t.name.length ≤ maxStringLength := le_trans ht.name_lt.le (by decide)
    simp [Info.Fits, this]

theorem codes_readInfos {l : List Info} (hl : ∀ t ∈ l, t.WF) (hnames : (l.map Info.name).Nodup)
    (hoff : ∀ t ∈ l, t.offset < 2 ^ 63) :
    Codes (readInfos T l.length []) (l.flatMap writeTensorMeta) (∀ t ∈ l, t.Fits T) l := by
  have h := codes_loop (readInfo T) (readInfos T) (fun _ => rfl) (fun _ _ => rfl) l []
    fun pre t post he => by
      have ht : t ∈ l := by rw [he]; simp
      refine codes_readInfo (hl t ht) (hoff t ht) fun y hy => ?_
      rw [nil_append] at hy
      rw [he, map_append, map_cons, nodup_append] at hnames
      exact hnames.2.2 _ (mem_map_of_mem hy) _ mem_cons_self
  rwa [nil_append] at h

/-- The alignment that the keys ask for. -/
def Ctx.keyAlignment (c : Ctx) : Nat := (alignmentOf c.kv).getD defaultAlignment

theorem Ctx.Valid.alignmentOf_kv (h : c.Valid T) :
    alignmentOf c.kv = some c.keyAlignment ∧ c.keyAlignment ≠ 0 ∧
      c.keyAlignment &&& (c.keyAlignment - 1) = 0 := by
  rw [Ctx.keyAlignment, alignmentOf]
  cases hf : c.kv.find? fun x => x.key == alignmentKey with
  | none => exact ⟨rfl, by decide, by decide⟩
  | some x =>
    have hkey : x.key = alignmentKey := by simpa using find?_some hf
    obtain ⟨h1, h2, h3, h4⟩ := (h.kv x (mem_of_find?_eq_some hf)).reserved hkey
    simp only [h1, h2, and_self, if_true, Option.getD_some]
    exact ⟨trivial, h3, h4⟩

/-- Limits of the reader on the header. -/
structure Ctx.HeaderFits (T : Traits) (c : Ctx) : Prop where
  tensors : c.infos.length ≤ maxTensors
  kvs : c.kv.length ≤ maxKv
  kv : ∀ x ∈ c.kv, x.Fits
  info : ∀ t ∈ c.infos, t.Fits T

theorem Ctx.header_eq (c : Ctx) : c.header = magic ++ (leBytes 4 c.version ++
    (intBytes 8 c.infos.length ++ (intBytes 8 c.kv.length ++ (c.kv.flatMap writeKv ++
      c.infos.flatMap writeTensorMeta)))) := by
  simp only [Ctx.header, Ctx.infos, append_assoc, length_map, flatMap_map]

/-- Lists whose items have bytes are not longer than their bytes. -/
theorem length_le_flatMap_length {γ : Type} {e : γ → List UInt8} (l : List γ)
    (h : ∀ x ∈ l, e x ≠ []) : l.length ≤ (l.flatMap e).length := by
  induction l with
  | nil => simp
  | cons x l ih =>
    have hx := length_pos_of_ne_nil (h x mem_cons_self)
    have hl := ih fun y hy => h y (mem_cons_of_mem x hy)
    rw [flatMap_cons, length_append, length_cons]
    omega

theorem writeString_append_ne_nil (s bs : List UInt8) : writeString s ++ bs ≠ [] := by
  intro h
  have := congrArg List.length h
  simp [writeString] at this

theorem Ctx.Valid.codes_readMeta (h : c.Valid T) (hlen : c.header.length < 2 ^ 63)
    (hoff : ∀ t ∈ c.infos, t.offset < 2 ^ 63) :
    Codes (readMeta T) c.header (c.HeaderFits T)
      { version := c.version, kv := c.kv, alignment := c.keyAlignment, info := c.infos } := by
  obtain ⟨ha, ha0, ha2⟩ := h.alignmentOf_kv
  have hsum := congrArg List.length c.header_eq
  simp only [length_append, leBytes_length, intBytes_length] at hsum
  have hkvs : c.kv.length ≤ (c.kv.flatMap writeKv).length :=
    length_le_flatMap_length c.kv fun x _ => writeString_append_ne_nil _ _
  have hinfos : c.infos.length ≤ (c.infos.flatMap writeTensorMeta).length :=
    length_le_flatMap_length c.infos fun t _ => by
      simp only [writeTensorMeta, append_assoc]
      exact writeString_append_ne_nil _ _
  have hkvFits : FitsInt 8 (c.kv.length : Int) := by
    constructor <;> push_cast <;> omega
  have hinfoFits : FitsInt 8 (c.infos.length : Int) := by
    constructor <;> push_cast <;> omega
  rw [c.header_eq]
  apply Codes.congr
  · apply Codes.bind (codes_bytes (by decide))
    apply Codes.check_true (by simp)
    apply Codes.bind (codes_uint (by rw [h.version]; decide))
    apply Codes.check_true (by rw [h.version]; decide)
    apply Codes.bind (codes_int hinfoFits)
    apply Codes.check
    apply Codes.bind (codes_int hkvFits)
    apply Codes.check
    apply Codes.bind (codes_readKvs h.kv h.keys (by omega))
    apply Codes.ofOption ha
    apply Codes.check_true (by simpa using ⟨ha0, ha2⟩)
    rw [← append_nil (c.infos.flatMap writeTensorMeta)]
    apply Codes.bind (codes_readInfos h.info h.names hoff)
    exact Codes.pure _
  · constructor
    · rintro ⟨-, -, -, h1, -, h2, h3, h4, -⟩
      simp only [decide_eq_true_eq, Nat.cast_le] at h1 h2
      exact ⟨h1.2, h2.2, h3, h4⟩
    · rintro ⟨h1, h2, h3, h4⟩
      simp only [decide_eq_true_eq, Nat.cast_le]
      exact ⟨trivial, trivial, trivial, ⟨by omega, h1⟩, trivial, ⟨by omega, h2⟩, h3, h4, trivial⟩

end Llama.Gguf
