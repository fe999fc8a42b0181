import Llama.Gguf.Hostile
import Llama.Gguf.ReadBack

/-!
# What the reader takes for a header

The bytes of key-value pairs, tensors and whole headers are described without the reader, and
the reader is shown to accept exactly these and to fault exactly where it meets an empty key, an
alignment of the wrong type or a zero among the dimensions it divides by.
-/

namespace Llama.Gguf

open Bytes
open List hiding Chain

variable {T : Traits}

/-- The value as it stands in a file; booleans may be any byte. -/
def Kv.rawPayload (x : Kv) : List UInt8 :=
  if x.type = .string then x.strings.flatMap writeString else x.data

/-- A key-value pair as it stands in a file. -/
def Kv.raw (x : Kv) : List UInt8 := writeString x.key ++ (x.typeBytes ++ x.rawPayload)

/-- What is kept of it: booleans become 0 or 1. -/
def Kv.kept (x : Kv) : Kv :=
  { x with data := if x.type = .bool then x.data.map writeBool else x.data }

/-- The value has the bytes of its type and is not too long. -/
structure Kv.Readable (x : Kv) : Prop where
  type : x.type ≠ .array
  string : x.type = .string → x.data = [] ∧ (x.isArray = false → x.strings.length = 1)
  data : x.type ≠ .string → x.strings = [] ∧ x.data.length = x.ne * x.type.size ∧
    (x.isArray = false → x.ne = 1)
  ne : x.isArray = true → x.ne ≤ maxArrayElements
  strings : ∀ s ∈ x.strings, s.length ≤ maxStringLength

@[simp] theorem Kv.kept_key (x : Kv) : x.kept.key = x.key := rfl

@[simp] theorem Kv.kept_type (x : Kv) : x.kept.type = x.type := rfl

@[simp] theorem Kv.kept_ne (x : Kv) : x.kept.ne = x.ne := by
  unfold Kv.ne Kv.kept
  simp only
  split
  · rfl
  · split <;> simp

theorem spells_readString :
    Spells readString fun bs s => bs = writeString s ∧ s.length ≤ maxStringLength := by
  refine ((spells_uint 8).bind fun n _ => Spells.check fun _ => spells_bytes n).congr ?_
  intro bs s
  constructor
  · rintro ⟨n, _, _, rfl, ⟨rfl, -⟩, hn, rfl, rfl⟩
    exact ⟨rfl, by simpa using hn⟩
  · rintro ⟨rfl, hs⟩
    refine ⟨s.length, leBytes 8 s.length, s, rfl, ⟨rfl, ?_⟩, by simpa using hs, rfl, rfl⟩
    exact lt_of_le_of_lt hs (by decide)

theorem GgufType.ofCode_eq_some_iff {z : Int} {t : GgufType} :
    GgufType.ofCode z = some t ↔ z = t.code := by
  constructor
  · intro h
    unfold GgufType.ofCode at h
    split at h <;> cases h <;> rfl
  · rintro rfl
    exact t.ofCode_code

theorem fitsInt_code (t : GgufType) : FitsInt 4 (t.code : Int) := by cases t <;> decide

theorem spells_readType :
    Spells readType fun bs t => ∃ z, (bs = intBytes 4 z ∧ FitsInt 4 z) ∧ t = GgufType.ofCode z :=
  (spells_int 4).map

theorem spells_readStrings (n : Nat) :
    Spells (readStrings n []) fun bs ss => ss.length = n ∧ bs = ss.flatMap writeString ∧
      ∀ s ∈ ss, s.length ≤ maxStringLength := by
  have hitem : Spells readString fun bs x => ∃ w, bs = writeString w ∧ x = id w ∧
      w.length ≤ maxStringLength := spells_readString.congr fun bs s => by simp
  refine (spells_loop readString (fun _ => rfl) (fun _ _ => rfl) hitem n).congr fun bs ss => ?_
  · simp only [map_id]
    constructor
    · rintro ⟨ws, h1, h2, rfl, h4⟩
      exact ⟨h1, h2, h4⟩
    · rintro ⟨h1, h2, h4⟩
      exact ⟨ss, h1, h2, rfl, h4⟩

/-- The strings themselves need the bytes whose presence is tested first. -/
theorem spells_readStrings_remain (n : Nat) :
    Spells (Reader.remain (n * 8) >>= fun _ => readStrings n []) fun bs ss =>
      ss.length = n ∧ bs = ss.flatMap writeString ∧ ∀ s ∈ ss, s.length ≤ maxStringLength := by
  intro s a s'
  have hbind : (Reader.remain (n * 8) >>= fun _ => readStrings n []) s =
      if n * 8 ≤ s.length then readStrings n [] s else none := by
    change (Reader.remain (n * 8) s).bind (fun p => readStrings n [] p.2) = _
    rw [Reader.remain]
    split <;> rfl
  rw [hbind]
  constructor
  · intro h
    split at h
    · exact (spells_readStrings n s a s').mp h
    · cases h
  · rintro ⟨bs, rfl, h1, rfl, h3⟩
    have hlen := length_flatMap_writeString a
    rw [if_pos (by rw [length_append]; omega)]
    exact (spells_readStrings n _ a s').mpr ⟨_, rfl, h1, rfl, h3⟩

/-- A value of known type: what follows the type in the file. -/
def Kv.SpeltAs (key : List UInt8) (isArray : Bool) (type : GgufType) (n : Nat)
    (bs : List UInt8) (x : Kv) : Prop :=
  ∃ w : Kv, w.key = key ∧ w.isArray = isArray ∧ w.type = type ∧ (isArray = true → w.ne = n) ∧
    bs = w.rawPayload ∧ x = w.kept ∧ w.Readable

theorem spells_readStringValue (key : List UInt8) (isArray : Bool) (n : Nat) :
    Spells (readStringValue key isArray n) (Kv.SpeltAs key isArray .string n) := by
  unfold readStringValue
  cases isArray with
  | true =>
    rw [if_pos rfl]
    have h := Spells.check (b := decide (n ≤ maxArrayElements))
      (f := fun _ => Reader.remain (n * 8) >>= fun _ => readStrings n [] >>= fun ss =>
        Pure.pure ({ key := key, isArray := true, type := .string, data := []
                     strings := ss } : Kv))
      (fun _ => by
        have h2 := (spells_readStrings_remain n).map (g := fun ss =>
          ({ key := key, isArray := true, type := .string, data := [], strings := ss } : Kv))
        rwa [bind_assoc] at h2)
    refine h.congr fun bs x => ?_
    constructor
    · rintro ⟨hn, ss, ⟨rfl, rfl, hss⟩, rfl⟩
      exact ⟨⟨key, true, .string, [], ss⟩, rfl, rfl, rfl, fun _ => rfl, rfl, rfl, ⟨by simp,
        fun _ => ⟨rfl, by simp⟩, fun h => (h rfl).elim, fun _ => by simpa [Kv.ne] using hn, hss⟩⟩
    · rintro ⟨w, rfl, hw1, hw2, hw3, rfl, rfl, hr⟩
      have hne : w.ne = w.strings.length := by rw [Kv.ne, if_pos hw2]
      have hdata := (hr.string hw2).1
      refine ⟨by simpa [← hw3 rfl] using hr.ne hw1, w.strings, ⟨?_, ?_, hr.strings⟩, ?_⟩
      · rw [← hne, hw3 rfl]
      · rw [Kv.rawPayload, if_pos hw2]
      · simp [Kv.kept, hw1, hw2, hdata]
  | false =>
    rw [if_neg (by simp)]
    refine spells_readString.map.congr fun bs x => ?_
    constructor
    · rintro ⟨s, ⟨rfl, hs⟩, rfl⟩
      exact ⟨⟨key, false, .string, [], [s]⟩, rfl, rfl, rfl, fun h => (by cases h),
        by simp [Kv.rawPayload], rfl, ⟨by simp, fun _ => ⟨rfl, fun _ => rfl⟩,
        fun h => (h rfl).elim, fun h => (by cases h), by simpa using hs⟩⟩
    · rintro ⟨w, rfl, hw1, hw2, -, rfl, rfl, hr⟩
      obtain ⟨hdata, hone⟩ := hr.string hw2
      obtain ⟨s, hs⟩ := length_eq_one_iff.mp (hone hw1)
      refine ⟨s, ⟨?_, hr.strings s (by rw [hs]; simp)⟩, ?_⟩
      · rw [Kv.rawPayload, if_pos hw2, hs, flatMap_singleton]
      · simp [Kv.kept, hw1, hw2, hdata, hs]

theorem GgufType.size_pos {t : GgufType} (hs : t ≠ .string) (ha : t ≠ .array) : 0 < t.size := by
  cases t <;> first | decide | contradiction

theorem spells_readDataValue (key : List UInt8) (isArray : Bool) {type : GgufType} (n : Nat)
    (hs : type ≠ .string) (ha : type ≠ .array) :
    Spells (readDataValue key isArray type n) (Kv.SpeltAs key isArray type n) := by
  have hpos := GgufType.size_pos hs ha
  refine (Spells.check fun _ =>
    (spells_bytes ((if isArray then n else 1) * type.size)).map).congr fun bs x => ?_
  constructor
  · rintro ⟨hn, _, ⟨rfl, hlen⟩, rfl⟩
    have hne : ({ key := key, isArray := isArray, type := type, data := bs
                  strings := [] } : Kv).ne = if isArray then n else 1 := by
      rw [Kv.ne, if_neg hs, hlen]
      exact Nat.mul_div_cancel _ hpos
    refine ⟨⟨key, isArray, type, bs, []⟩, rfl, rfl, rfl, ?_, ?_, rfl, ⟨ha, fun h => (hs h).elim,
      fun _ => ⟨rfl, ?_, ?_⟩, ?_, by simp⟩⟩
    · rintro rfl
      exact hne
    · rw [Kv.rawPayload, if_neg hs]
    · rw [hne, hlen]
    · rintro rfl
      exact hne
    · rintro rfl
      rw [hne]
      simpa using hn
  · rintro ⟨w, rfl, rfl, rfl, hw3, rfl, rfl, hr⟩
    obtain ⟨hstr, hlen, hone⟩ := hr.data hs
    refine ⟨?_, w.data, ⟨?_, ?_⟩, ?_⟩
    · cases hi : w.isArray with
      | false => rfl
      | true => simpa [← hw3 hi] using hr.ne hi
    · rw [Kv.rawPayload, if_neg hs]
    · rw [hlen]
      cases hi : w.isArray with
      | false => rw [hone hi]; rfl
      | true => rw [hw3 hi]; rfl
    · simp [Kv.kept, hstr]

theorem spells_readValue (key : List UInt8) (isArray : Bool) (type : Option GgufType) (n : Nat) :
    Spells (readValue key isArray type n) fun bs x =>
      ∃ t, type = some t ∧ Kv.SpeltAs key isArray t n bs x := by
  have hnone : ∀ {t : GgufType} {bs x}, Kv.SpeltAs key isArray t n bs x → t ≠ .array := by
    rintro t bs x ⟨w, -, -, rfl, -, -, -, hr⟩
    exact hr.type
  have hfail : (∀ t, type = some t → t = .array) → Spells (Reader.fail : Reader Kv) fun bs x =>
      ∃ t, type = some t ∧ Kv.SpeltAs key isArray t n bs x := by
    refine fun h => spells_fail.congr fun bs x => ⟨False.elim, ?_⟩
    rintro ⟨t, ht, hx⟩
    exact hnone hx (h t ht)
  cases type with
  | none => exact hfail (by simp)
  | some t =>
    by_cases hs : t = .string
    · subst hs
      exact (spells_readStringValue key isArray n).congr (by simp)
    · by_cases ha : t = .array
      · subst ha
        exact hfail (by simp)
      · rw [readValue_data hs ha]
        exact (spells_readDataValue key isArray n hs ha).congr (by simp)

theorem spells_readTyped (key : List UInt8) :
    Spells (readTyped key) fun bs x => ∃ w : Kv, w.key = key ∧
      bs = w.typeBytes ++ w.rawPayload ∧ x = w.kept ∧ w.Readable := by
  have hne8 : ∀ {w : Kv}, w.Readable → w.isArray = true → w.ne < 256 ^ 8 := fun hr hi =>
    lt_of_le_of_lt (hr.ne hi) (by decide)
  have hM : ∀ type : Option GgufType, Spells
      (if type = some .array then do
        let type ← readType
        let n ← Reader.uint 8
        readValue key true type n
      else readValue key false type 1) fun bs x =>
        (type = some .array ∧ ∃ w : Kv, w.key = key ∧ w.isArray = true ∧
          bs = writeType w.type ++ (leBytes 8 w.ne ++ w.rawPayload) ∧ x = w.kept ∧ w.Readable) ∨
        (∃ w : Kv, w.key = key ∧ w.isArray = false ∧ type = some w.type ∧ bs = w.rawPayload ∧
          x = w.kept ∧ w.Readable) := by
    intro type
    split
    · rename_i htype
      refine (spells_readType.bind fun t _ => (spells_uint 8).bind fun n _ =>
        spells_readValue key true t n).congr fun bs x => ?_
      constructor
      · rintro ⟨_, _, _, rfl, ⟨z, ⟨rfl, -⟩, rfl⟩, n, _, _, rfl, ⟨rfl, -⟩, t, ht, w, hw⟩
        obtain ⟨rfl, hi, rfl, hn, rfl, rfl, hr⟩ := hw
        refine .inl ⟨htype, w, rfl, hi, ?_, rfl, hr⟩
        rw [GgufType.ofCode_eq_some_iff.mp ht, hn rfl]
        rfl
      · rintro (⟨-, w, rfl, hi, rfl, rfl, hr⟩ | ⟨w, -, -, ht, -, -, hr⟩)
        · exact ⟨some w.type, writeType w.type, _, rfl, ⟨w.type.code, ⟨rfl, fitsInt_code _⟩,
            (GgufType.ofCode_eq_some_iff.mpr rfl).symm⟩, w.ne, leBytes 8 w.ne, w.rawPayload, rfl,
            ⟨rfl, hne8 hr hi⟩, w.type, rfl, w, rfl, hi, rfl, fun _ => rfl, rfl, rfl, hr⟩
        · rw [htype, Option.some.injEq] at ht
          exact (hr.type ht.symm).elim
    · rename_i htype
      refine (spells_readValue key false type 1).congr fun bs x => ?_
      constructor
      · rintro ⟨t, rfl, w, rfl, hi, rfl, -, rfl, rfl, hr⟩
        exact .inr ⟨w, rfl, hi, rfl, rfl, rfl, hr⟩
      · rintro (⟨ht, -⟩ | ⟨w, rfl, hi, ht, rfl, rfl, hr⟩)
        · exact (htype ht).elim
        · exact ⟨w.type, ht, w, rfl, hi, rfl, fun h => (by cases h), rfl, rfl, hr⟩
  refine (spells_readType.bind fun t _ => hM t).congr fun bs x => ?_
  constructor
  · rintro ⟨_, _, _, rfl, ⟨z, ⟨rfl, -⟩, rfl⟩, hx⟩
    rcases hx with ⟨ht, w, rfl, hi, rfl, rfl, hr⟩ | ⟨w, rfl, hi, ht, rfl, rfl, hr⟩
    · refine ⟨w, rfl, ?_, rfl, hr⟩
      rw [GgufType.ofCode_eq_some_iff.mp ht, Kv.typeBytes, if_pos hi]
      simp only [writeType, append_assoc]
    · refine ⟨w, rfl, ?_, rfl, hr⟩
      rw [GgufType.ofCode_eq_some_iff.mp ht, Kv.typeBytes, if_neg (by simp [hi])]
      rfl
  · rintro ⟨w, rfl, rfl, rfl, hr⟩
    rw [Kv.typeBytes]
    cases hi : w.isArray with
    | true =>
      exact ⟨some .array, writeType .array, _, by simp, ⟨_, ⟨rfl, fitsInt_code _⟩, rfl⟩,
        .inl ⟨rfl, w, rfl, hi, rfl, rfl, hr⟩⟩
    | false =>
      exact ⟨some w.type, writeType w.type, _, by simp, ⟨_, ⟨rfl, fitsInt_code _⟩,
        (GgufType.ofCode_eq_some_iff.mpr rfl).symm⟩, .inr ⟨w, rfl, hi, rfl, rfl, rfl, hr⟩⟩

/-- The next pair of a file, given those before it. -/
structure Kv.Next (acc : List Kv) (w : Kv) : Prop where
  readable : w.Readable
  key_le : w.key.length ≤ maxStringLength
  fresh : ∀ y ∈ acc, y.key ≠ w.key

theorem covers_readKvRun (acc : List Kv) :
    Covers (readKvRun acc) (fun bs x => ∃ w : Kv, bs = w.raw ∧ x = w.kept ∧
        (w.Next acc ∧ w.key ≠ []))
      (fun s => ∃ (w : Kv) (s' : List UInt8), s = w.raw ++ s' ∧ w.Next acc ∧ w.key = []) := by
  refine (spells_readString.covers.bind fun key _ => Covers.guard fun _ =>
    (spells_readTyped key).covers.bind fun x _ =>
      (covers_ensure _ Fault.assertion).map (g := fun _ => x)).congr ?_ ?_
  · intro bs x
    constructor
    · rintro ⟨_, _, _, rfl, ⟨rfl, hk⟩, hnew, _, _, _, rfl, ⟨w, rfl, rfl, rfl, hr⟩, _,
        ⟨rfl, he⟩, rfl⟩
      refine ⟨w, by simp [Kv.raw], rfl, ⟨hr, hk, ?_⟩, by simpa using he⟩
      simpa [all_eq_true] using hnew
    · rintro ⟨w, rfl, rfl, hw, he⟩
      refine ⟨w.key, writeString w.key, _, rfl, ⟨rfl, hw.key_le⟩, ?_, w.kept, _, [],
        (append_nil _).symm, ⟨w, rfl, rfl, rfl, hw.readable⟩, (), ⟨rfl, by simpa using he⟩,
        rfl⟩
      simpa [all_eq_true] using hw.fresh
  · intro s
    constructor
    · rintro (hF |
        ⟨_, _, _, rfl, ⟨rfl, hk⟩, hnew, hF | ⟨_, _, s', rfl, ⟨w, rfl, rfl, rfl, hr⟩, he⟩⟩)
      · exact hF.elim
      · exact hF.elim
      · refine ⟨w, s', by simp [Kv.raw], ⟨hr, hk, ?_⟩, by simpa using he⟩
        simpa [all_eq_true] using hnew
    · rintro ⟨w, s', rfl, hw, he⟩
      refine .inr ⟨w.key, writeString w.key, _, by simp only [Kv.raw, append_assoc]; rfl,
        ⟨rfl, hw.key_le⟩, ?_, .inr ⟨w.kept, w.typeBytes ++ w.rawPayload, s', by simp,
        ⟨w, rfl, rfl, rfl, hw.readable⟩, by simpa using he⟩⟩
      simpa [all_eq_true] using hw.fresh

/-- Pairs that a file may start with. -/
structure GoodKvs (kvs : List Kv) : Prop where
  readable : ∀ w ∈ kvs, w.Readable
  key_le : ∀ w ∈ kvs, w.key.length ≤ maxStringLength
  key_ne : ∀ w ∈ kvs, w.key ≠ []
  nodup : (kvs.map Kv.key).Nodup

theorem chain_kvs (kvs acc : List Kv) :
    Chain Kv.kept (fun acc w => w.Next acc ∧ w.key ≠ []) acc kvs ↔
      GoodKvs kvs ∧ ∀ w ∈ kvs, ∀ y ∈ acc, y.key ≠ w.key := by
  have hok : (fun acc (w : Kv) => w.Next acc ∧ w.key ≠ []) = fun acc w =>
      (w.Readable ∧ w.key.length ≤ maxStringLength ∧ w.key ≠ []) ∧ ∀ y ∈ acc, y.key ≠ w.key :=
    funext fun acc => funext fun w => propext
      ⟨fun ⟨h, hne⟩ => ⟨⟨h.readable, h.key_le, hne⟩, h.fresh⟩,
        fun ⟨⟨hr, hle, hne⟩, hfresh⟩ => ⟨⟨hr, hle, hfresh⟩, hne⟩⟩
  rw [hok, chain_fresh Kv.key Kv.key Kv.kept_key]
  constructor
  · rintro ⟨h, hnd, hfresh⟩
    exact ⟨⟨fun w hw => (h w hw).1, fun w hw => (h w hw).2.1, fun w hw => (h w hw).2.2,
      hnd⟩, hfresh⟩
  · rintro ⟨hg, hfresh⟩
    exact ⟨fun w hw => ⟨hg.readable w hw, hg.key_le w hw, hg.key_ne w hw⟩, hg.nodup, hfresh⟩

/-- A pair with an empty key behind good ones. -/
def EmptyKeyAt (n : Nat) (s : List UInt8) : Prop :=
  ∃ (kvs : List Kv) (w : Kv) (s' : List UInt8), kvs.length < n ∧ GoodKvs kvs ∧ w.Readable ∧
    w.key = [] ∧ s = kvs.flatMap Kv.raw ++ (w.raw ++ s')

theorem covers_readKvsRun (n : Nat) :
    Covers (readKvsRun n []) (fun bs kv => ∃ kvs : List Kv, kvs.length = n ∧
        bs = kvs.flatMap Kv.raw ∧ kv = kvs.map Kv.kept ∧ GoodKvs kvs) (EmptyKeyAt n) := by
  refine (covers_loop (fun _ => rfl) (fun _ _ => rfl) covers_readKvRun n []).congr ?_ ?_
  · intro bs kv
    simp only [nil_append, chain_kvs, not_mem_nil, false_implies, implies_true, and_true]
  · intro s
    simp only [nil_append, chain_kvs, not_mem_nil, false_implies, implies_true, and_true]
    constructor
    · rintro ⟨kvs, _, hlen, rfl, hg, w, s', rfl, hw, he⟩
      exact ⟨kvs, w, s', hlen, hg, hw.readable, he, rfl⟩
    · rintro ⟨kvs, w, s', hlen, hg, hr, he, rfl⟩
      refine ⟨kvs, _, hlen, rfl, hg, w, s', rfl, ⟨hr, by simp [he], ?_⟩, he⟩
      intro y hy
      obtain ⟨v, hv, rfl⟩ := mem_map.mp hy
      rw [he]
      exact hg.key_ne v hv

/-- The key of the alignment is no single number of type `uint32_t`. -/
def WrongAlignment (kvs : List Kv) : Prop :=
  ∃ x, findAlignment kvs = some x ∧ ¬ (x.type = .uint32 ∧ x.ne = 1)

/-- The alignment of a file with these pairs. -/
def fileAlignment (kvs : List Kv) : Nat :=
  match findAlignment kvs with
  | none => defaultAlignment
  | some x => leNat x.data

theorem findAlignment_kept (kvs : List Kv) :
    findAlignment (kvs.map Kv.kept) = (findAlignment kvs).map Kv.kept := by
  rw [findAlignment, findAlignment, find?_map]
  rfl

theorem wrongAlignment_kept (kvs : List Kv) :
    WrongAlignment (kvs.map Kv.kept) ↔ WrongAlignment kvs := by
  simp [WrongAlignment, findAlignment_kept]

theorem fileAlignment_kept {kvs : List Kv} (h : ¬ WrongAlignment kvs) :
    fileAlignment (kvs.map Kv.kept) = fileAlignment kvs := by
  unfold fileAlignment
  rw [findAlignment_kept]
  cases hf : findAlignment kvs with
  | none => rfl
  | some x =>
    have hx : x.type = .uint32 ∧ x.ne = 1 := by
      by_contra hn
      exact h ⟨x, hf, hn⟩
    simp [Kv.kept, hx.1]

theorem covers_readAlignment (kv : List Kv) :
    Covers (readAlignment kv) (fun bs a => bs = [] ∧ ¬ WrongAlignment kv ∧ a = fileAlignment kv)
      (fun _ => WrongAlignment kv) := by
  unfold readAlignment WrongAlignment fileAlignment
  cases findAlignment kv with
  | none => exact (covers_pure _).congr (by simp) (by simp)
  | some x =>
    refine ((covers_ensure _ Fault.assertion).bind fun _ _ =>
      (covers_ensure _ Fault.assertion).map (g := fun _ => leNat x.data)).congr ?_ ?_
    · intro bs a
      simp only [Option.some.injEq, exists_eq_left', not_not]
      constructor
      · rintro ⟨-, _, _, rfl, ⟨rfl, hne⟩, -, ⟨rfl, htype⟩, rfl⟩
        exact ⟨rfl, ⟨of_decide_eq_true htype, of_decide_eq_true hne⟩, rfl⟩
      · rintro ⟨rfl, ⟨htype, hne⟩, rfl⟩
        exact ⟨(), [], [], rfl, ⟨rfl, decide_eq_true hne⟩, (), ⟨rfl, decide_eq_true htype⟩, rfl⟩
    · intro s
      simp only [Option.some.injEq, exists_eq_left']
      constructor
      · rintro (h | ⟨-, _, s', rfl, ⟨rfl, -⟩, h⟩) ⟨h1, h2⟩
        · exact of_decide_eq_false h h2
        · exact of_decide_eq_false h h1
      · intro h
        by_cases hne : x.ne = 1
        · exact .inr ⟨(), [], s, rfl, ⟨rfl, decide_eq_true hne⟩,
            decide_eq_false fun htype => h ⟨htype, hne⟩⟩
        · exact .inl (decide_eq_false hne)

/-- A power of two, as the code tests it. -/
def IsPowerOfTwo (a : Nat) : Prop := a ≠ 0 ∧ a &&& (a - 1) = 0

instance : DecidablePred IsPowerOfTwo := fun _ => instDecidableAnd

/-- The checks behind the loop over the key-value pairs. -/
theorem covers_alignmentChecks {kv : List Kv} {n : Nat} (hlen : kv.length = n) :
    Covers (do
        Run.ensure (decide (kv.length = n)) Fault.assertion
        let alignment ← readAlignment kv
        Run.guard (decide (alignment ≠ 0 ∧ alignment &&& (alignment - 1) = 0))
        pure (kv, alignment))
      (fun bs p => bs = [] ∧ ¬ WrongAlignment kv ∧ IsPowerOfTwo (fileAlignment kv) ∧
        p = (kv, fileAlignment kv))
      (fun _ => WrongAlignment kv) := by
  refine ((covers_ensure _ Fault.assertion).bind fun _ _ => (covers_readAlignment kv).bind
    fun a _ => Covers.guard fun _ => covers_pure (kv, a)).congr ?_ ?_
  · intro bs p
    constructor
    · rintro ⟨-, _, _, rfl, ⟨rfl, -⟩, _, _, _, rfl, ⟨rfl, hw, rfl⟩, hp, rfl, rfl⟩
      exact ⟨rfl, hw, of_decide_eq_true hp, rfl⟩
    · rintro ⟨rfl, hw, hp, rfl⟩
      exact ⟨(), [], [], rfl, ⟨rfl, decide_eq_true hlen⟩, _, [], [], rfl, ⟨rfl, hw, rfl⟩,
        decide_eq_true hp, rfl, rfl⟩
  · intro s
    constructor
    · rintro (h | ⟨-, _, s', rfl, ⟨rfl, -⟩, h | ⟨_, _, _, -, -, -, h⟩⟩)
      · exact (of_decide_eq_false h hlen).elim
      · exact h
      · exact h.elim
    · intro h
      exact .inr ⟨(), [], s, rfl, ⟨rfl, decide_eq_true hlen⟩, .inl h⟩

theorem covers_readKvSection (n : Nat) :
    Covers (readKvSection n) (fun bs p => ∃ kvs : List Kv, kvs.length = n ∧ GoodKvs kvs ∧
        ¬ WrongAlignment kvs ∧ IsPowerOfTwo (fileAlignment kvs) ∧ bs = kvs.flatMap Kv.raw ∧
        p = (kvs.map Kv.kept, fileAlignment kvs))
      (fun s => EmptyKeyAt n s ∨ ∃ (kvs : List Kv) (s' : List UInt8), kvs.length = n ∧
        GoodKvs kvs ∧ WrongAlignment kvs ∧ s = kvs.flatMap Kv.raw ++ s') := by
  refine ((covers_readKvsRun n).bind fun kv hkv => covers_alignmentChecks ?_).congr ?_ ?_
  · obtain ⟨_, kvs, hlen, -, rfl, -⟩ := hkv
    rw [length_map, hlen]
  · intro bs p
    constructor
    · rintro ⟨_, _, _, rfl, ⟨kvs, hlen, rfl, rfl, hg⟩, rfl, hw, hp, rfl⟩
      rw [wrongAlignment_kept] at hw
      rw [fileAlignment_kept hw] at hp ⊢
      exact ⟨kvs, hlen, hg, hw, hp, append_nil _, rfl⟩
    · rintro ⟨kvs, hlen, hg, hw, hp, rfl, rfl⟩
      refine ⟨kvs.map Kv.kept, _, [], (append_nil _).symm, ⟨kvs, hlen, rfl, rfl, hg⟩, rfl,
        ?_, ?_, ?_⟩
      · rwa [wrongAlignment_kept]
      · rwa [fileAlignment_kept hw]
      · rw [fileAlignment_kept hw]
  · intro s
    constructor
    · rintro (h | ⟨_, _, s', rfl, ⟨kvs, hlen, rfl, rfl, hg⟩, hw⟩)
      · exact .inl h
      · exact .inr ⟨kvs, s', hlen, hg, (wrongAlignment_kept kvs).mp hw, rfl⟩
    · rintro (h | ⟨kvs, s', hlen, hg, hw, rfl⟩)
      · exact .inl h
      · exact .inr ⟨_, _, s', rfl, ⟨kvs, hlen, rfl, rfl, hg⟩, (wrongAlignment_kept kvs).mpr hw⟩

/-- A tensor as it stands in a file. -/
structure RawInfo where
  /-- Bytes of the name. -/
  name : List UInt8
  /-- Dimensions that are in the file. -/
  dims : List Nat
  /-- Type of the elements. -/
  type : Nat
  /-- Offset from the start of the data section. -/
  offset : Nat
  deriving DecidableEq, Repr

/-- Name and shape of a tensor in a file. -/
def shapeBytes (name : List UInt8) (dims : List Nat) : List UInt8 :=
  writeString name ++ (leBytes 4 dims.length ++ dims.flatMap fun d : Nat => intBytes 8 d)

/-- The bytes of a tensor in a file. -/
def RawInfo.bytes (w : RawInfo) : List UInt8 :=
  shapeBytes w.name w.dims ++ (intBytes 4 w.type ++ leBytes 8 w.offset)

/-- What is kept of it. -/
def RawInfo.info (w : RawInfo) : Info :=
  { name := cString w.name, type := w.type, ne := Dims.ofList w.dims, offset := w.offset }

/-- Name and dimensions that are read without an error. -/
structure ShapeOk (name : List UInt8) (dims : List Nat) : Prop where
  name_lt : name.length < 64
  length_le : dims.length ≤ 4
  dims_lt : ∀ d ∈ dims, d < 2 ^ 63

/-- The first of the divisors 0 that is reached. -/
def Dims.DividesByZero (ne : Dims) : Prop :=
  ne.d1 = 0 ∨ (ne.d0 < int64Max / ne.d1 ∧
    (ne.d2 = 0 ∨ (ne.d0 * ne.d1 < int64Max / ne.d2 ∧ ne.d3 = 0)))

theorem covers_readName (acc : List Info) :
    Covers (readName acc) (fun bs n => ∃ name, name.length < 64 ∧ n = cString name ∧
      (∀ y ∈ acc, y.name ≠ cString name) ∧ bs = writeString name) (fun _ => False) := by
  refine (spells_readString.covers.bind fun name _ => Covers.guard fun _ => Covers.guard fun _ =>
    covers_pure (cString name)).congr ?_ ?_
  · intro bs n
    constructor
    · rintro ⟨name, _, _, rfl, ⟨rfl, -⟩, hlen, hnew, rfl, rfl⟩
      refine ⟨name, by simpa using hlen, rfl, ?_, append_nil _⟩
      simpa [all_eq_true] using hnew
    · rintro ⟨name, hlen, rfl, hnew, rfl⟩
      refine ⟨name, writeString name, [], (append_nil _).symm, ⟨rfl, ?_⟩, by simpa using hlen,
        ?_, rfl, rfl⟩
      · exact le_trans hlen.le (by decide)
      · simpa [all_eq_true] using hnew
  · intro s
    simp

variable {b a type : Nat} {ne : Dims}

theorem divInt_of_ne (hb : b ≠ 0) (a : Nat) (s : List UInt8) : divInt a b s = .ok (a / b, s) := by
  rw [divInt, Run.bind_ok (Run.ensure_of_true (by simpa using hb) _ s)]
  rfl

theorem divInt_zero (a : Nat) (s : List UInt8) :
    divInt a 0 s = .error (.fault .divisionByZero) := rfl

theorem mulInt_of_le (h : a * b ≤ int64Max) (s : List UInt8) : mulInt a b s = .ok (a * b, s) := by
  rw [mulInt, Run.bind_ok (Run.ensure_of_true (decide_eq_true h) _ s)]
  rfl

/-- A quotient that is larger bounds the product. -/
theorem mul_le_of_lt_div {m : Nat} (h : a < m / b) : a * b ≤ m :=
  le_trans (Nat.mul_le_mul_right b h.le) (Nat.div_mul_le_self m b)

/-- One step of the check: the next dimension divides, and the product so far is small enough. -/
theorem elementsStep {α : Type} (p d : Nat) (f : Nat → Run Fault α) (s : List UInt8) :
    (do let q ← divInt int64Max d; Run.guard (decide (p < q)); let p' ← mulInt p d; f p') s =
      if d = 0 then .error (.fault .divisionByZero)
      else if p < int64Max / d then f (p * d) s else .error .reject := by
  by_cases hd : d = 0
  · subst hd
    rw [if_pos rfl, Run.bind_error (divInt_zero _ _)]
  · rw [if_neg hd, Run.bind_ok (divInt_of_ne hd _ _)]
    split
    · rename_i hp
      rw [Run.bind_ok (Run.guard_of_true (decide_eq_true hp) s),
        Run.bind_ok (mulInt_of_le (mul_le_of_lt_div hp) s)]
    · rename_i hp
      rw [Run.bind_error (Run.guard_of_false (decide_eq_false hp) s)]

/-- On its own the check of the number of elements neither reads nor overflows. -/
theorem checkElements_eq (ne : Dims) (s : List UInt8) :
    checkElements ne s =
      if ne.d1 = 0 then .error (.fault .divisionByZero)
      else if ne.d0 < int64Max / ne.d1 then
        if ne.d2 = 0 then .error (.fault .divisionByZero)
        else if ne.d0 * ne.d1 < int64Max / ne.d2 then
          if ne.d3 = 0 then .error (.fault .divisionByZero)
          else if ne.d0 * ne.d1 * ne.d2 < int64Max / ne.d3 then .ok ((), s)
          else .error .reject
        else .error .reject
      else .error .reject := by
  rw [checkElements, elementsStep, elementsStep]
  by_cases hd : ne.d3 = 0
  · simp only [hd, if_true, Run.bind_error (divInt_zero int64Max s)]
  · simp only [Run.bind_ok (divInt_of_ne hd int64Max s), Run.guard, decide_eq_true_eq, hd, if_false]

theorem covers_checkElements (ne : Dims) :
    Covers (checkElements ne) (fun bs _ => bs = [] ∧ ne.fits = true)
      (fun _ => ne.DividesByZero) := by
  have hzero : ∀ m, m / 0 = 0 := Nat.div_zero
  refine ⟨fun s a s' => ?_, fun s => ?_⟩
  · rw [checkElements_eq]
    simp only [Dims.fits, decide_eq_true_eq]
    constructor
    · intro h
      split_ifs at h with h1 h2 h3 h4 h5 h6
      cases h
      exact ⟨[], rfl, rfl, h2, h4, h6⟩
    · rintro ⟨_, rfl, rfl, h1, h2, h3⟩
      have hd1 : ne.d1 ≠ 0 := fun h => by simp [h] at h1
      have hd2 : ne.d2 ≠ 0 := fun h => by simp [h] at h2
      have hd3 : ne.d3 ≠ 0 := fun h => by simp [h] at h3
      simp [hd1, hd2, hd3, h1, h2, h3]
  · rw [checkElements_eq, Dims.DividesByZero]
    split_ifs with h1 h2 h3 h4 h5 h6 <;> simp_all

theorem spells_readDim :
    Spells readDim fun bs d => ∃ w : Nat, bs = intBytes 8 (w : Int) ∧ d = id w ∧ w < 2 ^ 63 := by
  refine ((spells_int 8).bind fun z _ => Spells.check fun _ =>
    spells_pure z.toNat).congr fun bs d => ?_
  constructor
  · rintro ⟨z, _, _, rfl, ⟨rfl, hz⟩, h0, rfl, rfl⟩
    have h0' : 0 ≤ z := by simpa using h0
    have hcast : (z.toNat : Int) = z := Int.toNat_of_nonneg h0'
    refine ⟨z.toNat, by rw [hcast, append_nil], rfl, ?_⟩
    have := hz.2
    push_cast at this
    omega
  · rintro ⟨w, rfl, rfl, hw⟩
    refine ⟨(d : Int), _, [], (append_nil _).symm, ⟨rfl, ?_⟩, by simp, rfl, by simp⟩
    constructor <;> push_cast <;> omega

theorem spells_readDims (n : Nat) :
    Spells (readDims n []) fun bs ds => ds.length = n ∧ (∀ d ∈ ds, d < 2 ^ 63) ∧
      bs = ds.flatMap fun d : Nat => intBytes 8 d := by
  refine (spells_loop readDim (fun _ => rfl) (fun _ _ => rfl) spells_readDim n).congr
    fun bs ds => ?_
  simp only [map_id]
  constructor
  · rintro ⟨ws, h1, h2, rfl, h4⟩
    exact ⟨h1, h4, h2⟩
  · rintro ⟨h1, h2, h3⟩
    exact ⟨ds, h1, h3, rfl, h2⟩

/-- Dimensions as they stand in a file. -/
def dimsBytes (dims : List Nat) : List UInt8 :=
  leBytes 4 dims.length ++ dims.flatMap fun d : Nat => intBytes 8 d

theorem covers_readShape :
    Covers readShape (fun bs ne => ∃ ds : List Nat, ds.length ≤ 4 ∧ (∀ d ∈ ds, d < 2 ^ 63) ∧
        ne = Dims.ofList ds ∧ ne.fits = true ∧ bs = dimsBytes ds)
      (fun s => ∃ (ds : List Nat) (s' : List UInt8), ds.length ≤ 4 ∧ (∀ d ∈ ds, d < 2 ^ 63) ∧
        (Dims.ofList ds).DividesByZero ∧ s = dimsBytes ds ++ s') := by
  refine ((spells_uint 4).covers.bind fun n _ => Covers.guard fun _ =>
    (spells_readDims n).covers.bind fun ds _ =>
      (covers_checkElements (Dims.ofList ds)).map (g := fun _ => Dims.ofList ds)).congr ?_ ?_
  · intro bs ne
    constructor
    · rintro ⟨n, _, _, rfl, ⟨rfl, -⟩, hn, ds, _, _, rfl, ⟨rfl, hds, rfl⟩, -, ⟨rfl, hfits⟩, rfl⟩
      exact ⟨ds, by simpa using hn, hds, rfl, hfits, by simp [dimsBytes]⟩
    · rintro ⟨ds, hn, hds, rfl, hfits, rfl⟩
      exact ⟨ds.length, _, _, rfl, ⟨rfl, lt_of_le_of_lt hn (by decide)⟩, by simpa using hn, ds, _,
        [], (append_nil _).symm, ⟨rfl, hds, rfl⟩, (), ⟨rfl, hfits⟩, rfl⟩
  · intro s
    constructor
    · rintro (h | ⟨n, _, _, rfl, ⟨rfl, -⟩, hn, h | ⟨ds, _, s', rfl, ⟨rfl, hds, rfl⟩, hz⟩⟩)
      · exact h.elim
      · exact h.elim
      · exact ⟨ds, s', by simpa using hn, hds, hz, by simp [dimsBytes]⟩
    · rintro ⟨ds, s', hn, hds, hz, rfl⟩
      exact .inr ⟨ds.length, _, _, by simp only [dimsBytes, append_assoc],
        ⟨rfl, lt_of_le_of_lt hn (by decide)⟩, by simpa using hn, .inr ⟨ds, _, s', rfl,
        ⟨rfl, hds, rfl⟩, hz⟩⟩

theorem Dims.fits_iff : ne.fits = true ↔ ne.d0 < int64Max / ne.d1 ∧
    ne.d0 * ne.d1 < int64Max / ne.d2 ∧ ne.d0 * ne.d1 * ne.d2 < int64Max / ne.d3 := by
  simp [Dims.fits]

/-- With a representable number of elements and a known type nothing overflows or divides by
zero. -/
theorem checkBytes_eq (hfits : ne.fits = true) (hblck : T.blckSize type ≠ 0) :
    checkBytes T type ne = Run.guard (decide (ne.d0 * ne.d1 * ne.d2 * ne.d3 / T.blckSize type ≤
      sizeMax / T.typeSize type)) := by
  obtain ⟨h1, h2, h3⟩ := Dims.fits_iff.mp hfits
  have hsize : T.typeSize type ≠ 0 := (T.size_pos type hblck).ne'
  funext s
  rw [checkBytes, Run.bind_ok (mulInt_of_le (mul_le_of_lt_div h1) s),
    Run.bind_ok (mulInt_of_le (mul_le_of_lt_div h2) s),
    Run.bind_ok (mulInt_of_le (mul_le_of_lt_div h3) s), Run.bind_ok (divInt_of_ne hblck _ s),
    Run.bind_ok (divInt_of_ne hsize _ s)]

theorem Traits.fits_iff : T.fits type ne = true ↔
    type < T.count ∧ T.blckSize type ≠ 0 ∧ ne.d0 % T.blckSize type = 0 ∧
    ne.d0 * ne.d1 * ne.d2 * ne.d3 / T.blckSize type ≤ sizeMax / T.typeSize type := by
  simp [Traits.fits]

theorem covers_readTensorType (hfits : ne.fits = true) :
    Covers (readTensorType T ne) (fun bs type => type < 2 ^ 31 ∧ T.fits type ne = true ∧
      bs = intBytes 4 (type : Int)) (fun _ => False) := by
  have hbody : ∀ k : Nat, T.blckSize k ≠ 0 →
      Covers (checkBytes T k ne >>= fun _ => Pure.pure k) (fun bs type => (bs = [] ∧
        ne.d0 * ne.d1 * ne.d2 * ne.d3 / T.blckSize k ≤ sizeMax / T.typeSize k) ∧ type = k)
        (fun _ => False) := by
    intro k hk
    rw [checkBytes_eq hfits hk]
    exact (covers_guard _).map.congr (by simp) (by simp)
  refine ((spells_int 4).covers.bind fun z _ => Covers.guard fun _ => Covers.guard fun hblck =>
    hbody z.toNat (of_decide_eq_true hblck).1).congr ?_ ?_
  · intro bs type
    rw [Traits.fits_iff]
    simp only [Bool.and_eq_true, decide_eq_true_eq]
    constructor
    · rintro ⟨z, _, _, rfl, ⟨rfl, hz⟩, ⟨h0, hcount⟩, ⟨hblck, hmod⟩, ⟨rfl, hle⟩, rfl⟩
      have hcast : (z.toNat : Int) = z := Int.toNat_of_nonneg h0
      refine ⟨?_, ⟨hcount, hblck, hmod, hle⟩, by rw [hcast, append_nil]⟩
      have := hz.2
      push_cast at this
      omega
    · rintro ⟨hlt, ⟨hcount, hblck, hmod, hle⟩, rfl⟩
      refine ⟨type, _, [], (append_nil _).symm, ⟨rfl, ?_⟩, ⟨by simp, by simpa using hcount⟩,
        ⟨by simpa using hblck, by simpa using hmod⟩, ⟨rfl, by simpa using hle⟩, by simp⟩
      constructor <;> push_cast <;> omega
  · intro s
    simp

/-- The next tensor of a file, given those before it. -/
structure RawInfo.Next (T : Traits) (acc : List Info) (w : RawInfo) : Prop where
  shape : ShapeOk w.name w.dims
  fresh : ∀ y ∈ acc, y.name ≠ cString w.name
  type_lt : w.type < 2 ^ 31
  fits : w.info.Fits T
  offset_lt : w.offset < 2 ^ 64

theorem covers_readInfoRun (acc : List Info) :
    Covers (readInfoRun T acc) (fun bs t => ∃ w : RawInfo, bs = w.bytes ∧ t = w.info ∧ w.Next T acc)
      (fun s => ∃ (name : List UInt8) (dims : List Nat) (s' : List UInt8), ShapeOk name dims ∧
        (∀ y ∈ acc, y.name ≠ cString name) ∧ (Dims.ofList dims).DividesByZero ∧
        s = shapeBytes name dims ++ s') := by
  refine ((covers_readName acc).bind fun name _ => covers_readShape.bind fun ne hne =>
    (covers_readTensorType (T := T) ?_).bind fun type _ => (spells_uint 8).covers.map).congr ?_ ?_
  · obtain ⟨_, _, -, -, -, hfits, -⟩ := hne
    exact hfits
  · intro bs t
    constructor
    · rintro ⟨_, _, _, rfl, ⟨name, hn, rfl, hnew, rfl⟩, _, _, _, rfl,
        ⟨ds, hl, hds, rfl, hfits, rfl⟩,
        type, _, _, rfl, ⟨hlt, htype, rfl⟩, off, ⟨rfl, hoff⟩, rfl⟩
      exact ⟨⟨name, ds, type, off⟩, by simp [RawInfo.bytes, shapeBytes, dimsBytes], rfl,
        ⟨⟨hn, hl, hds⟩, hnew, hlt, ⟨hfits, htype⟩, by simpa using hoff⟩⟩
    · rintro ⟨w, rfl, rfl, hw⟩
      exact ⟨cString w.name, _, _, by simp only [RawInfo.bytes, shapeBytes, append_assoc]; rfl,
        ⟨w.name, hw.shape.name_lt, rfl, hw.fresh, rfl⟩, Dims.ofList w.dims, dimsBytes w.dims, _,
        by simp only [dimsBytes, append_assoc],
        ⟨w.dims, hw.shape.length_le, hw.shape.dims_lt, rfl, hw.fits.1, rfl⟩, w.type, _, _, rfl,
        ⟨hw.type_lt, hw.fits.2, rfl⟩, w.offset, ⟨rfl, by simpa using hw.offset_lt⟩, rfl⟩
  · intro s
    constructor
    · rintro (h | ⟨_, _, _, rfl, ⟨name, hn, rfl, hnew, rfl⟩, ⟨ds, s', hl, hds, hz, rfl⟩ |
        ⟨_, _, _, -, -, h | ⟨_, _, _, -, -, h⟩⟩⟩)
      · exact h.elim
      · exact ⟨name, ds, s', ⟨hn, hl, hds⟩, hnew, hz, by simp [shapeBytes, dimsBytes]⟩
      · exact h.elim
      · exact h.elim
    · rintro ⟨name, ds, s', hok, hnew, hz, rfl⟩
      exact .inr ⟨cString name, _, dimsBytes ds ++ s',
        by simp only [shapeBytes, dimsBytes, append_assoc],
        ⟨name, hok.name_lt, rfl, hnew, rfl⟩, .inl ⟨ds, s', hok.length_le, hok.dims_lt, hz, rfl⟩⟩

/-- Tensors that a file may start with. -/
structure GoodInfos (T : Traits) (ws : List RawInfo) : Prop where
  shape : ∀ w ∈ ws, ShapeOk w.name w.dims
  type_lt : ∀ w ∈ ws, w.type < 2 ^ 31
  fits : ∀ w ∈ ws, w.info.Fits T
  offset_lt : ∀ w ∈ ws, w.offset < 2 ^ 64
  nodup : (ws.map fun w => cString w.name).Nodup

theorem chain_infos (ws : List RawInfo) (acc : List Info) :
    Chain RawInfo.info (RawInfo.Next T) acc ws ↔
      GoodInfos T ws ∧ ∀ w ∈ ws, ∀ y ∈ acc, y.name ≠ cString w.name := by
  have hok : RawInfo.Next T = fun acc w => (ShapeOk w.name w.dims ∧ w.type < 2 ^ 31 ∧
      w.info.Fits T ∧ w.offset < 2 ^ 64) ∧ ∀ y ∈ acc, y.name ≠ cString w.name :=
    funext fun acc => funext fun w => propext
      ⟨fun h => ⟨⟨h.shape, h.type_lt, h.fits, h.offset_lt⟩, h.fresh⟩,
        fun ⟨⟨hs, ht, hf, ho⟩, hfresh⟩ => ⟨hs, hfresh, ht, hf, ho⟩⟩
  rw [hok, chain_fresh Info.name (fun w : RawInfo => cString w.name) fun _ => rfl]
  constructor
  · rintro ⟨h, hnd, hfresh⟩
    exact ⟨⟨fun w hw => (h w hw).1, fun w hw => (h w hw).2.1, fun w hw => (h w hw).2.2.1,
      fun w hw => (h w hw).2.2.2, hnd⟩, hfresh⟩
  · rintro ⟨hg, hfresh⟩
    exact ⟨fun w hw => ⟨hg.shape w hw, hg.type_lt w hw, hg.fits w hw, hg.offset_lt w hw⟩,
      hg.nodup, hfresh⟩

/-- A tensor whose shape divides by zero behind good ones. -/
def ZeroDimAt (T : Traits) (n : Nat) (s : List UInt8) : Prop :=
  ∃ (ws : List RawInfo) (name : List UInt8) (dims : List Nat) (s' : List UInt8),
    ws.length < n ∧ GoodInfos T ws ∧ ShapeOk name dims ∧
    (∀ w ∈ ws, cString w.name ≠ cString name) ∧ (Dims.ofList dims).DividesByZero ∧
    s = ws.flatMap RawInfo.bytes ++ (shapeBytes name dims ++ s')

theorem covers_readInfosRun (n : Nat) :
    Covers (readInfosRun T n []) (fun bs info => ∃ ws : List RawInfo, ws.length = n ∧
        bs = ws.flatMap RawInfo.bytes ∧ info = ws.map RawInfo.info ∧ GoodInfos T ws)
      (ZeroDimAt T n) := by
  refine (covers_loop (fun _ => rfl) (fun _ _ => rfl) covers_readInfoRun n []).congr ?_ ?_
  · intro bs kv
    simp only [nil_append, chain_infos, not_mem_nil, false_implies, implies_true, and_true]
  · intro s
    simp only [nil_append, chain_infos, not_mem_nil, false_implies, implies_true, and_true]
    constructor
    · rintro ⟨ws, _, hlen, rfl, hg, name, dims, s', hok, hnew, hz, rfl⟩
      refine ⟨ws, name, dims, s', hlen, hg, hok, fun w hw => ?_, hz, rfl⟩
      exact hnew w.info (mem_map_of_mem hw)
    · rintro ⟨ws, name, dims, s', hlen, hg, hok, hnew, hz, rfl⟩
      refine ⟨ws, _, hlen, rfl, hg, name, dims, s', hok, fun y hy => ?_, hz, rfl⟩
      obtain ⟨w, hw, rfl⟩ := mem_map.mp hy
      exact hnew w hw

/-- Magic, version and numbers of tensors and key-value pairs. -/
def countBytes (version nTensors nKv : Nat) : List UInt8 :=
  magic ++ (leBytes 4 version ++ (intBytes 8 (nTensors : Int) ++ intBytes 8 (nKv : Int)))

/-- Version and numbers that the reader takes. -/
structure CountsOk (version nTensors nKv : Nat) : Prop where
  version : versionOk version = true
  tensors : nTensors ≤ maxTensors
  kvs : nKv ≤ maxKv

theorem spells_readCounts :
    Spells readCounts fun bs p => CountsOk p.1 p.2.1 p.2.2 ∧ bs = countBytes p.1 p.2.1 p.2.2 := by
  refine ((spells_bytes 4).bind fun m _ => Spells.check fun _ => (spells_uint 4).bind fun v _ =>
    Spells.check fun _ => (spells_int 8).bind fun nt _ => Spells.check fun _ =>
    (spells_int 8).bind fun nk _ => Spells.check fun _ =>
    spells_pure (v, nt.toNat, nk.toNat)).congr ?_
  rintro bs ⟨version, nTensors, nKv⟩
  constructor
  · rintro ⟨m, _, _, rfl, ⟨rfl, -⟩, hm, v, _, _, rfl, ⟨rfl, -⟩, hv, nt, _, _, rfl, ⟨rfl, -⟩, hnt,
      nk, _, _, rfl, ⟨rfl, -⟩, hnk, rfl, hp⟩
    simp only [Prod.mk.injEq] at hp
    obtain ⟨rfl, rfl, rfl⟩ := hp
    simp only [decide_eq_true_eq] at hm hnt hnk
    have h1 : (nt.toNat : Int) = nt := Int.toNat_of_nonneg hnt.1
    have h2 : (nk.toNat : Int) = nk := Int.toNat_of_nonneg hnk.1
    refine ⟨⟨hv, Int.toNat_le.mpr hnt.2, Int.toNat_le.mpr hnk.2⟩, ?_⟩
    simp [countBytes, hm, h1, h2]
  · rintro ⟨⟨hv, hnt, hnk⟩, rfl⟩
    simp only at hv hnt hnk
    have hv' : version ≤ 3 := by
      simp only [versionOk, Bool.and_eq_true, decide_eq_true_eq] at hv
      exact hv.2
    have hmt : (maxTensors : Int) < 2 ^ 63 := by decide
    have hmk : (maxKv : Int) < 2 ^ 63 := by decide
    refine ⟨magic, _, _, rfl, ⟨rfl, rfl⟩, by simp, version, _, _, rfl,
      ⟨rfl, lt_of_le_of_lt hv' (by decide)⟩, hv, nTensors, _, _, rfl, ⟨rfl, ?_⟩, by simpa using hnt,
      nKv, _, [], (append_nil _).symm, ⟨rfl, ?_⟩, by simpa using hnk, rfl, by simp⟩
    · constructor <;> push_cast <;> omega
    · constructor <;> push_cast <;> omega

end Llama.Gguf
