import Llama.Gguf.Bounds
import Mathlib.Data.List.Nodup

/-!
# Merging the pairs of another context

`gguf_set_kv` hands every pair of a context to the setter of its type, so that keys and strings
pass through `c_str` and end at their first 0. The setter removes the first pair whose key reads
the same and appends the new one. Per key, seen as a C string, the pairs of the target are a
queue: each pair of the source takes one from the front and adds one at the back.
-/

namespace Llama.Gguf

open Bytes List

variable {T : Traits} {ctx ctx' src kv : List Kv} {x y z : Kv} {c : List UInt8}

def cStr (s : List UInt8) : CString where
  bytes := cString s
  noNul := fun h => by simpa using mem_takeWhile_imp h

/-- `gguf_remove_key` on any context: `strcmp` finds the first key that reads the same. -/
def eraseKey (kv : List Kv) (key : CString) : List Kv :=
  kv.eraseP fun x => cString x.key == key.bytes

/-- What the setters do, from `gguf_set_val_u8` to `gguf_set_arr_str`; the constructor of
`gguf_kv` asserts that the key is not empty. -/
def setEntry (kv : List Kv) (key : CString) (isArray : Bool) (type : GgufType)
    (data : List UInt8) (strings : List CString) (val : Option Nat) : Option (List Kv) :=
  if checkReservedKeys key.bytes val ∧ key.bytes ≠ [] then
    some (eraseKey kv key ++ [{ key := key.bytes, isArray := isArray, type := type, data := data
                                strings := strings.map CString.bytes }])
  else none

/-- `gguf_kv::get_val` for numbers and booleans. -/
def Kv.getVal (x : Kv) : Option (List UInt8) :=
  if x.data.length % x.type.size = 0 ∧ x.type.size ≤ x.data.length then
    some (x.data.take x.type.size)
  else none

/-- Loop body of `gguf_set_kv`. -/
def setKvFrom (kv : List Kv) (x : Kv) : Option (List Kv) :=
  if x.isArray = false then
    match x.type with
    | .array => none
    | .string => do
      let s ← x.strings.head?
      setEntry kv (cStr x.key) false .string [] [cStr s] none
    | type => do
      let bs ← x.getVal
      setEntry kv (cStr x.key) false type bs [] (if type = .uint32 then some (leNat bs) else none)
  else
    match x.type with
    | .array => none
    | .string => setEntry kv (cStr x.key) true .string [] (x.strings.map cStr) none
    | type =>
      -- `get_ne`
      if x.data.length % type.size = 0 then setEntry kv (cStr x.key) true type x.data [] none
      else none

/-- `gguf_set_kv`: the pairs of `ctx` afterwards. -/
def ggufSetKv (ctx src : List Kv) : Option (List Kv) := src.foldlM setKvFrom ctx

/-- A pair that a context can hold. -/
structure Kv.Sound (x : Kv) : Prop where
  type : x.type ≠ .array
  string : x.type = .string → x.data = [] ∧ (x.isArray = false → x.strings.length = 1)
  data : x.type ≠ .string → x.strings = [] ∧ x.data.length = x.ne * x.type.size ∧
    (x.isArray = false → x.ne = 1)

theorem Kv.WF.sound (h : x.WF) : x.Sound := ⟨h.type, h.string, h.data⟩

theorem Kv.Readable.sound (h : x.Readable) : x.kept.Sound where
  type := h.type
  string := fun hs => by
    obtain ⟨hdata, hlen⟩ := h.string hs
    exact ⟨by simp [Kv.kept, hdata], hlen⟩
  data := fun hs => by
    obtain ⟨hstr, hdata, hne⟩ := h.data hs
    refine ⟨hstr, ?_, fun ha => (Kv.kept_ne x).trans (hne ha)⟩
    rw [Kv.kept_ne, Kv.kept_type, ← hdata, Kv.kept]
    split <;> simp

/-- The pairs of a context that was built by the setters or read from a file. -/
def Obtained (T : Traits) (kv : List Kv) : Prop :=
  (∃ ops c, build T ops = some c ∧ kv = c.kv) ∨
  ∃ malloc params file r, initFromFileImpl T malloc params file = .ok r ∧ kv = r.kv

theorem Obtained.sound (h : Obtained T kv) : (kv.map Kv.key).Nodup ∧ ∀ x ∈ kv, x.Sound := by
  obtain ⟨ops, c, hc, rfl⟩ | ⟨malloc, params, file, r, hr, rfl⟩ := h
  · have hv := build_valid hc
    exact ⟨hv.keys, fun x hx => (hv.kv x hx).sound⟩
  · obtain ⟨hd, rest, hok, -, hmeta, -⟩ := exists_head_of_ok hr
    have hkv : r.kv = hd.kvs.map Kv.kept := by rw [hmeta]; rfl
    rw [hkv, map_map]
    exact ⟨hok.kvs.nodup, forall_mem_map.mpr fun x hx => (hok.kvs.readable x hx).sound⟩

/-- The pair as the setter sees it. -/
def Kv.seen (x : Kv) : Kv := { x with key := cString x.key, strings := x.strings.map cString }

/-- The setter takes the pair: the key is not empty, and the alignment is a power of two. -/
def Kv.Accepted (x : Kv) : Prop :=
  cString x.key ≠ [] ∧ (cString x.key = alignmentKey →
    x.isArray = false ∧ x.type = .uint32 ∧ IsPowerOfTwo (leNat x.data))

instance (x : Kv) : Decidable x.Accepted := instDecidableAnd

variable {val : Option Nat} {e ts : List Kv}

theorem checkReservedKeys_iff {key : List UInt8} :
    checkReservedKeys key val = true ↔
      (key = alignmentKey → ∃ v, val = some v ∧ IsPowerOfTwo v) := by
  unfold checkReservedKeys
  split
  · rename_i hkey
    cases val with
    | none => simp [hkey]
    | some v => simp [hkey, IsPowerOfTwo, Nat.pos_iff_ne_zero]
  · rename_i hkey
    simp [hkey]

/-- A setter that is given what is seen of a pair. -/
theorem setEntry_eq {isArray : Bool} {type : GgufType} {data : List UInt8} {strings : List CString}
    (kv : List Kv) (ha : isArray = x.isArray) (ht : type = x.type) (hd : data = x.data)
    (hs : strings.map CString.bytes = x.strings.map cString)
    (hval : ∀ v, val = some v ↔ x.isArray = false ∧ x.type = .uint32 ∧ leNat x.data = v) :
    setEntry kv (cStr x.key) isArray type data strings val =
      if x.Accepted then some (eraseKey kv (cStr x.key) ++ [x.seen]) else none := by
  have hiff : (checkReservedKeys (cStr x.key).bytes val = true ∧ (cStr x.key).bytes ≠ []) ↔
      x.Accepted := by
    rw [checkReservedKeys_iff, Kv.Accepted, and_comm]
    refine and_congr Iff.rfl (imp_congr Iff.rfl ?_)
    simp only [hval]
    constructor
    · rintro ⟨v, ⟨h1, h2, rfl⟩, h3⟩
      exact ⟨h1, h2, h3⟩
    · rintro ⟨h1, h2, h3⟩
      exact ⟨_, ⟨h1, h2, rfl⟩, h3⟩
  rw [setEntry, Kv.seen, hs, ← ha, ← ht, ← hd]
  exact if_congr hiff rfl rfl

/-- What `gguf_set_kv` does with one pair. -/
theorem setKvFrom_eq (hx : x.Sound) (kv : List Kv) :
    setKvFrom kv x = if x.Accepted then some (eraseKey kv (cStr x.key) ++ [x.seen]) else none := by
  rw [setKvFrom]
  split
  · rename_i ha
    split
    · rename_i ht
      exact absurd ht hx.type
    · rename_i ht
      obtain ⟨hdata, hlen⟩ := hx.string ht
      obtain ⟨s, hs⟩ := length_eq_one_iff.mp (hlen ha)
      rw [hs]
      refine setEntry_eq kv ha.symm ht.symm hdata.symm (by rw [hs]; rfl) fun v => ?_
      simp [ht]
    · rename_i _ hs
      obtain ⟨hstr, hdata, hne⟩ := hx.data hs
      rw [hne ha, Nat.one_mul] at hdata
      have hval : x.getVal = some x.data := by
        rw [Kv.getVal, hdata, Nat.mod_self, if_pos ⟨rfl, le_rfl⟩, ← hdata, take_length]
      rw [hval]
      refine setEntry_eq kv ha.symm rfl rfl (by rw [hstr]; rfl) fun v => ?_
      split <;> simp [*]
  · rename_i ha
    rw [Bool.not_eq_false] at ha
    split
    · rename_i ht
      exact absurd ht hx.type
    · rename_i ht
      obtain ⟨hdata, -⟩ := hx.string ht
      refine setEntry_eq kv ha.symm ht.symm hdata.symm (by rw [map_map]; rfl) fun v => ?_
      simp [ha]
    · rename_i _ hs
      obtain ⟨hstr, hdata, -⟩ := hx.data hs
      rw [if_pos (by rw [hdata, Nat.mul_mod_left])]
      refine setEntry_eq kv ha.symm rfl rfl (by rw [hstr]; rfl) fun v => ?_
      simp [ha]

/-- What `gguf_set_kv` does, where nothing is refused. -/
theorem ggufSetKv_eq_some_iff (hsrc : ∀ x ∈ src, x.Sound) :
    ggufSetKv ctx src = some ctx' ↔ (∀ x ∈ src, x.Accepted) ∧
      ctx' = src.foldl (fun kv x => eraseKey kv (cStr x.key) ++ [x.seen]) ctx := by
  induction src generalizing ctx with
  | nil => simp [ggufSetKv, eq_comm]
  | cons x src ih =>
    obtain ⟨hx, hsrc⟩ := forall_mem_cons.mp hsrc
    rw [ggufSetKv, foldlM_cons, setKvFrom_eq hx, foldl_cons, forall_mem_cons]
    split
    · rename_i ha
      rw [Option.bind_eq_bind, Option.bind_some]
      rw [show List.foldlM setKvFrom (eraseKey ctx (cStr x.key) ++ [x.seen]) src =
        ggufSetKv (eraseKey ctx (cStr x.key) ++ [x.seen]) src from rfl, ih hsrc]
      simp only [ha, true_and]
    · rename_i ha
      simp [ha]

/-- The pairs whose key reads as a given one. -/
def alike (c : List UInt8) (kv : List Kv) : List Kv := kv.filter fun x => cString x.key == c

/-- Take one from the front and add one at the back, for each of the new ones. -/
def turnOver (e ts : List Kv) : List Kv := ts.foldl (fun e t => e.tail ++ [t]) e

theorem mem_alike : x ∈ alike c kv ↔ x ∈ kv ∧ cString x.key = c := by
  simp [alike]

theorem cString_cString (s : List UInt8) : cString (cString s) = cString s := takeWhile_idem

theorem alike_eraseKey (kv : List Kv) (key : CString) :
    alike c (eraseKey kv key) = if key.bytes = c then (alike c kv).tail else alike c kv := by
  induction kv with
  | nil => simp [eraseKey, alike]
  | cons x kv ih =>
    rw [eraseKey] at ih
    rw [eraseKey]
    by_cases hx : cString x.key = key.bytes
    · rw [eraseP_cons_of_pos (by simpa using hx)]
      by_cases hc : key.bytes = c
      · simp [alike, hx, hc]
      · simp [alike, hx, hc]
    · rw [eraseP_cons_of_neg (by simpa using hx)]
      by_cases hc : key.bytes = c
      · rw [if_pos hc] at ih ⊢
        subst hc
        simpa [alike, hx] using ih
      · rw [if_neg hc] at ih ⊢
        by_cases hxc : cString x.key = c
        · simpa [alike, hx, hxc] using ih
        · simpa [alike, hx, hxc] using ih

/-- What becomes of the pairs whose keys read the same. -/
theorem alike_merge (c : List UInt8) (ctx src : List Kv) :
    alike c (src.foldl (fun kv x => eraseKey kv (cStr x.key) ++ [x.seen]) ctx) =
      turnOver (alike c ctx) ((alike c src).map Kv.seen) := by
  induction src generalizing ctx with
  | nil => rfl
  | cons x src ih =>
    have hsplit : alike c (eraseKey ctx (cStr x.key) ++ [x.seen]) =
        alike c (eraseKey ctx (cStr x.key)) ++ alike c [x.seen] := filter_append _ _
    rw [foldl_cons, ih, hsplit, alike_eraseKey]
    have hseen : cString x.seen.key = cString x.key := cString_cString x.key
    by_cases hx : cString x.key = c
    · simp [turnOver, alike, cStr, hseen, hx]
    · simp [turnOver, alike, cStr, hseen, hx]

theorem mem_turnOver (h : z ∈ turnOver e ts) : z ∈ ts ∨ z ∈ e.drop ts.length := by
  induction ts generalizing e with
  | nil => exact .inr h
  | cons t ts ih =>
    rcases ih h with h | h
    · exact .inl (mem_cons_of_mem _ h)
    · rw [drop_append, mem_append, drop_tail] at h
      rcases h with h | h
      · exact .inr h
      · rw [mem_singleton.mp (mem_of_mem_drop h)]
        exact .inl mem_cons_self

theorem turnOver_of_le (h : ts.length ≤ e.length) : turnOver e ts = e.drop ts.length ++ ts := by
  induction ts generalizing e with
  | nil => exact (append_nil e).symm
  | cons t ts ih =>
    rw [length_cons] at h
    have hle : ts.length ≤ e.tail.length := by rw [length_tail]; omega
    change turnOver (e.tail ++ [t]) ts = _
    rw [ih (by rw [length_append]; omega), drop_append_of_le_length hle, drop_tail, append_assoc]
    rfl

theorem eq_singleton {α : Type} {l : List α} {a : α} (hnd : l.Nodup) (ha : a ∈ l)
    (hall : ∀ b ∈ l, b = a) : l = [a] := by
  cases l with
  | nil => cases ha
  | cons b l =>
    obtain rfl := hall b mem_cons_self
    cases l with
    | nil => rfl
    | cons d l =>
      obtain rfl := hall d (by simp)
      simp at hnd

/-- Among distinct keys a pair is found by its key. -/
theorem filter_key (hnd : (kv.map Kv.key).Nodup) (hy : y ∈ kv) :
    kv.filter (·.key == y.key) = [y] := by
  refine eq_singleton ((List.Nodup.of_map _ hnd).filter _) (by simp [hy]) fun z hz => ?_
  obtain ⟨hz, hkey⟩ := mem_filter.mp hz
  exact inj_on_of_nodup_map hnd hz hy (by simpa using hkey)

/-- Pairs of one key are among those whose keys read the same. -/
theorem filter_alike (kv : List Kv) (k : List UInt8) :
    (alike (cString k) kv).filter (·.key == k) = kv.filter (·.key == k) := by
  rw [alike, filter_filter]
  refine filter_congr fun x _ => ?_
  by_cases h : x.key = k <;> simp [h]

/-- Every pair of the source is there once, and the other keys of the target are unchanged. -/
structure ExactMerge (ctx src ctx' : List Kv) : Prop where
  taken : ∀ x ∈ src, ctx'.filter (·.key == x.key) = [x]
  kept : ∀ y ∈ ctx, y.key ∉ src.map Kv.key → ctx'.filter (·.key == y.key) = [y]

/-- Nothing is cut off the pair and no other key of the target is taken for its key, or the pair
is there already and what is seen of it takes the place of an equal pair. -/
def Kv.Placed (ctx : List Kv) (x : Kv) : Prop :=
  (x.seen = x ∧ ∀ y, ctx.find? (fun y => cString y.key == x.key) = some y → y.key = x.key) ∨
  (x.seen ≠ x ∧ x ∈ ctx ∧ ctx.find? (fun y => cString y.key == cString x.key) = some x.seen)

/-- No other key of the source reads the same. -/
def Kv.Alone (src : List Kv) (x : Kv) : Prop := ∀ y ∈ src, cString y.key = cString x.key → y = x

/-- The pairs of the target whose keys read as this one's. -/
theorem find_alike (ctx : List Kv) (c : List UInt8) :
    ctx.find? (fun y => cString y.key == c) = (alike c ctx).head? := (head?_filter ..).symm

theorem alike_of_alone (hsrc : (src.map Kv.key).Nodup) (hx : x ∈ src) (h : x.Alone src) :
    alike (cString x.key) src = [x] :=
  eq_singleton ((List.Nodup.of_map _ hsrc).filter _) (mem_alike.mpr ⟨hx, rfl⟩) fun y hy =>
    h y (mem_alike.mp hy).1 (mem_alike.mp hy).2

/-- The key of the first pair that reads as a taken key is found afterwards, but not among the
pairs that stay. -/
theorem first_key {e₁ : Kv} (hnd : ((e₁ :: e).map Kv.key).Nodup) {n : Nat}
    (hts : ∀ t ∈ ts, t.key = c) (hz : (e.drop n ++ ts).filter (·.key == e₁.key) = [z]) :
    e₁.key = c := by
  have hmem : z ∈ (e.drop n ++ ts).filter (·.key == e₁.key) := by rw [hz]; simp
  obtain ⟨hmem, hkey⟩ := mem_filter.mp hmem
  rw [beq_iff_eq] at hkey
  rw [map_cons, nodup_cons] at hnd
  rcases mem_append.mp hmem with h | h
  · exact absurd (mem_map.mpr ⟨z, mem_of_mem_drop h, hkey⟩) hnd.1
  · rw [← hkey, hts z h]

section
variable (hctx : (ctx.map Kv.key).Nodup) (hsrc : (src.map Kv.key).Nodup)
  (hmerge : ctx' = src.foldl (fun kv x => eraseKey kv (cStr x.key) ++ [x.seen]) ctx)

/-- Every key of the target is there once after an exact merge. -/
theorem ExactMerge.once (h : ExactMerge ctx src ctx') (hy : y ∈ alike c ctx) :
    ∃ z, (alike c ctx').filter (·.key == y.key) = [z] := by
  obtain ⟨hyc, rfl⟩ := mem_alike.mp hy
  rw [filter_alike]
  by_cases hmem : y.key ∈ src.map Kv.key
  · obtain ⟨x, hx, hkey⟩ := mem_map.mp hmem
    exact ⟨x, hkey ▸ h.taken x hx⟩
  · exact ⟨y, h.kept y hyc hmem⟩

theorem ExactMerge.mem (h : ExactMerge ctx src ctx') (hx : x ∈ alike c src) : x ∈ alike c ctx' := by
  obtain ⟨hx, hc⟩ := mem_alike.mp hx
  have hmem : x ∈ ctx'.filter (·.key == x.key) := by rw [h.taken x hx]; simp
  exact mem_alike.mpr ⟨(mem_filter.mp hmem).1, hc⟩

include hctx hsrc hmerge

/-- In an exact merge no other key of the source reads the same. -/
theorem ExactMerge.alone (h : ExactMerge ctx src ctx') (hx : x ∈ src) : x.Alone src := by
  intro y hy hyx
  by_contra hne
  obtain ⟨c, hc⟩ : ∃ c, c = cString x.key := ⟨_, rfl⟩
  have hxs : x ∈ alike c src := mem_alike.mpr ⟨hx, hc.symm⟩
  have hys : y ∈ alike c src := mem_alike.mpr ⟨hy, hyx.trans hc.symm⟩
  have hR := alike_merge c ctx src
  rw [← hmerge] at hR
  have hts : ∀ t ∈ (alike c src).map Kv.seen, t.key = c := forall_mem_map.mpr fun w hw =>
    (mem_alike.mp hw).2
  -- one of the two keys is cut off, so that its pair was in the target before
  obtain ⟨w, hw, hwc⟩ : ∃ w ∈ alike c src, w.key ≠ c := by
    by_cases hxc : x.key = c
    · refine ⟨y, hys, fun hyc => hne ?_⟩
      exact inj_on_of_nodup_map hsrc hy hx (hyc.trans hxc.symm)
    · exact ⟨x, hxs, hxc⟩
  have hwR := h.mem hw
  rw [hR] at hwR
  have hdrop : w ∈ (alike c ctx).drop ((alike c src).map Kv.seen).length :=
    (mem_turnOver hwR).resolve_left fun hmem => hwc (hts w hmem)
  have hlt := length_pos_of_mem hdrop
  rw [length_drop] at hlt
  rw [turnOver_of_le (by omega)] at hR
  have htwo : 2 ≤ (alike c src).length := by
    by_contra hlen
    obtain ⟨v, hv⟩ := length_eq_one_iff.mp
      (show (alike c src).length = 1 by have := length_pos_of_mem hxs; omega)
    rw [hv, mem_singleton] at hxs hys
    exact hne (hys.trans hxs.symm)
  cases he : alike c ctx with
  | nil =>
    rw [he] at hlt
    simp at hlt
  | cons e₁ e =>
    have hnd : ((e₁ :: e).map Kv.key).Nodup := by
      rw [← he]
      exact hctx.sublist (filter_sublist.map _)
    obtain ⟨z, hz⟩ := h.once (c := c) (y := e₁) (by rw [he]; simp)
    obtain ⟨n, hn⟩ : ∃ n, ((alike c src).map Kv.seen).length = n + 1 :=
      ⟨_, (Nat.succ_pred_eq_of_pos (by rw [length_map]; omega)).symm⟩
    rw [hR, he, hn, drop_succ_cons] at hz
    have hkey := first_key hnd hts hz
    have hall : ((alike c src).map Kv.seen).filter (·.key == c) = (alike c src).map Kv.seen :=
      filter_eq_self.mpr fun t ht => by rw [hts t ht, beq_self_eq_true]
    have hlen := congrArg List.length hz
    rw [filter_append, hkey, length_append, hall, length_map, length_singleton] at hlen
    omega

/-- In an exact merge every pair finds its place. -/
theorem ExactMerge.placed (h : ExactMerge ctx src ctx') (hx : x ∈ src) : x.Placed ctx := by
  have halone := h.alone hctx hsrc hmerge hx
  have hR := alike_merge (cString x.key) ctx src
  rw [← hmerge, alike_of_alone hsrc hx halone] at hR
  change alike (cString x.key) ctx' = (alike (cString x.key) ctx).tail ++ [x.seen] at hR
  have htaken := h.taken x hx
  rw [← filter_alike, hR] at htaken
  have hfirst : ∀ e₁ e, alike (cString x.key) ctx = e₁ :: e → e₁.key = cString x.key := by
    intro e₁ e he
    have hnd : ((e₁ :: e).map Kv.key).Nodup := by
      rw [← he]
      exact hctx.sublist (filter_sublist.map _)
    obtain ⟨z, hz⟩ := h.once (c := cString x.key) (y := e₁) (by rw [he]; simp)
    rw [hR, he] at hz
    exact first_key (n := 0) hnd (forall_mem_singleton.mpr rfl) hz
  by_cases hkey : x.key = cString x.key
  · refine .inl ⟨?_, fun y hy => ?_⟩
    · have hseen : x.seen.key = x.key := hkey.symm
      have hlast : [x.seen].filter (·.key == x.key) = [x.seen] := by simp [hseen]
      rw [filter_append, hlast] at htaken
      have happ : _ ++ [x.seen] = [] ++ [x] := htaken
      exact singleton_inj.mp (append_inj' happ rfl).2
    · rw [hkey, find_alike, head?_eq_some_iff] at hy
      obtain ⟨e, he⟩ := hy
      exact (hfirst y e he).trans hkey.symm
  · have hne : x.seen ≠ x := fun he => hkey (congrArg Kv.key he).symm
    have hmem : x ∈ (alike (cString x.key) ctx).tail := by
      have hmem := h.mem (mem_alike.mpr ⟨hx, rfl⟩)
      rw [hR] at hmem
      refine (mem_append.mp hmem).resolve_right fun hs => hne ?_
      exact (mem_singleton.mp hs).symm
    refine .inr ⟨hne, (mem_alike.mp (mem_of_mem_tail hmem)).1, ?_⟩
    cases he : alike (cString x.key) ctx with
    | nil =>
      rw [he] at hmem
      cases hmem
    | cons e₁ e =>
      -- the first pair has the key that is seen, and no pair of the source has it
      have hkey₁ := hfirst e₁ e he
      have hmem₁ : e₁ ∈ alike (cString x.key) ctx := by rw [he]; simp
      have hnot : e₁.key ∉ src.map Kv.key := fun hm => by
        obtain ⟨v, hv, hvk⟩ := mem_map.mp hm
        rw [hkey₁] at hvk
        have := halone v hv (by rw [hvk, cString_cString])
        exact hkey (this ▸ hvk)
      have hkept := h.kept e₁ (mem_alike.mp hmem₁).1 hnot
      rw [hkey₁, ← filter_alike, cString_cString, hR] at hkept
      have hs : x.seen ∈ [e₁] := by
        rw [← hkept, mem_filter]
        exact ⟨by simp, beq_self_eq_true _⟩
      rw [find_alike, he, mem_singleton.mp hs]
      rfl

/-- What a pair that finds its place does to the keys that read as its own. -/
theorem placed_filter (halone : x.Alone src) (hplaced : x.Placed ctx) (hx : x ∈ src) :
    ctx'.filter (·.key == x.key) = [x] ∧ ∀ k, cString k = cString x.key → k ≠ x.key →
      (ctx'.filter (·.key == k)).Perm (ctx.filter (·.key == k)) := by
  have hR := alike_merge (cString x.key) ctx src
  rw [← hmerge, alike_of_alone hsrc hx halone] at hR
  change alike (cString x.key) ctx' = (alike (cString x.key) ctx).tail ++ [x.seen] at hR
  have hnd : ((alike (cString x.key) ctx).map Kv.key).Nodup := hctx.sublist (filter_sublist.map _)
  rcases hplaced with ⟨hseen, hfirst⟩ | ⟨hne, hmem, hfirst⟩
  · have hkey : x.key = cString x.key := (congrArg Kv.key hseen).symm
    -- the pair that is taken out has the same key
    have hhead : ∀ e₁ e, alike (cString x.key) ctx = e₁ :: e → e₁.key = x.key := fun e₁ e he =>
      hfirst e₁ (by rw [hkey, find_alike, he]; rfl)
    rw [hseen] at hR
    constructor
    · have hnone : (alike (cString x.key) ctx).tail.filter (·.key == x.key) = [] := by
        cases he : alike (cString x.key) ctx with
        | nil => rfl
        | cons e₁ e =>
          rw [he, map_cons, nodup_cons, hhead e₁ e he] at hnd
          refine filter_eq_nil_iff.mpr fun z hz hzk => hnd.1 ?_
          exact mem_map.mpr ⟨z, hz, by simpa using hzk⟩
      rw [← filter_alike, hR, filter_append, hnone]
      simp
    · intro k hk hkx
      have htail : (alike (cString x.key) ctx).tail.filter (·.key == k) =
          (alike (cString x.key) ctx).filter (·.key == k) := by
        cases he : alike (cString x.key) ctx with
        | nil => rfl
        | cons e₁ e =>
          have hne : ¬ (e₁.key == k) = true := by
            rw [hhead e₁ e he, beq_iff_eq]
            exact fun h => hkx h.symm
          exact (filter_cons_of_neg (p := fun x : Kv => x.key == k) hne).symm
      have hx' : [x].filter (·.key == k) = [] := by simp [Ne.symm hkx]
      rw [← filter_alike ctx' k, ← filter_alike ctx k, hk, hR, filter_append, htail, hx',
        append_nil]
  · rw [find_alike, head?_eq_some_iff] at hfirst
    obtain ⟨e, he⟩ := hfirst
    have hperm : (alike (cString x.key) ctx').Perm (alike (cString x.key) ctx) := by
      rw [hR, he]
      exact perm_append_singleton _ _
    have hother : ∀ k, cString k = cString x.key →
        (ctx'.filter (·.key == k)).Perm (ctx.filter (·.key == k)) := fun k hk => by
      rw [← filter_alike ctx' k, ← filter_alike ctx k, hk]
      exact hperm.filter _
    refine ⟨perm_singleton.mp ?_, fun k hk _ => hother k hk⟩
    rw [← filter_key hctx hmem]
    exact hother x.key rfl

/-- A merge of pairs that find their places is exact. -/
theorem exactMerge (halone : ∀ x ∈ src, x.Alone src) (hplaced : ∀ x ∈ src, x.Placed ctx) :
    ExactMerge ctx src ctx' where
  taken := fun x hx =>
    (placed_filter hctx hsrc hmerge (halone x hx) (hplaced x hx) hx).1
  kept := by
    intro y hy hnot
    refine perm_singleton.mp ?_
    rw [← filter_key hctx hy]
    by_cases hex : ∃ x ∈ src, cString x.key = cString y.key
    · obtain ⟨x, hx, hxy⟩ := hex
      refine (placed_filter hctx hsrc hmerge (halone x hx) (hplaced x hx) hx).2 y.key hxy.symm ?_
      exact fun he => hnot (he ▸ mem_map_of_mem hx)
    · have hnil : alike (cString y.key) src = [] := filter_eq_nil_iff.mpr fun x hx he =>
        hex ⟨x, hx, by simpa using he⟩
      have hR := alike_merge (cString y.key) ctx src
      rw [← hmerge, hnil] at hR
      rw [← filter_alike ctx', ← filter_alike ctx, hR]
      rfl

end

/-- What `gguf_set_kv` can merge. -/
def Kv.Mergeable (ctx src : List Kv) (x : Kv) : Prop := x.Accepted ∧ x.Alone src ∧ x.Placed ctx

/-- `gguf_set_kv` merges exactly what the setters accept and what reads the same as a C string. -/
theorem ggufSetKv_exact_iff (hsrc : Obtained T src) (hctx : (ctx.map Kv.key).Nodup) :
    (∃ ctx', ggufSetKv ctx src = some ctx' ∧ ExactMerge ctx src ctx') ↔
      ∀ x ∈ src, x.Mergeable ctx src := by
  obtain ⟨hnd, hsound⟩ := hsrc.sound
  simp only [ggufSetKv_eq_some_iff hsound]
  constructor
  · rintro ⟨ctx', ⟨hacc, hmerge⟩, h⟩ x hx
    exact ⟨hacc x hx, h.alone hctx hnd hmerge hx, h.placed hctx hnd hmerge hx⟩
  · intro h
    exact ⟨_, ⟨fun x hx => (h x hx).1, rfl⟩, exactMerge hctx hnd rfl (fun x hx => (h x hx).2.1)
      fun x hx => (h x hx).2.2⟩

/-- A key of the interface, of one letter. -/
def letterKey (b : UInt8) (h : b ≠ 0) : CString := ⟨[b], by simpa using h.symm⟩

def numberPair : Kv := { key := [97], isArray := false, type := .uint8, data := [1], strings := [] }

/-- It replaces a value of another type. -/
theorem ggufSetKv_exact_number :
    ∃ ctx', ggufSetKv [{ numberPair with type := .bool }] [numberPair] = some ctx' ∧
      ExactMerge [{ numberPair with type := .bool }] [numberPair] ctx' := by
  refine (ggufSetKv_exact_iff (T := ggmlTraits) (.inl ?_) (by decide)).mpr ?_
  · exact ⟨[.setVal (letterKey 97 (by decide)) (.u8 1)], _, rfl, rfl⟩
  · refine forall_mem_singleton.mpr ⟨by decide, fun y hy _ => mem_singleton.mp hy, ?_⟩
    refine .inl ⟨by decide, fun y hy => ?_⟩
    cases hy
    rfl

/-- A string with a 0 in it. -/
def nulPair : Kv :=
  { key := [97], isArray := false, type := .string, data := [], strings := [[98, 0, 99]] }

/-- It is read from a file, and merging it cuts it at the 0. -/
theorem nul_string_cut :
    (∃ r, initFromFileImpl ggmlTraits (fun _ => true) ⟨true, false⟩
      (countBytes 3 0 1 ++ nulPair.raw) = .ok r ∧ r.kv = [nulPair]) ∧
    ¬ ∃ ctx', ggufSetKv [] [nulPair] = some ctx' ∧ ExactMerge [] [nulPair] ctx' := by
  refine ⟨⟨_, rfl, rfl⟩, ?_⟩
  rintro ⟨ctx', hset, h⟩
  cases hset
  exact absurd (h.taken nulPair (by simp)) (by decide)

end Llama.Gguf
