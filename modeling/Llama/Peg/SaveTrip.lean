import Llama.Peg.Save

/-!
# What survives saving and loading

Every parser is read back as it was, but for its schema: that comes back with the members of
every object in the order of their keys, doubles without a spelling as null, and not at all
when it is null.
-/

namespace Llama.Peg

open Json List
open Loop (bind_ok)

private theorem lookup_map_toList (members : List (String × Schema)) (name : String) :
    (members.map fun m => (m.1.toList, m.2)).lookup name.toList = members.lookup name := by
  induction members with
  | nil => rfl
  | cons m rest ih =>
    rw [map_cons, lookup_cons, lookup_cons, ih]
    by_cases h : name = m.1
    · simp [h]
    · have hne : name.toList ≠ m.1.toList := fun he => h (String.toList_inj.mp he)
      simp [beq_eq_false_iff_ne.mpr h, beq_eq_false_iff_ne.mpr hne]

private theorem lookup_map_kept (members : List (List Char × Schema)) (k : List Char) :
    (members.map fun m => (m.1, m.2.kept)).lookup k = (members.lookup k).map Value.kept := by
  induction members with
  | nil => rfl
  | cons m rest ih =>
    rw [map_cons, lookup_cons, lookup_cons, ih]
    cases k == m.1 <;> rfl

private theorem field_kept_obj (members : List (String × Schema)) (name : String) :
    field (obj members).kept name = (members.lookup name).map Value.kept := by
  rw [obj, Value.kept, keptMembers_eq_map]
  exact (lookup_map_kept _ _).trans (by rw [lookup_keySort, lookup_map_toList])

variable {members : List (String × Schema)} {n : Nat} {bytes : List UInt8} {s : List Char}
  {j : Schema} {words : List (List UInt8)} {name : String} {p : Parser} {a : Arena}

private theorem sorted_obj (h : ∀ m ∈ members, m.2.Sorted) : (obj members).Sorted := by
  refine .object (ascend_keySort _) fun m hm => ?_
  obtain ⟨u, hu, rfl⟩ := mem_map.mp (mem_of_mem_keySort hm)
  exact h u hu

@[simp] theorem kept_str (s : String) : (str s).kept = str s := rfl

@[simp] theorem kept_sizeNumber (n : Nat) : (sizeNumber n).kept = sizeNumber n := rfl

@[simp] theorem kept_intNumber (n : Int) : (intNumber n).kept = intNumber n := rfl

@[simp] theorem kept_codeNumber (n : Nat) : (codeNumber n).kept = codeNumber n := rfl

@[simp] theorem kept_bool (b : Bool) : (Value.bool b : Schema).kept = .bool b := rfl

@[simp] theorem kept_string (s : List Char) : (Value.string s : Schema).kept = .string s := rfl

private theorem getString_str (s : String) : getString (str s) = .ok s.toList := rfl

private theorem getSize_sizeNumber (h : n < 2 ^ 64) : getSize (sizeNumber n) = .ok n := by
  have hn : (((n % 2 ^ 64 : Nat) : Int) % 2 ^ 64).toNat = n := by omega
  exact congrArg Except.ok hn

private theorem getInt_intNumber {n : Int} (h : isInt32 n = true) :
    getInt (intNumber n) = .ok n := by
  have hn : ((n + 2 ^ 31) % 2 ^ 32 - 2 ^ 31 + 2 ^ 31) % 2 ^ 32 - 2 ^ 31 = n := by
    simp only [isInt32, Bool.and_eq_true, decide_eq_true_eq] at h
    omega
  exact congrArg Except.ok hn

private theorem getCode_codeNumber (h : n < 2 ^ 32) : getCode (codeNumber n) = .ok n := by
  have hn : (((n % 2 ^ 32 : Nat) : Int) % 2 ^ 32).toNat = n := by omega
  exact congrArg Except.ok hn

private theorem readAll_map {β : Type} (read : Schema → Except LoadError β) (write : β → Schema)
    {xs : List β} (h : ∀ x ∈ xs, read (write x) = .ok x) :
    readAll read (xs.map write) = .ok xs := by
  induction xs with
  | nil => rfl
  | cons x xs ih =>
    rw [map_cons, readAll, h x (by simp), ih fun y hy => h y (by simp [hy])]
    rfl

private theorem decodeText_encode (s : List Char) : decodeText (encode s) = some s := by
  have h := utf8Decode?_utf8Encode (l := s)
  rw [decodeText]
  exact (congrArg (Option.map Array.toList) h).trans (by simp)

private theorem encode_of_decodeText (h : decodeText bytes = some s) : encode s = bytes := by
  obtain ⟨chars, hchars, rfl⟩ := Option.map_eq_some_iff.mp h
  have hsome : bytes.toByteArray.utf8Decode?.isSome := by rw [hchars]; rfl
  have henc := ByteArray.utf8Encode_get_utf8Decode? (b := bytes.toByteArray) (h := hsome)
  simp only [hchars, Option.get_some] at henc
  have hbytes := congrArg (fun b => b.data.toList) henc
  rwa [List.utf8Encode, toList_data_toByteArray, toList_data_toByteArray] at hbytes

private theorem byteString_ok (h : byteString bytes = .ok j) :
    ∃ s, j = .string s ∧ encode s = bytes := by
  unfold byteString at h
  split at h
  · rename_i s hs
    cases h
    exact ⟨s, rfl, encode_of_decodeText hs⟩
  · cases h

private theorem byteStrings_ok {js : List Schema} (h : byteStrings words = .ok js) :
    ∃ texts : List (List Char), js = texts.map .string ∧ texts.map encode = words := by
  induction words generalizing js with
  | nil =>
    cases h
    exact ⟨[], rfl, rfl⟩
  | cons bytes rest ih =>
    rw [byteStrings] at h
    obtain ⟨j, hj, h⟩ := bind_ok.mp h
    obtain ⟨others, hothers, h⟩ := bind_ok.mp h
    cases h
    obtain ⟨s, rfl, hs⟩ := byteString_ok hj
    obtain ⟨texts, rfl, htexts⟩ := ih hothers
    exact ⟨s :: texts, rfl, by rw [map_cons, hs, htexts]⟩

/-- A schema that was saved and loaded. -/
def reloadedSchema (s : Schema) : Option Schema :=
  match s.sort.kept with
  | .null => none
  | v => some v

/-- A parser that was saved and loaded. -/
def Parser.reloaded : Parser → Parser
  | .schema child name s raw => .schema child name (s.bind reloadedSchema) raw
  | p => p

theorem ok_bind {ε α β : Type} (x : α) (f : α → Except ε β) : (Except.ok x >>= f) = f x := rfl

private theorem need_kept_obj {v : Schema} (what : String) (h : members.lookup name = some v) :
    need (obj members).kept name what = .ok v.kept := by
  rw [need, field_kept_obj, h]
  rfl

private theorem needString_kept_obj (what : String) (h : members.lookup name = some (.string s)) :
    needString (obj members).kept name what = .ok s := by
  rw [needString, field_kept_obj, h]
  rfl

private theorem needArray_kept_obj {items : List Schema} (what : String)
    (h : members.lookup name = some (.array items)) :
    needArray (obj members).kept name what = .ok (items.map Value.kept) := by
  rw [needArray, field_kept_obj, h, Option.map_some, Value.kept, keptItems_eq_map]

private theorem deserialize_kept_obj {type : String} (h : members.lookup "type" = some (str type)) :
    deserializeParserVariant (obj members).kept = deserializeAs (obj members).kept type := by
  rw [deserializeParserVariant, needString_kept_obj _ h]
  show deserializeAs (obj members).kept (String.ofList type.toList) = _
  rw [String.ofList_toList]

private theorem children_back {children : List Nat} (h : ∀ c ∈ children, c < 2 ^ 64) :
    readAll getSize ((children.map sizeNumber).map Value.kept) = .ok children := by
  rw [map_map]
  exact readAll_map getSize (Value.kept ∘ sizeNumber) fun c hc => getSize_sizeNumber (h c hc)

private theorem range_back {r : CharRange} (h : r.start < 2 ^ 32 ∧ r.stop < 2 ^ 32) :
    deserializeRange (obj [("start", codeNumber r.start), ("end", codeNumber r.stop)]).kept =
      .ok r := by
  rw [deserializeRange, need_kept_obj _ rfl, need_kept_obj _ rfl]
  simp only [ok_bind, kept_codeNumber, getCode_codeNumber h.1, getCode_codeNumber h.2]

private theorem deserialize_serialize (h : serializeParserVariant p = .ok j) (ht : p.typed = true)
    (hc : ∀ c ∈ p.children, c < 2 ^ 64) : deserializeParserVariant j.kept = .ok p.reloaded := by
  cases p with
  | epsilon | start | stop | any | space =>
    cases h
    rw [deserialize_kept_obj rfl]
    rfl
  | literal text =>
    obtain ⟨v, hv, h⟩ := bind_ok.mp h
    cases h
    obtain ⟨s, rfl, hs⟩ := byteString_ok hv
    rw [deserialize_kept_obj rfl, deserializeAs, needString_kept_obj _ rfl]
    exact congrArg (fun t => Except.ok (Parser.literal t)) hs
  | sequence children | choice children =>
    cases h
    rw [deserialize_kept_obj rfl, deserializeAs, needArray_kept_obj _ rfl]
    have hback : readAll getSize ((children.map sizeNumber).map Value.kept) = .ok children :=
      children_back hc
    simp only [ok_bind, hback, Parser.reloaded]
  | repetition child mn mx =>
    cases h
    simp only [Parser.typed, Bool.and_eq_true] at ht
    rw [deserialize_kept_obj rfl, deserializeAs, need_kept_obj _ rfl, need_kept_obj _ rfl,
      need_kept_obj _ rfl]
    simp only [ok_bind, kept_sizeNumber, kept_intNumber, getInt_intNumber ht.1,
      getInt_intNumber ht.2, getSize_sizeNumber (hc child (by simp [Parser.children])),
      Parser.reloaded]
  | lookahead child | negate child | atomic child =>
    cases h
    rw [deserialize_kept_obj rfl, deserializeAs, need_kept_obj _ rfl]
    simp only [ok_bind, kept_sizeNumber, Parser.reloaded,
      getSize_sizeNumber (hc child (by simp [Parser.children]))]
  | chars pattern ranges negated mn mx =>
    cases h
    simp only [Parser.typed, Bool.and_eq_true, all_eq_true, decide_eq_true_eq] at ht
    rw [deserialize_kept_obj rfl, deserializeAs, need_kept_obj _ rfl, need_kept_obj _ rfl,
      need_kept_obj _ rfl, need_kept_obj _ rfl, need_kept_obj _ rfl]
    have hranges : readAll deserializeRange (elements (Value.array (ranges.map fun r =>
        obj [("start", codeNumber r.start), ("end", codeNumber r.stop)])).kept) = .ok ranges := by
      rw [Value.kept, keptItems_eq_map, elements, map_map]
      exact readAll_map deserializeRange _ fun r hr => range_back (ht.2 r hr)
    simp only [ok_bind, kept_intNumber, kept_bool, kept_str, hranges, getInt_intNumber ht.1.1,
      getInt_intNumber ht.1.2, getBool, getString_str, String.ofList_toList, Parser.reloaded]
  | string delimiter =>
    obtain ⟨v, hv, h⟩ := bind_ok.mp h
    cases h
    obtain ⟨s, rfl, hs⟩ := byteString_ok hv
    rw [deserialize_kept_obj rfl, deserializeAs, need_kept_obj _ rfl]
    simp only [ok_bind, kept_string, getString, hs, Parser.reloaded]
  | untilOneOf delimiters =>
    obtain ⟨vs, hvs, h⟩ := bind_ok.mp h
    cases h
    obtain ⟨texts, rfl, htexts⟩ := byteStrings_ok hvs
    rw [deserialize_kept_obj rfl, deserializeAs, needArray_kept_obj _ rfl]
    have hread : readAll getString ((texts.map Value.string).map Value.kept) = .ok texts := by
      rw [map_map]
      exact readAll_map getString _ fun _ _ => rfl
    simp only [ok_bind, hread, htexts, Parser.reloaded]
  | schema child name s raw =>
    cases h
    rw [deserialize_kept_obj rfl, deserializeAs, need_kept_obj _ rfl, need_kept_obj _ rfl,
      need_kept_obj _ rfl, need_kept_obj _ rfl]
    simp only [ok_bind, kept_sizeNumber, kept_bool, kept_str, getBool, getString_str,
      String.ofList_toList, getSize_sizeNumber (hc child (by simp [Parser.children])),
      Parser.reloaded]
    cases s with
    | none => rfl
    | some s => rfl
  | rule name child trigger =>
    cases h
    rw [deserialize_kept_obj rfl, deserializeAs, need_kept_obj _ rfl, need_kept_obj _ rfl,
      need_kept_obj _ rfl]
    simp only [ok_bind, kept_sizeNumber, kept_bool, kept_str, getBool, getString_str,
      String.ofList_toList, getSize_sizeNumber (hc child (by simp [Parser.children])),
      Parser.reloaded]
  | ref name =>
    cases h
    rw [deserialize_kept_obj rfl, deserializeAs, needString_kept_obj _ rfl]
    simp only [ok_bind, String.ofList_toList, Parser.reloaded]
  | tag child tag =>
    cases h
    rw [deserialize_kept_obj rfl, deserializeAs, need_kept_obj _ rfl, need_kept_obj _ rfl]
    simp only [ok_bind, kept_sizeNumber, kept_str, getString_str, String.ofList_toList,
      getSize_sizeNumber (hc child (by simp [Parser.children])), Parser.reloaded]

private theorem serialize_sorted (h : serializeParserVariant p = .ok j) : j.Sorted := by
  cases p with
  | literal text | string delimiter =>
    obtain ⟨v, hv, h⟩ := bind_ok.mp h
    cases h
    obtain ⟨s, rfl, -⟩ := byteString_ok hv
    apply sorted_obj
    simp [str, Value.Sorted.string]
  | untilOneOf delimiters =>
    obtain ⟨vs, hvs, h⟩ := bind_ok.mp h
    cases h
    obtain ⟨texts, rfl, -⟩ := byteStrings_ok hvs
    have hitems : (Value.array (texts.map Value.string) : Schema).Sorted := by
      refine .array fun v hv => ?_
      obtain ⟨s, -, rfl⟩ := mem_map.mp hv
      exact .string s
    apply sorted_obj
    simp [str, Value.Sorted.string, hitems]
  | sequence children | choice children =>
    cases h
    have hitems : (Value.array (children.map sizeNumber) : Schema).Sorted := by
      refine .array fun v hv => ?_
      obtain ⟨s, -, rfl⟩ := mem_map.mp hv
      exact .number _
    apply sorted_obj
    simp [str, Value.Sorted.string, hitems]
  | chars pattern ranges negated mn mx =>
    cases h
    have hitems : (Value.array (ranges.map fun r =>
        obj [("start", codeNumber r.start), ("end", codeNumber r.stop)]) : Schema).Sorted := by
      refine .array fun v hv => ?_
      obtain ⟨s, -, rfl⟩ := mem_map.mp hv
      apply sorted_obj
      simp [codeNumber, Value.Sorted.number]
    apply sorted_obj
    simp [str, intNumber, Value.Sorted.string, Value.Sorted.number, Value.Sorted.bool, hitems]
  | schema child name s raw =>
    cases h
    apply sorted_obj
    simp only [mem_cons, not_mem_nil, or_false, forall_eq_or_imp, forall_eq]
    refine ⟨.string _, .number _, .string _, ?_, .bool _⟩
    cases s with
    | none => exact .null
    | some s => exact s.sorted_sort
  | _ =>
    cases h
    apply sorted_obj
    simp [str, sizeNumber, intNumber, Value.Sorted.string, Value.Sorted.number, Value.Sorted.bool]

/-- The byte strings of a parser are UTF-8. -/
def Parser.Utf8 : Parser → Prop
  | .literal text => ∃ s, text = encode s
  | .string delimiter => ∃ s, [delimiter] = encode s
  | .untilOneOf delimiters => ∀ d ∈ delimiters, ∃ s, d = encode s
  | _ => True

private theorem byteStrings_total (h : ∀ w ∈ words, ∃ s, w = encode s) :
    ∃ js, byteStrings words = .ok js := by
  induction words with
  | nil => exact ⟨[], rfl⟩
  | cons w rest ih =>
    obtain ⟨s, rfl⟩ := h w (by simp)
    obtain ⟨js, hjs⟩ := ih fun v hv => h v (by simp [hv])
    exact ⟨.string s :: js, by rw [byteStrings, byteString, decodeText_encode, hjs]; rfl⟩

private theorem serialize_total (h : p.Utf8) : ∃ j, serializeParserVariant p = .ok j := by
  cases p with
  | literal text | string delimiter =>
    obtain ⟨s, hs⟩ := h
    exact ⟨_, by rw [serializeParserVariant, hs, byteString, decodeText_encode]; rfl⟩
  | untilOneOf delimiters =>
    obtain ⟨js, hjs⟩ := byteStrings_total h
    exact ⟨_, by rw [serializeParserVariant, hjs]; rfl⟩
  | _ => exact ⟨_, rfl⟩

private theorem serializeParsers_spec {ps : List Parser} (hu : ∀ p ∈ ps, p.Utf8)
    (ht : ∀ p ∈ ps, p.typed = true ∧ ∀ c ∈ p.children, c < 2 ^ 64) :
    ∃ js, serializeParsers ps = .ok js ∧ (∀ j ∈ js, j.Sorted) ∧
      readAll deserializeParserVariant (js.map Value.kept) = .ok (ps.map Parser.reloaded) := by
  induction ps with
  | nil => exact ⟨[], rfl, fun j hj => absurd hj not_mem_nil, rfl⟩
  | cons p rest ih =>
    obtain ⟨j, hj⟩ := serialize_total (hu p (by simp))
    obtain ⟨js, hjs, hsorted, hread⟩ := ih (fun q hq => hu q (by simp [hq]))
      fun q hq => ht q (by simp [hq])
    obtain ⟨htyped, hchildren⟩ := ht p (by simp)
    refine ⟨j :: js, by rw [serializeParsers, hj, hjs]; rfl, fun v hv => ?_, ?_⟩
    · rcases mem_cons.mp hv with rfl | hv
      · exact serialize_sorted hj
      · exact hsorted v hv
    · rw [map_cons, readAll, deserialize_serialize hj htyped hchildren, hread]
      rfl

/-- The number of a `size_t` that was written. -/
def savedSize (j : Schema) : Nat :=
  match getSize j with
  | .ok n => n
  | .error _ => 0

private theorem deserializeRules_spec {ms : List (List Char × Schema)}
    (h : ∀ m ∈ ms, ∃ n, m.2 = sizeNumber n) :
    deserializeRules (ms.map fun m => (m.1, m.2.kept)) =
      .ok (ms.map fun m => (String.ofList m.1, savedSize m.2)) := by
  induction ms with
  | nil => rfl
  | cons m rest ih =>
    obtain ⟨k, v⟩ := m
    obtain ⟨n, hn⟩ := h (k, v) (by simp)
    simp only at hn
    subst hn
    rw [map_cons, deserializeRules, ih fun m hm => h m (by simp [hm])]
    rfl

private theorem lookup_rules {rules : List (String × Nat)} (h : ∀ r ∈ rules, r.2 < 2 ^ 64)
    (name : String) :
    ((keySort (rules.map fun r => (r.1.toList, sizeNumber r.2))).map fun m =>
      (String.ofList m.1, savedSize m.2)).lookup name = rules.lookup name := by
  have hmap : ∀ ms : List (List Char × Schema), (ms.map fun m =>
      (String.ofList m.1, savedSize m.2)).lookup name = (ms.lookup name.toList).map savedSize := by
    intro ms
    induction ms with
    | nil => rfl
    | cons m rest ih =>
      rw [map_cons, lookup_cons, lookup_cons, ih]
      by_cases he : name = String.ofList m.1
      · simp [he]
      · have hne : name.toList ≠ m.1 := fun ht => he (by rw [← ht, String.ofList_toList])
        simp [beq_eq_false_iff_ne.mpr he, beq_eq_false_iff_ne.mpr hne]
  rw [hmap, lookup_keySort]
  induction rules with
  | nil => rfl
  | cons r rest ih =>
    have hsize : savedSize (sizeNumber r.2) = r.2 := by
      rw [savedSize, getSize_sizeNumber (h r (by simp))]
    rw [map_cons, lookup_cons, lookup_cons]
    by_cases he : name = r.1
    · simp [he, hsize]
    · have hne : name.toList ≠ r.1.toList := fun ht => he (String.toList_inj.mp ht)
      simpa [beq_eq_false_iff_ne.mpr he, beq_eq_false_iff_ne.mpr hne] using
        ih fun q hq => h q (by simp [hq])

private theorem load_save (F : FloatText) (h : a.Sized) (hu : ∀ p ∈ a.parsers, p.Utf8) :
    ∃ data rules, a.save F = .ok data ∧
      Arena.load F data = .ok ⟨a.parsers.map Parser.reloaded, rules, a.root⟩ ∧
      ∀ name, rules.lookup name = a.rules.lookup name := by
  have hlength := h.length
  have hrules : ∀ r ∈ a.rules, r.2 < 2 ^ 64 := fun r hr => by
    have := h.rules r hr
    omega
  obtain ⟨js, hjs, hsorted, hread⟩ := serializeParsers_spec hu fun p hp =>
    ⟨(h.parsers p hp).1, fun c hc => by
      have := (h.parsers p hp).2 c hc
      omega⟩
  have hsort : (obj [("parsers", .array js),
      ("rules", obj (a.rules.map fun r => (r.1, sizeNumber r.2))),
      ("root", sizeNumber (a.root.getD invalidParserId))]).Sorted := by
    have hr : (obj (a.rules.map fun r => (r.1, sizeNumber r.2))).Sorted := by
      apply sorted_obj
      intro m hm
      obtain ⟨r, -, rfl⟩ := mem_map.mp hm
      exact .number _
    apply sorted_obj
    simp only [mem_cons, not_mem_nil, or_false, forall_eq_or_imp, forall_eq]
    exact ⟨.array hsorted, hr, .number _⟩
  refine ⟨_, _, by rw [Arena.save, Arena.toJson, hjs]; rfl, ?_, lookup_rules hrules⟩
  have hobject : (obj (a.rules.map fun r => (r.1, sizeNumber r.2))).kept = .object
      ((keySort (a.rules.map fun r => (r.1.toList, sizeNumber r.2))).map fun m =>
        (m.1, m.2.kept)) := by
    rw [obj, map_map, Value.kept, keptMembers_eq_map]
    rfl
  have hmem : ∀ m ∈ keySort (a.rules.map fun r => (r.1.toList, sizeNumber r.2)),
      ∃ r ∈ a.rules, m = (r.1.toList, sizeNumber r.2) := fun m hm => by
    obtain ⟨r, hr, rfl⟩ := mem_map.mp (mem_of_mem_keySort hm)
    exact ⟨r, hr, rfl⟩
  have hfind : ((keySort (a.rules.map fun r => (r.1.toList, sizeNumber r.2))).map fun m =>
      (String.ofList m.1, savedSize m.2)).find? (fun r => (a.parsers.map Parser.reloaded).length ≤
        r.2) = none := by
    rw [find?_eq_none]
    intro x hx
    obtain ⟨m, hm, rfl⟩ := mem_map.mp hx
    obtain ⟨r, hr, rfl⟩ := hmem m hm
    have hlt := h.rules r hr
    have hsize : savedSize (sizeNumber r.2) = r.2 := by
      rw [savedSize, getSize_sizeNumber (hrules r hr)]
    simpa [hsize] using hlt
  rw [Arena.load, hsort.parse_dump F]
  simp only [hsort.kept.sort_eq]
  rw [Arena.fromJson, needArray_kept_obj _ rfl, field_kept_obj, need_kept_obj _ rfl]
  have hlookup : List.lookup "rules" [("parsers", Value.array js),
      ("rules", obj (a.rules.map fun r => (r.1, sizeNumber r.2))),
      ("root", sizeNumber (a.root.getD invalidParserId))] =
        some (obj (a.rules.map fun r => (r.1, sizeNumber r.2))) := rfl
  simp only [hlookup, Option.map_some, hobject, ok_bind, hread]
  rw [deserializeRules_spec fun m hm => ?_]
  · simp only [ok_bind, hfind, kept_sizeNumber]
    cases hroot : a.root with
    | none =>
      rw [Option.getD_none, getSize_sizeNumber (by decide)]
      rfl
    | some id =>
      have hid := h.root id hroot
      rw [Option.getD_some, getSize_sizeNumber (by omega)]
      simp only [ok_bind]
      rw [if_neg (by unfold invalidParserId; omega), if_neg (by simpa using hid)]
  · obtain ⟨r, -, rfl⟩ := hmem m hm
    exact ⟨r.2, rfl⟩

private theorem parse_congr {b : Arena} (hp : b.parsers = a.parsers)
    (hr : ∀ name, b.rules.lookup name = a.rules.lookup name) (ctx : Context) (depth : Nat) :
    b.parse ctx depth = a.parse ctx depth := by
  have hrule : ∀ name, b.getRule name = a.getRule name := fun name => by
    rw [Arena.getRule, Arena.getRule, hr]
  induction depth with
  | zero => rfl
  | succ depth ih =>
    funext id start
    rw [Arena.parse, Arena.parse, hp, ih]
    cases a.parsers[id]? with
    | none => rfl
    | some p =>
      cases p with
      | ref name => simp only [Arena.exec, hrule]
      | _ => rfl

/-- Loading what was saved gives the arena back: the same parsers, with the same schemas, the
same rules and the same root, so that every parse has the same result. -/
def Arena.Restores (F : FloatText) (a : Arena) : Prop :=
  ∃ data b, a.save F = .ok data ∧ Arena.load F data = .ok b ∧ b.parsers = a.parsers ∧
    (∀ name, b.rules.lookup name = a.rules.lookup name) ∧ b.root = a.root ∧
    ∀ ctx depth start, b.parseRoot ctx depth start = a.parseRoot ctx depth start

/-- A schema that saving keeps: not null, its numbers finite, and the members of every object
in the order of their keys. -/
def Keepable (s : Schema) : Prop := s ≠ .null ∧ s.Finite ∧ s.Sorted

private theorem reloadedSchema_eq_iff (s : Schema) : reloadedSchema s = some s ↔ Keepable s := by
  constructor
  · intro h
    have hs : s.sort.kept = s ∧ s ≠ .null := by
      unfold reloadedSchema at h
      split at h
      · cases h
      · rename_i hv
        have hs := Option.some.inj h
        exact ⟨hs, fun hnull => hv (hs.trans hnull)⟩
    refine ⟨hs.2, ?_, ?_⟩
    · rw [← hs.1]
      exact Value.finite_kept _
    · rw [← hs.1]
      exact s.sorted_sort.kept
  · rintro ⟨hnull, hfinite, hsorted⟩
    rw [reloadedSchema, hsorted.sort_eq, hfinite.kept_eq]
    cases s with
    | null => exact absurd rfl hnull
    | _ => rfl

private theorem reloaded_eq_iff (p : Parser) :
    p.reloaded = p ↔ ∀ child name s raw, p = .schema child name (some s) raw → Keepable s := by
  cases p with
  | schema child name s raw =>
    simp only [Parser.reloaded, Parser.schema.injEq, true_and, and_true]
    cases s with
    | none => simp
    | some s =>
      rw [Option.bind_some, reloadedSchema_eq_iff]
      constructor
      · rintro h _ _ _ _ ⟨-, -, hs, -⟩
        exact Option.some.inj hs ▸ h
      · exact fun h => h child name s raw ⟨rfl, rfl, rfl, rfl⟩
  | _ => simp [Parser.reloaded]

private theorem map_reloaded_eq_iff (ps : List Parser) : ps.map Parser.reloaded = ps ↔
    ∀ child name s raw, .schema child name (some s) raw ∈ ps → Keepable s := by
  have hmap : ps.map Parser.reloaded = ps.map id ↔ ∀ p ∈ ps, p.reloaded = id p := map_inj_left
  rw [map_id] at hmap
  rw [hmap]
  constructor
  · intro h child name s raw hmem
    exact (reloaded_eq_iff _).mp (h _ hmem) child name s raw rfl
  · intro h p hp
    refine (reloaded_eq_iff p).mpr fun child name s raw he => ?_
    exact h child name s raw (he ▸ hp)

/-- A saved arena is restored exactly when all its schemas are kept. -/
theorem restores_iff_keepable (F : FloatText) (h : a.Sized) (hu : ∀ p ∈ a.parsers, p.Utf8) :
    a.Restores F ↔
      ∀ child name s raw, .schema child name (some s) raw ∈ a.parsers → Keepable s := by
  obtain ⟨data, rules, hsave, hload, hrules⟩ := load_save F h hu
  rw [← map_reloaded_eq_iff]
  constructor
  · rintro ⟨data', b, hsave', hload', hparsers, -⟩
    rw [hsave] at hsave'
    cases hsave'
    rw [hload] at hload'
    cases hload'
    exact hparsers
  · intro hparsers
    refine ⟨data, _, hsave, hload, hparsers, hrules, rfl, fun ctx depth start => ?_⟩
    unfold Arena.parseRoot
    rw [parse_congr (a := a) hparsers hrules]

/-- An arena that was built, with its strings in UTF-8, comes back from saving and loading
exactly when no schema is null, no schema has a number that is not finite, and every object
of a schema has its keys in order. -/
theorem built_restores_iff (F : FloatText) {a : Arena} (h : Built a)
    (hu : ∀ p ∈ a.parsers, p.Utf8) : a.Restores F ↔
      ∀ child name s raw, .schema child name (some s) raw ∈ a.parsers → Keepable s :=
  restores_iff_keepable F h.sized hu

/-- A spelling of doubles by the digits of their bits. -/
def byBits : FloatText where
  print b := '0' :: '.' :: Nat.toDigits 10 b.toNat
  read lexeme := UInt64.ofNat (Nat.ofDigitChars 10 (lexeme.drop 2) 0)
  isNumber b _ := by
    have hdigits : ∀ c ∈ Nat.toDigits 10 b.toNat, isDigit c = true := fun c hc =>
      isDigit_of_mem_toDigits hc
    have hfrac : ∀ cs : List Char, (∀ c ∈ cs, isDigit c = true) →
        cs.foldlM Phase.next .frac = some .frac := by
      intro cs hcs
      induction cs with
      | nil => rfl
      | cons c cs ih =>
        have hc : Phase.frac.next c = some .frac := by simp [Phase.next, hcs c (by simp)]
        rw [foldlM_cons, hc]
        exact ih fun d hd => hcs d (by simp [hd])
    obtain ⟨c, cs, hcs, -⟩ := toDigits_head b.toNat
    rw [hcs] at hdigits ⊢
    have hpoint : Phase.point.next c = some .frac := by simp [Phase.next, hdigits c (by simp)]
    refine ⟨.frac, ?_, rfl⟩
    show (Phase.point.next c).bind (fun p => cs.foldlM Phase.next p) = some .frac
    rw [hpoint]
    exact hfrac cs fun d hd => hdigits d (by simp [hd])
  isInteger_print b _ := by simp [isInteger, isDigit]
  read_print b _ := by simp

/-- A schema of an object with two properties, its keys in order. -/
def sortedSchema : Schema := .object [
  (['p', 'r', 'o', 'p', 'e', 'r', 't', 'i', 'e', 's'],
    .object [(['a'], .object []), (['b'], .bool true)]),
  (['t', 'y', 'p', 'e'], .string ['o', 'b', 'j', 'e', 'c', 't'])]

/-- The schema over the empty parser. -/
def sortedArena : Arena := ⟨[.epsilon, .schema 0 "s" (some sortedSchema) false], [], some 1⟩

theorem built_restores_iff_sorted : Built sortedArena ∧ sortedArena.Restores byBits := by
  have hbuilt : Built sortedArena :=
    ⟨[.add .epsilon, .add (.schema 0 "s" (some sortedSchema) false), .setRoot 1], _, rfl, rfl⟩
  refine ⟨hbuilt, (built_restores_iff byBits hbuilt ?_).mpr ?_⟩
  · simp [sortedArena, Parser.Utf8]
  · intro child name s raw hmem
    simp only [sortedArena, mem_cons, reduceCtorEq, Parser.schema.injEq,
      not_mem_nil, or_false, false_or] at hmem
    rw [Option.some.inj hmem.2.2.1]
    refine ⟨fun h => (by cases h), .object ?_, .object (pairwise_pair.mpr (by decide)) ?_⟩
    · have hempty : (Value.object []).Finite := .object (forall_mem_nil _)
      simp only [forall_mem_cons]
      exact ⟨.object (by simp [hempty, Value.Finite.bool]), .string _, forall_mem_nil _⟩
    · have hempty : (Value.object [] : Schema).Sorted := .object .nil (forall_mem_nil _)
      simp only [forall_mem_cons]
      exact ⟨.object (pairwise_pair.mpr (by decide)) (by simp [hempty, Value.Sorted.bool]),
        .string _, forall_mem_nil _⟩

/-- A schema with two properties, the second before the first in the order of their keys. -/
def unsortedSchema : Schema := .object [(['b'], .null), (['a'], .null)]

/-- The schema over the empty parser. -/
def unsortedArena : Arena := ⟨[.epsilon, .schema 0 "s" (some unsortedSchema) false], [], some 1⟩

/-- The order of the properties is lost. -/
theorem property_order_is_lost : Built unsortedArena ∧ (∀ p ∈ unsortedArena.parsers, p.Utf8) ∧
    ¬ unsortedArena.Restores byBits := by
  have hbuilt : Built unsortedArena :=
    ⟨[.add .epsilon, .add (.schema 0 "s" (some unsortedSchema) false), .setRoot 1], _, rfl, rfl⟩
  have hutf8 : ∀ p ∈ unsortedArena.parsers, p.Utf8 := by simp [unsortedArena, Parser.Utf8]
  refine ⟨hbuilt, hutf8, fun h => ?_⟩
  obtain ⟨-, -, hsorted⟩ :=
    (restores_iff_keepable byBits hbuilt.sized hutf8).mp h 0 "s" unsortedSchema false
      (by simp [unsortedArena])
  cases hsorted with
  | object hk _ =>
    have hlt : (['b'] : List Char) < ['a'] := (pairwise_cons.mp hk).1 (['a'], .null) (by simp)
    exact absurd hlt (by decide)

end Llama.Peg
