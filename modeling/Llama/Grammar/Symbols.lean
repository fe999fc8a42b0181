import Llama.Grammar.Parser
import Mathlib.Data.List.Nodup
import Mathlib.Data.List.TakeWhile

/-!
# The numbering of the rules

The map of the parser gives the numbers from 0 on to the names in the order of their first use.
A name that the parser makes up has an underscore, which no name of the text has, so it is new,
and a name of the text never stands for a synthesized rule.
-/

namespace Llama.Grammar

open List

/-- The numbers are given out in order; a name is one of the text, without an underscore, or
was made up for its number. -/
structure Numbered (l : List (Text × Nat)) : Prop where
  ids : l.map Prod.snd = range l.length
  names : ∀ kv ∈ l, byte '_' ∉ kv.1 ∨ ∃ base, byte '_' ∉ base ∧ kv.1 = generatedName base kv.2

/-- The rule has a name that the parser made up. -/
def Generated (l : List (Text × Nat)) (id : Nat) : Prop := ∃ base, (generatedName base id, id) ∈ l

variable {l : List (Text × Nat)}

theorem underscore_mem_generatedName (base : Text) (id : Nat) :
    byte '_' ∈ generatedName base id := by simp [generatedName]

theorem map_byte_digits {cs : List Char} (h : ∀ c ∈ cs, c.isDigit = true) :
    (cs.map byte).map (fun b => Char.ofNat b.toNat) = cs := by
  have hid : ∀ c ∈ cs, ((fun b : UInt8 => Char.ofNat b.toNat) ∘ byte) c = id c := by
    intro c hc
    have hdigit := h c hc
    simp only [Char.isDigit, Bool.and_eq_true, decide_eq_true_eq, UInt32.le_iff_toNat_le] at hdigit
    have hlt : c.toNat < 256 := lt_of_le_of_lt hdigit.2 (by decide)
    simp only [Function.comp_apply, byte, UInt8.toNat_ofNat', id_eq]
    rw [Nat.mod_eq_of_lt hlt, Char.ofNat_toNat]
  rw [map_map, map_congr_left hid, map_id]

variable {base key name : Text} {id : Nat} {p : Parser}

theorem generatedName_inj {base' : Text} {id' : Nat} (hb : byte '_' ∉ base) (hb' : byte '_' ∉ base')
    (h : generatedName base id = generatedName base' id') : id = id' := by
  have hdrop : ∀ (b : Text) (n : Nat), byte '_' ∉ b →
      (generatedName b n).dropWhile (· ≠ byte '_') =
        byte '_' :: (Nat.toDigits 10 n).map byte := by
    intro b n hb
    rw [generatedName, dropWhile_append_of_pos]
    · simp
    · intro x hx
      have : x ≠ byte '_' := fun he => hb (he ▸ hx)
      simpa using this
  have hdigits : ∀ n, ((Nat.toDigits 10 n).map byte).map (fun b => Char.ofNat b.toNat) =
      Nat.toDigits 10 n := fun n =>
    map_byte_digits fun c hc => Nat.isDigit_of_mem_toDigits (by omega) (by omega) hc
  have htail := (hdrop base id hb).symm.trans (h ▸ hdrop base' id' hb')
  have heq := congrArg (List.map fun b : UInt8 => Char.ofNat b.toNat) (List.cons.inj htail).2
  rw [hdigits, hdigits] at heq
  have hvalue := congrArg (fun cs => Nat.ofDigitChars 10 cs 0) heq
  simpa only [Nat.ofDigitChars_ten_toDigits] using hvalue

/-- A name of the text has no underscore. -/
theorem underscore_notMem_takeWhile (src : Text) : byte '_' ∉ src.takeWhile isWordChar := by
  intro h
  have := mem_takeWhile_imp h
  simp [isWordChar, isDigitChar, byte] at this

section

variable (h : Numbered l)
include h

theorem Numbered.lt {kv : Text × Nat} (hkv : kv ∈ l) : kv.2 < l.length := by
  have := mem_map_of_mem (f := Prod.snd) hkv
  rw [h.ids] at this
  exact mem_range.mp this

theorem Numbered.exists_key (hid : id < l.length) : ∃ key, (key, id) ∈ l := by
  have hmem : id ∈ l.map Prod.snd := h.ids ▸ mem_range.mpr hid
  obtain ⟨kv, hkv, rfl⟩ := mem_map.mp hmem
  exact ⟨kv.1, hkv⟩

theorem Numbered.key_unique {key' : Text} (hk : (key, id) ∈ l) (hk' : (key', id) ∈ l) :
    key = key' := by
  have hnodup : (l.map Prod.snd).Nodup := h.ids ▸ nodup_range
  have := inj_on_of_nodup_map hnodup hk hk' rfl
  exact (Prod.mk.inj this).1

theorem Numbered.push
    (hkey : byte '_' ∉ key ∨ ∃ base, byte '_' ∉ base ∧ key = generatedName base l.length) :
    Numbered (l ++ [(key, l.length)]) where
  ids := by simp [h.ids, range_succ]
  names kv hkv := by
    rcases mem_append.mp hkv with hkv | hkv
    · exact h.names kv hkv
    · obtain rfl := mem_singleton.mp hkv
      exact hkey

theorem Numbered.fresh (hb : byte '_' ∉ base) : ∀ kv ∈ l, kv.1 ≠ generatedName base l.length := by
  intro kv hkv heq
  rcases h.names kv hkv with hu | ⟨base', hb', hname⟩
  · exact hu (heq ▸ underscore_mem_generatedName base l.length)
  · have := generatedName_inj hb hb' (heq.symm.trans hname)
    have := h.lt hkv
    omega

/-- A name of the text is not that of a synthesized rule. -/
theorem Numbered.not_generated (hu : byte '_' ∉ name) (hmem : (name, id) ∈ l) :
    ¬ Generated l id := by
  rintro ⟨base, hb⟩
  have := h.key_unique hmem hb
  exact hu (this ▸ underscore_mem_generatedName base id)

end

theorem Generated.mono {l' : List (Text × Nat)} (h : Generated l id) (hl : l <+: l') :
    Generated l' id := by
  obtain ⟨base, hb⟩ := h
  exact ⟨base, hl.subset hb⟩

theorem assignId_fresh (h : ∀ kv ∈ l, kv.1 ≠ key) : assignId key id l = l ++ [(key, id)] := by
  induction l with
  | nil => rfl
  | cons kv l ih =>
    rw [assignId, if_neg (h kv mem_cons_self), ih fun x hx => h x (mem_cons_of_mem kv hx)]
    rfl

theorem mem_of_lookup (h : l.lookup key = some id) : (key, id) ∈ l := by
  induction l with
  | nil => cases h
  | cons kv l ih =>
    obtain ⟨k, i⟩ := kv
    rw [lookup_cons] at h
    split at h
    · rename_i hk
      obtain rfl := eq_of_beq hk
      obtain rfl := Option.some.inj h
      exact mem_cons_self
    · exact mem_cons_of_mem _ (ih h)

/-- The name made up for the next rule. -/
theorem Parser.generateSymbolId_eq (h : Numbered p.symbolIds) (hb : byte '_' ∉ base) :
    p.generateSymbolId base = (p.symbolIds.length, { p with
      symbolIds := p.symbolIds ++
        [(generatedName base p.symbolIds.length, p.symbolIds.length)] }) := by
  simp only [Parser.generateSymbolId, assignId_fresh (h.fresh hb)]

/-- Using a name gives its number, a new one if need be; nothing else changes. -/
theorem getSymbolId_ok (h : Numbered p.symbolIds) (hu : byte '_' ∉ name) :
    ∃ id l', getSymbolId name p = .ok id { p with symbolIds := l' } ∧ p.symbolIds <+: l' ∧
      Numbered l' ∧ (name, id) ∈ l' := by
  rw [getSymbolId]
  cases hl : p.symbolIds.lookup name with
  | some id => exact ⟨id, p.symbolIds, rfl, prefix_rfl, h, mem_of_lookup hl⟩
  | none =>
    exact ⟨_, _, rfl, prefix_append _ _, h.push (.inl hu), by simp⟩

end Llama.Grammar
