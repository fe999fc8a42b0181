import Llama.Peg.Exclude
import Llama.Schema.Spelling

/-!
# The text of the exclusion grammar

`gbnf_excluding_pattern` prints the pieces of the exclusion grammar. Read as the right side of a
rule, the text generates their language, unless `-` is in a class: the writer escapes it, and the
reader does not know that escape.
-/

namespace Llama.Peg

open Common Backtrack Computability List Llama.Schema Function

variable {c n : Nat} {cs : List Nat} {u s : List Char} {p : PrefixAndNext}
  {env : Str → Language Char} {delimiters : List (List Char)}

private theorem hexDigit_digit (h : n < 16) :
    hexDigit ("0123456789ABCDEF".toList.getD n '0') = some n := by
  have hall : ∀ n < 16, hexDigit ("0123456789ABCDEF".toList.getD n '0') = some n := by decide
  exact hall n h

/-- The digits of a number are read for it. -/
theorem readHex_hexDigitsOf (w k v : Nat) (h : n < 16 ^ w) (s : List Char) :
    readHex (w + k) (hexDigitsOf w n ++ s) v = readHex k s (v * 16 ^ w + n) := by
  induction w generalizing n k s with
  | zero =>
    obtain rfl : n = 0 := by simpa using h
    simp [hexDigitsOf]
  | succ w ih =>
    have hdiv : n / 16 < 16 ^ w := by
      rw [Nat.div_lt_iff_lt_mul (by decide), ← pow_succ]
      exact h
    rw [hexDigitsOf, append_assoc, show w + 1 + k = w + (k + 1) by omega, ih (k + 1) hdiv,
      singleton_append, readHex, hexDigit_digit (Nat.mod_lt _ (by decide)), Option.bind_some,
      pow_succ]
    congr 1
    have hmod := Nat.div_add_mod n 16
    rw [Nat.add_mul, Nat.mul_assoc, Nat.add_assoc]
    omega

/-- The text of a code point other than `-` is read as its character. -/
theorem readChar_gbnfEscapeCharClass (hdash : c ≠ '-'.toNat) (hc : c < 2 ^ 32) :
    ∃ d v, gbnfEscapeCharClass c = d :: v ∧ d ≠ ']' ∧ d ≠ '-' ∧
      ∀ rest, readChar (d :: (v ++ rest)) = some (Char.ofNat c, rest) := by
  have hhex : ∀ w, c < 16 ^ w → ∀ rest,
      readHex w (hexDigitsOf w c ++ rest) 0 = some (Char.ofNat c, rest) := by
    intro w hw rest
    simpa [readHex] using readHex_hexDigitsOf w 0 0 hw rest
  unfold gbnfEscapeCharClass
  split
  next h =>
    obtain h | rfl | rfl | rfl := h
    · exact absurd h hdash
    all_goals exact ⟨_, _, rfl, by decide, by decide, fun rest => rfl⟩
  next hspecial =>
    split
    next h =>
      subst h
      exact ⟨_, _, rfl, by decide, by decide, fun rest => rfl⟩
    split
    next h =>
      subst h
      exact ⟨_, _, rfl, by decide, by decide, fun rest => rfl⟩
    split
    next h =>
      subst h
      exact ⟨_, _, rfl, by decide, by decide, fun rest => rfl⟩
    split
    next h =>
      have hval : (Char.ofNat c).toNat = c := toNat_ofNat h.2
      have hne : ∀ d : Char, c ≠ d.toNat → Char.ofNat c ≠ d := by
        rintro d hd rfl
        exact hd hval.symm
      simp only [not_or] at hspecial
      exact ⟨_, [], rfl, hne _ hspecial.2.1, hne _ hspecial.1,
        fun rest => readChar_plain (hne _ hspecial.2.2.2) rest⟩
    split
    next h => exact ⟨_, _, rfl, by decide, by decide, hhex 2 (by omega)⟩
    split
    next h => exact ⟨_, _, rfl, by decide, by decide, hhex 4 (by omega)⟩
    next => exact ⟨_, _, rfl, by decide, by decide, hhex 8 (by omega)⟩

private theorem rangesText_escapes (hdash : '-'.toNat ∉ cs) (hcs : ∀ c ∈ cs, c < 2 ^ 32) :
    RangesText (cs.flatMap gbnfEscapeCharClass) (cs.map fun c => (Char.ofNat c, Char.ofNat c)) := by
  induction cs with
  | nil => exact RangesText.nil
  | cons c cs ih =>
    rw [mem_cons, not_or] at hdash
    rw [forall_mem_cons] at hcs
    obtain ⟨d, v, htext, hbracket, -, hread⟩ := readChar_gbnfEscapeCharClass (Ne.symm hdash.1) hcs.1
    rw [flatMap_cons, htext, map_cons]
    refine RangesText.cons hbracket (fun rest => readRange_char (hread _) ?_) (ih hdash.2 hcs.2)
    intro e he
    cases cs with
    | nil =>
      obtain rfl := Option.some.inj he
      decide
    | cons c' cs =>
      rw [mem_cons, not_or] at hdash
      obtain ⟨d', v', htext', -, hne, -⟩ :=
        readChar_gbnfEscapeCharClass (Ne.symm hdash.2.1) (hcs.2 c' mem_cons_self)
      rw [flatMap_cons, htext'] at he
      obtain rfl := Option.some.inj he
      exact hne

/-- The literal of a text is read as the text. -/
theorem gbnfFormatLiteral_text (u : List Char) :
    ∃ t, gbnfFormatLiteral u = Common.str "\"" ++ t ++ Common.str "\"" ∧ LiteralText t u := by
  refine ⟨_, rfl, ?_⟩
  induction u with
  | nil => exact LiteralText.nil
  | cons c u ih =>
    rw [map_cons, flatten_cons]
    split
    next h =>
      subst h
      exact ih.char (by decide) fun _ => rfl
    split
    next h =>
      subst h
      exact ih.char (by decide) fun _ => rfl
    split
    next h =>
      subst h
      exact ih.char (by decide) fun _ => rfl
    next hquote =>
      split
      next h =>
        subst h
        exact ih.char (by decide) fun _ => rfl
      next hbackslash => exact ih.char hquote fun rest => readChar_plain hbackslash rest

/-- The text of a piece generates its strings. -/
theorem PrefixAndNext.text_denotes (hbefore : u.map Char.toNat = p.before)
    (hdash : '-'.toNat ∉ p.nextChars) (hnext : ∀ n ∈ p.nextChars, ∃ d : Char, d.toNat = n) :
    SequenceDenotes env p.text p.lang := by
  have hcs : ∀ n ∈ p.nextChars, n < 2 ^ 32 := by
    intro n hn
    obtain ⟨d, rfl⟩ := hnext n hn
    exact d.val.toNat_lt
  have hclass : SequenceDenotes env _ _ :=
    (ItemDenotes.notCls (rangesText_escapes hdash hcs)).sequence
  have hmem : ∀ c : Char, inClass true (p.nextChars.map fun c => (Char.ofNat c, Char.ofNat c)) c =
      true ↔ c.toNat ∉ p.nextChars := by
    intro c
    have hany : (p.nextChars.map fun c => (Char.ofNat c, Char.ofNat c)).any
        (fun r => r.1 ≤ c && c ≤ r.2) = true ↔ c.toNat ∈ p.nextChars := by
      rw [any_map, any_eq_true]
      constructor
      · rintro ⟨n, hn, hc⟩
        obtain ⟨d, rfl⟩ := hnext n hn
        simp only [comp_apply, Char.ofNat_toNat, Bool.and_eq_true, decide_eq_true_eq] at hc
        rwa [Char.le_antisymm hc.2 hc.1]
      · intro hc
        exact ⟨_, hc, by simp⟩
    rw [inClass, bne_iff_ne, ne_eq, Bool.not_eq_true, ← Bool.not_eq_true, hany]
  have hlang : p.lang = {u} * symbols
      (inClass true (p.nextChars.map fun c => (Char.ofNat c, Char.ofNat c))) := by
    ext w
    rw [Language.mem_mul]
    constructor
    · rintro ⟨v, c, rfl, hv, hc⟩
      obtain rfl : v = u := map_injective_iff.mpr (fun _ _ h => Char.toNat_inj.mp h)
        (hv.trans hbefore.symm)
      exact ⟨v, rfl, [c], ⟨c, (hmem c).mpr hc, rfl⟩, rfl⟩
    · rintro ⟨v, rfl, w, ⟨c, hc, rfl⟩, rfl⟩
      exact ⟨v, c, rfl, hbefore, (hmem c).mp hc⟩
  by_cases hnil : u = []
  · subst hnil
    have hone : ({[]} : Language Char) = 1 := rfl
    rw [PrefixAndNext.text, if_pos (by simpa using hbefore.symm), hlang, hone, one_mul]
    exact hclass
  · obtain ⟨t, ht, hliteral⟩ := gbnfFormatLiteral_text u
    have hchars : p.before.map Char.ofNat = u := by
      rw [← hbefore, map_map]
      simp [comp_def]
    rw [PrefixAndNext.text, if_neg fun h => hnil (by simpa [h] using hbefore), hchars, ht, hlang]
    have happend := (ItemDenotes.literal hliteral).sequence.append hclass
    simpa [Common.str] using happend

/-- The strings of one of the pieces. -/
def piecesLang (ps : List PrefixAndNext) : Language Char := {w | ∃ p ∈ ps, w ∈ p.lang}

private theorem piecesLang_denotes {ps : List PrefixAndNext} (hne : ps ≠ [])
    (h : ∀ p ∈ ps, SequenceDenotes env p.text p.lang) :
    AlternatesDenotes env (" | ".toList.intercalate (ps.map PrefixAndNext.text))
      (piecesLang ps) := by
  induction ps with
  | nil => exact absurd rfl hne
  | cons p ps ih =>
    have hp := (h p mem_cons_self).alternates
    cases ps with
    | nil =>
      have hlang : piecesLang [p] = p.lang := by
        ext w
        exact ⟨fun ⟨q, hq, hw⟩ => mem_singleton.mp hq ▸ hw, fun hw => ⟨p, mem_cons_self, hw⟩⟩
      rw [hlang, map_singleton, intercalate_singleton]
      exact hp
    | cons p' ps =>
      have hlang : piecesLang (p :: p' :: ps) = p.lang + piecesLang (p' :: ps) := by
        ext w
        rw [Language.mem_add]
        exact exists_mem_cons_iff _ _ _
      rw [hlang, map_cons, map_cons, intercalate_cons_cons]
      exact hp.append (ih (by simp) fun q hq => h q (mem_cons_of_mem p hq))

/-- The pieces of a trie are made of characters of its delimiters. -/
theorem mem_collectPrefixAndNext
    (hp : p ∈ (Trie.ofWords (delimiters.map encode)).collectPrefixAndNext) :
    (∃ u : List Char, u.map Char.toNat = p.before) ∧
      ∀ n ∈ p.nextChars, ∃ d ∈ delimiters, ∃ c ∈ d, c.toNat = n := by
  obtain ⟨paths, hpaths⟩ := ofWords_encode_holds delimiters
  obtain ⟨k, y, hk, -, hkeys, rfl⟩ :=
    (Trie.mem_collectFrom hpaths.toFlagged _ hpaths.root (by simp [hpaths.length]) p).mp hp
  have hkey : ∀ n ∈ ((Trie.ofWords (delimiters.map encode)).node k).keys,
      ∃ d ∈ delimiters, y ++ [n] <+: d.map Char.toNat := by
    intro n hn
    rcases (hpaths.closed _).mp ((hpaths.mem_keys hk).mp hn) with hnil | ⟨w, hw, hpre⟩
    · simp at hnil
    · obtain ⟨d, hd, rfl⟩ := mem_map.mp hw
      exact ⟨d, hd, hpre⟩
  constructor
  · obtain ⟨n, hn⟩ := exists_mem_of_ne_nil _ hkeys
    obtain ⟨d, -, hpre⟩ := hkey n hn
    have hy := prefix_iff_eq_take.mp ((prefix_append y [n]).trans hpre)
    exact ⟨d.take y.length, by rw [map_take]; exact hy.symm⟩
  · intro n hn
    obtain ⟨d, hd, hpre⟩ := hkey n hn
    obtain ⟨c, hc, hcn⟩ := mem_map.mp (hpre.subset (mem_append_right y (mem_singleton_self n)))
    exact ⟨d, hd, c, hc, hcn⟩

/-- The root of the trie is a piece. -/
theorem collectPrefixAndNext_ne_nil (hne : delimiters ≠ []) (hnil : [] ∉ delimiters) :
    (Trie.ofWords (delimiters.map encode)).collectPrefixAndNext ≠ [] := by
  obtain ⟨d, hd⟩ := exists_mem_of_ne_nil _ hne
  obtain ⟨c, d, rfl⟩ := exists_cons_of_ne_nil fun h => hnil (h ▸ hd)
  obtain ⟨paths, hpaths⟩ := ofWords_encode_holds delimiters
  have hkey : c.toNat ∈ ((Trie.ofWords (delimiters.map encode)).node 0).keys := by
    rw [hpaths.mem_keys hpaths.root, hpaths.closed]
    exact .inr ⟨_, mem_map_of_mem hd, d.map Char.toNat, rfl⟩
  refine ne_nil_of_mem ((Trie.mem_collectFrom hpaths.toFlagged _ hpaths.root
    (by simp [hpaths.length]) _).mpr ⟨0, [], hpaths.root, ?_, ne_nil_of_mem hkey, rfl⟩)
  simpa using hnil

private theorem repWords_zero_none (L : Language Char) : repWords L 0 none = L∗ := by
  ext w
  rw [Language.kstar_eq_iSup_pow, Language.mem_iSup]
  constructor
  · rintro ⟨k, -, -, hk⟩
    exact ⟨k, hk⟩
  · rintro ⟨k, hk⟩
    exact ⟨k, Nat.zero_le k, by simp, hk⟩

/-- The text that is printed for delimiters without `-` generates the language of the pieces. -/
theorem gbnfExcludingPattern_words (env : Str → Language Char) (hne : delimiters ≠ [])
    (hnil : [] ∉ delimiters) (hdash : ∀ d ∈ delimiters, '-' ∉ d) :
    textWords env (gbnfExcludingPattern (delimiters.map encode)) =
      excludingLang (delimiters.map encode) := by
  have hpiece : ∀ p ∈ (Trie.ofWords (delimiters.map encode)).collectPrefixAndNext,
      SequenceDenotes env p.text p.lang := by
    intro p hp
    obtain ⟨⟨u, hu⟩, hnext⟩ := mem_collectPrefixAndNext hp
    refine PrefixAndNext.text_denotes hu (fun hmem => ?_) fun n hn => ?_
    · obtain ⟨d, hd, c, hc, hcn⟩ := hnext _ hmem
      obtain rfl := Char.toNat_inj.mp hcn
      exact hdash d hd hc
    · obtain ⟨d, -, c, -, hcn⟩ := hnext n hn
      exact ⟨c, hcn⟩
  have halternates := piecesLang_denotes (collectPrefixAndNext_ne_nil hne hnil) hpiece
  have hstar := halternates.group.star.sequence.alternates.textWords_eq
  rw [repWords_zero_none] at hstar
  rw [gbnfExcludingPattern, excludingLang]
  simpa [Common.str, piecesLang] using hstar

end Llama.Peg
