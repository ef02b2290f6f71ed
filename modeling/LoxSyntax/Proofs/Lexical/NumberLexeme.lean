/-
  LoxSyntax.Proofs.Lexical.NumberLexeme — a number's lexeme is the text of a number.

  Digits, and digits around a point, have no sign, no exponent, no underscore and nothing
  at the ends to trim, so they are read as what they write.

  - `ofText?_number`: the lexeme of a number is read, and rounded to the nearest double.
-/

import LoxSyntax.Proofs.Lexical.Segment

namespace LoxSyntax.Lexical

open Binary64

theorem isDigit_iff (c : Char) : isDigit c = true ↔ 48 ≤ c.toNat ∧ c.toNat ≤ 57 := by
  simp only [isDigit, Bool.and_eq_true, decide_eq_true_eq]
  exact Iff.rfl

theorem isDigit_eq (c : Char) : isDigit c = c.isDigit := by
  rw [Bool.eq_iff_iff, isDigit_iff, Char.isDigit]
  simp only [ge_iff_le, Bool.and_eq_true, decide_eq_true_eq]
  exact Iff.rfl

/-- A digit, or a decimal point. -/
def Numeral (c : Char) : Prop := isDigit c = true ∨ c = '.'

variable {c : Char} {cs : List Char}

theorem Numeral.plainDigit (h : Numeral c) : Binary64.plainDigit c = c := by
  rcases h with h | rfl
  · obtain ⟨h0, h9⟩ := (isDigit_iff c).1 h
    exact plainDigit_ascii h0 h9
  · decide +kernel

theorem Numeral.not_margin (h : Numeral c) : isMargin c = false := by
  rcases h with h | rfl
  · obtain ⟨h0, h9⟩ := (isDigit_iff c).1 h
    have hspace : c ≠ ' ' := by
      rintro rfl
      exact absurd h (by decide)
    simp [isMargin, show c.toNat < 128 by omega, hspace, show ¬c.toNat ≤ 13 by omega]
  · decide

theorem Numeral.ne_underscore (h : Numeral c) : c ≠ '_' := by
  rintro rfl
  rcases h with h | h
  · exact absurd h (by decide)
  · exact absurd h (by decide)

theorem trimBoth_of_not {p : Char → Bool} (h : ∀ c ∈ cs, p c = false) : Text.trimBoth p cs = cs := by
  have hd : ∀ ds : List Char, (∀ c ∈ ds, p c = false) → ds.dropWhile p = ds := by
    intro ds hds
    exact dropWhile_run (w := []) (by simp) fun c hc => hds c (List.mem_of_mem_head? hc)
  rw [Text.trimBoth, Text.dropTrailing, hd cs h, hd cs.reverse fun c hc => h c (List.mem_reverse.1 hc),
    List.reverse_reverse]

theorem joinDigits?_of_not (before : Char) (hb : before ≠ '_') (h : ∀ c ∈ cs, c ≠ '_') :
    joinDigits? before cs = some cs := by
  induction cs generalizing before with
  | nil => rw [joinDigits?, if_neg hb]
  | cons c cs ih =>
    obtain ⟨hc, hcs⟩ := List.forall_mem_cons.1 h
    simp [joinDigits?, hc, hb, ih c hc hcs]

theorem toLower_of_isDigit {d : Char} (h : isDigit d = true) : d.toLower = d := by
  have hd := (isDigit_iff d).1 h
  have hu : ¬('A' ≤ d ∧ d ≤ 'Z') := fun hu => absurd (Char.le_trans hu.1 (show d ≤ '9' from hd.2)) (by decide)
  exact dif_neg hu

/-- What begins with a digit is none of the words that are read as numbers. -/
theorem ofUnsigned?_of_isDigit {d : Char} (negative : Bool) (hd : isDigit d = true) (cs : List Char) :
    ofUnsigned? negative (d :: cs) = (Decimal.read? (d :: cs)).map (ofDecimal negative) := by
  have hword : ∀ (c : Char) (word : List Char), isDigit c = false →
      String.ofList ((d :: cs).map Char.toLower) ≠ String.ofList (c :: word) := by
    intro c word hc h
    have hl := congrArg String.toList h
    rw [String.toList_ofList, String.toList_ofList, List.map_cons, toLower_of_isDigit hd] at hl
    rw [(List.cons.inj hl).1, hc] at hd
    cases hd
  unfold ofUnsigned?
  split
  · next h => exact absurd h (hword 'i' ['n', 'f'] (by decide))
  · next h => exact absurd h (hword 'i' ['n', 'f', 'i', 'n', 'i', 't', 'y'] (by decide))
  · next h => exact absurd h (hword 'n' ['a', 'n'] (by decide))
  · rfl

theorem ofChars?_of_numerals {d : Char} (hd : isDigit d = true) (h : ∀ c ∈ cs, Numeral c) :
    ofChars? (d :: cs) = (Decimal.read? (d :: cs)).map (ofDecimal false) := by
  have hall : ∀ c ∈ d :: cs, Numeral c := List.forall_mem_cons.2 ⟨.inl hd, h⟩
  have hplain : (d :: cs).map plainDigit = d :: cs :=
    (List.map_congr_left (g := id) fun c hc => (hall c hc).plainDigit).trans (List.map_id _)
  have hsign : Decimal.splitSign (d :: cs) = (false, d :: cs) := by
    unfold Decimal.splitSign
    split
    · next h => exact absurd ((List.cons.inj h).1 ▸ hd) (by decide)
    · next h => exact absurd ((List.cons.inj h).1 ▸ hd) (by decide)
    · rfl
  have hjoin := joinDigits?_of_not ' ' (by decide) fun c hc => (hall c hc).ne_underscore
  rw [ofChars?, hplain, trimBoth_of_not fun c hc => (hall c hc).not_margin, hjoin]
  show ofUnsigned? (Decimal.splitSign (d :: cs)).1 (Decimal.splitSign (d :: cs)).2 = _
  rw [hsign, ofUnsigned?_of_isDigit false hd]

/-! ## Lexemes -/

theorem takeWhile_digits {ds rest : List Char} (hd : ∀ c ∈ ds, isDigit c = true) (hr : Stops isDigit rest) :
    (ds ++ rest).takeWhile Char.isDigit = ds ∧ (ds ++ rest).dropWhile Char.isDigit = rest := by
  rw [← funext isDigit_eq]
  exact ⟨takeWhile_run hd hr, dropWhile_run hd hr⟩

theorem read?_whole {d : Char} {ds : List Char} (hd : ∀ c ∈ d :: ds, isDigit c = true) :
    Decimal.read? (d :: ds) = some (.ofNumeral (d :: ds) []) := by
  obtain ⟨ht, hr⟩ := takeWhile_digits hd (show Stops isDigit [] by simp [Stops])
  rw [List.append_nil] at ht hr
  simp only [Decimal.read?, ht, hr]
  rfl

theorem read?_fraction {d f : Char} {ds fs : List Char} (hd : ∀ c ∈ d :: ds, isDigit c = true)
    (hf : ∀ c ∈ f :: fs, isDigit c = true) :
    Decimal.read? (d :: ds ++ '.' :: f :: fs) = some (.ofNumeral (d :: ds) (f :: fs)) := by
  have hpoint : Stops isDigit ('.' :: f :: fs) := stops_cons.2 (by decide)
  obtain ⟨ht, hr⟩ := takeWhile_digits hd hpoint
  obtain ⟨ht', hr'⟩ := takeWhile_digits hf (show Stops isDigit [] by simp [Stops])
  rw [List.append_nil] at ht' hr'
  simp only [Decimal.read?, ht, hr, ht', hr']
  simp [Decimal.readExponent?, Decimal.ofNumeral]

/-- The lexeme of a number is read as its digits, rounded to the nearest double. -/
theorem ofText?_number {whole fraction text rest : List Char}
    (h : (Segment.mk (.number whole fraction) text).Before rest) :
    ofText? (String.ofList text) = some (ofDecimal false (.ofNumeral whole fraction)) := by
  rw [ofText?, String.toList_ofList]
  cases h with
  | whole hd =>
    obtain ⟨hd', hds⟩ := List.forall_mem_cons.1 hd
    rw [ofChars?_of_numerals hd' fun c hc => .inl (hds c hc), read?_whole hd, Option.map_some]
  | @fraction d f ds fs _ hd hf hr =>
    obtain ⟨hd', hds⟩ := List.forall_mem_cons.1 hd
    have hcs : ∀ c ∈ ds ++ '.' :: f :: fs, Numeral c := by
      intro c hc
      rcases List.mem_append.1 hc with hc | hc
      · exact .inl (hds c hc)
      · rcases List.mem_cons.1 hc with rfl | hc
        · exact .inr rfl
        · exact .inl (hf c hc)
    have hr := ofChars?_of_numerals hd' hcs
    rw [← List.cons_append, read?_fraction hd hf] at hr
    exact hr

end LoxSyntax.Lexical
