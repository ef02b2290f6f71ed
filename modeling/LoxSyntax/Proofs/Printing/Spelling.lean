/-
  LoxSyntax.Proofs.Printing.Spelling — numbers are spelled so that they can be told apart.

  A finite number without a sign is spelled as a numeral, without the point and the zero of
  a whole one. The decimal that a numeral writes can be read off it, and the nearest double
  of that decimal is the number again; so no two numbers have one spelling. Infinity is
  spelled as a name.

  - `Numeral.read?_text`: reading a numeral gives its decimal.
  - `exists_numeral_spelling`: the numeral that a number is spelled as.
  - `readNumber?_spelling`: what is read back is the number.
-/

import Mathlib.Data.List.Basic
import LoxSyntax.Proofs.Json.WrittenNumber

namespace LoxSyntax

namespace JsonText

open Lexical Binary64

/-! ## Reading numerals -/

theorem Exponent.readInt?_text (e : Exponent) : Decimal.readInt? (e.sign ++ e.digits) = some e.value := by
  have hs := e.sign_mem
  obtain ⟨d, ds, hd, hdigit⟩ := e.isDigits.exists_cons
  have hall : e.digits.all Char.isDigit = true := List.all_eq_true.2 e.isDigits.2
  have hplain : Decimal.splitSign e.digits = (false, e.digits) := by
    rw [hd]
    unfold Decimal.splitSign
    split
    · next he => exact absurd hdigit (by rw [(List.cons.inj he).1]; decide)
    · next he => exact absurd hdigit (by rw [(List.cons.inj he).1]; decide)
    · rfl
  have hread : ∀ negative, Decimal.splitSign (e.sign ++ e.digits) = (negative, e.digits) →
      Decimal.readInt? (e.sign ++ e.digits) =
        some (if negative then -(digitsValue e.digits : Int) else digitsValue e.digits) := by
    intro negative hsplit
    rw [Decimal.readInt?, hsplit]
    simp only [hall, List.isEmpty_eq_false_iff.2 e.isDigits.1, Bool.not_true, Bool.or_self, Bool.false_eq_true,
      if_false]
    rfl
  simp only [List.mem_cons, List.not_mem_nil, or_false] at hs
  rcases hs with hs | hs | hs
  · rw [hread false (by rw [hs]; exact hplain), value, hs]
    rfl
  · rw [hread false (by rw [hs]; rfl), value, hs]
    rfl
  · rw [hread true (by rw [hs]; rfl), value, hs]
    rfl

theorem readExponent?_text (e : Option Exponent) :
    Decimal.readExponent? (Numeral.exponentText e) = some ((e.map Exponent.value).getD 0) := by
  cases e with
  | none => rfl
  | some e =>
    have hm : (e.mark = 'e' || e.mark = 'E') = true := by simpa using e.mark_mem
    rw [Numeral.exponentText, Exponent.text, Decimal.readExponent?, if_pos hm, e.readInt?_text]
    rfl

/-- Reading a numeral gives its decimal. -/
theorem Numeral.read?_text (n : Numeral) (h : n.negative = false) : Decimal.read? n.text = some n.decimal := by
  have hexponent : Stops Char.isDigit (exponentText n.exponent) := by
    have hs := stops_exponentText (p := Char.isDigit) (r := []) (e := n.exponent) ⟨rfl, rfl⟩ fun c hc => by cases hc
    rwa [List.append_nil] at hs
  have hwhole : Stops Char.isDigit (fractionText n.fraction ++ exponentText n.exponent) :=
    stops_fractionText rfl hexponent
  have htext : n.text = n.whole ++ (fractionText n.fraction ++ exponentText n.exponent) := by rw [text, h]; rfl
  rw [Decimal.read?, htext, takeWhile_run n.whole_isDigits.2 hwhole, dropWhile_run n.whole_isDigits.2 hwhole]
  have hne : n.whole.isEmpty = false := List.isEmpty_eq_false_iff.2 n.whole_isDigits.1
  cases hf : n.fraction with
  | some fs =>
    have hdigits := (n.fraction_isDigits fs hf).2
    simp only [fractionText, List.cons_append, takeWhile_run hdigits hexponent, dropWhile_run hdigits hexponent, hne,
      Bool.false_and, Bool.false_eq_true, if_false, readExponent?_text, Option.map_some, decimal, hf, Option.getD_some]
    rfl
  | none =>
    -- what stands behind the digits is no point
    have hpoint : ∀ cs, exponentText n.exponent ≠ '.' :: cs := by
      intro cs he
      have hs := stops_exponentText (p := (· == '.')) (r := []) (e := n.exponent) ⟨rfl, rfl⟩ fun c hc => by cases hc
      rw [List.append_nil, he] at hs
      exact absurd (stops_cons.1 hs) (by decide)
    simp only [fractionText, List.nil_append, hne, Bool.false_and, Bool.false_eq_true, if_false, readExponent?_text,
      Option.map_some, decimal, hf, Option.getD_none]
    rfl

/-! ## Spellings -/

theorem sign_nearest {negative negative' : Bool} {n d : Nat} {rank : Fin magnitudes}
    (h : nearest negative n d = .finite negative' rank) : negative = negative' := by
  unfold nearest at h
  split at h <;> cases h
  rfl

/-- The sign of a number is that of its numeral. -/
theorem sign_ofDecimal {negative negative' : Bool} {d : Decimal} {rank : Fin magnitudes}
    (h : ofDecimal negative d = .finite negative' rank) : negative = negative' := by
  unfold ofDecimal at h
  split at h
  · cases h
    rfl
  · split at h
    · cases h
    · split at h <;> exact sign_nearest h

theorem ofDecimal_of_value {n : Numeral} {x : Binary64} (h : n.value = .number x) :
    ofDecimal n.negative n.decimal = x := by
  unfold Numeral.value at h
  split at h
  · cases h
  · exact Json.number.inj h

theorem point_not_mem_exponentText (e : Option Exponent) : '.' ∉ Numeral.exponentText e := by
  cases e with
  | none => exact List.not_mem_nil
  | some e =>
    have hm := e.mark_mem
    have hs := e.sign_mem
    have hd : '.' ∉ e.digits := fun h => absurd (e.isDigits.2 _ h) (by decide)
    simp only [List.mem_cons, List.not_mem_nil, or_false] at hm hs
    rw [Numeral.exponentText, Exponent.text, List.mem_cons, List.mem_append]
    rcases hm with hm | hm <;> rcases hs with hs | hs | hs <;> simp [hm, hs, hd]

theorem point_not_mem_digits {ds : List Char} (h : IsDigits ds) : '.' ∉ ds := fun hm => absurd (h.2 _ hm) (by decide)

/-- Behind a numeral that ends with a point and a zero, there is nothing in front of the point but the whole part. -/
theorem Numeral.eq_of_pointZero {n : Numeral} (hn : n.negative = false) {cs : List Char}
    (h : n.text = cs ++ ['.', '0']) :
    n.whole = cs ∧ n.fraction = some ['0'] ∧ n.exponent = none := by
  rw [text, hn, show signText false = [] from rfl, List.nil_append] at h
  cases hf : n.fraction with
  | none =>
    have hm : '.' ∈ n.whole ++ (fractionText n.fraction ++ exponentText n.exponent) := by rw [h]; simp
    rw [hf, List.mem_append] at hm
    exact (hm.elim (point_not_mem_digits n.whole_isDigits) (point_not_mem_exponentText _)).elim
  | some fs =>
    have hfs := n.fraction_isDigits fs hf
    rw [hf, show fractionText (some fs) = '.' :: fs from rfl, List.cons_append] at h
    have hbehind : '.' ∉ fs ++ exponentText n.exponent := fun hm =>
      (List.mem_append.1 hm).elim (point_not_mem_digits hfs) (point_not_mem_exponentText _)
    obtain ⟨hwhole, -, hzero⟩ :=
      (List.append_cons_inj_of_notMem (point_not_mem_digits n.whole_isDigits) hbehind).1 h
    refine ⟨hwhole, ?_⟩
    obtain ⟨d, ds, rfl, -⟩ := hfs.exists_cons
    obtain ⟨rfl, hnil⟩ := List.cons.inj hzero
    obtain ⟨rfl, hexponent⟩ := List.append_eq_nil_iff.1 hnil
    refine ⟨rfl, ?_⟩
    cases he : n.exponent with
    | none => rfl
    | some e =>
      rw [he] at hexponent
      cases hexponent

/-- A whole number is what it is with a zero behind the point. -/
theorem ofDecimal_pointZero (whole : List Char) :
    ofDecimal false ⟨digitsValue (whole ++ ['0']), -1⟩ = ofDecimal false ⟨digitsValue whole, 0⟩ := by
  rw [show ['0'] = Decimal.zeros 1 from rfl, digitsValue_append_zeros]
  exact ofDecimal_shift false (digitsValue whole) (k := 0) (by decide)

/-- A number is spelled as a numeral that stands for it. -/
theorem exists_numeral_spelling (rank : Fin magnitudes) : ∃ n : Numeral, n.negative = false ∧
    (Literal.number (.finite false rank)).spelling.toList = n.text ∧
      ofDecimal false n.decimal = .finite false rank := by
  obtain ⟨n, htext, hvalue⟩ := exists_numeral_finite false rank
  have hx := ofDecimal_of_value hvalue
  have hn := sign_ofDecimal hx
  rw [hn] at hx
  rw [Literal.spelling, String.toList_ofList, Literal.dropPointZero, ← htext]
  split
  · next hdrop =>
    have hsplit := (List.take_append_drop (n.text.length - 2) n.text).symm
    rw [hdrop] at hsplit
    obtain ⟨hwhole, hfraction, hexponent⟩ := n.eq_of_pointZero hn hsplit
    refine ⟨⟨false, n.whole, none, none, n.whole_isDigits, n.whole_zero, fun _ h => by cases h⟩, rfl, ?_, ?_⟩
    · rw [← hwhole]
      simp [Numeral.text, signText, Numeral.fractionText, Numeral.exponentText]
    · rw [← hx]
      simp only [Numeral.decimal, hfraction, hexponent]
      exact (Eq.trans (by simp) (ofDecimal_pointZero n.whole).symm).trans (by rfl)
  · exact ⟨n, hn, rfl, hx⟩

/-- The characters of a numeral. -/
theorem Numeral.inNumeral_of_mem {n : Numeral} (hn : n.negative = false) : ∀ c ∈ n.text, inNumeral c = true := by
  have hdigits : ∀ {ds : List Char}, IsDigits ds → ∀ c ∈ ds, inNumeral c = true := fun h c hc => by
    rw [inNumeral, h.2 c hc, Bool.true_or]
  have hfraction : ∀ c ∈ fractionText n.fraction, inNumeral c = true := by
    cases hf : n.fraction with
    | none => exact List.forall_mem_nil _
    | some fs => exact List.forall_mem_cons.2 ⟨rfl, hdigits (n.fraction_isDigits fs hf)⟩
  have hexponent : ∀ c ∈ exponentText n.exponent, inNumeral c = true := by
    cases n.exponent with
    | none => exact List.forall_mem_nil _
    | some e =>
      have hmark : ['e', 'E'].all inNumeral = true := by decide
      have hsign : ∀ s ∈ [[], ['+'], ['-']], s.all inNumeral = true := by decide
      exact List.forall_mem_cons.2 ⟨List.all_eq_true.1 hmark _ e.mark_mem,
        List.forall_mem_append.2 ⟨List.all_eq_true.1 (hsign _ e.sign_mem), hdigits e.isDigits⟩⟩
  rw [text, hn]
  exact List.forall_mem_append.2 ⟨List.forall_mem_nil _,
    List.forall_mem_append.2 ⟨hdigits n.whole_isDigits, List.forall_mem_append.2 ⟨hfraction, hexponent⟩⟩⟩

/-- A numeral starts with a digit. -/
theorem Numeral.text_eq_cons {n : Numeral} (hn : n.negative = false) : ∃ d ds, n.text = d :: ds ∧ d.isDigit = true := by
  obtain ⟨d, ds, hd, hdigit⟩ := n.whole_isDigits.exists_cons
  exact ⟨d, _, by rw [text, hn, hd]; rfl, hdigit⟩

end JsonText

open JsonText

/-! ## Reading spellings -/

/-- The number that a spelling stands for. -/
def readNumber? (spelling : String) : Option Binary64 := (Decimal.read? spelling.toList).map (.ofDecimal false)

/-- What is read back is the number. -/
theorem readNumber?_spelling (rank : Fin magnitudes) :
    readNumber? (Literal.number (.finite false rank)).spelling = some (.finite false rank) := by
  obtain ⟨n, hn, htext, hvalue⟩ := exists_numeral_spelling rank
  rw [readNumber?, htext, n.read?_text hn, Option.map_some, hvalue]

end LoxSyntax
