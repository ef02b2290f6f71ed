/-
  LoxSyntax.Proofs.Json.Numeral — numbers as RFC 8259 writes them.

  A numeral is an optional minus, a whole part without leading zeros, and an optional
  fraction and exponent. Without these two it stands for an integer, else for the nearest
  double. What may stand behind a numeral is anything that cannot go on with one; then its
  end is determined, and so is each of its parts.

  - `Numeral.value`: what a numeral stands for.
  - `Numeral.unique`: a numeral is determined by the characters.
-/

import LoxSyntax.Json
import LoxSyntax.Proofs.Lexical.Segment

namespace LoxSyntax.JsonText

open Lexical

/-! ## Numerals -/

/-- One digit or more. -/
def IsDigits (ds : List Char) : Prop := ds ≠ [] ∧ ∀ c ∈ ds, c.isDigit = true

@[ext]
structure Exponent where
  mark : Char
  sign : List Char
  digits : List Char
  mark_mem : mark ∈ ['e', 'E']
  sign_mem : sign ∈ [[], ['+'], ['-']]
  isDigits : IsDigits digits

@[ext]
structure Numeral where
  negative : Bool
  whole : List Char
  fraction : Option (List Char)
  exponent : Option Exponent
  whole_isDigits : IsDigits whole
  /-- There are no leading zeros. -/
  whole_zero : whole.head? = some '0' → whole = ['0']
  fraction_isDigits : ∀ fs ∈ fraction, IsDigits fs

def digitsValue (ds : List Char) : Nat := Nat.ofDigitChars 10 ds 0

namespace Exponent

def text (e : Exponent) : List Char := e.mark :: (e.sign ++ e.digits)

def value (e : Exponent) : Int := if e.sign = ['-'] then -digitsValue e.digits else digitsValue e.digits

end Exponent

namespace Numeral

def fractionText : Option (List Char) → List Char
  | none => []
  | some fs => '.' :: fs

def exponentText : Option Exponent → List Char
  | none => []
  | some e => e.text

def text (n : Numeral) : List Char :=
  Binary64.signText n.negative ++ (n.whole ++ (fractionText n.fraction ++ exponentText n.exponent))

/-- The magnitude that is written, with all digits of the fraction. -/
def decimal (n : Numeral) : Decimal :=
  let fraction := n.fraction.getD []
  ⟨digitsValue (n.whole ++ fraction), (n.exponent.map Exponent.value).getD 0 - fraction.length⟩

/-- What a numeral stands for: an integer if it has neither a fraction nor an exponent, else
    the nearest double. -/
def value (n : Numeral) : Json :=
  if n.fraction = none ∧ n.exponent.isNone then
    .integer (if n.negative then -digitsValue n.whole else digitsValue n.whole)
  else .number (.ofDecimal n.negative n.decimal)

end Numeral

/-! ## What may stand behind -/

/-- The characters that can stand in a numeral. -/
def inNumeral (c : Char) : Bool := c.isDigit || ['.', 'e', 'E', '+', '-'].contains c

/-- What stands behind does not go on with a numeral. -/
def Ends (rest : List Char) : Prop := Stops inNumeral rest

variable {w w' r r' : List Char} {p q : Char → Bool}

/-- A run is determined by where it stops. -/
theorem run_unique (hw : ∀ c ∈ w, p c = true) (hw' : ∀ c ∈ w', p c = true) (hr : Stops p r) (hr' : Stops p r')
    (h : w ++ r = w' ++ r') : w = w' ∧ r = r' := by
  have ht := takeWhile_run hw hr
  have hd := dropWhile_run hw hr
  rw [h, takeWhile_run hw' hr'] at ht
  rw [h, dropWhile_run hw' hr'] at hd
  exact ⟨ht.symm, hd.symm⟩

theorem Stops.imp (h : ∀ c, q c = true → p c = true) (hr : Stops p r) : Stops q r := by
  intro c hc
  have := hr c hc
  rw [Bool.eq_false_iff] at this ⊢
  exact fun hq => this (h c hq)

theorem Ends.stops_digits (h : Ends r) : Stops Char.isDigit r := Stops.imp (fun c hc => by simp [inNumeral, hc]) h

theorem Ends.not_cons {c : Char} (h : Ends (c :: r)) (hc : inNumeral c = true) : False := by
  have := h c rfl
  rw [hc] at this
  cases this

/-! ## A numeral is determined -/

/-- Digits have a digit in front. -/
theorem IsDigits.exists_cons {ds : List Char} (h : IsDigits ds) : ∃ d t, ds = d :: t ∧ d.isDigit = true := by
  obtain ⟨hne, hd⟩ := h
  obtain ⟨d, t, rfl⟩ := List.exists_cons_of_ne_nil hne
  exact ⟨d, t, rfl, hd d List.mem_cons_self⟩

theorem IsDigits.stops {ds : List Char} (h : IsDigits ds) (hp : ∀ d, d.isDigit = true → p d = false)
    (rest : List Char) :
    Stops p (ds ++ rest) := by
  obtain ⟨d, t, rfl, hd⟩ := h.exists_cons
  exact stops_cons.2 (hp d hd)

theorem ne_of_isDigit {d c : Char} (hd : d.isDigit = true) (hc : c.isDigit = false) : d ≠ c := by
  rintro rfl
  rw [hd] at hc
  cases hc

/-- What stands behind the digits of a numeral. -/
theorem stops_exponentText {e : Option Exponent} (hp : p 'e' = false ∧ p 'E' = false) (hr : Stops p r) :
    Stops p (Numeral.exponentText e ++ r) := by
  cases e with
  | none => exact hr
  | some e =>
    have hm := e.mark_mem
    refine stops_cons.2 ?_
    simp only [List.mem_cons, List.not_mem_nil, or_false] at hm
    rcases hm with hm | hm <;> rw [hm]
    · exact hp.1
    · exact hp.2

theorem stops_fractionText {f : Option (List Char)} (hp : p '.' = false) (hr : Stops p r) :
    Stops p (Numeral.fractionText f ++ r) := by
  cases f with
  | none => exact hr
  | some fs => exact stops_cons.2 hp

theorem Exponent.unique {e e' : Exponent} (h : e.text ++ r = e'.text ++ r') (hr : Ends r) (hr' : Ends r') :
    e = e' ∧ r = r' := by
  have isSign : ∀ {s : List Char}, s ∈ [[], ['+'], ['-']] → ∀ c ∈ s, ['+', '-'].contains c = true := by simp
  have notSign : ∀ d : Char, d.isDigit = true → ['+', '-'].contains d = false := by
    intro d hd
    simp [ne_of_isDigit hd (show Char.isDigit '+' = false from rfl),
      ne_of_isDigit hd (show Char.isDigit '-' = false from rfl)]
  simp only [text, List.cons_append, List.append_assoc] at h
  obtain ⟨hm, h⟩ := List.cons.inj h
  obtain ⟨hs, h⟩ := run_unique (isSign e.sign_mem) (isSign e'.sign_mem) (e.isDigits.stops notSign r)
    (e'.isDigits.stops notSign r') h
  obtain ⟨hd, h⟩ := run_unique e.isDigits.2 e'.isDigits.2 hr.stops_digits hr'.stops_digits h
  exact ⟨Exponent.ext hm hs hd, h⟩

theorem exponentText_unique {e e' : Option Exponent}
    (h : Numeral.exponentText e ++ r = Numeral.exponentText e' ++ r') (hr : Ends r) (hr' : Ends r') :
    e = e' ∧ r = r' := by
  have hmark : ∀ e : Exponent, inNumeral e.mark = true := by
    intro e
    have hm := e.mark_mem
    simp only [List.mem_cons, List.not_mem_nil, or_false] at hm
    rcases hm with hm | hm <;> rw [hm] <;> rfl
  cases e with
  | none =>
    cases e' with
    | none => exact ⟨rfl, h⟩
    | some e' =>
      obtain rfl : r = e'.text ++ r' := h
      exact (hr.not_cons (hmark e')).elim
  | some e =>
    cases e' with
    | none =>
      obtain rfl : e.text ++ r = r' := h
      exact (hr'.not_cons (hmark e)).elim
    | some e' =>
      obtain ⟨rfl, hrest⟩ := Exponent.unique h hr hr'
      exact ⟨rfl, hrest⟩

theorem fractionText_unique {f f' : Option (List Char)} (hf : ∀ fs ∈ f, IsDigits fs) (hf' : ∀ fs ∈ f', IsDigits fs)
    (hd : Stops Char.isDigit r) (hd' : Stops Char.isDigit r') (hp : Stops (· == '.') r) (hp' : Stops (· == '.') r')
    (h : Numeral.fractionText f ++ r = Numeral.fractionText f' ++ r') : f = f' ∧ r = r' := by
  cases f with
  | none =>
    cases f' with
    | none => exact ⟨rfl, h⟩
    | some fs' =>
      obtain rfl : r = '.' :: (fs' ++ r') := h
      exact absurd (stops_cons.1 hp) (by simp)
  | some fs =>
    cases f' with
    | none =>
      obtain rfl : '.' :: (fs ++ r) = r' := h
      exact absurd (stops_cons.1 hp') (by simp)
    | some fs' =>
      obtain ⟨-, h⟩ := List.cons.inj h
      obtain ⟨rfl, hrest⟩ := run_unique (hf fs rfl).2 (hf' fs' rfl).2 hd hd' h
      exact ⟨rfl, hrest⟩

theorem signText_unique {s s' : Bool} (hr : Stops (· == '-') r) (hr' : Stops (· == '-') r')
    (h : Binary64.signText s ++ r = Binary64.signText s' ++ r') : s = s' ∧ r = r' := by
  have isMinus : ∀ s, ∀ c ∈ Binary64.signText s, (c == '-') = true := by
    intro s
    cases s <;> simp [Binary64.signText]
  obtain ⟨hs, h⟩ := run_unique (isMinus s) (isMinus s') hr hr' h
  refine ⟨?_, h⟩
  cases s <;> cases s' <;> first | rfl | cases hs

/-- A numeral is determined by the characters. -/
theorem Numeral.unique {n n' : Numeral} (h : n.text ++ r = n'.text ++ r') (hr : Ends r) (hr' : Ends r') :
    n = n' ∧ r = r' := by
  have notMinus : ∀ d : Char, d.isDigit = true → (d == '-') = false := by
    intro d hd
    simpa using ne_of_isDigit hd (show Char.isDigit '-' = false from rfl)
  have hpoint : ∀ {r}, Ends r → Stops (· == '.') r := by
    intro r hr
    exact Stops.imp (fun c hc => by rw [beq_iff_eq.1 hc]; rfl) hr
  simp only [text, List.append_assoc] at h
  obtain ⟨hs, h⟩ := signText_unique (n.whole_isDigits.stops notMinus _) (n'.whole_isDigits.stops notMinus _) h
  have hdigits : ∀ (n : Numeral) {r}, Ends r → Stops Char.isDigit (exponentText n.exponent ++ r) :=
    fun n r hr => stops_exponentText ⟨rfl, rfl⟩ hr.stops_digits
  obtain ⟨hw, h⟩ := run_unique n.whole_isDigits.2 n'.whole_isDigits.2 (stops_fractionText rfl (hdigits n hr))
    (stops_fractionText rfl (hdigits n' hr')) h
  obtain ⟨hf, h⟩ := fractionText_unique n.fraction_isDigits n'.fraction_isDigits (hdigits n hr) (hdigits n' hr')
    (stops_exponentText ⟨rfl, rfl⟩ (hpoint hr)) (stops_exponentText ⟨rfl, rfl⟩ (hpoint hr')) h
  obtain ⟨he, h⟩ := exponentText_unique h hr hr'
  exact ⟨Numeral.ext hs hw hf he, h⟩

end LoxSyntax.JsonText
