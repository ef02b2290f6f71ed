/-
  LoxSyntax.Proofs.Printing.NumberForms — which numbers are spelled without an exponent.

  The shortest decimal of a double reads back as that double, and rounding keeps the order,
  so its leading digit stands below a power of ten exactly if the double does; the powers
  themselves, 10 ^ (-4) and 10 ^ 16, have themselves as their shortest decimals. So zero
  and the magnitudes from 10 ^ (-4) up to below 10 ^ 16 are spelled as digits around a
  point at most, and all others with an exponent that has a sign.

  - `place_shortest_le_iff`: the leading digit of a double against a power of ten.
  - `text_of_plain`, `text_of_not_plain`: the two forms of a text.
  - `exists_numeral_plain`, `exists_numeral_exponent`: the numerals that spell a number.
-/

import LoxSyntax.Proofs.Number.Order
import LoxSyntax.Proofs.Printing.Spelling

namespace LoxSyntax

namespace Binary64

/-- Below 10 ^ (-4), in units of 2 ^ (-1074). -/
def Tiny (rank : Nat) : Prop := scaled rank * 10 ^ 4 < Nat.pow 2 1074

/-- From 10 ^ 16 on. -/
def Huge (rank : Nat) : Prop := 10 ^ 16 * Nat.pow 2 1074 ≤ scaled rank

/-- Zero, or from 10 ^ (-4) up to below 10 ^ 16. -/
def Plain (rank : Nat) : Prop := rank = 0 ∨ ¬Tiny rank ∧ ¬Huge rank

instance (rank : Nat) : Decidable (Tiny rank) := inferInstanceAs (Decidable (_ < _))

instance (rank : Nat) : Decidable (Huge rank) := inferInstanceAs (Decidable (_ ≤ _))

instance (rank : Nat) : Decidable (Plain rank) := inferInstanceAs (Decidable (_ ∨ _))

/-! ## Against powers of ten -/

/-- The double nearest to 10 ^ (-4), which is above it. -/
def tenThousandth : Fin magnitudes := ⟨4547007122018943789, by decide⟩

/-- The double that is 10 ^ 16. -/
def tenQuadrillion : Fin magnitudes := ⟨4846369599423283200, by decide⟩

theorem shortest_tenThousandth : shortest tenThousandth = ⟨1, -4⟩ := by decide +kernel

theorem shortest_tenQuadrillion : shortest tenQuadrillion = ⟨1, 16⟩ := by decide +kernel

theorem huge_iff (rank : Nat) : Huge rank ↔ tenQuadrillion ≤ rank := by
  have hscaled : scaled tenQuadrillion = 10 ^ 16 * Nat.pow 2 1074 := by decide +kernel
  rw [Huge, ← hscaled, ← Nat.not_lt, scaled_lt_iff, Nat.not_lt]

theorem tiny_iff (rank : Nat) : Tiny rank ↔ rank < tenThousandth := by
  have hbelow : scaled (tenThousandth - 1) * 10 ^ 4 < Nat.pow 2 1074 := by decide +kernel
  have habove : Nat.pow 2 1074 ≤ scaled tenThousandth * 10 ^ 4 := by decide +kernel
  have hle : ∀ {a b : Nat}, a ≤ b → scaled a * 10 ^ 4 ≤ scaled b * 10 ^ 4 := fun {a b} h =>
    Nat.mul_le_mul_right _ (Nat.not_lt.1 fun hn => absurd (scaled_lt_iff.1 hn) (by omega))
  constructor
  · intro h
    by_contra hn
    exact absurd (Nat.lt_of_lt_of_le h habove) (Nat.not_lt.2 (hle (Nat.not_lt.1 hn)))
  · intro h
    exact Nat.lt_of_le_of_lt (hle (show rank ≤ tenThousandth - 1 by omega)) hbelow

/-- A double is below a power of ten that is its own shortest decimal if its leading digit is. -/
theorem place_shortest_le_iff {power rank : Fin magnitudes} {p : Int} (hp : shortest power = ⟨1, p⟩)
    (h : rank.val ≠ 0) : (shortest rank).place ≤ p ↔ rank.val < power.val := by
  have hpower : power.val ≠ 0 := by
    intro h0
    rw [shortest, if_pos h0] at hp
    cases hp
  have hback := ofDecimal_shortest rank
  have hback' := ofDecimal_shortest power
  rw [hp] at hback'
  rw [Decimal.place_le_iff (mt JsonText.rank_eq_zero_of_digits h)]
  constructor
  · intro hlt
    refine Nat.lt_of_le_of_ne (rank_le_of_le hback hback' h hpower ?_) fun he => ?_
    · rw [Nat.one_mul]
      exact Nat.le_of_lt hlt
    · -- the power itself has its digit one place higher
      rw [Fin.ext he, hp] at hlt
      simp at hlt
  · intro hlt
    by_contra hn
    refine absurd (rank_le_of_le hback' hback hpower h ?_) (Nat.not_le.2 hlt)
    rw [Nat.one_mul]
    exact Nat.not_lt.1 hn

theorem tiny_iff_place {rank : Fin magnitudes} (h : rank.val ≠ 0) : Tiny rank ↔ (shortest rank).place ≤ -4 := by
  rw [tiny_iff, place_shortest_le_iff shortest_tenThousandth h]

theorem huge_iff_place {rank : Fin magnitudes} (h : rank.val ≠ 0) : Huge rank ↔ 16 < (shortest rank).place := by
  rw [huge_iff, ← Int.not_le, place_shortest_le_iff shortest_tenQuadrillion h, Nat.not_lt]

theorem plain_iff_place (rank : Fin magnitudes) :
    Plain rank ↔ -4 < (shortest rank).place ∧ (shortest rank).place ≤ 16 := by
  by_cases h : rank.val = 0
  · have hz : shortest rank = ⟨0, 0⟩ := by rw [shortest, if_pos h]
    rw [hz]
    exact iff_of_true (.inl h) (by decide)
  · rw [Plain, tiny_iff_place h, huge_iff_place h]
    omega

/-! ## The two forms of a text -/

theorem text_of_plain {rank : Fin magnitudes} (h : Plain rank) : (shortest rank).text layout =
    Decimal.positional (Nat.toDigits 10 (shortest rank).digits) (shortest rank).place := by
  rw [plain_iff_place] at h
  rw [Decimal.text]
  exact if_pos (Bool.and_eq_true_iff.2 ⟨decide_eq_true h.1, decide_eq_true h.2⟩)

theorem text_of_not_plain {rank : Fin magnitudes} (h : ¬Plain rank) : (shortest rank).text layout =
    Decimal.scientific 2 (Nat.toDigits 10 (shortest rank).digits) ((shortest rank).place - 1) := by
  rw [plain_iff_place] at h
  rw [Decimal.text]
  refine if_neg fun hp => h ?_
  obtain ⟨hlow, hhigh⟩ := Bool.and_eq_true_iff.1 hp
  exact ⟨of_decide_eq_true hlow, of_decide_eq_true hhigh⟩

end Binary64

namespace JsonText

open Binary64

/-- Digits around a point at most. -/
theorem mem_positional {ds : List Char} (hds : ∀ c ∈ ds, c.isDigit = true) (point : Int) :
    ∀ c ∈ Decimal.positional ds point, c.isDigit = true ∨ c = '.' := by
  intro c hc
  unfold Decimal.positional at hc
  split at hc
  · simp only [List.cons_append, List.mem_cons, List.mem_append] at hc
    rcases hc with rfl | rfl | hc | hc
    · exact .inl rfl
    · exact .inr rfl
    · exact .inl (isDigit_zeros _ c hc)
    · exact .inl (hds c hc)
  · dsimp only at hc
    split at hc
    · simp only [List.mem_append, List.mem_cons, List.not_mem_nil, or_false] at hc
      rcases hc with (hc | hc) | rfl | rfl
      · exact .inl (hds c hc)
      · exact .inl (isDigit_zeros _ c hc)
      · exact .inr rfl
      · exact .inl rfl
    · rcases List.mem_append.1 hc with hc | hc
      · exact .inl (hds c (List.mem_of_mem_take hc))
      · rcases List.mem_cons.1 hc with rfl | hc
        · exact .inr rfl
        · exact .inl (hds c (List.mem_of_mem_drop hc))

theorem mem_of_mem_dropPointZero {c : Char} {cs : List Char} (h : c ∈ Literal.dropPointZero cs) : c ∈ cs := by
  unfold Literal.dropPointZero at h
  split at h
  · exact List.mem_of_mem_take h
  · exact h

/-- An exponent has a mark, which is no digit and no point. -/
theorem Numeral.exponent_eq_none {n : Numeral} (h : ∀ c ∈ n.text, c.isDigit = true ∨ c = '.') : n.exponent = none := by
  cases he : n.exponent with
  | none => rfl
  | some e =>
    have hmark : e.mark ∈ n.text := by simp [text, he, exponentText, Exponent.text]
    have hnot : ∀ m ∈ ['e', 'E'], ¬(m.isDigit = true ∨ m = '.') := by simp [Char.isDigit]
    exact absurd (h _ hmark) (hnot _ e.mark_mem)

/-- A plain number is spelled by a numeral without an exponent that stands for it. -/
theorem exists_numeral_plain {rank : Fin magnitudes} (h : Plain rank) : ∃ n : Numeral, n.negative = false ∧
    n.exponent = none ∧ (Literal.number (.finite false rank)).spelling.toList = n.text ∧
    ofDecimal false n.decimal = .finite false rank := by
  obtain ⟨n, hn, htext, hvalue⟩ := exists_numeral_spelling rank
  refine ⟨n, hn, Numeral.exponent_eq_none fun c hc => ?_, htext, hvalue⟩
  rw [← htext, Literal.spelling, String.toList_ofList] at hc
  have hc := mem_of_mem_dropPointZero hc
  rw [chars, text_of_plain h] at hc
  exact mem_positional (isDigits_toDigits _).2 _ c hc

theorem Numeral.dropPointZero_text {n : Numeral} (hn : n.negative = false) {e : Exponent} (he : n.exponent = some e) :
    Literal.dropPointZero n.text = n.text := by
  refine if_neg fun hdrop => ?_
  have hsplit := (List.take_append_drop (n.text.length - 2) n.text).symm
  rw [hdrop] at hsplit
  obtain ⟨-, -, hnone⟩ := n.eq_of_pointZero hn hsplit
  rw [he] at hnone
  cases hnone

/-- All others are spelled by a numeral with an exponent that has a sign. -/
theorem exists_numeral_exponent {rank : Fin magnitudes} (h : ¬Plain rank) : ∃ (n : Numeral) (e : Exponent),
    n.negative = false ∧ n.exponent = some e ∧ e.sign = [if Tiny rank then '-' else '+'] ∧
    (Literal.number (.finite false rank)).spelling.toList = n.text := by
  obtain ⟨n, hn, he, htext, -⟩ := exists_numeral_scientific false (shortest rank).digits (shortest rank).exponent
  rw [← Decimal.place] at he htext
  refine ⟨n, _, hn, he, ?_, ?_⟩
  · have hrank : rank.val ≠ 0 := fun h0 => h (.inl h0)
    have hsign : (shortest rank).place - 1 < 0 ↔ Tiny rank := by
      rw [plain_iff_place] at h
      rw [tiny_iff_place hrank]
      omega
    simp only [exponentOf, hsign]
  · rw [Literal.spelling, String.toList_ofList, chars, text_of_not_plain h, ← htext]
    exact n.dropPointZero_text hn he

end JsonText

end LoxSyntax
