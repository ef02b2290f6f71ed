/-
  LoxSyntax.Proofs.Json.WrittenNumber — numbers are written as numerals that stand for them.

  The digits of a natural number have no zero in front. A decimal text moves the point or
  adds an exponent, and each of its forms is a numeral of the same decimal, but for whole
  numbers of more than their digits, where the zeros are written out. The nearest double of
  the shortest decimal is the number that it was made from.

  - `exists_numeral_integer`: integers.
  - `writes_text`: the text of a decimal, in each of its forms.
  - `exists_numeral_finite`: finite doubles.
-/

import Mathlib.Tactic.Ring
import LoxSyntax.Proofs.Json.Numeral

namespace LoxSyntax.JsonText

/-! ## Digits of natural numbers -/

theorem isDigits_toDigits (n : Nat) : IsDigits (Nat.toDigits 10 n) :=
  ⟨Nat.toDigits_ne_nil, fun _ hc => Nat.isDigit_of_mem_toDigits (by decide) (by decide) hc⟩

/-- No zero stands in front. -/
theorem head?_toDigits {n : Nat} (h : n ≠ 0) : (Nat.toDigits 10 n).head? ≠ some '0' := by
  induction n using Nat.strongRecOn with
  | ind n ih =>
    by_cases hn : n < 10
    · rw [Nat.toDigits_of_lt_base hn]
      have hdigit : ∀ m, m < 10 → m ≠ 0 → ([Nat.digitChar m] : List Char).head? ≠ some '0' := by decide
      exact hdigit n hn h
    · have ih := ih (n / 10) (by omega) (by omega)
      obtain ⟨d, t, hd, -⟩ := (isDigits_toDigits (n / 10)).exists_cons
      rw [Nat.toDigits_of_base_le (by decide) (by omega), hd]
      rwa [hd] at ih

theorem toDigits_zero_first {n : Nat} (h : (Nat.toDigits 10 n).head? = some '0') : Nat.toDigits 10 n = ['0'] := by
  by_cases hn : n = 0
  · rw [hn]
    rfl
  · exact absurd h (head?_toDigits hn)

@[simp] theorem digitsValue_toDigits (n : Nat) : digitsValue (Nat.toDigits 10 n) = n := Nat.ofDigitChars_ten_toDigits

@[simp] theorem digitsValue_zeros_append (k : Nat) (ds : List Char) :
    digitsValue (Decimal.zeros k ++ ds) = digitsValue ds := by
  rw [digitsValue, digitsValue, Decimal.zeros, Nat.ofDigitChars_append, Nat.ofDigitChars_replicate_zero, Nat.mul_zero]

theorem digitsValue_append_zeros (ds : List Char) (k : Nat) :
    digitsValue (ds ++ Decimal.zeros k) = 10 ^ k * digitsValue ds := by
  rw [digitsValue, digitsValue, Decimal.zeros, Nat.ofDigitChars_append, Nat.ofDigitChars_replicate_zero]

theorem isDigit_zeros (k : Nat) : ∀ c ∈ Decimal.zeros k, c.isDigit = true := by
  intro c hc
  rw [List.eq_of_mem_replicate hc]
  rfl

/-! ## Integers -/

/-- The numeral of an integer. -/
def integerNumeral (negative : Bool) (n : Nat) : Numeral where
  negative := negative
  whole := Nat.toDigits 10 n
  fraction := none
  exponent := none
  whole_isDigits := isDigits_toDigits n
  whole_zero := toDigits_zero_first
  fraction_isDigits _ h := nomatch h

theorem exists_numeral_integer (i : Int) : ∃ n : Numeral, n.text = (toString i).toList ∧ n.value = .integer i := by
  cases i with
  | ofNat n =>
    have ht : toString (Int.ofNat n) = n.repr := rfl
    refine ⟨integerNumeral false n, ?_, ?_⟩
    · rw [ht]
      simp [integerNumeral, Numeral.text, Binary64.signText, Numeral.fractionText, Numeral.exponentText, Nat.repr]
    · simp [integerNumeral, Numeral.value]
  | negSucc n =>
    have ht : toString (Int.negSucc n) = "-" ++ (n + 1).repr := rfl
    refine ⟨integerNumeral true (n + 1), ?_, ?_⟩
    · rw [ht]
      simp [integerNumeral, Numeral.text, Binary64.signText, Numeral.fractionText, Numeral.exponentText, Nat.repr]
    · simp [integerNumeral, Numeral.value, Int.negSucc_eq]

/-! ## Doubles of decimals -/

open Binary64

theorem nearest_of_false {n d : Nat} {rank : Fin magnitudes} (h : nearest false n d = .finite false rank)
    (negative : Bool) :
    nearest negative n d = .finite negative rank := by
  unfold nearest at h ⊢
  split at h
  · next hlt =>
    rw [dif_pos hlt]
    cases h
    rfl
  · cases h

/-- The sign is kept apart. -/
theorem ofDecimal_of_false {d : Decimal} {rank : Fin magnitudes} (h : ofDecimal false d = .finite false rank)
    (negative : Bool) : ofDecimal negative d = .finite negative rank := by
  unfold ofDecimal at h ⊢
  split at h
  · next hz =>
    rw [if_pos hz]
    cases h
    rfl
  · next hz =>
    rw [if_neg hz]
    split at h
    · cases h
    · next hbig =>
      rw [if_neg hbig]
      split at h
      · exact nearest_of_false h negative
      · exact nearest_of_false h negative

/-- A whole number, with the zeros of its exponent and one more behind the point. -/
theorem ofDecimal_shift (negative : Bool) (m : Nat) {k : Nat} (hk : k < 400) :
    ofDecimal negative ⟨10 ^ (k + 1) * m, -1⟩ = ofDecimal negative ⟨m, k⟩ := by
  by_cases hm : m = 0
  · subst hm
    simp [ofDecimal]
  · have hne : 10 ^ (k + 1) * m ≠ 0 := Nat.mul_ne_zero (by simp) hm
    rw [show (-1 : Int) = -(1 : Nat) from rfl, ofDecimal_neg negative hne (by decide) (by omega)]
    have hlow : ¬((k : Int) + Nat.log2 m + 1 < -330) := by omega
    have hhigh : ¬(400 ≤ (k : Int)) := by omega
    have hscale : 10 ^ (k + 1) * m * Nat.pow 2 1074 = m * Nat.pow 10 k * Nat.pow 2 1074 * 10 := by
      rw [Nat.pow_succ, show Nat.pow 10 k = 10 ^ k from rfl]
      ring
    simp only [ofDecimal, hm, hlow, hhigh, decide_false, Bool.or_self, Bool.false_eq_true, if_false]
    show nearest _ _ _ = nearest negative (m * Nat.pow 10 k * Nat.pow 2 1074) 1
    have hrank := rankOf_mul_right (m * Nat.pow 10 k * Nat.pow 2 1074) 1 10 (by decide)
    rw [← hscale] at hrank
    unfold nearest
    rw [show Nat.pow 10 1 = 1 * 10 from rfl, hrank]

/-! ## Texts of decimals -/

/-- A numeral with a fraction. -/
def fractional (negative : Bool) (whole fraction : List Char) (exponent : Option Exponent) (hw : IsDigits whole)
    (hz : whole.head? = some '0' → whole = ['0']) (hf : IsDigits fraction) : Numeral where
  negative := negative
  whole := whole
  fraction := some fraction
  exponent := exponent
  whole_isDigits := hw
  whole_zero := hz
  fraction_isDigits _ h := Option.some.inj h ▸ hf

/-- A numeral with an exponent alone. -/
def exponential (negative : Bool) (whole : List Char) (exponent : Exponent) (hw : IsDigits whole)
    (hz : whole.head? = some '0' → whole = ['0']) : Numeral where
  negative := negative
  whole := whole
  fraction := none
  exponent := some exponent
  whole_isDigits := hw
  whole_zero := hz
  fraction_isDigits _ h := nomatch h

/-- The decimal has a numeral of the text that stands for its nearest double. -/
def Writes (negative : Bool) (cs : List Char) (d : Decimal) : Prop :=
  ∃ n : Numeral, n.text = signText negative ++ cs ∧ n.value = .number (ofDecimal negative d)

variable {whole fraction : List Char}

theorem value_fractional (negative : Bool) (exponent : Option Exponent) (hw : IsDigits whole)
    (hz : whole.head? = some '0' → whole = ['0']) (hf : IsDigits fraction) :
    (fractional negative whole fraction exponent hw hz hf).value = .number (ofDecimal negative
      ⟨digitsValue (whole ++ fraction), (exponent.map Exponent.value).getD 0 - fraction.length⟩) := by
  simp [fractional, Numeral.value, Numeral.decimal]

theorem value_exponential (negative : Bool) (exponent : Exponent) (hw : IsDigits whole)
    (hz : whole.head? = some '0' → whole = ['0']) : (exponential negative whole exponent hw hz).value =
      .number (ofDecimal negative ⟨digitsValue whole, exponent.value⟩) := by
  simp [exponential, Numeral.value, Numeral.decimal]

theorem writes_fractional (negative : Bool) (exponent : Option Exponent) (hw : IsDigits whole)
    (hz : whole.head? = some '0' → whole = ['0']) (hf : IsDigits fraction) :
    Writes negative (whole ++ '.' :: (fraction ++ Numeral.exponentText exponent))
      ⟨digitsValue (whole ++ fraction), (exponent.map Exponent.value).getD 0 - fraction.length⟩ :=
  ⟨fractional negative whole fraction exponent hw hz hf, rfl, value_fractional negative exponent hw hz hf⟩

theorem isDigits_zero : IsDigits ['0'] := isDigits_toDigits 0

/-- All digits stand behind the point. -/
theorem writes_below (negative : Bool) (m k : Nat) :
    Writes negative ('0' :: '.' :: Decimal.zeros k ++ Nat.toDigits 10 m)
      ⟨m, -(k + (Nat.toDigits 10 m).length : Nat)⟩ := by
  have hf : IsDigits (Decimal.zeros k ++ Nat.toDigits 10 m) :=
    ⟨by simp, List.forall_mem_append.2 ⟨isDigit_zeros k, (isDigits_toDigits m).2⟩⟩
  have hv : digitsValue (['0'] ++ (Decimal.zeros k ++ Nat.toDigits 10 m)) = m := by
    rw [show ['0'] = Decimal.zeros 1 from rfl, digitsValue_zeros_append, digitsValue_zeros_append, digitsValue_toDigits]
  have h := writes_fractional negative none isDigits_zero (fun _ => rfl) hf
  rw [hv] at h
  simpa [Numeral.exponentText, Decimal.zeros] using h

/-- The point stands among the digits. -/
theorem writes_among (negative : Bool) (m : Nat) {n : Nat} (h0 : 0 < n) (hn : n < (Nat.toDigits 10 m).length) :
    Writes negative ((Nat.toDigits 10 m).take n ++ '.' :: (Nat.toDigits 10 m).drop n)
      ⟨m, n - (Nat.toDigits 10 m).length⟩ := by
  have hds := isDigits_toDigits m
  have hw : IsDigits ((Nat.toDigits 10 m).take n) :=
    ⟨by simp; omega, fun c hc => hds.2 c (List.mem_of_mem_take hc)⟩
  have hf : IsDigits ((Nat.toDigits 10 m).drop n) :=
    ⟨by simp; omega, fun c hc => hds.2 c (List.mem_of_mem_drop hc)⟩
  have hz : ((Nat.toDigits 10 m).take n).head? = some '0' → (Nat.toDigits 10 m).take n = ['0'] := by
    intro h
    rw [List.head?_take, if_neg (by omega)] at h
    rw [toDigits_zero_first h] at hn
    simp at hn
    omega
  have h := writes_fractional negative none hw hz hf
  have he : (0 : Int) - ((Nat.toDigits 10 m).drop n).length = n - (Nat.toDigits 10 m).length := by
    rw [List.length_drop]
    omega
  rw [List.take_append_drop, digitsValue_toDigits, Option.map_none, Option.getD_none, he] at h
  simpa [Numeral.exponentText] using h

/-- The point stands behind the digits and some zeros. -/
theorem writes_above (negative : Bool) {m k : Nat} (hm : m = 0 → k = 0) (hk : k < 400) :
    Writes negative (Nat.toDigits 10 m ++ Decimal.zeros k ++ ['.', '0']) ⟨m, k⟩ := by
  have hds := isDigits_toDigits m
  have hw : IsDigits (Nat.toDigits 10 m ++ Decimal.zeros k) :=
    ⟨by simp, List.forall_mem_append.2 ⟨hds.2, isDigit_zeros k⟩⟩
  have hz : (Nat.toDigits 10 m ++ Decimal.zeros k).head? = some '0' → Nat.toDigits 10 m ++ Decimal.zeros k = ['0'] := by
    obtain ⟨d, t, hd, -⟩ := hds.exists_cons
    intro h
    have h0 : m = 0 := by
      by_contra h0
      exact head?_toDigits h0 (by simpa [hd] using h)
    rw [hm h0, h0]
    rfl
  have h := writes_fractional negative none hw hz isDigits_zero
  have hv : digitsValue (Nat.toDigits 10 m ++ Decimal.zeros k ++ ['0']) = 10 ^ (k + 1) * m := by
    rw [List.append_assoc, show Decimal.zeros k ++ ['0'] = Decimal.zeros (k + 1) from List.replicate_succ'.symm,
      digitsValue_append_zeros, digitsValue_toDigits]
  obtain ⟨n, ht, hval⟩ := h
  refine ⟨n, by simpa [Numeral.exponentText] using ht, ?_⟩
  rw [hval, hv]
  exact congrArg Json.number (ofDecimal_shift negative m hk)

/-- The exponent of a power of ten, of two digits at least. -/
def exponentOf (e : Int) : Exponent where
  mark := 'e'
  sign := [if e < 0 then '-' else '+']
  digits := Decimal.zeros (2 - (Nat.toDigits 10 e.natAbs).length) ++ Nat.toDigits 10 e.natAbs
  mark_mem := List.mem_cons_self
  sign_mem := by split <;> simp
  isDigits := ⟨by simp, List.forall_mem_append.2 ⟨isDigit_zeros _, (isDigits_toDigits _).2⟩⟩

theorem value_exponentOf (e : Int) : (exponentOf e).value = e := by
  simp only [Exponent.value, exponentOf, digitsValue_zeros_append, digitsValue_toDigits]
  by_cases h : e < 0
  · simp only [h, if_true]
    omega
  · simp only [h, if_false, List.cons.injEq, and_true, Char.reduceEq]
    omega

/-- One digit stands in front of the point, and an exponent behind. -/
theorem exists_numeral_scientific (negative : Bool) (m : Nat) (e : Int) : ∃ n : Numeral, n.negative = negative ∧
    n.exponent = some (exponentOf (e + (Nat.toDigits 10 m).length - 1)) ∧
    n.text = signText negative ++
      Decimal.scientific 2 (Nat.toDigits 10 m) (e + (Nat.toDigits 10 m).length - 1) ∧
    n.value = .number (ofDecimal negative ⟨m, e⟩) := by
  have hds := isDigits_toDigits m
  have hm := digitsValue_toDigits m
  obtain ⟨d, ds, hd, -⟩ := hds.exists_cons
  rw [hd] at hds hm ⊢
  have hw : IsDigits [d] := ⟨by simp, fun c hc => hds.2 c (by simp_all)⟩
  have hz : [d].head? = some '0' → [d] = ['0'] := by simp
  cases ds with
  | nil =>
    have he : e + ([d] : List Char).length - 1 = e := by simp
    refine ⟨exponential negative [d] (exponentOf (e + ([d] : List Char).length - 1)) hw hz, rfl, rfl, rfl, ?_⟩
    rw [value_exponential, value_exponentOf, hm, he]
  | cons d' ds =>
    have hf : IsDigits (d' :: ds) := ⟨by simp, (List.forall_mem_cons.1 hds.2).2⟩
    have he : e + ((d :: d' :: ds).length : Nat) - 1 - ((d' :: ds).length : Nat) = e := by
      simp only [List.length_cons]
      omega
    refine ⟨fractional negative [d] (d' :: ds) (some (exponentOf (e + (d :: d' :: ds).length - 1))) hw hz hf, rfl, rfl,
      rfl, ?_⟩
    rw [value_fractional, Option.map_some, Option.getD_some, value_exponentOf, he,
      show [d] ++ d' :: ds = d :: d' :: ds from rfl, hm]

theorem writes_scientific (negative : Bool) (m : Nat) (e : Int) :
    Writes negative (Decimal.scientific 2 (Nat.toDigits 10 m) (e + (Nat.toDigits 10 m).length - 1)) ⟨m, e⟩ := by
  obtain ⟨n, -, -, htext, hvalue⟩ := exists_numeral_scientific negative m e
  exact ⟨n, htext, hvalue⟩

/-- The point stands anywhere, up to some zeros behind the digits. -/
theorem writes_positional (negative : Bool) {m : Nat} {e point : Int} (hm : m = 0 → e = 0)
    (hpoint : point = e + (Nat.toDigits 10 m).length) (hmost : point ≤ 16) :
    Writes negative (Decimal.positional (Nat.toDigits 10 m) point) ⟨m, e⟩ := by
  have hlen : 0 < (Nat.toDigits 10 m).length := List.length_pos_iff.2 (isDigits_toDigits m).1
  unfold Decimal.positional
  by_cases hbelow : point ≤ 0
  · have he : -(((-point).toNat + (Nat.toDigits 10 m).length : Nat) : Int) = e := by omega
    have h := writes_below negative m (-point).toNat
    rw [he] at h
    rw [if_pos hbelow]
    exact h
  · rw [if_neg hbelow]
    by_cases hle : (Nat.toDigits 10 m).length ≤ point.toNat
    · obtain ⟨k, hk⟩ : ∃ k : Nat, point.toNat = (Nat.toDigits 10 m).length + k := Nat.exists_eq_add_of_le hle
      have he : (k : Int) = e := by omega
      have hk0 : m = 0 → k = 0 := by
        intro h0
        have := hm h0
        omega
      have h := writes_above negative hk0 (by omega)
      rw [he] at h
      simp only [hk, Nat.le_add_right, if_true, Nat.add_sub_cancel_left]
      exact h
    · have he : (point.toNat : Int) - (Nat.toDigits 10 m).length = e := by omega
      have h := writes_among negative m (show 0 < point.toNat by omega) (by omega)
      rw [he] at h
      simp only [hle, if_false]
      exact h

/-- A decimal is written by a numeral that stands for its nearest double. -/
theorem writes_text (negative : Bool) {d : Decimal} (hd : d.digits = 0 → d.exponent = 0) :
    Writes negative (d.text layout) d := by
  obtain ⟨m, e⟩ := d
  unfold Decimal.text
  by_cases hp : (decide (layout.leastPositional < e + (Nat.toDigits 10 m).length) &&
      decide (e + (Nat.toDigits 10 m).length ≤ layout.mostPositional + 1)) = true
  · have hmost : e + (Nat.toDigits 10 m).length ≤ 16 := by
      simp only [Bool.and_eq_true, decide_eq_true_eq] at hp
      exact hp.2
    simp only [hp, if_true]
    exact writes_positional negative hd rfl hmost
  · simp only [hp, Bool.false_eq_true, if_false]
    exact writes_scientific negative m e

/-! ## Doubles -/

/-- The shortest decimal has no digit but zero only for zero. -/
theorem rank_eq_zero_of_digits {rank : Fin magnitudes} (h : (shortest rank).digits = 0) : rank.val = 0 := by
  have hback := ofDecimal_shortest rank
  simp only [ofDecimal, h, decide_true, Bool.true_or, if_true, zero] at hback
  cases hback
  rfl

theorem exponent_shortest (rank : Fin magnitudes) (h : (shortest rank).digits = 0) : (shortest rank).exponent = 0 := by
  simp [shortest, rank_eq_zero_of_digits h]

/-- A finite double is written by a numeral that stands for it. -/
theorem exists_numeral_finite (negative : Bool) (rank : Fin magnitudes) : ∃ n : Numeral,
    n.text = (Binary64.finite negative rank).chars ∧ n.value = .number (.finite negative rank) := by
  obtain ⟨n, ht, hv⟩ := writes_text negative (exponent_shortest rank)
  rw [ofDecimal_of_false (ofDecimal_shortest rank)] at hv
  exact ⟨n, ht, hv⟩

end LoxSyntax.JsonText
