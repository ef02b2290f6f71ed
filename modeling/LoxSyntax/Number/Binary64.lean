/-
  LoxSyntax.Number.Binary64 — double precision numbers, exactly and without hardware.

  The finite magnitudes are counted from zero upwards: a magnitude is its rank, and the
  rank is also the bit pattern of the number without its sign. Ranks below 2 ^ 53 are
  that many units of 2 ^ (-1074); from there on the unit doubles every 2 ^ 52 ranks.

  Rounding takes a quotient of natural numbers of units to the nearest rank, a half to
  the even one. A carry into the next binade needs no case of its own, since the ranks
  run on, and a rank that is not there is infinity.

  - `rankOf_scaled`: a magnitude is its own rounding.
  - `same_zero`: the two zeros compare as the same number, and nan as none.
-/

import LoxSyntax.Number.Decimal

namespace LoxSyntax

/-- How many finite magnitudes there are: 2047 binades of 2 ^ 52. -/
def magnitudes : Nat := 2047 * Nat.pow 2 52

inductive Binary64 where
  | finite (negative : Bool) (rank : Fin magnitudes)
  | infinite (negative : Bool)
  | nan
  deriving DecidableEq, Repr

namespace Binary64

/-- The magnitude of a rank, in units of 2 ^ (-1074). -/
def scaled (rank : Nat) : Nat :=
  if rank < Nat.pow 2 52 then rank
  else (Nat.pow 2 52 + rank % Nat.pow 2 52) * Nat.pow 2 (rank / Nat.pow 2 52 - 1)

/-- The natural number nearest to `n / d`, a half going to the even one. -/
def roundHalfEven (n d : Nat) : Nat :=
  let q := n / d
  let r := n % d
  if 2 * r < d then q else if d < 2 * r then q + 1 else q + q % 2

/-- The rank nearest to `n / d` units. -/
def rankOf (n d : Nat) : Nat :=
  let shift := Nat.log2 (n / d) - 52
  shift * Nat.pow 2 52 + roundHalfEven n (d * Nat.pow 2 shift)

def nearest (negative : Bool) (n d : Nat) : Binary64 :=
  if h : rankOf n d < magnitudes then .finite negative ⟨rankOf n d, h⟩ else .infinite negative

def zero (negative : Bool) : Binary64 := .finite negative ⟨0, by decide⟩

def one : Binary64 := .finite false ⟨1023 * Nat.pow 2 52, by decide⟩

/-- The number nearest to a decimal. From 10 ^ 400 on that is infinity, and below
    10 ^ (-330) zero; these two cases keep the powers of ten small. -/
def ofDecimal (negative : Bool) (d : Decimal) : Binary64 :=
  if d.digits = 0 || d.exponent + Nat.log2 d.digits + 1 < -330 then zero negative
  else if 400 ≤ d.exponent then .infinite negative
  else match d.exponent with
    | .ofNat e => nearest negative (d.digits * Nat.pow 10 e * Nat.pow 2 1074) 1
    | .negSucc e => nearest negative (d.digits * Nat.pow 2 1074) (Nat.pow 10 (e + 1))

def isZero : Binary64 → Bool
  | .finite _ rank => rank.val == 0
  | _ => false

/-- Equality of numbers: the zeros are one number, and nan equals nothing. -/
def same (x y : Binary64) : Bool :=
  (x.isZero && y.isZero) || (x == y && x != .nan)

theorem same_zero (a b : Bool) : same (zero a) (zero b) = true ∧ same nan nan = false := by
  cases a <;> cases b <;> exact ⟨rfl, rfl⟩

/-! ## A magnitude is its own rounding -/

theorem roundHalfEven_of_mul (m d : Nat) (hd : 0 < d) : roundHalfEven (m * d) d = m := by
  simp [roundHalfEven, Nat.mul_div_cancel m hd, hd]

theorem log2_mul_two_pow {m k : Nat} (hlo : Nat.pow 2 52 ≤ m) (hhi : m < Nat.pow 2 53) :
    Nat.log2 (m * Nat.pow 2 k) = 52 + k := by
  simp only [Nat.pow_eq] at hlo hhi ⊢
  have hm : m * 2 ^ k ≠ 0 := Nat.mul_ne_zero (by omega) (by simp)
  have h1 : 2 ^ (52 + k) ≤ m * 2 ^ k := by
    rw [Nat.pow_add]; exact Nat.mul_le_mul_right _ hlo
  have h2 : m * 2 ^ k < 2 ^ (52 + k + 1) := by
    rw [show 52 + k + 1 = 53 + k by omega, Nat.pow_add]
    exact Nat.mul_lt_mul_of_pos_right hhi (Nat.two_pow_pos k)
  have h3 := (Nat.le_log2 hm).2 h1
  have h4 := (Nat.log2_lt hm).2 h2
  omega

theorem rankOf_scaled (rank : Nat) : rankOf (scaled rank) 1 = rank := by
  unfold scaled
  simp only [rankOf, Nat.pow_eq]
  split
  · rename_i h
    have hs : Nat.log2 rank - 52 = 0 := by
      by_cases h0 : rank = 0
      · subst h0; rfl
      · have := (Nat.log2_lt h0).2 h; omega
    simp only [Nat.div_one, hs]
    have := roundHalfEven_of_mul rank 1 (by omega)
    simpa using this
  · rename_i h
    have hmod := Nat.mod_lt rank (show 2 ^ 52 > 0 by decide)
    have hdiv := Nat.div_add_mod rank (2 ^ 52)
    have hlog := log2_mul_two_pow (m := 2 ^ 52 + rank % 2 ^ 52) (k := rank / 2 ^ 52 - 1)
      (by rw [Nat.pow_eq]; omega) (by rw [Nat.pow_eq]; omega)
    rw [Nat.pow_eq] at hlog
    simp only [Nat.div_one, hlog, Nat.add_sub_cancel_left, Nat.one_mul]
    rw [roundHalfEven_of_mul _ _ (Nat.two_pow_pos _)]
    omega

end Binary64

end LoxSyntax
