/-
  LoxSyntax.Proofs.Number.Order — rounding keeps the order of numbers.

  A whole number is at most a half away from what was rounded to it, and a half only if it
  is even; so of two quotients the larger one is not rounded to less. Within a binade ranks
  are rounded quotients, and where a binade ends the next one begins, so the ranks of
  quotients are in order too, and with them the magnitudes of ranks. Which power of ten a
  decimal stays below is told by the place of its leading digit.

  - `roundHalfEven_mono`, `rankOf_mono`: rounding keeps the order.
  - `scaled_lt_iff`: ranks are in the order of their magnitudes.
  - `rank_of_ofDecimal`, `rank_le_of_le`: the ranks of decimals that are neither zero nor infinite.
  - `Decimal.place_le_iff`: a decimal against a power of ten.
-/

import Mathlib.Tactic.Ring
import LoxSyntax.Number.Shortest

namespace LoxSyntax

namespace Binary64

variable {n d n' d' : Nat}

/-! ## Rounding to whole numbers -/

/-- What was rounded is at most a half away, and a half only from an even number. -/
theorem roundHalfEven_near (n : Nat) (hd : 0 < d) :
    (2 * (roundHalfEven n d * d) ≤ 2 * n + d ∧ 2 * n ≤ 2 * (roundHalfEven n d * d) + d) ∧
    (2 * (roundHalfEven n d * d) = 2 * n + d ∨ 2 * n = 2 * (roundHalfEven n d * d) + d →
      roundHalfEven n d % 2 = 0) := by
  have hn := Nat.div_add_mod n d
  have hr := Nat.mod_lt n hd
  unfold roundHalfEven
  generalize n / d = q at hn ⊢
  generalize n % d = r at hn hr ⊢
  rw [Nat.mul_comm] at hn
  have hup : (q + 1) * d = q * d + d := Nat.succ_mul q d
  dsimp only
  by_cases hlow : 2 * r < d
  · rw [if_pos hlow]
    omega
  · rw [if_neg hlow]
    by_cases hhigh : d < 2 * r
    · rw [if_pos hhigh, hup]
      omega
    · rw [if_neg hhigh]
      rcases Nat.mod_two_eq_zero_or_one q with hq | hq
      · rw [hq, Nat.add_zero]
        omega
      · rw [hq, hup]
        omega

/-- The larger quotient is not rounded to less. -/
theorem roundHalfEven_mono (hd : 0 < d) (hd' : 0 < d') (h : n * d' ≤ n' * d) :
    roundHalfEven n d ≤ roundHalfEven n' d' := by
  obtain ⟨⟨hlow, -⟩, heven⟩ := roundHalfEven_near n hd
  obtain ⟨⟨-, hhigh⟩, heven'⟩ := roundHalfEven_near n' hd'
  generalize roundHalfEven n d = a at hlow heven ⊢
  generalize roundHalfEven n' d' = b at hhigh heven' ⊢
  by_contra hba
  -- in units of d * d'
  have hlow' : 2 * (a * (d * d')) ≤ 2 * (n * d') + d * d' := by
    have := Nat.mul_le_mul_right d' hlow
    ring_nf at this ⊢
    omega
  have hhigh' : 2 * (n' * d) ≤ 2 * (b * (d * d')) + d * d' := by
    have := Nat.mul_le_mul_right d hhigh
    ring_nf at this ⊢
    omega
  have hab : b * (d * d') + d * d' ≤ a * (d * d') := by
    rw [← Nat.succ_mul]
    exact Nat.mul_le_mul_right _ (by omega)
  -- so there is room for nothing but two halves, and both numbers are even
  have ha : 2 * (a * d) = 2 * n + d := by
    refine Nat.eq_of_mul_eq_mul_right hd' ?_
    have : 2 * (a * (d * d')) = 2 * (n * d') + d * d' := by omega
    ring_nf at this ⊢
    omega
  have hb : 2 * n' = 2 * (b * d') + d' := by
    refine Nat.eq_of_mul_eq_mul_right hd ?_
    have : 2 * (n' * d) = 2 * (b * (d * d')) + d * d' := by omega
    ring_nf at this ⊢
    omega
  have hnext : a = b + 1 := by
    refine Nat.eq_of_mul_eq_mul_right (Nat.mul_pos hd hd') ?_
    rw [Nat.succ_mul]
    omega
  have := heven (.inl ha)
  have := heven' (.inr hb)
  omega

theorem roundHalfEven_le (hd : 0 < d) {m : Nat} (h : n ≤ m * d) : roundHalfEven n d ≤ m := by
  have := roundHalfEven_mono hd hd (Nat.mul_le_mul_right d h)
  rwa [roundHalfEven_of_mul m d hd] at this

theorem le_roundHalfEven (hd : 0 < d) {m : Nat} (h : m * d ≤ n) : m ≤ roundHalfEven n d := by
  have := roundHalfEven_mono hd hd (Nat.mul_le_mul_right d h)
  rwa [roundHalfEven_of_mul m d hd] at this

/-! ## Ranks -/

theorem div_le_div_of_mul_le (hd : 0 < d) (hd' : 0 < d') (h : n * d' ≤ n' * d) : n / d ≤ n' / d' := by
  rw [Nat.le_div_iff_mul_le hd']
  refine Nat.le_of_mul_le_mul_right ?_ hd
  calc n / d * d' * d = n / d * d * d' := by ring
    _ ≤ n * d' := Nat.mul_le_mul_right _ (Nat.div_mul_le_self n d)
    _ ≤ n' * d := h

theorem log2_mono {m m' : Nat} (h : m ≤ m') : Nat.log2 m ≤ Nat.log2 m' := by
  by_cases hm : m = 0
  · subst hm
    exact Nat.zero_le _
  · exact (Nat.le_log2 (by omega)).2 (Nat.le_trans (Nat.log2_self_le hm) h)

/-- Within a binade a rank runs up to the next one at most. -/
theorem roundHalfEven_le_binade (hd : 0 < d) (n : Nat) :
    roundHalfEven n (d * 2 ^ (Nat.log2 (n / d) - 52)) ≤ 2 ^ 53 := by
  refine roundHalfEven_le (Nat.mul_pos hd (Nat.two_pow_pos _)) ?_
  have hq : n / d < 2 ^ (53 + (Nat.log2 (n / d) - 52)) :=
    Nat.lt_of_lt_of_le Nat.lt_log2_self (Nat.pow_le_pow_right (by decide) (by omega))
  have hn : n < 2 ^ (53 + (Nat.log2 (n / d) - 52)) * d := (Nat.div_lt_iff_lt_mul hd).1 hq
  rw [Nat.pow_add] at hn
  calc n ≤ 2 ^ 53 * 2 ^ (Nat.log2 (n / d) - 52) * d := Nat.le_of_lt hn
    _ = 2 ^ 53 * (d * 2 ^ (Nat.log2 (n / d) - 52)) := by ring

/-- Above the first binade a rank is one of the upper half. -/
theorem binade_le_roundHalfEven (hd : 0 < d) (h : 52 < Nat.log2 (n / d)) :
    2 ^ 52 ≤ roundHalfEven n (d * 2 ^ (Nat.log2 (n / d) - 52)) := by
  refine le_roundHalfEven (Nat.mul_pos hd (Nat.two_pow_pos _)) ?_
  have hne : n / d ≠ 0 := fun h0 => absurd h (by rw [h0]; decide)
  have hq : 2 ^ (52 + (Nat.log2 (n / d) - 52)) ≤ n / d := by
    rw [Nat.add_sub_of_le (Nat.le_of_lt h)]
    exact Nat.log2_self_le hne
  rw [Nat.le_div_iff_mul_le hd, Nat.pow_add] at hq
  calc 2 ^ 52 * (d * 2 ^ (Nat.log2 (n / d) - 52)) = 2 ^ 52 * 2 ^ (Nat.log2 (n / d) - 52) * d := by ring
    _ ≤ n := hq

/-- The larger quotient does not have the smaller rank. -/
theorem rankOf_mono (hd : 0 < d) (hd' : 0 < d') (h : n * d' ≤ n' * d) : rankOf n d ≤ rankOf n' d' := by
  have hshift : Nat.log2 (n / d) - 52 ≤ Nat.log2 (n' / d') - 52 :=
    Nat.sub_le_sub_right (log2_mono (div_le_div_of_mul_le hd hd' h)) 52
  simp only [rankOf, Nat.pow_eq]
  rcases Nat.eq_or_lt_of_le hshift with he | hlt
  · -- one binade
    rw [he]
    refine Nat.add_le_add_left (roundHalfEven_mono (Nat.mul_pos hd (Nat.two_pow_pos _))
      (Nat.mul_pos hd' (Nat.two_pow_pos _)) ?_) _
    rw [← Nat.mul_assoc, ← Nat.mul_assoc]
    exact Nat.mul_le_mul_right _ h
  · -- a lower one and a higher one
    have hlow := roundHalfEven_le_binade hd n
    have hhigh := binade_le_roundHalfEven hd' (show 52 < Nat.log2 (n' / d') by omega)
    have hstep : (Nat.log2 (n / d) - 52 + 1) * 2 ^ 52 ≤ (Nat.log2 (n' / d') - 52) * 2 ^ 52 :=
      Nat.mul_le_mul_right _ hlt
    rw [Nat.succ_mul] at hstep
    generalize Nat.log2 (n / d) - 52 = s at hlow hstep ⊢
    generalize Nat.log2 (n' / d') - 52 = s' at hhigh hstep ⊢
    omega

/-- Ranks are in the order of their magnitudes. -/
theorem scaled_lt_iff {a b : Nat} : scaled a < scaled b ↔ a < b := by
  have hle : ∀ {a b}, scaled a ≤ scaled b → a ≤ b := by
    intro a b h
    have := rankOf_mono Nat.one_pos Nat.one_pos (Nat.mul_le_mul_right 1 h)
    rwa [rankOf_scaled, rankOf_scaled] at this
  constructor
  · intro h
    refine Nat.lt_of_le_of_ne (hle (Nat.le_of_lt h)) ?_
    rintro rfl
    exact Nat.lt_irrefl _ h
  · intro h
    by_contra hn
    exact absurd (hle (Nat.le_of_not_lt hn)) (by omega)

/-! ## Decimals -/

theorem rank_of_nearest {negative : Bool} {rank : Fin magnitudes} (h : nearest negative n d = .finite negative rank) :
    rank.val = rankOf n d := by
  unfold nearest at h
  split at h <;> cases h
  rfl

/-- The rank of a decimal that is neither zero nor infinite. -/
theorem rank_of_ofDecimal {d : Decimal} {rank : Fin magnitudes} (h : ofDecimal false d = .finite false rank)
    (h0 : rank.val ≠ 0) :
    rank.val = rankOf (d.digits * 10 ^ d.exponent.toNat * Nat.pow 2 1074) (10 ^ (-d.exponent).toNat) := by
  unfold ofDecimal at h
  split at h
  · cases h
    exact absurd rfl h0
  · split at h
    · cases h
    · split at h
      · next e he =>
        have hneg : (-Int.ofNat e).toNat = 0 := Int.toNat_neg_natCast e
        rw [he, hneg, Nat.pow_zero]
        exact rank_of_nearest h
      · next e he =>
        rw [he, show (Int.negSucc e).toNat = 0 from rfl, Nat.pow_zero, Nat.mul_one]
        exact rank_of_nearest h

/-- Of two decimals the larger one does not have the smaller rank. -/
theorem rank_le_of_le {d d' : Decimal} {rank rank' : Fin magnitudes} (h : ofDecimal false d = .finite false rank)
    (h' : ofDecimal false d' = .finite false rank') (h0 : rank.val ≠ 0) (h0' : rank'.val ≠ 0)
    (hle : d.digits * 10 ^ d.exponent.toNat * 10 ^ (-d'.exponent).toNat ≤
      d'.digits * 10 ^ d'.exponent.toNat * 10 ^ (-d.exponent).toNat) : rank.val ≤ rank'.val := by
  have hten : ∀ k, 0 < 10 ^ k := fun k => Nat.pow_pos (by decide)
  rw [rank_of_ofDecimal h h0, rank_of_ofDecimal h' h0']
  refine rankOf_mono (hten _) (hten _) ?_
  rw [Nat.mul_right_comm, Nat.mul_right_comm _ (Nat.pow 2 1074)]
  exact Nat.mul_le_mul_right _ hle

end Binary64

namespace Decimal

/-- The place of the leading digit, counted from the point. -/
def place (d : Decimal) : Int := d.exponent + (Nat.toDigits 10 d.digits).length

/-- A decimal stays below a power of ten exactly if its leading digit does. -/
theorem place_le_iff {d : Decimal} (h0 : d.digits ≠ 0) (p : Int) :
    d.place ≤ p ↔
      d.digits * 10 ^ d.exponent.toNat * 10 ^ (-p).toNat < 10 ^ p.toNat * 10 ^ (-d.exponent).toNat := by
  rw [Nat.mul_assoc, ← Nat.pow_add, ← Nat.pow_add]
  have hlen : 0 < (Nat.toDigits 10 d.digits).length := Nat.length_toDigits_pos
  unfold place
  by_cases hle : d.exponent.toNat + (-p).toNat < p.toNat + (-d.exponent).toNat
  · obtain ⟨k, hk⟩ := Nat.exists_eq_add_of_lt hle
    rw [hk, Nat.add_assoc, Nat.add_comm _ (k + 1), Nat.pow_add 10 (k + 1),
      Nat.mul_lt_mul_right (Nat.pow_pos (by decide)), ← Nat.length_toDigits_le_iff (by decide) (Nat.succ_pos k)]
    omega
  · have hpow : 10 ^ (p.toNat + (-d.exponent).toNat) ≤ 10 ^ (d.exponent.toNat + (-p).toNat) :=
      Nat.pow_le_pow_right (by decide) (Nat.le_of_not_lt hle)
    have hmul := Nat.le_mul_of_pos_left (10 ^ (d.exponent.toNat + (-p).toNat)) (Nat.pos_of_ne_zero h0)
    constructor
    · intro h
      omega
    · intro h
      omega

end Decimal

end LoxSyntax
