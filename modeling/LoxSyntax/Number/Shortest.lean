/-
  LoxSyntax.Number.Shortest — the decimal that stands for a double: of the decimals with
  the fewest digits that read back as the number, the nearest one.

  For each count of digits the two neighbours of the number on that decimal grid are
  tried, the nearer one first (on a tie the even one). A search that found nothing would
  fall back on all digits of the exact value, so the answer always reads back.

  - `ofDecimal_exact`: the exact value in full reads back.
  - `ofDecimal_shortest`: the chosen decimal reads back.
-/

import LoxSyntax.Number.Binary64

namespace LoxSyntax.Binary64

/-- All digits of the magnitude: one unit is 5 ^ places · 10 ^ (-places) for 1074 places. -/
def exact (places rank : Nat) : Decimal := ⟨scaled rank * Nat.pow 5 places, -places⟩

/-- The power of ten of the leading digit of `n` units of 10 ^ (-k). -/
def powerOf (n k : Nat) : Int := (Nat.toDigits 10 n).length - 1 - k

/-- The power of ten of the leading digit, from the first of some units of 10 ^ (-k) that
    leave a digit; the last one does for every magnitude but zero. -/
def leadingPower (rank : Nat) : Int :=
  ([0, 20, 400].findSome? fun k =>
    let n := scaled rank * Nat.pow 10 k / Nat.pow 2 1074
    if n = 0 then none else some (powerOf n k)).getD 0

/-- The two neighbours of the magnitude among the multiples of 10 ^ power, the nearer
    one first. -/
def neighbours (rank : Nat) (power : Int) : Nat × Nat :=
  let (n, d) := match power with
    | .ofNat p => (scaled rank, Nat.pow 2 1074 * Nat.pow 10 p)
    | .negSucc p => (scaled rank * Nat.pow 10 (p + 1), Nat.pow 2 1074)
  let q := n / d
  if 2 * (n % d) < d || (2 * (n % d) == d && q % 2 == 0) then (q, q + 1) else (q + 1, q)

/-- The candidates with `count` digits, the first of them at the power `lead`. -/
def candidates (rank : Nat) (lead : Int) (count : Nat) : List Decimal :=
  let power := lead + 1 - count
  let (a, b) := neighbours rank power
  [Decimal.trim count ⟨a, power⟩, Decimal.trim count ⟨b, power⟩]

def readsBack (rank : Fin magnitudes) (d : Decimal) : Bool := ofDecimal false d == .finite false rank

def shortest (rank : Fin magnitudes) : Decimal :=
  if rank.val = 0 then ⟨0, 0⟩
  else
    let lead := leadingPower rank
    ((List.range 17).findSome? fun i => (candidates rank lead (i + 1)).find? (readsBack rank)).getD (exact 1074 rank)

/-! ## The chosen decimal reads back -/

theorem roundHalfEven_mul_right (n d c : Nat) (hc : 0 < c) :
    roundHalfEven (n * c) (d * c) = roundHalfEven n d := by
  simp only [roundHalfEven, Nat.mul_div_mul_right _ _ hc, Nat.mul_mod_mul_right, ← Nat.mul_assoc,
    Nat.mul_lt_mul_right hc]

theorem rankOf_mul_right (n d c : Nat) (hc : 0 < c) : rankOf (n * c) (d * c) = rankOf n d := by
  unfold rankOf
  rw [Nat.mul_div_mul_right _ _ hc]
  simp only [Nat.mul_right_comm d c, roundHalfEven_mul_right _ _ _ hc]

theorem scaled_pos {rank : Nat} (h : rank ≠ 0) : 0 < scaled rank := by
  unfold scaled
  split
  · omega
  · exact Nat.mul_pos (Nat.add_pos_left (Nat.two_pow_pos 52) _) (Nat.two_pow_pos _)

theorem nearest_of_eq_mul (negative : Bool) (rank : Fin magnitudes) {n d : Nat} (hd : 0 < d)
    (hn : n = scaled rank * d) : nearest negative n d = .finite negative rank := by
  have h := rankOf_mul_right (scaled rank) 1 d hd
  rw [rankOf_scaled, Nat.one_mul, ← hn] at h
  simp [nearest, h]

theorem five_pow_pos (n : Nat) : 0 < Nat.pow 5 n := Nat.pow_pos (by decide)

theorem ten_pow_pos (n : Nat) : 0 < Nat.pow 10 n := Nat.pow_pos (by decide)

theorem ofDecimal_neg (negative : Bool) {digits k : Nat} (h0 : digits ≠ 0) (hk : k ≠ 0)
    (h : (-330 : Int) ≤ -k + Nat.log2 digits + 1) :
    ofDecimal negative ⟨digits, -k⟩ = nearest negative (digits * Nat.pow 2 1074) (Nat.pow 10 k) := by
  obtain ⟨e, rfl⟩ := Nat.exists_eq_succ_of_ne_zero hk
  have h' : ¬(-(e.succ : Int) + Nat.log2 digits + 1 < -330) := by omega
  have h'' : ¬(400 ≤ -(e.succ : Int)) := by omega
  simp only [ofDecimal, h0, h', h'', decide_false, Bool.or_self, Bool.false_eq_true, if_false]
  rfl

/-- The places are a variable here, so that the powers stay powers. -/
theorem ofDecimal_exact (negative : Bool) (rank : Fin magnitudes) (h : rank.val ≠ 0) {places : Nat}
    (hp : places = 1074) : ofDecimal negative (exact places rank) = .finite negative rank := by
  obtain ⟨n, hn, hlarge⟩ : ∃ n, 2000 ≤ n ∧ Nat.pow 2 n ≤ Nat.pow 5 places := by
    subst hp
    exact ⟨2000, Nat.le_refl 2000, by decide +kernel⟩
  have hten : Nat.pow 5 places * Nat.pow 2 1074 = Nat.pow 10 places := by
    subst hp
    decide +kernel
  have hpos : 0 < scaled rank * Nat.pow 5 places := Nat.mul_pos (scaled_pos h) (five_pow_pos places)
  have hlog : n ≤ Nat.log2 (scaled rank * Nat.pow 5 places) := by
    rw [Nat.le_log2 (Nat.ne_of_gt hpos)]
    exact Nat.le_trans hlarge (Nat.le_mul_of_pos_left _ (scaled_pos h))
  rw [exact, ofDecimal_neg negative (Nat.ne_of_gt hpos) (by omega) (by omega)]
  refine nearest_of_eq_mul negative rank (ten_pow_pos places) ?_
  rw [Nat.mul_assoc, hten]

theorem ofDecimal_shortest (rank : Fin magnitudes) : ofDecimal false (shortest rank) = .finite false rank := by
  unfold shortest
  split
  · rename_i h
    have : rank = ⟨0, by decide⟩ := Fin.ext h
    subst this; rfl
  · rename_i h
    dsimp only
    cases hs : (List.range 17).findSome? fun i =>
        (candidates rank (leadingPower rank) (i + 1)).find? (readsBack rank) with
    | none =>
      rw [Option.getD_none]
      exact ofDecimal_exact false rank h rfl
    | some d =>
      obtain ⟨i, -, hi⟩ := List.exists_of_findSome?_eq_some hs
      simpa [readsBack] using List.find?_some hi

end LoxSyntax.Binary64
