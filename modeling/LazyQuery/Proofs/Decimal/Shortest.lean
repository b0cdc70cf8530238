import LazyQuery.Decimal.Shortest
import LazyQuery.Proofs.Number.Rounding

/-!
# The shortest decimal reads back

A decimal is read as the number nearest to its value (`Number.ofDecimal_eq_ofRatio`): the exponents that are settled at once
are those of values past the greatest number or below half of the smallest.  So decimals of one value are read alike.

Of the decimals that `Decimal.shortest` tries it takes one that reads back, and the exact value, which is left if there is
none, reads back as well (`Decimal.readsBackAs_shortest`).
-/

namespace LazyQuery

namespace Decimal

/-- The value of a decimal. -/
def value (d : Decimal) : ℚ :=
  d.coefficient * 10 ^ d.exponent

end Decimal

namespace Number

section OfDecimal

variable {coefficient num den : Nat} {exponent : Int}

lemma ofRank_of_ge (negative : Bool) {rank : Nat} (h : infiniteRank ≤ rank) :
    ofRank negative rank = ofRank negative infiniteRank := by
  have hmin : min rank infiniteRank = min infiniteRank infiniteRank := by omega
  simp only [ofRank, hmin]

/-- Ten is between the third power of two and the fourth. -/
lemma two_zpow_le_ten_zpow (h : 0 ≤ exponent) : (2 : ℚ) ^ (3 * exponent) ≤ 10 ^ exponent := by
  rw [zpow_mul]
  exact zpow_le_zpow_left₀ h (by norm_num) (by norm_num)

lemma ten_zpow_le_two_zpow (h : exponent ≤ 0) : (10 : ℚ) ^ exponent ≤ 2 ^ (3 * exponent) := by
  obtain ⟨e, rfl⟩ : ∃ e, exponent = -e := ⟨-exponent, by omega⟩
  rw [Int.mul_neg, zpow_neg, zpow_neg]
  exact inv_anti₀ (by positivity) (two_zpow_le_ten_zpow (by omega))

/-- A decimal with so many places before the point is past the greatest number. -/
lemma two_zpow_le_of_large (hcoefficient : coefficient ≠ 0) (hexponent : 400 < exponent) :
    (2 : ℚ) ^ (1024 : ℤ) ≤ coefficient * 10 ^ exponent := by
  have hone : (1 : ℚ) ≤ coefficient := by exact_mod_cast Nat.pos_of_ne_zero hcoefficient
  calc (2 : ℚ) ^ (1024 : ℤ) ≤ 2 ^ (3 * exponent) := zpow_le_zpow_right₀ one_le_two (by omega)
    _ ≤ 10 ^ exponent := two_zpow_le_ten_zpow (by omega)
    _ ≤ coefficient * 10 ^ exponent := le_mul_of_one_le_left (by positivity) hone

/-- A decimal with so many places behind the point is below half of the smallest number. -/
lemma lt_two_zpow_of_small (hcoefficient : coefficient ≠ 0) (hexponent : exponent + coefficient.log2 < -400) :
    (coefficient : ℚ) * 10 ^ exponent < 2 ^ (-1075 : ℤ) := by
  obtain ⟨-, hupper⟩ := log2_bounds hcoefficient
  calc (coefficient : ℚ) * 10 ^ exponent < 2 ^ (coefficient.log2 + 1 : ℤ) * 10 ^ exponent :=
        mul_lt_mul_of_pos_right hupper (by positivity)
    _ ≤ 2 ^ (coefficient.log2 + 1 : ℤ) * 2 ^ (3 * exponent) :=
        mul_le_mul_of_nonneg_left (ten_zpow_le_two_zpow (by omega)) (by positivity)
    _ = 2 ^ (coefficient.log2 + 1 + 3 * exponent : ℤ) := (zpow_add₀ two_ne_zero _ _).symm
    _ ≤ 2 ^ (-1075 : ℤ) := zpow_le_zpow_right₀ one_le_two (by omega)

/-- **A decimal is read as the number nearest to its value.** -/
theorem ofDecimal_eq_ofRatio (negative : Bool) (hden : den ≠ 0)
    (h : (coefficient : ℚ) * 10 ^ exponent = num / den) :
    ofDecimal negative coefficient exponent = ofRatio negative num den := by
  by_cases hcoefficient : coefficient = 0
  · have hnum : num = 0 := by simpa [hcoefficient, div_eq_zero_iff, hden] using h.symm
    unfold ofDecimal
    rw [if_pos hcoefficient, ofRatio, nearestRank, if_pos hnum]
  · unfold ofDecimal
    rw [if_neg hcoefficient]
    split_ifs with hlarge hsmall
    · have hpast := two_zpow_le_of_large hcoefficient hlarge
      rw [h] at hpast
      rw [ofRatio, ofRank_of_ge negative (infiniteRank_le_nearestRank hden hpast)]
    · have hbelow := lt_two_zpow_of_small hcoefficient hsmall
      rw [h] at hbelow
      rw [ofRatio, nearestRank_eq_zero hden hbelow]
    · rcases exponent with e | e
      · refine congrArg (ofRank negative) (nearestRank_congr one_ne_zero hden ?_)
        rw [← h, Int.ofNat_eq_natCast, zpow_natCast, Nat.pow_eq]
        push_cast
        rw [div_one]
      · refine congrArg (ofRank negative) (nearestRank_congr (by simp) hden ?_)
        rw [← h, zpow_negSucc, Nat.pow_eq]
        push_cast
        rw [div_eq_mul_inv]

lemma exists_ratio (coefficient : Nat) (exponent : Int) :
    ∃ num den : Nat, den ≠ 0 ∧ (coefficient : ℚ) * 10 ^ exponent = num / den := by
  rcases exponent with e | e
  · exact ⟨coefficient * 10 ^ e, 1, one_ne_zero, by simp⟩
  · refine ⟨coefficient, 10 ^ (e + 1), by simp, ?_⟩
    rw [zpow_negSucc]
    push_cast
    rw [div_eq_mul_inv]

/-- **Decimals of one value are read alike.** -/
theorem ofDecimal_congr (negative : Bool) {coefficient' : Nat} {exponent' : Int}
    (h : (coefficient : ℚ) * 10 ^ exponent = coefficient' * 10 ^ exponent') :
    ofDecimal negative coefficient exponent = ofDecimal negative coefficient' exponent' := by
  obtain ⟨num, den, hden, hratio⟩ := exists_ratio coefficient exponent
  rw [ofDecimal_eq_ofRatio negative hden hratio, ofDecimal_eq_ofRatio negative hden (h.symm.trans hratio)]

/-- A decimal that reads back does so with either sign. -/
lemma ofDecimal_of_readsBackAs {d : Decimal} {rank : Nat} (h : d.readsBackAs rank = true) (negative : Bool) :
    ofDecimal negative d.coefficient d.exponent = ofRank negative rank := by
  obtain ⟨num, den, hden, hratio⟩ := exists_ratio d.coefficient d.exponent
  have hread := beq_iff_eq.mp h
  rw [ofDecimal_eq_ofRatio false hden hratio] at hread
  rw [ofDecimal_eq_ofRatio negative hden hratio]
  simp only [ofRatio, ofRank, real.injEq, Fin.mk.injEq, true_and] at hread ⊢
  exact hread

end OfDecimal

end Number

namespace Decimal

/-! ### The decimals that are tried -/

/-- A decimal that is taken from a grid reads back. -/
lemma readsBackAs_of_nearestOnGrid? {tie : Tie} {rank : Nat} {place : Int} {d : Decimal}
    (h : nearestOnGrid? tie rank place = some d) : d.readsBackAs rank = true := by
  have hfirst {near far : Decimal} (h : (if near.readsBackAs rank then some near
      else if far.readsBackAs rank then some far else none) = some d) : d.readsBackAs rank = true := by
    split_ifs at h with hnear hfar
    · cases h
      exact hnear
    · cases h
      exact hfar
  unfold nearestOnGrid? at h
  dsimp only at h
  generalize prefersAbove tie _ _ = above at h
  cases above <;> exact hfirst h

/-! ### The exact value -/

lemma exactRatio_eq (rank : Nat) : (exactRatio rank).2 ≠ 0 ∧
    ((exactRatio rank).1 / (exactRatio rank).2 : ℚ) = Number.magnitude rank := by
  unfold exactRatio Number.magnitude
  rcases Number.exponent rank with e | e
  · simp only [Int.ofNat_eq_natCast, zpow_natCast, Nat.pow_eq]
    push_cast
    exact ⟨one_ne_zero, div_one _⟩
  · simp only [zpow_negSucc, Nat.pow_eq]
    push_cast
    exact ⟨by simp, div_eq_mul_inv _ _⟩

lemma value_exact (rank : Nat) : (exact rank).value = Number.magnitude rank := by
  unfold value exact Number.magnitude
  rcases Number.exponent rank with e | e
  · simp only [Int.ofNat_eq_natCast, zpow_natCast, zpow_zero, Nat.pow_eq]
    push_cast
    rw [mul_one]
  · have hten : (10 : ℚ) ^ (e + 1) = 5 ^ (e + 1) * 2 ^ (e + 1) := by
      rw [← mul_pow]
      norm_num
    simp only [zpow_negSucc, Nat.pow_eq]
    push_cast
    rw [hten, mul_inv, mul_assoc, mul_inv_cancel_left₀ (by positivity)]

lemma readsBackAs_exact (rank : Nat) : (exact rank).readsBackAs rank = true := by
  obtain ⟨hden, hratio⟩ := exactRatio_eq rank
  have hvalue : ((exact rank).coefficient : ℚ) * 10 ^ (exact rank).exponent =
      (exactRatio rank).1 / (exactRatio rank).2 := (value_exact rank).trans hratio.symm
  rw [readsBackAs, Number.ofDecimal_eq_ofRatio false hden hvalue, Number.ofRatio,
    Number.nearestRank_of_eq_magnitude hden hratio]
  exact beq_self_eq_true _

/-- **The decimal with the fewest digits reads back.** -/
theorem readsBackAs_shortest (tie : Tie) (rank : Nat) : (shortest tie rank).readsBackAs rank = true := by
  unfold shortest
  dsimp only
  generalize hfound : List.findSome? _ _ = found
  cases found with
  | none => exact readsBackAs_exact rank
  | some d =>
    obtain ⟨digits, -, hgrid⟩ := List.exists_of_findSome?_eq_some hfound
    exact readsBackAs_of_nearestOnGrid? hgrid

end Decimal

end LazyQuery
