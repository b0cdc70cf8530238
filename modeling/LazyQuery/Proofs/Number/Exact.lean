import LazyQuery.Number.Rounding
import LazyQuery.Number.Text
import Mathlib.Algebra.Order.Field.Power
import Mathlib.Data.Int.Log
import Mathlib.Data.Nat.Cast.Field
import Mathlib.Data.Rat.Floor
import Mathlib.Tactic.Lemma
import Mathlib.Tactic.Positivity

/-!
# Numbers are exact

Numbers are equal if they have the same signed rank (`Number.equals_iff_key`), so equal numbers are one but for the two
zeros.

A finite rank stands for an exact magnitude (`Number.magnitude`), and the nearest rank to a quotient that is such a
magnitude is just that one (`Number.nearestRank_of_eq_magnitude`).  So an integer that is a number is rounded to it
(`Number.equals_ofInt_of_whole`).  The binary logarithm that decides on the last place is the integral one of the quotient
(`Number.floorLog2_eq_log`).
-/

namespace LazyQuery

/-- Where nothing is left over, nothing is rounded. -/
lemma roundDiv_mul (n : Nat) {den : Nat} (hden : den ≠ 0) : roundDiv (n * den) den = n := by
  have hpos : 0 < den := Nat.pos_of_ne_zero hden
  have hcompare : compare (2 * (n * den % den)) den = .lt := by
    rw [Nat.mul_mod_left]
    exact Nat.compare_eq_lt.mpr hpos
  unfold roundDiv
  simp only [hcompare, Nat.mul_div_cancel n hpos]

namespace Number

/-! ### Equality -/

section Equality

variable {x y z : Number}

/-- Numbers are equal if they have the same signed rank. -/
lemma equals_iff_key : x.equals y = true ↔ ∃ k, x.key? = some k ∧ y.key? = some k := by
  rcases x with _ | ⟨s, i⟩
  · simp [equals, key?]
  · rcases y with _ | ⟨t, j⟩
    · simp [equals, key?]
    · cases s <;> cases t <;>
        simp only [equals, key?, Bool.and_eq_true, Bool.or_eq_true, beq_iff_eq, Fin.ext_iff, Fin.val_zero, reduceCtorEq,
          Option.some.injEq, exists_eq_left', false_or, true_or, and_true] <;> omega

lemma equals_symm (h : x.equals y = true) : y.equals x = true := by
  obtain ⟨k, hx, hy⟩ := equals_iff_key.mp h
  exact equals_iff_key.mpr ⟨k, hy, hx⟩

lemma equals_trans (hxy : x.equals y = true) (hyz : y.equals z = true) : x.equals z = true := by
  obtain ⟨k, hx, hy⟩ := equals_iff_key.mp hxy
  obtain ⟨l, hy', hz⟩ := equals_iff_key.mp hyz
  rw [hy] at hy'
  cases hy'
  exact equals_iff_key.mpr ⟨k, hx, hz⟩

lemma equals_self (h : x.isFinite = true) : x.equals x = true := by
  rcases x with _ | ⟨s, i⟩
  · cases h
  · simp [equals]

lemma isFinite_of_equals (h : x.equals y = true) (hy : y.isFinite = true) : x.isFinite = true := by
  rcases x with _ | ⟨s, i⟩
  · cases h
  · rcases y with _ | ⟨t, j⟩
    · cases h
    · have hrank : i = j := by simpa using (Bool.and_eq_true_iff.mp h).1
      rw [hrank]
      exact hy

lemma whole_zero (negative : Bool) : (real negative 0).whole? = some 0 := by
  have hmagnitude : wholeMagnitude? 0 = some 0 := by
    unfold wholeMagnitude?
    split <;> simp [significand]
  cases negative <;> simp [whole?, hmagnitude, infiniteRank]

/-- Equal numbers are one, but for the two zeros. -/
lemma eq_or_zero_of_equals (h : x.equals y = true) : x = y ∨ x.whole? = some 0 ∧ y.whole? = some 0 := by
  rcases x with _ | ⟨s, i⟩
  · cases h
  · rcases y with _ | ⟨t, j⟩
    · cases h
    · simp only [equals, Bool.and_eq_true, Bool.or_eq_true, beq_iff_eq] at h
      obtain ⟨rfl, rfl | rfl⟩ := h
      · exact .inl rfl
      · exact .inr ⟨whole_zero s, whole_zero t⟩

end Equality

/-! ### Powers of two -/

section Powers

variable {q : ℚ} {e : Int}

lemma two_zpow_le_iff (hq : 0 < q) : 2 ^ e ≤ q ↔ e ≤ Int.log 2 q := by
  exact_mod_cast Int.zpow_le_iff_le_log one_lt_two hq

lemma lt_two_zpow_iff (hq : 0 < q) : q < 2 ^ e ↔ Int.log 2 q < e := by
  exact_mod_cast Int.lt_zpow_iff_log_lt one_lt_two hq

end Powers

/-! ### The magnitudes of ranks -/

/-- The exact magnitude that a finite rank stands for. -/
def magnitude (rank : Nat) : ℚ :=
  significand rank * 2 ^ exponent rank

variable {rank num den : Nat}

lemma exponent_ge (rank : Nat) : -1074 ≤ exponent rank := by
  unfold exponent
  split <;> omega

lemma significand_lt (rank : Nat) : significand rank < 2 ^ 53 := by
  unfold significand
  split <;> omega

/-- Significands have 53 places, but for those of the least exponent. -/
lemma significand_ge (h : exponent rank ≠ -1074) : 2 ^ 52 ≤ significand rank := by
  unfold exponent at h
  unfold significand
  split at h
  · exact absurd rfl h
  · next hrank =>
    rw [if_neg hrank]
    omega

/-- A rank counts the units of its last place. -/
lemma places_add_significand (rank : Nat) :
    (exponent rank + 1074).toNat * 0x10000000000000 + significand rank = rank := by
  unfold exponent significand
  split <;> omega

lemma significand_eq_zero : significand rank = 0 ↔ rank = 0 := by
  unfold significand
  split <;> omega

lemma magnitude_nonneg (rank : Nat) : 0 ≤ magnitude rank := by
  unfold magnitude
  positivity

lemma magnitude_pos (h : rank ≠ 0) : 0 < magnitude rank := by
  have hsignificand : 0 < significand rank := Nat.pos_of_ne_zero (mt significand_eq_zero.mp h)
  unfold magnitude
  positivity

lemma magnitude_eq_zero : magnitude rank = 0 ↔ rank = 0 := by
  refine ⟨fun h => ?_, fun h => ?_⟩
  · by_contra hrank
    exact (magnitude_pos hrank).ne' h
  · rw [h]
    norm_num [magnitude, significand]

lemma magnitude_lt_two_zpow (rank : Nat) : magnitude rank < 2 ^ (53 + exponent rank) := by
  have hlt : (significand rank : ℚ) < 2 ^ (53 : ℤ) := by exact_mod_cast significand_lt rank
  rw [magnitude, zpow_add₀ two_ne_zero]
  exact mul_lt_mul_of_pos_right hlt (by positivity)

lemma two_zpow_le_magnitude (h : exponent rank ≠ -1074) : 2 ^ (52 + exponent rank) ≤ magnitude rank := by
  have hle : (2 : ℚ) ^ (52 : ℤ) ≤ significand rank := by exact_mod_cast significand_ge h
  rw [magnitude, zpow_add₀ two_ne_zero]
  exact mul_le_mul_of_nonneg_right hle (by positivity)

/-- **The last place of a magnitude is its exponent.** -/
lemma max_log_magnitude (h : rank ≠ 0) : max (-1074) (Int.log 2 (magnitude rank) - 52) = exponent rank := by
  have hpos := magnitude_pos h
  have hge := exponent_ge rank
  have hupper := (lt_two_zpow_iff hpos).mp (magnitude_lt_two_zpow rank)
  by_cases hleast : exponent rank = -1074
  · omega
  · have hlower := (two_zpow_le_iff hpos).mp (two_zpow_le_magnitude hleast)
    omega

/-! ### The logarithm of a quotient -/

/-- A power of two is held against a quotient without dividing. -/
lemma reached_iff (num : Nat) (hden : den ≠ 0) (e : Int) :
    (match e with
      | .ofNat k => decide (den * Nat.pow 2 k ≤ num)
      | .negSucc k => decide (den ≤ num * Nat.pow 2 (k + 1))) = true ↔ (2 : ℚ) ^ e ≤ num / den := by
  have hpos : (0 : ℚ) < den := by exact_mod_cast Nat.pos_of_ne_zero hden
  rcases e with k | k
  · rw [le_div_iff₀ hpos, mul_comm]
    simp only [decide_eq_true_iff, Int.ofNat_eq_natCast, zpow_natCast, Nat.pow_eq]
    exact_mod_cast Iff.rfl
  · rw [zpow_negSucc, inv_le_iff_one_le_mul₀ (by positivity), div_mul_eq_mul_div, le_div_iff₀ hpos, one_mul]
    simp only [decide_eq_true_iff, Nat.pow_eq]
    exact_mod_cast Iff.rfl

/-- The powers of two on both sides of a positive number. -/
lemma log2_bounds {n : Nat} (hn : n ≠ 0) : (2 : ℚ) ^ (n.log2 : ℤ) ≤ n ∧ (n : ℚ) < 2 ^ (n.log2 + 1 : ℤ) := by
  refine ⟨?_, ?_⟩
  · exact_mod_cast Nat.log2_self_le hn
  · exact_mod_cast Nat.lt_log2_self (n := n)

/-- **The logarithm is the integral one of the quotient.** -/
theorem floorLog2_eq_log (hnum : num ≠ 0) (hden : den ≠ 0) : floorLog2 num den = Int.log 2 (num / den : ℚ) := by
  have htwo : (2 : ℚ) ≠ 0 := two_ne_zero
  have hnum' : (0 : ℚ) < num := by exact_mod_cast Nat.pos_of_ne_zero hnum
  have hden' : (0 : ℚ) < den := by exact_mod_cast Nat.pos_of_ne_zero hden
  have hpos : (0 : ℚ) < num / den := div_pos hnum' hden'
  obtain ⟨hnumLower, hnumUpper⟩ := log2_bounds hnum
  obtain ⟨hdenLower, hdenUpper⟩ := log2_bounds hden
  -- the quotient is within a factor of two of the power that is tried
  have hlower : (2 : ℚ) ^ ((num.log2 : ℤ) - (den.log2 + 1)) ≤ num / den := by
    rw [zpow_sub₀ htwo]
    exact div_le_div₀ hnum'.le hnumLower hden' hdenUpper.le
  have hupper : (num / den : ℚ) < 2 ^ ((num.log2 + 1 : ℤ) - den.log2) := by
    rw [zpow_sub₀ htwo]
    exact div_lt_div₀ hnumUpper hdenLower (by positivity) (by positivity)
  rw [two_zpow_le_iff hpos] at hlower
  rw [lt_two_zpow_iff hpos] at hupper
  have hreached := (reached_iff num hden (num.log2 - den.log2)).trans (two_zpow_le_iff hpos)
  rw [floorLog2]
  split_ifs with h
  · have hle := hreached.mp h
    omega
  · have hlt := mt hreached.mpr h
    omega

/-! ### Exact quotients -/

/-- Counting the units of a place that a quotient is a multiple of. -/
lemma units_of_eq {n : Nat} {e : Int} (hden : den ≠ 0) : (num : ℚ) = n * 2 ^ e * den →
    (match e with
      | .ofNat k => roundDiv num (den * Nat.pow 2 k)
      | .negSucc k => roundDiv (num * Nat.pow 2 (k + 1)) den) = n := by
  intro h
  rcases e with k | k
  · have hnum : num = n * (den * Nat.pow 2 k) := by
      rw [Int.ofNat_eq_natCast, zpow_natCast] at h
      rw [Nat.pow_eq, mul_comm den, ← mul_assoc]
      exact_mod_cast h
    have hne : den * Nat.pow 2 k ≠ 0 := mul_ne_zero hden (by simp)
    simp only [hnum, roundDiv_mul n hne]
  · have hnum : num * Nat.pow 2 (k + 1) = n * den := by
      rw [zpow_negSucc, ← div_eq_mul_inv, div_mul_eq_mul_div, eq_div_iff (by positivity)] at h
      exact_mod_cast h
    simp only [hnum, roundDiv_mul n hden]

/-- **A magnitude is its own nearest one.** -/
theorem nearestRank_of_eq_magnitude (hden : den ≠ 0) (h : (num / den : ℚ) = magnitude rank) :
    nearestRank num den = rank := by
  have hden' : (den : ℚ) ≠ 0 := Nat.cast_ne_zero.mpr hden
  by_cases hnum : num = 0
  · have hzero : magnitude rank = 0 := by rw [← h, hnum, Nat.cast_zero, zero_div]
    rw [nearestRank, if_pos hnum, magnitude_eq_zero.mp hzero]
  · have hrank : rank ≠ 0 := by
      rintro rfl
      rw [magnitude_eq_zero.mpr rfl] at h
      exact div_ne_zero (Nat.cast_ne_zero.mpr hnum) hden' h
    have hplace : lastPlace num den = exponent rank := by
      rw [lastPlace, floorLog2_eq_log hnum hden, h, max_log_magnitude hrank]
    have hunits := units_of_eq hden ((div_eq_iff hden').mp h)
    rw [nearestRank, if_neg hnum]
    simp only [hplace]
    exact (congrArg (_ + ·) hunits).trans (places_add_significand rank)

/-- The whole number that a magnitude is. -/
lemma cast_wholeMagnitude {m : Nat} (h : wholeMagnitude? rank = some m) : (m : ℚ) = magnitude rank := by
  unfold wholeMagnitude? at h
  split at h
  · next e he =>
    cases h
    rw [magnitude, he, Int.ofNat_eq_natCast, zpow_natCast, Nat.pow_eq]
    push_cast
    rfl
  · next e he =>
    split at h
    · next hdvd =>
      cases h
      rw [Nat.pow_eq] at hdvd
      rw [magnitude, he, zpow_negSucc, Nat.pow_eq, Nat.cast_div (Nat.dvd_of_mod_eq_zero hdvd) (by positivity),
        Nat.cast_pow, Nat.cast_ofNat, div_eq_mul_inv]
    · cases h

lemma exists_of_whole {negative : Bool} {rank : Fin (infiniteRank + 1)} {i : Int}
    (h : (real negative rank).whole? = some i) :
    ∃ m : Nat, wholeMagnitude? rank = some m ∧ i = if negative then -(m : Int) else m := by
  rw [whole?] at h
  split at h
  · cases hm : wholeMagnitude? rank with
    | none =>
      rw [hm] at h
      cases h
    | some m =>
      rw [hm] at h
      cases h
      exact ⟨m, rfl, rfl⟩
  · cases h

/-- **An integer that is a number is rounded to it**, up to the sign of zero. -/
theorem equals_ofInt_of_whole {x : Number} {i : Int} (h : x.whole? = some i) : (ofInt i).equals x = true := by
  rcases x with _ | ⟨negative, rank⟩
  · cases h
  · obtain ⟨m, hm, hi⟩ := exists_of_whole h
    have hmagnitude := cast_wholeMagnitude hm
    have habs : i.natAbs = m := by
      rw [hi]
      split <;> simp
    have hnearest : nearestRank i.natAbs 1 = rank := by
      refine nearestRank_of_eq_magnitude one_ne_zero ?_
      rw [habs, Nat.cast_one, div_one, hmagnitude]
    have hround : ofInt i = real (i < 0) rank := by
      have hle : min rank.val infiniteRank = rank.val := by omega
      rw [ofInt, ofRatio, hnearest, ofRank]
      simp only [hle]
    have hsign : decide (i < 0) = negative ∨ rank = 0 := by
      by_cases hm : m = 0
      · refine .inr (Fin.ext (magnitude_eq_zero.mp ?_))
        rw [← hmagnitude, hm, Nat.cast_zero]
      · left
        rw [hi]
        cases negative with
        | false => simp
        | true => simpa using Nat.pos_of_ne_zero hm
    rw [hround]
    simpa [equals] using hsign

lemma whole_of_writtenInteger {x : Number} {i : Int} (h : x.writtenInteger? = some i) : x.whole? = some i := by
  unfold writtenInteger? at h
  split at h
  · next j hwhole =>
    split at h
    · cases h
      exact hwhole
    · cases h
  · cases h

end Number

end LazyQuery
