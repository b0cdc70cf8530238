import LazyQuery.Proofs.Number.Exact

/-!
# Rounding goes by the quotient

What a quotient is rounded to depends on its value alone, however it is written (`Number.nearestRank_congr`).  The quotients
past the greatest number are rounded to infinity, and those below half of the smallest one to zero.
-/

namespace LazyQuery

section RoundDiv

variable {num den num' den' n : Nat}

/-- A common factor is no matter. -/
lemma roundDiv_mul_mul (num den : Nat) {k : Nat} (hk : k ≠ 0) : roundDiv (k * num) (k * den) = roundDiv num den := by
  have hpos : 0 < k := Nat.pos_of_ne_zero hk
  have hcompare : compare (2 * (k * num % (k * den))) (k * den) = compare (2 * (num % den)) den := by
    rw [Nat.mul_mod_mul_left, Nat.mul_left_comm]
    simp only [Nat.compare_eq_ite_lt, Nat.mul_lt_mul_left hpos]
  unfold roundDiv
  rw [hcompare, Nat.mul_div_mul_left _ _ hpos]

/-- **Equal quotients are rounded alike.** -/
theorem roundDiv_congr (hden : den ≠ 0) (hden' : den' ≠ 0) (h : num * den' = num' * den) :
    roundDiv num den = roundDiv num' den' := by
  calc roundDiv num den = roundDiv (den' * num) (den' * den) := (roundDiv_mul_mul num den hden').symm
    _ = roundDiv (den * num') (den * den') := by rw [Nat.mul_comm den', h, Nat.mul_comm num', Nat.mul_comm den']
    _ = roundDiv num' den' := roundDiv_mul_mul num' den' hden

lemma roundDiv_eq_zero (h : 2 * num < den) : roundDiv num den = 0 := by
  have hlt : num < den := by omega
  unfold roundDiv
  simp only [Nat.mod_eq_of_lt hlt, Nat.compare_eq_lt.mpr h, Nat.div_eq_of_lt hlt]

lemma le_roundDiv (hden : den ≠ 0) (h : n * den ≤ num) : n ≤ roundDiv num den := by
  have hfloor : n ≤ num / den := (Nat.le_div_iff_mul_le (Nat.pos_of_ne_zero hden)).mpr h
  unfold roundDiv
  split <;> dsimp only <;> omega

end RoundDiv

namespace Number

variable {num den num' den' : Nat}

/-- How many units of the place `2 ^ e` a quotient is rounded to. -/
def unitsOf (num den : Nat) : Int → Nat
  | .ofNat k => roundDiv num (den * Nat.pow 2 k)
  | .negSucc k => roundDiv (num * Nat.pow 2 (k + 1)) den

lemma nearestRank_eq (hnum : num ≠ 0) : nearestRank num den =
    (lastPlace num den + 1074).toNat * 0x10000000000000 + unitsOf num den (lastPlace num den) := by
  rw [nearestRank, if_neg hnum]
  rfl

/-- Such a place as a quotient. -/
lemma exists_unitsOf_eq (num : Nat) {den : Nat} (hden : den ≠ 0) (e : Int) : ∃ n d : Nat, d ≠ 0 ∧
    unitsOf num den e = roundDiv n d ∧ (n / d : ℚ) = num / den / 2 ^ e := by
  rcases e with k | k
  · refine ⟨num, den * Nat.pow 2 k, mul_ne_zero hden (by simp), rfl, ?_⟩
    rw [Int.ofNat_eq_natCast, zpow_natCast, Nat.pow_eq]
    push_cast
    rw [div_div]
  · refine ⟨num * Nat.pow 2 (k + 1), den, hden, rfl, ?_⟩
    rw [zpow_negSucc, Nat.pow_eq]
    push_cast
    rw [div_inv_eq_mul, div_mul_eq_mul_div]

lemma unitsOf_congr (hden : den ≠ 0) (hden' : den' ≠ 0) (h : (num / den : ℚ) = num' / den') (e : Int) :
    unitsOf num den e = unitsOf num' den' e := by
  obtain ⟨n, d, hd, hunits, hquotient⟩ := exists_unitsOf_eq num hden e
  obtain ⟨n', d', hd', hunits', hquotient'⟩ := exists_unitsOf_eq num' hden' e
  have hequal : (n / d : ℚ) = n' / d' := by rw [hquotient, h, hquotient']
  rw [div_eq_div_iff (Nat.cast_ne_zero.mpr hd) (Nat.cast_ne_zero.mpr hd')] at hequal
  rw [hunits, hunits']
  exact roundDiv_congr hd hd' (by exact_mod_cast hequal)

/-- **Equal quotients have the same nearest rank.** -/
theorem nearestRank_congr (hden : den ≠ 0) (hden' : den' ≠ 0) (h : (num / den : ℚ) = num' / den') :
    nearestRank num den = nearestRank num' den' := by
  have hzero : num = 0 ↔ num' = 0 := by
    have hiff : (num / den : ℚ) = 0 ↔ (num' / den' : ℚ) = 0 := by rw [h]
    simpa [div_eq_zero_iff, hden, hden'] using hiff
  by_cases hnum : num = 0
  · rw [nearestRank, nearestRank, if_pos hnum, if_pos (hzero.mp hnum)]
  · have hnum' : num' ≠ 0 := mt hzero.mpr hnum
    have hplace : lastPlace num den = lastPlace num' den' := by
      rw [lastPlace, lastPlace, floorLog2_eq_log hnum hden, floorLog2_eq_log hnum' hden', h]
    rw [nearestRank_eq hnum, nearestRank_eq hnum', hplace, unitsOf_congr hden hden' h]

/-! ### Beyond both ends -/

/-- **Quotients past the greatest number are infinite.** -/
theorem infiniteRank_le_nearestRank (hden : den ≠ 0) (h : (2 : ℚ) ^ (1024 : ℤ) ≤ num / den) :
    infiniteRank ≤ nearestRank num den := by
  have hpos : (0 : ℚ) < num / den := lt_of_lt_of_le (by positivity) h
  have hnum : num ≠ 0 := by
    rintro rfl
    simp at hpos
  have hlog : 1024 ≤ Int.log 2 (num / den : ℚ) := (two_zpow_le_iff hpos).mp h
  have hplace : lastPlace num den = Int.log 2 (num / den : ℚ) - 52 := by
    rw [lastPlace, floorLog2_eq_log hnum hden]
    omega
  obtain ⟨n, d, hd, hunits, hquotient⟩ := exists_unitsOf_eq num hden (lastPlace num den)
  have hd' : (0 : ℚ) < d := by exact_mod_cast Nat.pos_of_ne_zero hd
  have hle : (2 : ℚ) ^ (52 : ℤ) ≤ n / d := by
    rw [hquotient, le_div_iff₀ (by positivity), ← zpow_add₀ two_ne_zero, two_zpow_le_iff hpos]
    omega
  have hunits52 : 2 ^ 52 ≤ unitsOf num den (lastPlace num den) := by
    rw [hunits]
    refine le_roundDiv hd ?_
    rw [le_div_iff₀ hd'] at hle
    exact_mod_cast hle
  rw [nearestRank_eq hnum, infiniteRank]
  omega

/-- **Quotients below half of the smallest number vanish.** -/
theorem nearestRank_eq_zero (hden : den ≠ 0) (h : (num / den : ℚ) < 2 ^ (-1075 : ℤ)) : nearestRank num den = 0 := by
  by_cases hnum : num = 0
  · rw [nearestRank, if_pos hnum]
  · have hpos : (0 : ℚ) < num / den :=
      div_pos (by exact_mod_cast Nat.pos_of_ne_zero hnum) (by exact_mod_cast Nat.pos_of_ne_zero hden)
    have hlog : Int.log 2 (num / den : ℚ) < -1075 := (lt_two_zpow_iff hpos).mp h
    have hplace : lastPlace num den = -1074 := by
      rw [lastPlace, floorLog2_eq_log hnum hden]
      omega
    obtain ⟨n, d, hd, hunits, hquotient⟩ := exists_unitsOf_eq num hden (-1074)
    have hd' : (0 : ℚ) < d := by exact_mod_cast Nat.pos_of_ne_zero hd
    have hlt : (n / d : ℚ) < 2 ^ (-1 : ℤ) := by
      rw [hquotient, div_lt_iff₀ (by positivity), ← zpow_add₀ two_ne_zero]
      exact h
    have htwice : 2 * n < d := by
      rw [div_lt_iff₀ hd', zpow_neg_one, ← div_eq_inv_mul, lt_div_iff₀ two_pos, mul_comm] at hlt
      exact_mod_cast hlt
    rw [nearestRank_eq hnum, hplace, hunits, roundDiv_eq_zero htwice]
    rfl

end Number

end LazyQuery
