import LazyQuery.Proofs.Number.Exact

/-!
# Numbers as integers

`Number.whole?` is the integer that a number is, and it is there if the exact value of the number is an integer
(`Number.whole?_eq_some_iff`).  As an integer of 64 bits the number is the nearest one of these
(`Number.toInteger?_eq_some_iff`): itself within their range, and beyond it the least or the greatest.
-/

namespace LazyQuery.Number

/-- The exact value of a finite number. -/
def value? : Number → Option ℚ
  | .nan _ => none
  | .real negative rank =>
    if rank.val < infiniteRank then some (if negative then -magnitude rank else magnitude rank) else none

section Whole

variable {x : Number} {rank m : Nat} {i k : Int}

/-- A magnitude that is a whole number is found. -/
lemma wholeMagnitude?_of_eq (h : magnitude rank = m) : wholeMagnitude? rank = some m := by
  rw [magnitude] at h
  unfold wholeMagnitude?
  split
  · next e he =>
    rw [he, Int.ofNat_eq_natCast, zpow_natCast] at h
    rw [Nat.pow_eq]
    exact congrArg some (by exact_mod_cast h)
  · next e he =>
    rw [he, zpow_negSucc, ← div_eq_mul_inv, div_eq_iff (by positivity)] at h
    have hsignificand : significand rank = m * 2 ^ (e + 1) := by exact_mod_cast h
    rw [Nat.pow_eq, hsignificand, if_pos (Nat.mul_mod_left _ _), Nat.mul_div_cancel _ (by positivity)]

lemma whole?_of_wholeMagnitude {rank : Fin (infiniteRank + 1)} (negative : Bool) (hfinite : rank.val < infiniteRank)
    (h : wholeMagnitude? rank = some m) : (real negative rank).whole? = some (if negative then -(m : Int) else m) := by
  rw [whole?, if_pos hfinite, h]
  rfl

/-- **The integer of a number is its exact value**, and is there whenever that is an integer. -/
theorem whole?_eq_some_iff : x.whole? = some i ↔ x.value? = some (i : ℚ) := by
  rcases x with _ | ⟨negative, rank⟩
  · simp [whole?, value?]
  · by_cases hfinite : rank.val < infiniteRank
    · rw [value?, if_pos hfinite, Option.some.injEq]
      constructor
      · intro h
        obtain ⟨m, hm, rfl⟩ := exists_of_whole h
        rw [← cast_wholeMagnitude hm]
        cases negative <;> simp
      · intro hvalue
        obtain ⟨m, hm⟩ : ∃ m, m = i.natAbs := ⟨_, rfl⟩
        have hmagnitude : magnitude rank = m := by
          have habs : |(i : ℚ)| = magnitude rank := by
            rw [← hvalue]
            cases negative <;> simp [abs_of_nonneg (magnitude_nonneg _)]
          rw [hm, ← habs, Nat.cast_natAbs, Int.cast_abs]
        have hsign : (if negative then -(m : Int) else m) = i := by
          rw [hmagnitude] at hvalue
          cases negative <;> exact_mod_cast hvalue
        rw [whole?_of_wholeMagnitude negative hfinite (wholeMagnitude?_of_eq hmagnitude), hsign]
    · simp [whole?, value?, hfinite]

theorem toInteger?_eq_some_iff : x.toInteger? = some k ↔ ∃ i : Int, x.value? = some (i : ℚ) ∧ k = clampInteger i := by
  simp only [toInteger?, Option.map_eq_some_iff, whole?_eq_some_iff, @eq_comm _ k]

lemma clampInteger_eq_self_iff : clampInteger i = i ↔ minInteger ≤ i ∧ i ≤ maxInteger := by
  unfold clampInteger minInteger maxInteger
  omega

end Whole

end LazyQuery.Number
