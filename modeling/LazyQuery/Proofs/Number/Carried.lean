import LazyQuery.Proofs.Number.Nearest

/-!
# Integers that are carried by numbers

An integer that is handed over as a number is rounded to the nearest one, and an integer of 64 bits is read from that again
(`Number.carried`).  Rounding can lead one past the greatest of them, and then that one is read.

On the integers of 64 bits this is monotone (`Number.carried_mono`), leads at most 512 away (`Number.abs_carried_sub_le`),
keeps the sign (`Number.sign_carried`), and changes nothing the second time (`Number.carried_carried`).
-/

namespace LazyQuery.Number

/-- The integer that is read from the number nearest to this one. -/
def carried (n : Int) : Int :=
  (ofInt n).toInteger?.getD 0

section Carried

variable {n n' v : Int} {x : Number}

/-! ### What is read -/

/-- The least integer of 64 bits is a number, and so nothing is rounded to less. -/
lemma minInteger_le_of_isNearest (hmin : minInteger ≤ n) (h : x.IsNearest n v) : minInteger ≤ v := by
  obtain ⟨y, hy⟩ := exists_value?_eq (m := -1) (k := 63) (by norm_num) (by norm_num)
  have hvalue : ((-1 : Int) : ℚ) * 2 ^ 63 = (minInteger : Int) := by
    unfold minInteger
    norm_num
  rw [hvalue] at hy
  exact_mod_cast h.ge_of_ge hy (Int.cast_le.mpr hmin)

lemma toInteger?_of_isNearest (hmin : minInteger ≤ n) (h : (ofInt n).IsNearest n v) :
    (ofInt n).toInteger? = some (min v maxInteger) := by
  have hv := minInteger_le_of_isNearest hmin h
  rw [toInteger?, whole?_eq_some_iff.mpr h.value, Option.map_some, clampInteger, max_eq_right (le_min hv (by decide))]

/-- The multiples of 1024 are numbers, and so nothing is rounded farther than half of the way between two of them. -/
lemma abs_sub_le_of_isNearest (hmin : minInteger ≤ n) (hmax : n ≤ maxInteger) (h : x.IsNearest n v) :
    |v - n| ≤ 512 := by
  unfold minInteger at hmin
  unfold maxInteger at hmax
  obtain ⟨y, hy⟩ := exists_value?_eq (m := n / 1024) (k := 10) (abs_le.mpr (by omega)) (by norm_num)
  obtain ⟨y', hy'⟩ := exists_value?_eq (m := n / 1024 + 1) (k := 10) (abs_le.mpr (by omega)) (by norm_num)
  have hbelow : ((n / 1024 : Int) : ℚ) * 2 ^ 10 ≤ n := by
    exact_mod_cast (by omega : n / 1024 * 2 ^ 10 ≤ n)
  have habove : (n : ℚ) ≤ ((n / 1024 + 1 : Int) : ℚ) * 2 ^ 10 := by
    exact_mod_cast (by omega : n ≤ (n / 1024 + 1) * 2 ^ 10)
  have hhalf := h.abs_sub_le hy hy' hbelow habove
  have hwidth : (((n / 1024 + 1 : Int) : ℚ) * 2 ^ 10 - ((n / 1024 : Int) : ℚ) * 2 ^ 10) / 2 = 512 := by
    push_cast
    ring
  rw [hwidth] at hhalf
  exact_mod_cast hhalf

/-- What is carried is the value of the nearest number, or the greatest integer of 64 bits if that is less. -/
lemma exists_carried (hmin : minInteger ≤ n) (hmax : n ≤ maxInteger) :
    ∃ v : Int, (ofInt n).IsNearest n v ∧ carried n = min v maxInteger := by
  obtain ⟨v, hv⟩ := exists_isNearest_ofInt (abs_le.mpr ⟨hmin, hmax.trans (by decide)⟩)
  refine ⟨v, hv, ?_⟩
  rw [carried, toInteger?_of_isNearest hmin hv, Option.getD_some]

/-- **An integer of 64 bits is always carried.** -/
lemma toInteger?_ofInt (hmin : minInteger ≤ n) (hmax : n ≤ maxInteger) : (ofInt n).toInteger? = some (carried n) := by
  obtain ⟨v, hv, hcarried⟩ := exists_carried hmin hmax
  rw [toInteger?_of_isNearest hmin hv, hcarried]

/-! ### Carrying as a function -/

lemma carried_le (hmin : minInteger ≤ n) (hmax : n ≤ maxInteger) : carried n ≤ maxInteger := by
  obtain ⟨v, -, hcarried⟩ := exists_carried hmin hmax
  rw [hcarried]
  exact min_le_right _ _

/-- **Up to `2 ^ 53` an integer is carried without a change.** -/
lemma carried_of_small (h : |n| ≤ 2 ^ 53) : carried n = n := by
  obtain ⟨hlow, hhigh⟩ := abs_le.mp h
  have hmin : minInteger ≤ n := le_trans (by decide) hlow
  have hmax : n ≤ maxInteger := hhigh.trans (by decide)
  obtain ⟨v, hv, hcarried⟩ := exists_carried hmin hmax
  have hexact : v = n := by exact_mod_cast hv.eq_of_value? (value?_ofInt h)
  rw [hcarried, hexact, min_eq_left hmax]

lemma abs_carried_sub_le (hmin : minInteger ≤ n) (hmax : n ≤ maxInteger) : |carried n - n| ≤ 512 := by
  obtain ⟨v, hv, hcarried⟩ := exists_carried hmin hmax
  have hnear := abs_le.mp (abs_sub_le_of_isNearest hmin hmax hv)
  rw [hcarried]
  exact abs_le.mpr (by omega)

/-- **Carrying keeps the order.** -/
lemma carried_mono (hmin : minInteger ≤ n) (h : n ≤ n') (hmax : n' ≤ maxInteger) : carried n ≤ carried n' := by
  obtain ⟨v, hv, hcarried⟩ := exists_carried hmin (h.trans hmax)
  obtain ⟨v', hv', hcarried'⟩ := exists_carried (hmin.trans h) hmax
  rcases h.lt_or_eq with hlt | rfl
  · have hle : v ≤ v' := by exact_mod_cast hv.mono hv' (Int.cast_lt.mpr hlt)
    rw [hcarried, hcarried']
    exact min_le_min_right _ hle
  · exact le_rfl

/-- An integer is carried by one on its side of zero. -/
lemma sign_carried (hmin : minInteger ≤ n) (hmax : n ≤ maxInteger) : (carried n).sign = n.sign := by
  rcases lt_trichotomy n 0 with hneg | rfl | hpos
  · have hlast : n ≤ -1 := by omega
    have hle := carried_mono hmin hlast (by decide)
    rw [carried_of_small (by norm_num : |(-1 : Int)| ≤ 2 ^ 53)] at hle
    rw [Int.sign_eq_neg_one_of_neg hneg, Int.sign_eq_neg_one_of_neg (by omega)]
  · rw [carried_of_small (by norm_num)]
  · have hfirst : 1 ≤ n := by omega
    have hge := carried_mono (by decide) hfirst hmax
    rw [carried_of_small (by norm_num : |(1 : Int)| ≤ 2 ^ 53)] at hge
    rw [Int.sign_eq_one_of_pos hpos, Int.sign_eq_one_of_pos (by omega)]

/-- **What has been carried once is carried without a change.** -/
lemma carried_carried (hmin : minInteger ≤ n) (hmax : n ≤ maxInteger) : carried (carried n) = carried n := by
  obtain ⟨v, hv, hcarried⟩ := exists_carried hmin hmax
  have hle := carried_le hmin hmax
  rcases le_or_gt v maxInteger with hwithin | hpast
  · -- the value is a number, and so it is the nearest one to itself
    have hv' := minInteger_le_of_isNearest hmin hv
    obtain ⟨w, hw, hagain⟩ := exists_carried hv' hwithin
    have hsame : w = v := by exact_mod_cast hw.eq_of_value? hv.value
    rw [hcarried, min_eq_left hwithin, hagain, hsame, min_eq_left hwithin]
  · -- the greatest integer is carried like this one
    rw [min_eq_right hpast.le] at hcarried
    have hge := carried_mono hmin hmax le_rfl
    rw [hcarried] at hge ⊢
    exact le_antisymm (carried_le (by decide) le_rfl) hge

/-- An integer that is carried with a change is far from zero, and stays on its side of it. -/
lemma carried_cases (hmin : minInteger ≤ n) (hmax : n ≤ maxInteger) :
    carried n = n ∨ n < 0 ∧ carried n < 0 ∨ 2 ^ 53 ≤ n ∧ 2 ^ 53 ≤ carried n := by
  by_cases hsmall : |n| ≤ 2 ^ 53
  · exact .inl (carried_of_small hsmall)
  · rcases lt_or_ge n 0 with hneg | hnonneg
    · have hsign := sign_carried hmin hmax
      rw [Int.sign_eq_neg_one_of_neg hneg, Int.sign_eq_neg_one_iff_neg] at hsign
      exact .inr (.inl ⟨hneg, hsign⟩)
    · rw [abs_of_nonneg hnonneg] at hsmall
      have hge := carried_mono (by decide) (not_le.mp hsmall).le hmax
      rw [carried_of_small (by norm_num)] at hge
      exact .inr (.inr ⟨(not_le.mp hsmall).le, hge⟩)

end Carried

end LazyQuery.Number
