import LazyQuery.Proofs.Number.Integer
import LazyQuery.Proofs.Number.Rounding
import Mathlib.Order.Monotone.Odd

/-!
# Rounding goes to the nearest number

No magnitude is nearer to a quotient than that of its nearest rank, and of two that are as near it is the one with the even
significand (`Number.nearestRank_nearest`).  So a quotient is rounded to the nearest number (`Number.isNearest_ofRatio`), and
rounding keeps the order of quotients (`Number.IsNearest.mono`).

An integer of 64 bits is rounded to an integer (`Number.exists_isNearest_ofInt`), and up to `2 ^ 53` it is not rounded at all
(`Number.value?_ofInt`).
-/

namespace LazyQuery

section RoundDiv

variable {num den : Nat}

/-- A quotient between two whole numbers, and the one that it is rounded to. -/
lemma exists_roundDiv_cases (num : Nat) (hden : den ≠ 0) : ∃ floor : Nat,
    ((floor : ℚ) ≤ num / den ∧ (num / den : ℚ) < floor + 1 / 2 ∧ roundDiv num den = floor) ∨
    ((floor : ℚ) + 1 / 2 < num / den ∧ (num / den : ℚ) < floor + 1 ∧ roundDiv num den = floor + 1) ∨
    ((num / den : ℚ) = floor + 1 / 2 ∧ roundDiv num den = floor + floor % 2) := by
  have hpos : (0 : ℚ) < den := by exact_mod_cast Nat.pos_of_ne_zero hden
  have hsplit : (num / den : ℚ) = (num / den : Nat) + (num % den : Nat) / den := by
    rw [div_eq_iff hpos.ne', add_mul, div_mul_cancel₀ _ hpos.ne']
    exact_mod_cast (Nat.div_add_mod' num den).symm
  have hrest : ((num % den : Nat) / den : ℚ) < 1 := by
    rw [div_lt_one hpos]
    exact_mod_cast Nat.mod_lt num (Nat.pos_of_ne_zero hden)
  have hnonneg : (0 : ℚ) ≤ (num % den : Nat) / den := by positivity
  refine ⟨num / den, ?_⟩
  rw [hsplit]
  unfold roundDiv
  dsimp only
  split
  · next h =>
    rw [Nat.compare_eq_lt] at h
    have hhalf : ((num % den : Nat) / den : ℚ) < 1 / 2 := by
      rw [div_lt_div_iff₀ hpos two_pos, mul_comm, one_mul]
      exact_mod_cast h
    exact .inl ⟨by linarith, by linarith, rfl⟩
  · next h =>
    rw [Nat.compare_eq_gt] at h
    have hhalf : (1 / 2 : ℚ) < (num % den : Nat) / den := by
      rw [div_lt_div_iff₀ two_pos hpos, one_mul, mul_comm]
      exact_mod_cast h
    exact .inr (.inl ⟨by linarith, by linarith, rfl⟩)
  · next h =>
    rw [Nat.compare_eq_eq] at h
    have hhalf : ((num % den : Nat) / den : ℚ) = 1 / 2 := by
      rw [div_eq_div_iff hpos.ne' two_ne_zero, one_mul, mul_comm]
      exact_mod_cast h
    exact .inr (.inr ⟨by rw [hhalf], rfl⟩)

/-- **Rounding goes at most half a unit away**, and half a unit away to an even number only. -/
lemma abs_roundDiv_sub_le (num : Nat) (hden : den ≠ 0) : |(roundDiv num den : ℚ) - num / den| ≤ 1 / 2 ∧
    (|(roundDiv num den : ℚ) - num / den| = 1 / 2 → Even (roundDiv num den)) := by
  obtain ⟨floor, ⟨hge, hlt, hround⟩ | ⟨hgt, hlt, hround⟩ | ⟨heq, hround⟩⟩ := exists_roundDiv_cases num hden
  · rw [hround, abs_sub_comm, abs_of_nonneg (by linarith)]
    exact ⟨by linarith, fun h => absurd h (by linarith)⟩
  · rw [hround, Nat.cast_succ, abs_of_nonneg (by linarith)]
    exact ⟨by linarith, fun h => absurd h (by linarith)⟩
  · have heven : Even (roundDiv num den) := by
      rw [hround, Nat.even_iff]
      omega
    refine ⟨?_, fun _ => heven⟩
    rw [hround, heq]
    rcases Nat.mod_two_eq_zero_or_one floor with h | h <;> rw [h] <;> norm_num

/-- Every other whole number is as far away at least. -/
lemma roundDiv_nearest (num : Nat) (hden : den ≠ 0) (m : Nat) :
    |(roundDiv num den : ℚ) - num / den| ≤ |(m : ℚ) - num / den| ∧
    (|(roundDiv num den : ℚ) - num / den| = |(m : ℚ) - num / den| →
      m = roundDiv num den ∨ Even (roundDiv num den)) := by
  obtain ⟨hhalf, heven⟩ := abs_roundDiv_sub_le num hden
  by_cases hm : m = roundDiv num den
  · exact ⟨by rw [hm], fun _ => .inl hm⟩
  · have hapart : (1 : ℚ) ≤ |(m : ℚ) - roundDiv num den| := by
      have hone : 1 ≤ |(m : ℤ) - roundDiv num den| := Int.one_le_abs (by omega)
      exact_mod_cast hone
    have htriangle := abs_sub_le (m : ℚ) (num / den) (roundDiv num den)
    rw [abs_sub_comm (num / den : ℚ)] at htriangle
    exact ⟨by linarith, fun h => .inr (heven (by linarith))⟩

end RoundDiv

namespace Number

/-! ### Units of a place -/

section Places

variable {n k : Nat}

/-- Ranks are ordered like their magnitudes. -/
theorem magnitude_strictMono : StrictMono magnitude := by
  intro r s hlt
  have hr := places_add_significand r
  have hs := places_add_significand s
  have hge := exponent_ge r
  have hge' := exponent_ge s
  have hsig := significand_lt r
  have hsig' := significand_lt s
  have hexponent : exponent r ≤ exponent s := by
    unfold exponent
    split_ifs <;> omega
  rcases hexponent.lt_or_eq with hless | hequal
  · calc magnitude r < 2 ^ (53 + exponent r) := magnitude_lt_two_zpow r
      _ ≤ 2 ^ (52 + exponent s) := zpow_le_zpow_right₀ one_le_two (by omega)
      _ ≤ magnitude s := two_zpow_le_magnitude (by omega)
  · have hsignificand : significand r < significand s := by
      rw [hequal] at hr
      omega
    unfold magnitude
    rw [hequal]
    exact mul_lt_mul_of_pos_right (by exact_mod_cast hsignificand) (by positivity)

/-- **The rank that counts so many units of a place.**  They have 53 places, unless the place is the last one of all. -/
lemma magnitude_places_add (hn : n ≤ 2 ^ 53) (hk : k = 0 ∨ 2 ^ 52 ≤ n) :
    magnitude (k * 0x10000000000000 + n) = n * 2 ^ ((k : ℤ) - 1074) := by
  unfold magnitude
  rcases hn.lt_or_eq with hlt | rfl
  · have hexponent : exponent (k * 0x10000000000000 + n) = k - 1074 := by
      unfold exponent
      split_ifs <;> omega
    have hsignificand : significand (k * 0x10000000000000 + n) = n := by
      unfold significand
      split_ifs <;> omega
    rw [hexponent, hsignificand]
  · have hexponent : exponent (k * 0x10000000000000 + 2 ^ 53) = 1 + (k - 1074) := by
      unfold exponent
      split_ifs <;> omega
    have hsignificand : significand (k * 0x10000000000000 + 2 ^ 53) = 2 ^ 52 := by
      unfold significand
      split_ifs <;> omega
    rw [hexponent, hsignificand, zpow_add₀ two_ne_zero, ← mul_assoc]
    norm_num

/-- A magnitude can have up to 53 places, wherever the last of them is. -/
lemma exists_magnitude_eq (hn : n ≤ 2 ^ 53) (k : Nat) : ∃ rank, magnitude rank = n * 2 ^ ((k : ℤ) - 1074) := by
  induction k generalizing n with
  | zero => exact ⟨_, magnitude_places_add hn (.inl rfl)⟩
  | succ k ih =>
    by_cases hlarge : 2 ^ 52 ≤ n
    · exact ⟨_, magnitude_places_add hn (.inr hlarge)⟩
    · obtain ⟨rank, hrank⟩ := ih (n := 2 * n) (by omega)
      refine ⟨rank, hrank.trans ?_⟩
      rw [show ((k + 1 : Nat) : ℤ) - 1074 = 1 + (k - 1074) by omega, zpow_add₀ two_ne_zero, zpow_one]
      push_cast
      ring

end Places

section Nearest

variable {num den rank m : Nat} {e : Int}

/-- The last place of a quotient is the first that 53 places reach up from. -/
lemma lastPlace_bounds (hnum : num ≠ 0) (hden : den ≠ 0) : (num / den : ℚ) < 2 ^ (53 + lastPlace num den) ∧
    (lastPlace num den ≠ -1074 → (2 : ℚ) ^ (52 + lastPlace num den) ≤ num / den) := by
  have hpos : (0 : ℚ) < num / den :=
    div_pos (by exact_mod_cast Nat.pos_of_ne_zero hnum) (by exact_mod_cast Nat.pos_of_ne_zero hden)
  rw [lt_two_zpow_iff hpos, two_zpow_le_iff hpos, lastPlace, floorLog2_eq_log hnum hden]
  omega

/-- The units of a place that a quotient is rounded to are the nearest ones. -/
lemma unitsOf_nearest (num : Nat) (hden : den ≠ 0) (e : Int) (m : Nat) :
    |unitsOf num den e * 2 ^ e - (num / den : ℚ)| ≤ |m * 2 ^ e - (num / den : ℚ)| ∧
    (|unitsOf num den e * 2 ^ e - (num / den : ℚ)| = |m * 2 ^ e - (num / den : ℚ)| →
      m = unitsOf num den e ∨ Even (unitsOf num den e)) := by
  obtain ⟨n, d, hd, hunits, hquotient⟩ := exists_unitsOf_eq num hden e
  have hpos : (0 : ℚ) < 2 ^ e := by positivity
  have hdistance (m : Nat) : |m * 2 ^ e - (num / den : ℚ)| = |(m : ℚ) - n / d| * 2 ^ e := by
    rw [hquotient, ← abs_of_pos hpos, ← abs_mul, abs_of_pos hpos, sub_mul, div_mul_cancel₀ _ hpos.ne']
  rw [hdistance, hdistance, hunits, mul_le_mul_iff_left₀ hpos, mul_left_inj' hpos.ne']
  exact roundDiv_nearest n hd m

/-- Rounding does not go past a number of units. -/
lemma unitsOf_le (hden : den ≠ 0) (h : (num / den : ℚ) ≤ m * 2 ^ e) : unitsOf num den e ≤ m := by
  have hnearest := (unitsOf_nearest num hden e m).1
  rw [abs_of_nonneg (sub_nonneg.mpr h)] at hnearest
  have hle : (unitsOf num den e * 2 ^ e : ℚ) ≤ m * 2 ^ e := by
    linarith [le_abs_self (unitsOf num den e * 2 ^ e - num / den : ℚ)]
  exact_mod_cast le_of_mul_le_mul_right hle (by positivity)

lemma le_unitsOf (hden : den ≠ 0) (h : (m * 2 ^ e : ℚ) ≤ num / den) : m ≤ unitsOf num den e := by
  have hnearest := (unitsOf_nearest num hden e m).1
  rw [abs_of_nonpos (sub_nonpos.mpr h)] at hnearest
  have hle : (m * 2 ^ e : ℚ) ≤ unitsOf num den e * 2 ^ e := by
    linarith [neg_abs_le (unitsOf num den e * 2 ^ e - num / den : ℚ)]
  exact_mod_cast le_of_mul_le_mul_right hle (by positivity)

/-- In units of its last place a quotient has at most 53 places, and just 53 unless that is the last place of all. -/
lemma unitsOf_lastPlace (hnum : num ≠ 0) (hden : den ≠ 0) : unitsOf num den (lastPlace num den) ≤ 2 ^ 53 ∧
    (lastPlace num den ≠ -1074 → 2 ^ 52 ≤ unitsOf num den (lastPlace num den)) := by
  obtain ⟨hupper, hlower⟩ := lastPlace_bounds hnum hden
  refine ⟨unitsOf_le hden ?_, fun hplace => le_unitsOf hden ?_⟩
  · rw [zpow_add₀ two_ne_zero] at hupper
    exact_mod_cast hupper.le
  · have hlower := hlower hplace
    rw [zpow_add₀ two_ne_zero] at hlower
    exact_mod_cast hlower

lemma lastPlace_ge (num den : Nat) : -1074 ≤ lastPlace num den :=
  le_max_left _ _

/-- The nearest rank counts the units of the last place. -/
lemma magnitude_nearestRank (hnum : num ≠ 0) (hden : den ≠ 0) :
    magnitude (nearestRank num den) = unitsOf num den (lastPlace num den) * 2 ^ lastPlace num den := by
  obtain ⟨hle, hge⟩ := unitsOf_lastPlace hnum hden
  have hplace := lastPlace_ge num den
  rw [nearestRank_eq hnum, magnitude_places_add hle]
  · congr 2
    omega
  · by_cases hleast : lastPlace num den = -1074
    · exact .inl (by omega)
    · exact .inr (hge hleast)

/-- **No magnitude is nearer to a quotient than that of its nearest rank**, and none is as near unless this rank is even. -/
theorem nearestRank_nearest (num : Nat) (hden : den ≠ 0) (rank : Nat) :
    |magnitude (nearestRank num den) - num / den| ≤ |magnitude rank - num / den| ∧
    (|magnitude (nearestRank num den) - num / den| = |magnitude rank - num / den| →
      rank = nearestRank num den ∨ Even (nearestRank num den)) := by
  by_cases hnum : num = 0
  · have hzero : nearestRank num den = 0 := by rw [nearestRank, if_pos hnum]
    rw [hzero, magnitude_eq_zero.mpr rfl, hnum, Nat.cast_zero, zero_div, sub_zero, abs_zero]
    exact ⟨abs_nonneg _, fun _ => .inr Even.zero⟩
  · obtain ⟨-, hupper⟩ := lastPlace_bounds hnum hden
    obtain ⟨-, hunits⟩ := unitsOf_lastPlace hnum hden
    have hmagnitude := magnitude_nearestRank hnum hden
    rcases le_or_gt (lastPlace num den) (exponent rank) with hplace | hplace
    · -- the other magnitude counts units of the same place
      obtain ⟨shift, hshift⟩ : ∃ shift : Nat, exponent rank = shift + lastPlace num den :=
        ⟨(exponent rank - lastPlace num den).toNat, by omega⟩
      have hother : magnitude rank = (significand rank * 2 ^ shift : Nat) * 2 ^ lastPlace num den := by
        rw [magnitude, hshift, zpow_add₀ two_ne_zero, zpow_natCast, ← mul_assoc]
        push_cast
        rfl
      obtain ⟨hle, heven⟩ := unitsOf_nearest num hden (lastPlace num den) (significand rank * 2 ^ shift)
      rw [← hother, ← hmagnitude] at hle heven
      refine ⟨hle, fun h => ?_⟩
      rcases heven h with hsame | heven
      · left
        refine magnitude_strictMono.injective ?_
        rw [hother, hmagnitude, hsame]
      · right
        rw [nearestRank_eq hnum]
        exact Even.add (Even.mul_left (by decide) _) heven
    · -- the other magnitude is below the power of two that the quotient has reached
      have hleast : lastPlace num den ≠ -1074 := by
        have := exponent_ge rank
        omega
      have hreached := hupper hleast
      have hbelow : magnitude rank < 2 ^ (52 + lastPlace num den) :=
        (magnitude_lt_two_zpow rank).trans_le (zpow_le_zpow_right₀ one_le_two (by omega))
      have hcloser := (unitsOf_nearest num hden (lastPlace num den) (2 ^ 52)).1
      have hpower : ((2 ^ 52 : Nat) * 2 ^ lastPlace num den : ℚ) = 2 ^ (52 + lastPlace num den) := by
        rw [zpow_add₀ two_ne_zero]
        norm_num
      rw [← hmagnitude, hpower, abs_sub_comm (2 ^ (52 + _)), abs_of_nonneg (sub_nonneg.mpr hreached)] at hcloser
      have hlt : |magnitude (nearestRank num den) - num / den| < |magnitude rank - num / den| := by
        rw [abs_sub_comm (magnitude rank), abs_of_pos (sub_pos.mpr (hbelow.trans_le hreached))]
        linarith
      exact ⟨hlt.le, fun h => absurd h hlt.ne⟩

lemma magnitude_infiniteRank : magnitude infiniteRank = 2 ^ (1024 : ℤ) := by
  have hplaces := magnitude_places_add (n := 2 ^ 52) (k := 2046) (by norm_num) (.inr le_rfl)
  rw [show (2046 * 0x10000000000000 + 2 ^ 52 : Nat) = infiniteRank from rfl] at hplaces
  rw [hplaces, Nat.cast_pow, Nat.cast_ofNat, ← zpow_natCast, ← zpow_add₀ two_ne_zero]
  rfl

lemma lt_infiniteRank_of_magnitude_lt (h : magnitude rank < 2 ^ (1024 : ℤ)) : rank < infiniteRank := by
  rw [← magnitude_infiniteRank] at h
  exact magnitude_strictMono.lt_iff_lt.mp h

/-- Rounding at most doubles a quotient. -/
lemma magnitude_nearestRank_le (num : Nat) (hden : den ≠ 0) : magnitude (nearestRank num den) ≤ 2 * (num / den) := by
  have hnearest := (nearestRank_nearest num hden 0).1
  have hquotient : (0 : ℚ) ≤ num / den := div_nonneg (Nat.cast_nonneg num) (Nat.cast_nonneg den)
  rw [magnitude_eq_zero.mpr rfl, zero_sub, abs_neg, abs_of_nonneg hquotient] at hnearest
  linarith [le_abs_self (magnitude (nearestRank num den) - num / den)]

/-- A quotient is rounded to a finite number unless it is near the greatest one. -/
lemma nearestRank_lt_infiniteRank (hden : den ≠ 0) (h : (num / den : ℚ) < 2 ^ (1023 : ℤ)) :
    nearestRank num den < infiniteRank := by
  refine lt_infiniteRank_of_magnitude_lt ((magnitude_nearestRank_le num hden).trans_lt ?_)
  rw [show (1024 : ℤ) = 1 + 1023 from rfl, zpow_one_add₀ two_ne_zero]
  exact mul_lt_mul_of_pos_left h two_pos

end Nearest

/-! ### Values -/

section Values

variable {x y : Number} {v w : ℚ}

/-- The value of a number with a signed rank. -/
def signedMagnitude (key : Int) : ℚ :=
  if key < 0 then -magnitude key.natAbs else magnitude key.natAbs

lemma signedMagnitude_neg (key : Int) : signedMagnitude (-key) = -signedMagnitude key := by
  unfold signedMagnitude
  rcases lt_trichotomy key 0 with h | rfl | h
  · rw [if_neg (by omega), if_pos h, Int.natAbs_neg, neg_neg]
  · simp [magnitude_eq_zero.mpr]
  · rw [if_pos (by omega), if_neg (by omega), Int.natAbs_neg]

lemma signedMagnitude_lt {k l : Int} (h : k < l) : signedMagnitude k < signedMagnitude l := by
  have hmono : StrictMono signedMagnitude := by
    refine strictMono_of_odd_strictMonoOn_nonneg signedMagnitude_neg fun a ha b hb hlt => ?_
    rw [Set.mem_Ici] at ha hb
    unfold signedMagnitude
    rw [if_neg (by omega), if_neg (by omega)]
    exact magnitude_strictMono (by omega)
  exact hmono h

lemma abs_signedMagnitude (key : Int) : |signedMagnitude key| = magnitude key.natAbs := by
  unfold signedMagnitude
  split_ifs
  · rw [abs_neg, abs_of_nonneg (magnitude_nonneg _)]
  · rw [abs_of_nonneg (magnitude_nonneg _)]

lemma exists_key_of_value? (h : x.value? = some v) : ∃ k, x.key? = some k ∧ signedMagnitude k = v := by
  rcases x with _ | ⟨negative, rank⟩
  · cases h
  · rw [value?] at h
    split at h
    · cases h
      cases negative
      · exact ⟨rank.val, rfl, by simp [signedMagnitude]⟩
      · refine ⟨-rank.val, rfl, ?_⟩
        rw [signedMagnitude_neg]
        simp [signedMagnitude]
    · cases h

def neg : Number → Number
  | .nan bits => .nan bits
  | .real negative rank => .real (!negative) rank

lemma value?_neg (h : x.value? = some v) : x.neg.value? = some (-v) := by
  rcases x with _ | ⟨negative, rank⟩
  · cases h
  · rw [value?] at h
    rw [neg, value?]
    split at h
    · next hfinite =>
      cases h
      rw [if_pos hfinite]
      cases negative <;> simp
    · cases h

/-- **Numbers are ordered by their values.** -/
theorem order_eq_compare_value (hx : x.value? = some v) (hy : y.value? = some w) : x.order y = compare v w := by
  obtain ⟨k, hk, rfl⟩ := exists_key_of_value? hx
  obtain ⟨l, hl, rfl⟩ := exists_key_of_value? hy
  rw [order, hk, hl]
  calc compare k l
      _ = cmp k l := (cmp_eq_compare k l).symm
      _ = cmp (signedMagnitude k) (signedMagnitude l) := (StrictMono.cmp_map_eq (fun _ _ => signedMagnitude_lt) k l).symm
      _ = compare (signedMagnitude k) (signedMagnitude l) := cmp_eq_compare _ _

end Values

/-! ### The nearest number -/

section IsNearest

variable {x y y' : Number} {q q' v w w' : ℚ}

def HasEvenSignificand : Number → Prop
  | .nan _ => False
  | .real _ rank => Even (significand rank)

lemma even_significand_iff {rank : Nat} : Even (significand rank) ↔ Even rank := by
  rw [Nat.even_iff, Nat.even_iff]
  unfold significand
  split_ifs <;> omega

/-- Among the values of numbers that of the number is the nearest one to a quotient, and of two that are as near it is that
with the even significand. -/
structure IsNearest (x : Number) (q v : ℚ) : Prop where
  value : x.value? = some v
  nearest : ∀ (y : Number) (w : ℚ), y.value? = some w → |v - q| ≤ |w - q|
  even : ∀ (y : Number) (w : ℚ), y.value? = some w → |w - q| = |v - q| → w ≠ v → x.HasEvenSignificand

/-- A value is the nearest one to itself. -/
lemma IsNearest.eq_of_value? (h : x.IsNearest q v) (hy : y.value? = some q) : v = q := by
  have hle := h.nearest y q hy
  rw [sub_self, abs_zero] at hle
  exact sub_eq_zero.mp (abs_nonpos_iff.mp hle)

/-- Rounding does not go past a number. -/
lemma IsNearest.ge_of_ge (h : x.IsNearest q v) (hy : y.value? = some w) (hw : w ≤ q) : w ≤ v := by
  have hle := h.nearest y w hy
  rw [abs_of_nonpos (sub_nonpos.mpr hw)] at hle
  linarith [neg_abs_le (v - q)]

/-- Between two numbers rounding goes at most half of the way from one to the other. -/
lemma IsNearest.abs_sub_le (h : x.IsNearest q v) (hy : y.value? = some w) (hy' : y'.value? = some w') (hw : w ≤ q)
    (hw' : q ≤ w') : |v - q| ≤ (w' - w) / 2 := by
  have hbelow := h.nearest y w hy
  have habove := h.nearest y' w' hy'
  rw [abs_of_nonpos (sub_nonpos.mpr hw)] at hbelow
  rw [abs_of_nonneg (sub_nonneg.mpr hw')] at habove
  linarith

/-- What is as near to the greater of two values is at least halfway between them. -/
lemma sum_le_of_abs_le {a b q : ℚ} (hab : a < b) (h : |b - q| ≤ |a - q|) : a + b ≤ 2 * q := by
  rcases abs_cases (b - q) with hb | hb <;> rcases abs_cases (a - q) with ha | ha <;> linarith

lemma le_sum_of_abs_le {a b q : ℚ} (hab : a < b) (h : |a - q| ≤ |b - q|) : 2 * q ≤ a + b := by
  rcases abs_cases (b - q) with hb | hb <;> rcases abs_cases (a - q) with ha | ha <;> linarith

/-- **The nearest numbers are in the order of the quotients.** -/
theorem IsNearest.mono (hx : x.IsNearest q v) (hy : y.IsNearest q' w) (h : q < q') : v ≤ w := by
  by_contra hlt
  have hgreater := sum_le_of_abs_le (not_le.mp hlt) (hx.nearest y w hy.value)
  have hless := le_sum_of_abs_le (not_le.mp hlt) (hy.nearest x v hx.value)
  linarith

/-- What holds on one side of zero holds on the other. -/
lemma IsNearest.neg (h : x.IsNearest q v) : x.neg.IsNearest (-q) (-v) := by
  have hdistance (w : ℚ) : |-w - -q| = |w - q| := by rw [neg_sub_neg, abs_sub_comm]
  have hmirror (w : ℚ) : |-w - q| = |w - -q| := by rw [← hdistance (-w), neg_neg]
  refine ⟨value?_neg h.value, fun y w hw => ?_, fun y w hw hsame hne => ?_⟩
  · rw [hdistance, ← hmirror]
    exact h.nearest y.neg (-w) (value?_neg hw)
  · rw [hdistance, ← hmirror] at hsame
    have heven := h.even y.neg (-w) (value?_neg hw) hsame (mt neg_eq_iff_eq_neg.mp hne)
    cases x with
    | nan => cases heven
    | real negative rank => exact heven

/-- On the other side of zero the same magnitude is farther away. -/
lemma eq_of_abs_eq (hv : v ≤ 2 * q) (habs : |w| = v) (hsame : |w - q| = |v - q|) : w = v := by
  have hnonneg : 0 ≤ v := habs ▸ abs_nonneg w
  rcases (abs_eq hnonneg).mp habs with hw | hw
  · exact hw
  · rw [hw] at hsame ⊢
    rcases abs_cases (v - q) with hright | hright <;> rcases abs_cases (-v - q) with hleft | hleft <;> linarith

/-- **A quotient is rounded to the nearest number**, unless it is near the greatest one. -/
theorem isNearest_ofRatio {num den : Nat} (hden : den ≠ 0) (h : (num / den : ℚ) < 2 ^ (1023 : ℤ)) :
    (ofRatio false num den).IsNearest (num / den) (magnitude (nearestRank num den)) := by
  have hfinite := nearestRank_lt_infiniteRank hden h
  have hrank : min (nearestRank num den) infiniteRank = nearestRank num den := min_eq_left hfinite.le
  have hquotient : (0 : ℚ) ≤ num / den := div_nonneg (Nat.cast_nonneg num) (Nat.cast_nonneg den)
  have hother (key : Int) : |magnitude key.natAbs - num / den| ≤ |signedMagnitude key - num / den| := by
    have htriangle := abs_abs_sub_abs_le (signedMagnitude key) (num / den)
    rwa [abs_signedMagnitude, abs_of_nonneg hquotient] at htriangle
  refine ⟨?_, fun y w hw => ?_, fun y w hw hsame hne => ?_⟩
  · simp only [ofRatio, ofRank, value?, hrank, if_pos hfinite, Bool.false_eq_true, if_false]
  · obtain ⟨key, -, rfl⟩ := exists_key_of_value? hw
    exact (nearestRank_nearest num hden key.natAbs).1.trans (hother key)
  · obtain ⟨key, -, rfl⟩ := exists_key_of_value? hw
    obtain ⟨hle, heven⟩ := nearestRank_nearest num hden key.natAbs
    have heven : Even (nearestRank num den) := by
      rcases heven (le_antisymm hle (hsame ▸ hother key)) with hrank | heven
      · have habs : |signedMagnitude key| = magnitude (nearestRank num den) := by rw [abs_signedMagnitude, hrank]
        exact absurd (eq_of_abs_eq (magnitude_nearestRank_le num hden) habs hsame) hne
      · exact heven
    simp only [ofRatio, ofRank, hrank]
    exact even_significand_iff.mpr heven

end IsNearest

/-! ### Integers -/

section Integers

variable {i j m : Int} {k : Nat}

/-- An integer of 53 places is a number, and so it is with zeros behind them. -/
lemma exists_value?_eq (hm : |m| ≤ 2 ^ 53) (hk : k ≤ 970) :
    ∃ y : Number, y.value? = some ((m : ℚ) * 2 ^ k) := by
  have hplaces : m.natAbs ≤ 2 ^ 53 := by
    rw [Int.abs_eq_natAbs] at hm
    exact_mod_cast hm
  obtain ⟨rank, hrank⟩ := exists_magnitude_eq hplaces (k + 1074)
  rw [Nat.cast_add, Nat.cast_ofNat, add_sub_cancel_right] at hrank
  have hfinite : rank < infiniteRank := by
    refine lt_infiniteRank_of_magnitude_lt ?_
    calc magnitude rank = m.natAbs * 2 ^ (k : ℤ) := hrank
      _ ≤ 2 ^ (53 : ℤ) * 2 ^ (k : ℤ) := mul_le_mul_of_nonneg_right (by exact_mod_cast hplaces) (by positivity)
      _ = 2 ^ (53 + k : ℤ) := (zpow_add₀ two_ne_zero _ _).symm
      _ < 2 ^ (1024 : ℤ) := zpow_lt_zpow_right₀ one_lt_two (by omega)
  refine ⟨.real (m < 0) ⟨rank, by omega⟩, ?_⟩
  rw [value?, if_pos hfinite, hrank, zpow_natCast, Nat.cast_natAbs, Int.cast_abs]
  split_ifs with hneg
  · rw [abs_of_neg (by exact_mod_cast of_decide_eq_true hneg), neg_mul, neg_neg]
  · rw [abs_of_nonneg (by simpa using hneg)]

/-- The magnitude that an integer is rounded to is an integer. -/
lemma exists_magnitude_nearestRank_eq (n : Nat) : ∃ m : Nat, magnitude (nearestRank n 1) = m := by
  by_cases hn : n ≤ 2 ^ 53
  · obtain ⟨rank, hrank⟩ := exists_magnitude_eq hn 1074
    rw [Nat.cast_ofNat, sub_self, zpow_zero, mul_one] at hrank
    have hquotient : (n / (1 : Nat) : ℚ) = magnitude rank := by rw [hrank, Nat.cast_one, div_one]
    exact ⟨n, by rw [nearestRank_of_eq_magnitude one_ne_zero hquotient, hrank]⟩
  · have hnum : n ≠ 0 := by omega
    obtain ⟨hupper, -⟩ := lastPlace_bounds hnum one_ne_zero
    have hplace : 0 ≤ lastPlace n 1 := by
      by_contra hneg
      have hlt : (n : ℚ) < 2 ^ (53 : ℤ) := by
        rw [Nat.cast_one, div_one] at hupper
        exact hupper.trans_le (zpow_le_zpow_right₀ one_le_two (by omega))
      exact hn (by exact_mod_cast hlt.le)
    obtain ⟨e, he⟩ := Int.eq_ofNat_of_zero_le hplace
    refine ⟨unitsOf n 1 (lastPlace n 1) * 2 ^ e, ?_⟩
    rw [magnitude_nearestRank hnum one_ne_zero, he, zpow_natCast]
    push_cast
    rfl

/-- **An integer of 64 bits is rounded to an integer, the nearest one that is a number.** -/
theorem exists_isNearest_ofInt (hi : |i| ≤ 2 ^ 63) : ∃ m : Int, (ofInt i).IsNearest i m := by
  obtain ⟨m, hm⟩ := exists_magnitude_nearestRank_eq i.natAbs
  have hquotient : (i.natAbs / (1 : Nat) : ℚ) = |(i : ℚ)| := by
    rw [Nat.cast_one, div_one, Nat.cast_natAbs, Int.cast_abs]
  have hlt : (i.natAbs / (1 : Nat) : ℚ) < 2 ^ (1023 : ℤ) := by
    rw [hquotient]
    calc |(i : ℚ)| ≤ 2 ^ (63 : ℤ) := by exact_mod_cast hi
      _ < 2 ^ (1023 : ℤ) := zpow_lt_zpow_right₀ one_lt_two (by omega)
  have hnearest := isNearest_ofRatio one_ne_zero hlt
  rw [hquotient, hm] at hnearest
  by_cases hneg : i < 0
  · refine ⟨-m, ?_⟩
    have hmirrored := hnearest.neg
    rw [abs_of_neg (by exact_mod_cast hneg), neg_neg] at hmirrored
    rw [ofInt, decide_eq_true hneg]
    push_cast
    exact hmirrored
  · refine ⟨m, ?_⟩
    rw [abs_of_nonneg (by exact_mod_cast not_lt.mp hneg)] at hnearest
    rw [ofInt, decide_eq_false hneg]
    exact hnearest

/-- **Up to `2 ^ 53` an integer is not rounded.** -/
theorem value?_ofInt (hi : |i| ≤ 2 ^ 53) : (ofInt i).value? = some (i : ℚ) := by
  obtain ⟨m, hm⟩ := exists_isNearest_ofInt (hi.trans (by norm_num))
  obtain ⟨y, hy⟩ := exists_value?_eq hi (Nat.zero_le 970)
  rw [pow_zero, mul_one] at hy
  rw [hm.value, hm.eq_of_value? hy]

/-- **Integers are rounded in their order.** -/
theorem isLE_order_ofInt (hi : |i| ≤ 2 ^ 63) (hj : |j| ≤ 2 ^ 63) (h : i < j) : ((ofInt i).order (ofInt j)).isLE := by
  obtain ⟨v, hv⟩ := exists_isNearest_ofInt hi
  obtain ⟨w, hw⟩ := exists_isNearest_ofInt hj
  rw [order_eq_compare_value hv.value hw.value, ← Ordering.ne_gt_iff_isLE]
  exact compare_le_iff_le.mpr (hv.mono hw (Int.cast_lt.mpr h))

theorem order_ofInt (hi : |i| ≤ 2 ^ 53) (hj : |j| ≤ 2 ^ 53) : (ofInt i).order (ofInt j) = compare i j := by
  rw [order_eq_compare_value (value?_ofInt hi) (value?_ofInt hj)]
  calc compare (i : ℚ) j
      _ = cmp (i : ℚ) j := (cmp_eq_compare _ _).symm
      _ = cmp i j := Int.cast_strictMono.cmp_map_eq i j
      _ = compare i j := cmp_eq_compare i j

end Integers

end Number

end LazyQuery
