import LazyQuery.Number.Text
import LazyQuery.Proofs.Decimal.Shortest
import Mathlib.Data.List.TakeWhile

/-!
# Decimals written in full are read again

A decimal that is written in full is read as one of the same value, wherever its point stands
(`Number.ofText?_of_numeral`).  The text is digits and at most one point, so no blanks are cut off from it, and it is not
taken for the name of a number.
-/

namespace LazyQuery

namespace Decimal

/-! ### Significant digits -/

/-- What the digits stand for at their place. -/
def Significant.value (s : Significant) : ℚ :=
  Nat.ofDigitChars 10 s.digits 0 * 10 ^ (s.lead + 1 - s.digits.length)

lemma exists_dropTrailingZeros (digits : List Char) :
    ∃ count, digits = dropTrailingZeros digits ++ List.replicate count '0' := by
  have hzeros : digits.reverse.takeWhile (· == '0') =
      List.replicate (digits.reverse.takeWhile (· == '0')).length '0' := by
    refine List.eq_replicate_of_mem fun c hc => ?_
    simpa using List.mem_takeWhile_imp hc
  refine ⟨(digits.reverse.takeWhile (· == '0')).length, ?_⟩
  rw [dropTrailingZeros, ← List.reverse_replicate, ← hzeros, ← List.reverse_append, List.takeWhile_append_dropWhile,
    List.reverse_reverse]

/-- **Only zeros are left out**, so the value stays. -/
theorem value_significant (d : Decimal) : d.significant.value = d.value := by
  obtain ⟨count, hdigits⟩ := exists_dropTrailingZeros (Nat.toDigits 10 d.coefficient)
  have hcoefficient : d.coefficient =
      10 ^ count * Nat.ofDigitChars 10 (dropTrailingZeros (Nat.toDigits 10 d.coefficient)) 0 := by
    conv_lhs => rw [← Nat.ofDigitChars_ten_toDigits (n := d.coefficient), hdigits, Nat.ofDigitChars_append,
      Nat.ofDigitChars_replicate_zero]
  have hlength : (Nat.toDigits 10 d.coefficient).length =
      (dropTrailingZeros (Nat.toDigits 10 d.coefficient)).length + count := by
    conv_lhs => rw [hdigits, List.length_append, List.length_replicate]
  have hplace : d.exponent + (Nat.toDigits 10 d.coefficient).length - 1 + 1 -
      (dropTrailingZeros (Nat.toDigits 10 d.coefficient)).length = count + d.exponent := by
    rw [hlength]
    push_cast
    ring
  rw [Significant.value, significant, value]
  dsimp only
  rw [hplace, zpow_add₀ (by norm_num), zpow_natCast]
  conv_rhs => rw [hcoefficient]
  push_cast
  ring

lemma isDigit_significant (d : Decimal) : ∀ c ∈ d.significant.digits, c.isDigit = true := by
  intro c hc
  obtain ⟨count, hdigits⟩ := exists_dropTrailingZeros (Nat.toDigits 10 d.coefficient)
  have hmem : c ∈ Nat.toDigits 10 d.coefficient := by
    rw [hdigits]
    exact List.mem_append_left _ hc
  exact Nat.isDigit_of_mem_toDigits (by norm_num) le_rfl hmem

/-! ### Numerals -/

/-- A text of digits with at most one point behind the first, and its value. -/
inductive Numeral : List Char → ℚ → Prop
  | whole {digits} (digit : ∀ c ∈ digits, c.isDigit = true) (ne_nil : digits ≠ []) :
      Numeral digits (Nat.ofDigitChars 10 digits 0)
  | point {digits fraction} (digit : ∀ c ∈ digits, c.isDigit = true) (ne_nil : digits ≠ [])
      (fraction_digit : ∀ c ∈ fraction, c.isDigit = true) :
      Numeral (digits ++ '.' :: fraction) (Nat.ofDigitChars 10 (digits ++ fraction) 0 * 10 ^ (-fraction.length : ℤ))

/-- A whole number. -/
lemma numeral_toDigits (n : Nat) : Numeral (Nat.toDigits 10 n) n := by
  have hnumeral := @Numeral.whole (Nat.toDigits 10 n)
    (fun c hc => Nat.isDigit_of_mem_toDigits (by norm_num) le_rfl hc) Nat.toDigits_ne_nil
  rwa [Nat.ofDigitChars_ten_toDigits] at hnumeral

/-- **Significant digits are written in full as a numeral for their value.** -/
theorem numeral_inFull {s : Significant} (h : ∀ c ∈ s.digits, c.isDigit = true) : Numeral s.inFull s.value := by
  obtain ⟨digits, lead⟩ := s
  have hzeros (count : Nat) : ∀ c ∈ List.replicate count '0', c.isDigit = true := by
    intro c hc
    rw [List.eq_of_mem_replicate hc]
    rfl
  rcases lead with k | k
  · by_cases hlength : digits.length ≤ k + 1
    -- all digits are before the point
    · have hfull : Significant.inFull ⟨digits, .ofNat k⟩ = digits ++ List.replicate (k + 1 - digits.length) '0' := by
        simp [Significant.inFull, List.take_of_length_le hlength, List.drop_of_length_le hlength]
      have hvalue : Significant.value ⟨digits, .ofNat k⟩ =
          Nat.ofDigitChars 10 (digits ++ List.replicate (k + 1 - digits.length) '0') 0 := by
        have hplace : (Int.ofNat k + 1 - digits.length : ℤ) = (k + 1 - digits.length : ℕ) := by
          rw [Int.ofNat_eq_natCast]
          omega
        rw [Significant.value, Nat.ofDigitChars_append, Nat.ofDigitChars_replicate_zero, mul_comm]
        dsimp only
        rw [hplace, zpow_natCast]
        push_cast
        rfl
      rw [hfull, hvalue]
      refine .whole ?_ ?_
      · exact List.forall_mem_append.mpr ⟨h, hzeros _⟩
      · refine List.ne_nil_of_length_pos ?_
        rw [List.length_append, List.length_replicate]
        omega
    -- the point is among the digits
    · have hfull : Significant.inFull ⟨digits, .ofNat k⟩ = digits.take (k + 1) ++ '.' :: digits.drop (k + 1) := by
        have htake : (digits.take (k + 1)).length = k + 1 := by
          rw [List.length_take]
          omega
        simp [Significant.inFull, htake, hlength]
      have hvalue : Significant.value ⟨digits, .ofNat k⟩ =
          Nat.ofDigitChars 10 (digits.take (k + 1) ++ digits.drop (k + 1)) 0 *
            10 ^ (-(digits.drop (k + 1)).length : ℤ) := by
        have hplace : (Int.ofNat k + 1 - digits.length : ℤ) = -(digits.drop (k + 1)).length := by
          rw [List.length_drop, Int.ofNat_eq_natCast]
          omega
        rw [List.take_append_drop, ← hplace]
        rfl
      rw [hfull, hvalue]
      refine .point ?_ ?_ ?_
      · exact fun c hc => h c (List.mem_of_mem_take hc)
      · refine List.ne_nil_of_length_pos ?_
        rw [List.length_take]
        omega
      · exact fun c hc => h c (List.mem_of_mem_drop hc)
  -- all digits are behind the point
  · have hvalue : Significant.value ⟨digits, .negSucc k⟩ =
        Nat.ofDigitChars 10 (['0'] ++ (List.replicate k '0' ++ digits)) 0 *
          10 ^ (-(List.replicate k '0' ++ digits).length : ℤ) := by
      have hplace : (Int.negSucc k + 1 - digits.length : ℤ) = -(List.replicate k '0' ++ digits).length := by
        rw [List.length_append, List.length_replicate, Int.negSucc_eq]
        push_cast
        ring
      have hfirst : ['0'] ++ (List.replicate k '0' ++ digits) = List.replicate (k + 1) '0' ++ digits := rfl
      rw [← hplace, hfirst, Nat.ofDigitChars_append, Nat.ofDigitChars_replicate_zero]
      rfl
    rw [hvalue]
    show Numeral (['0'] ++ '.' :: (List.replicate k '0' ++ digits)) _
    exact .point (List.forall_mem_singleton.mpr rfl) (List.cons_ne_nil _ _) (List.forall_mem_append.mpr ⟨hzeros k, h⟩)

end Decimal

namespace Number

open Decimal

/-! ### Reading -/

section Read

variable {digits fraction text : List Char} {c : Char} {q : ℚ} {coefficient : Nat} {exponent : Int}

lemma readDigits_append (hdigits : ∀ c ∈ digits, c.isDigit = true) (htext : ∀ c ∈ text.head?, c.isDigit = false) :
    readDigits (digits ++ text) = (digits, text) := by
  have htake : text.takeWhile Char.isDigit = [] := by
    cases text with
    | nil => rfl
    | cons c text => exact List.takeWhile_cons_of_neg (by simpa using htext c rfl)
  have hdrop : text.dropWhile Char.isDigit = text := by
    cases text with
    | nil => rfl
    | cons c text => exact List.dropWhile_cons_of_neg (by simpa using htext c rfl)
  rw [readDigits, List.takeWhile_append_of_pos hdigits, List.dropWhile_append_of_pos hdigits, htake, hdrop, List.append_nil]

lemma readDigits_of_forall (hdigits : ∀ c ∈ digits, c.isDigit = true) : readDigits digits = (digits, []) := by
  have hread : readDigits (digits ++ []) = (digits, []) := readDigits_append hdigits (by simp)
  rwa [List.append_nil] at hread

/-- A numeral is read as a decimal of its value. -/
lemma readDecimal?_of_numeral (negative : Bool) (h : Numeral text (coefficient * 10 ^ exponent)) :
    readDecimal? negative text = some (ofDecimal negative coefficient exponent) := by
  generalize hq : (coefficient : ℚ) * 10 ^ exponent = q at h
  unfold readDecimal?
  cases h with
  | whole digit ne_nil =>
    have hcongr : ofDecimal negative coefficient exponent = ofDecimal negative (Nat.ofDigitChars 10 text 0) 0 :=
      ofDecimal_congr negative (by simpa using hq)
    rw [readDigits_of_forall digit, hcongr]
    simp [readFraction, readPower?, ne_nil]
  | @point digits fraction digit ne_nil fraction_digit =>
    have hcongr : ofDecimal negative coefficient exponent =
        ofDecimal negative (Nat.ofDigitChars 10 (digits ++ fraction) 0) (-fraction.length) :=
      ofDecimal_congr negative hq
    rw [readDigits_append digit (by simp), hcongr]
    simp [readFraction, readDigits_of_forall fraction_digit, readPower?, ne_nil]

/-- It begins with a digit, and all of it are digits and points. -/
lemma exists_of_numeral (h : Numeral text q) : (∃ c rest, text = c :: rest ∧ c.isDigit = true) ∧
    ∀ c ∈ text, c.isDigit = true ∨ c = '.' := by
  cases h with
  | whole digit ne_nil =>
    obtain ⟨c, rest, rfl⟩ := List.exists_cons_of_ne_nil ne_nil
    exact ⟨⟨c, rest, rfl, digit c (by simp)⟩, fun c hc => .inl (digit c hc)⟩
  | @point digits fraction digit ne_nil fraction_digit =>
    obtain ⟨c, rest, rfl⟩ := List.exists_cons_of_ne_nil ne_nil
    refine ⟨⟨c, rest ++ '.' :: fraction, rfl, digit c (by simp)⟩, fun d hd => ?_⟩
    rcases List.mem_append.mp hd with hd | hd
    · exact .inl (digit d hd)
    · rcases List.mem_cons.mp hd with rfl | hd
      · exact .inr rfl
      · exact .inl (fraction_digit d hd)

lemma toNat_of_isDigit (h : c.isDigit = true) : 48 ≤ c.toNat ∧ c.toNat ≤ 57 := by
  simpa [Char.isDigit, UInt32.le_iff_toNat_le] using h

lemma isBlank_of_isDigit (h : c.isDigit = true) : isBlank c = false := by
  have hrange := toNat_of_isDigit h
  simp [isBlank, blankRanges]
  omega

lemma toLower_of_isDigit (h : c.isDigit = true) : c.toLower = c := by
  have hrange := toNat_of_isDigit h
  unfold Char.toLower
  split
  · next hupper =>
    have hletter : 65 ≤ c.toNat := UInt32.le_iff_toNat_le.mp hupper.1
    omega
  · rfl

lemma trimBlanks_of_forall (h : ∀ c ∈ text, isBlank c = false) : trimBlanks text = text := by
  have hdrop {cs : List Char} (h : ∀ c ∈ cs, isBlank c = false) : cs.dropWhile isBlank = cs := by
    cases cs with
    | nil => rfl
    | cons c cs => exact List.dropWhile_cons_of_neg (by simp [h c])
  rw [trimBlanks, hdrop h, hdrop (by simpa using h), List.reverse_reverse]

/-- The text of a numeral, with a sign if it is negative. -/
def signed (negative : Bool) (text : List Char) : List Char :=
  if negative then '-' :: text else text

/-- A text that begins with a digit is no name of a number. -/
lemma ofChars?_of_isDigit (negative : Bool) (rest : List Char) (h : c.isDigit = true) :
    ofChars? (signed negative (c :: rest)) = readDecimal? negative (c :: rest) := by
  have hfirst {d : Char} {cs ds : List Char} (hd : d.isDigit = false) : c :: cs ≠ d :: ds := by
    rintro ⟨⟩
    rw [h] at hd
    cases hd
  have hsign : readSign (signed negative (c :: rest)) = (negative, c :: rest) := by
    cases negative with
    | true => rfl
    | false =>
      show readSign (c :: rest) = (false, c :: rest)
      unfold readSign
      split
      · next hminus => exact absurd hminus (hfirst rfl)
      · next hplus => exact absurd hplus (hfirst rfl)
      · rfl
  rw [ofChars?, hsign]
  dsimp only
  rw [List.map_cons, toLower_of_isDigit h]
  split
  · next hname => exact absurd hname (hfirst rfl)
  · next hname => exact absurd hname (hfirst rfl)
  · next hname => exact absurd hname (hfirst rfl)
  · rfl

/-- **A numeral is read as the number nearest to its value**, also behind a sign. -/
theorem ofText?_of_numeral (negative : Bool) (h : Numeral text (coefficient * 10 ^ exponent)) :
    ofText? (String.ofList (signed negative text)) = some (ofDecimal negative coefficient exponent) := by
  obtain ⟨⟨c, rest, rfl, hdigit⟩, hchars⟩ := exists_of_numeral h
  have hblank (d : Char) (hd : d ∈ c :: rest) : isBlank d = false := by
    rcases hchars d hd with hd | rfl
    · exact isBlank_of_isDigit hd
    · rfl
  have htrim : trimBlanks (signed negative (c :: rest)) = signed negative (c :: rest) := by
    refine trimBlanks_of_forall fun d hd => ?_
    cases negative with
    | false => exact hblank d hd
    | true =>
      rcases List.mem_cons.mp hd with rfl | hd
      · rfl
      · exact hblank d hd
  rw [ofText?, String.toList_ofList, htrim, ofChars?_of_isDigit negative rest hdigit, readDecimal?_of_numeral negative h]

end Read

end Number

end LazyQuery
