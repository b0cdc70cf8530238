import LazyQuery.Proofs.Decimal.Layout

/-!
# Numbers are read from their text

The text of a number cast to a string is an integer where the number is written as one, and otherwise its shortest digits in
full, or a name.  Reading it gives the number again, with `nan` and both infinities, up to the sign of zero
(`Number.exists_ofText?_plainText`).
-/

namespace LazyQuery.Number

open Decimal

variable {x : Number} {i : Int}

/-- The text of an integer. -/
lemma toString_eq_signed (i : Int) : toString i = String.ofList (signed (i < 0) (Nat.toDigits 10 i.natAbs)) := by
  show i.repr = _
  rw [Int.repr_eq_if]
  by_cases hsign : i < 0
  · have habs : (-i).toNat = i.natAbs := by omega
    rw [if_neg (by omega), Nat.repr_eq_ofList_toDigits, habs]
    simp [signed, hsign]
  · have habs : i.toNat = i.natAbs := by omega
    rw [if_pos (by omega), Nat.repr_eq_ofList_toDigits, habs]
    simp [signed, hsign]

/-- An integer is read as the number nearest to it. -/
lemma ofText?_toString (i : Int) : ofText? (toString i) = some (ofInt i) := by
  have hnumeral : Numeral (Nat.toDigits 10 i.natAbs) ((i.natAbs : ℕ) * 10 ^ (0 : ℤ)) := by
    rw [zpow_zero, mul_one]
    exact numeral_toDigits i.natAbs
  have hratio : ((i.natAbs : ℕ) : ℚ) * 10 ^ (0 : ℤ) = (i.natAbs : ℕ) / (1 : ℕ) := by simp
  rw [toString_eq_signed, ofText?_of_numeral _ hnumeral, ofDecimal_eq_ofRatio _ one_ne_zero hratio, ofInt]

/-- A finite number is read from its shortest digits. -/
lemma ofText?_shortestText (negative : Bool) (rank : Nat) :
    ofText? (shortestText .plain negative rank) = some (ofRank negative rank) := by
  have hnumeral : Numeral (shortest .up rank).significant.inFull
      ((shortest .up rank).coefficient * 10 ^ (shortest .up rank).exponent) := by
    have hinFull := numeral_inFull (isDigit_significant (shortest .up rank))
    rwa [value_significant] at hinFull
  rw [← ofDecimal_of_readsBackAs (readsBackAs_shortest .up rank), ← ofText?_of_numeral negative hnumeral]
  rfl

lemma ofRank_val (negative : Bool) (rank : Fin (infiniteRank + 1)) : ofRank negative rank = real negative rank := by
  have hmin : min rank.val infiniteRank = rank.val := by omega
  simp only [ofRank, hmin]

/-- **A number is read from its text**, up to the sign of zero. -/
theorem exists_ofText?_plainText (x : Number) : ∃ y, ofText? x.plainText = some y ∧ y.key? = x.key? := by
  rcases x with _ | ⟨negative, rank⟩
  · have hread : ofText? "NaN" = some .nan := by decide
    exact ⟨.nan, hread, rfl⟩
  · rw [plainText]
    split_ifs with hfinite hnegative
    · rw [finiteText, ofRank_val]
      cases hwritten : (real negative rank).writtenInteger? with
      | none => exact ⟨_, ofText?_shortestText negative rank, by rw [ofRank_val]⟩
      | some i =>
        obtain ⟨k, hround, hkey⟩ := equals_iff_key.mp (equals_ofInt_of_whole (whole_of_writtenInteger hwritten))
        exact ⟨_, ofText?_toString i, by rw [hround, hkey]⟩
    · have hrank : rank = Fin.last infiniteRank := Fin.ext (by show rank.val = infiniteRank; omega)
      subst hnegative hrank
      exact ⟨_, by decide, rfl⟩
    · have hrank : rank = Fin.last infiniteRank := Fin.ext (by show rank.val = infiniteRank; omega)
      obtain rfl : negative = false := by simpa using hnegative
      subst hrank
      exact ⟨_, by decide, rfl⟩

end LazyQuery.Number
