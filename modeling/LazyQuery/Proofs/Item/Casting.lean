import LazyQuery.Proofs.Item.Agreement
import LazyQuery.Proofs.Number.Text

/-!
# Casting items

A cast comes to an item of the wanted type, and an item that has that type stays what it is (`Item.typeTag_of_castTo?`,
`Item.castTo?_of_typeTag`), so that casting again changes nothing.  A number that is cast to a string is read again from it:
back comes a number that is identical, `nan` and the infinities included (`Item.exists_castTo?_string_number`).
-/

namespace LazyQuery.Item

variable {x y : Item} {target : TypeTag}

/-- An item that has the type already is kept. -/
lemma castTo?_of_typeTag (h : x.typeTag = target) : x.castTo? target = some x :=
  if_pos h

/-- **A cast comes to an item of the type.** -/
theorem typeTag_of_castTo? (h : x.castTo? target = some y) : y.typeTag = target := by
  by_cases htype : x.typeTag = target
  · rw [castTo?_of_typeTag htype] at h
    cases h
    exact htype
  · unfold castTo? at h
    rw [if_neg htype] at h
    -- on the conversions that there are
    cases target <;> cases x <;> simp only [Option.map_eq_some_iff, Option.some.injEq, reduceCtorEq] at h
    all_goals first | (subst h; rfl) | (obtain ⟨_, -, rfl⟩ := h; rfl)

/-- A number in another type is compared loosely by its value. -/
lemma looselyEqual_string_number {text : String} {n m : Number} (htext : Number.ofText? text = some n)
    (h : n.equals m = true) : (Item.string text).looselyEqual (.number m) = true := by
  have hprimitive {z : Item} (hz : z = .string text ∨ z = .number m) : ¬ z.IsComposite := by
    rcases hz with rfl | rfl <;> exact Bool.false_ne_true
  exact (looselyEqual_iff_toNumber (hprimitive (.inl rfl)) (hprimitive (.inr rfl)) TypeTag.noConfusion).mpr ⟨n, m, htext, rfl, h⟩

/-- **A number is read again from the string that it is cast to.** -/
theorem exists_castTo?_string_number (n : Number) : ∃ text m, (Item.number n).castTo? .string = some (.string text) ∧
    (Item.string text).castTo? .number = some (.number m) ∧ (Item.number n).identical (.number m) = true ∧
    (n.isNaN = false → (Item.string text).looselyEqual (.number n) = true) := by
  obtain ⟨m, hread, hkey⟩ := n.exists_ofText?_plainText
  have hback : (Item.string n.plainText).castTo? .number = some (.number m) := by
    show (Number.ofText? n.plainText).map Item.number = _
    rw [hread]
    rfl
  refine ⟨n.plainText, m, rfl, hback, identical_iff.mpr (identity_number_eq_iff.mpr hkey.symm), fun hnan => ?_⟩
  exact looselyEqual_string_number hread (Number.equals_symm (Number.equals_of_key_eq hnan hkey.symm))

end LazyQuery.Item
