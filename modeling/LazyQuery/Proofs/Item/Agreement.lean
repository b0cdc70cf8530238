import LazyQuery.Proofs.Item.IdentityKey
import LazyQuery.Proofs.Item.Order
import LazyQuery.Proofs.Item.Structural

/-!
# Equalities and the order

Operators compare items by identity, loosely, structurally or by their order.  Where composites of one reference have the same
contents (`Item.Agrees`), the four go together:

* identical items are equal in each sense, but for `nan` (`Item.structurallyEqual_of_identical`,
  `Item.looselyEqual_of_identical`);
* structurally equal items are equal in order (`Item.order_eq_of_structurallyEqual`), and the order tells apart everything but
  objects and `nan` (`Item.structurallyEqual_of_order_eq`);
* loose equality is one of the others, depending on the types, or compares numeric values (`Item.looselyEqual_iff_toNumber`).

The main statement is `Item.equalities_and_order_agree`.
-/

namespace LazyQuery

namespace Number

variable {x y : Number}

/-- Equal in order are the numbers of one signed rank, and `nan` with itself. -/
lemma order_eq_iff : x.order y = .eq ↔ x.key? = y.key? := by
  rw [order_eq_compare]
  exact Std.LawfulEqOrd.compare_eq_iff_eq

lemma order_eq_of_equals (h : x.equals y = true) : x.order y = .eq := by
  obtain ⟨k, hx, hy⟩ := equals_iff_key.mp h
  rw [order_eq_iff, hx, hy]

lemma equals_of_key_eq (hx : x.isNaN = false) (h : x.key? = y.key?) : x.equals y = true := by
  cases hkey : x.key? with
  | none =>
    rw [isNaN_iff.mpr hkey] at hx
    cases hx
  | some k => exact equals_iff_key.mpr ⟨k, hkey, h.symm.trans hkey⟩

end Number

namespace Item

/-- The item is an object, or there is one in it. -/
def HoldsObject (item : Item) : Prop :=
  ∃ ref fields, (Item.object ref fields).Within item

/-- There is nothing in a primitive to disagree with. -/
lemma Agrees.of_primitive {a b : Item} (ha : ¬ a.IsComposite) : a.Agrees b where
  arrays h _ := absurd rfl ((within_primitive ha).mp h ▸ ha)
  objects h _ := absurd rfl ((within_primitive ha).mp h ▸ ha)

/-! ### The order and structural equality -/

section Order

variable {a b : Item} {r : Ref} {x : Item} {xs ys : List Item}

lemma HoldsObject.element (hx : x ∈ xs) (h : x.HoldsObject) : (Item.array r xs).HoldsObject := by
  obtain ⟨ref, fields, hwithin⟩ := h
  exact ⟨ref, fields, .element hx hwithin⟩

lemma elementsOrder_eq_iff : elementsOrder xs ys = .eq ↔ List.Forall₂ (fun x y => x.order y = .eq) xs ys := by
  induction xs generalizing ys with
  | nil => cases ys <;> simp [elementsOrder]
  | cons x xs ih =>
    cases ys with
    | nil => simp [elementsOrder]
    | cons y ys => rw [elementsOrder, Ordering.then_eq_eq, ih, List.forall₂_cons]

lemma order_self (a : Item) : a.order a = .eq :=
  Std.ReflCmp.compare_self

/-- Items that are equal in order are of one type. -/
lemma rank_eq_of_order_eq (h : a.order b = .eq) : a.rank = b.rank := by
  rcases Nat.lt_trichotomy a.rank b.rank with hlt | heq | hgt
  · rw [order_of_rank_lt hlt] at h
    cases h
  · exact heq
  · rw [order_of_rank_gt hgt] at h
    cases h

/-- **Structurally equal items are equal in order**: of two arrays that are one, the order finds the same elements. -/
theorem order_eq_of_structurallyEqual (hab : a.Agrees b) (h : a.structurallyEqual b = true) : a.order b = .eq := by
  induction a using induction generalizing b with
  | null =>
    cases b with
    | null => rfl
    | _ => cases h
  | bool x =>
    cases b with
    | bool y =>
      cases beq_iff_eq.mp h
      exact order_self _
    | _ => cases h
  | number x =>
    cases b with
    | number y => exact Number.order_eq_of_equals h
    | _ => cases h
  | string x =>
    cases b with
    | string y =>
      cases beq_iff_eq.mp h
      exact order_self _
    | _ => cases h
  | array r xs ih =>
    cases b with
    | array s ys =>
      rcases structurallyEqual_array.mp h with rfl | hxy
      · cases hab.arrays .self .self
        exact order_self _
      · refine elementsOrder_eq_iff.mpr (forall₂_of_mem hxy fun x hx y hy hequal => ?_)
        exact ih x hx (hab.element hx hy) hequal
    | _ => cases h
  | object r fs =>
    cases b with
    | object s gs => rfl
    | _ => cases h

/-- **The order tells apart everything but objects and `nan`**, which it places like one another and like itself. -/
theorem structurallyEqual_of_order_eq (hobject : ¬ a.HoldsObject) (hnan : ¬ a.HoldsNaN) (h : a.order b = .eq) :
    a.structurallyEqual b = true := by
  have hrank : a.rank = b.rank := rank_eq_of_order_eq h
  induction a using induction generalizing b with
  | null =>
    cases b with
    | null => rfl
    | _ => cases hrank
  | bool x =>
    cases b with
    | bool y => exact beq_iff_eq.mpr (Std.LawfulEqOrd.compare_eq_iff_eq.mp h)
    | _ => cases hrank
  | number x =>
    cases b with
    | number y =>
      have hx : x.isNaN = false := by
        rcases x with bits | ⟨negative, rank⟩
        · exact absurd ⟨bits, .self⟩ hnan
        · rfl
      exact Number.equals_of_key_eq hx (Number.order_eq_iff.mp h)
    | _ => cases hrank
  | string x =>
    cases b with
    | string y => exact beq_iff_eq.mpr (Std.LawfulEqOrd.compare_eq_iff_eq.mp h)
    | _ => cases hrank
  | array r xs ih =>
    cases b with
    | array s ys =>
      refine structurallyEqual_array.mpr (.inr (forall₂_of_mem (elementsOrder_eq_iff.mp h) fun x hx y hy hequal => ?_))
      exact ih x hx (fun hx' => hobject (hx'.element hx)) (fun ⟨bits, hx'⟩ => hnan ⟨bits, .element hx hx'⟩) hequal
        (rank_eq_of_order_eq hequal)
    | _ => cases hrank
  | object r fs => exact absurd ⟨r, fs, .self⟩ hobject

end Order

/-! ### Identity and structural equality -/

section Identity

variable {a b : Item}

/-- **Identical items are structurally equal**, but for `nan`. -/
theorem structurallyEqual_of_identical (h : a.identical b = true) (hnan : ¬ (a.IsNaN ∧ b.IsNaN)) :
    a.structurallyEqual b = true := by
  cases identical_iff_same.mp h with
  | null => rfl
  | bool value => exact beq_self_eq_true value
  | nan bits bits' => exact absurd ⟨⟨bits, rfl⟩, bits', rfl⟩ hnan
  | number equal => exact equal
  | string text => exact beq_self_eq_true text
  | array ref xs ys => exact structurallyEqual_array.mpr (.inl rfl)
  | object ref fs gs => exact structurallyEqual_object.mpr (.inl rfl)

/-- **Identical items are equal in order**, `nan` with them. -/
theorem order_eq_of_identical (hab : a.Agrees b) (h : a.identical b = true) : a.order b = .eq := by
  by_cases hnan : a.IsNaN ∧ b.IsNaN
  · obtain ⟨⟨bits, rfl⟩, bits', rfl⟩ := hnan
    rfl
  · exact order_eq_of_structurallyEqual hab (structurallyEqual_of_identical h hnan)

end Identity

/-! ### Loose equality -/

section Loose

variable {a b : Item}

/-- What is compared loosely as by identity: composites of either kind, and null. -/
def IsUncoerced (item : Item) : Prop :=
  item.IsComposite ∨ item = .null

lemma identical_null (a : Item) : Item.null.identical a = a.isNull := by
  cases a with
  | number x =>
    refine Bool.eq_false_iff.mpr fun h => ?_
    cases identical_iff_same.mp h
  | _ => rfl

/-- **Composites and null are compared by identity.** -/
theorem looselyEqual_eq_identical (h : a.IsUncoerced ∨ b.IsUncoerced) : a.looselyEqual b = a.identical b := by
  rcases h with (hcomposite | rfl) | (hcomposite | rfl)
  · cases a with
    | array | object => cases b <;> rfl
    | _ => cases hcomposite
  · rw [identical_null]
    cases b <;> rfl
  · cases b with
    | array | object => cases a <;> rfl
    | _ => cases hcomposite
  · rw [identical_comm, identical_null]
    cases a <;> rfl

/-- **Primitives of one type are compared structurally.** -/
theorem looselyEqual_eq_structurallyEqual (ha : ¬ a.IsComposite) (htype : a.typeTag = b.typeTag) :
    a.looselyEqual b = a.structurallyEqual b := by
  cases a with
  | array | object => exact absurd rfl ha
  | _ => cases b <;> first | rfl | cases htype

/-- **Primitives of different types are compared by their numeric values**, and are not equal if one of them has none. -/
theorem looselyEqual_iff_toNumber (ha : ¬ a.IsComposite) (hb : ¬ b.IsComposite) (htype : a.typeTag ≠ b.typeTag) :
    a.looselyEqual b = true ↔ ∃ x y, a.toNumber? = some x ∧ b.toNumber? = some y ∧ x.equals y = true := by
  -- a string counts by whether it spells a number, so there are two cases of it
  cases a with
  | array | object => exact absurd rfl ha
  | string text =>
    cases htext : Number.ofText? text <;> cases b <;>
      first | exact absurd rfl htype | exact absurd rfl hb | simp [looselyEqual, toNumber?, isNull, htext]
  | _ =>
    cases b with
    | array | object => exact absurd rfl hb
    | string text =>
      cases htext : Number.ofText? text <;> simp [looselyEqual, toNumber?, isNull, htext]
    | _ => first | exact absurd rfl htype | simp [looselyEqual, toNumber?, isNull]

/-- **Identical items are loosely equal**, but for `nan`. -/
theorem looselyEqual_of_identical (h : a.identical b = true) (hnan : ¬ (a.IsNaN ∧ b.IsNaN)) :
    a.looselyEqual b = true := by
  have hstructural := structurallyEqual_of_identical h hnan
  by_cases ha : a.IsComposite
  · rw [looselyEqual_eq_identical (.inl (.inl ha)), h]
  · rw [looselyEqual_eq_structurallyEqual ha (typeTag_eq_of_structurallyEqual hstructural), hstructural]

lemma looselyEqual_symm (h : a.looselyEqual b = true) : b.looselyEqual a = true := by
  by_cases hidentity : a.IsUncoerced ∨ b.IsUncoerced
  · rw [looselyEqual_eq_identical hidentity] at h
    rw [looselyEqual_eq_identical hidentity.symm, identical_comm, h]
  · have ha : ¬ a.IsComposite := fun ha => hidentity (.inl (.inl ha))
    have hb : ¬ b.IsComposite := fun hb => hidentity (.inr (.inl hb))
    by_cases htype : a.typeTag = b.typeTag
    · rw [looselyEqual_eq_structurallyEqual ha htype] at h
      rw [looselyEqual_eq_structurallyEqual hb htype.symm, structurallyEqual_symm h]
    · obtain ⟨x, y, hx, hy, hequal⟩ := (looselyEqual_iff_toNumber ha hb htype).mp h
      exact (looselyEqual_iff_toNumber hb ha (Ne.symm htype)).mpr ⟨y, x, hy, hx, Number.equals_symm hequal⟩

/-- **Loose equality is symmetric.** -/
theorem looselyEqual_comm (a b : Item) : a.looselyEqual b = b.looselyEqual a :=
  Bool.eq_iff_iff.mpr ⟨looselyEqual_symm, looselyEqual_symm⟩

end Loose

/-- **Equalities and the order agree**, as far as composites of one reference have the same contents:

* identical items are equal in order, and, unless both are `nan`, structurally and loosely;
* structurally equal items are equal in order, and the other way round where there are no objects and no `nan`;
* loose equality is symmetric; it is identity where one side is a composite or null, structural equality among primitives of
  one type, and equality of the numeric values, where there are such, among primitives of different types. -/
theorem equalities_and_order_agree (a b : Item) (hab : a.Agrees b) :
    (a.identical b = true → a.order b = .eq) ∧
    (a.identical b = true → ¬ (a.IsNaN ∧ b.IsNaN) →
      a.structurallyEqual b = true ∧ a.looselyEqual b = true) ∧
    (a.structurallyEqual b = true → a.order b = .eq) ∧
    (¬ a.HoldsObject → ¬ b.HoldsObject → ¬ a.HoldsNaN → ¬ b.HoldsNaN → a.order b = .eq → a.structurallyEqual b = true) ∧
    a.looselyEqual b = b.looselyEqual a ∧
    (a.IsUncoerced ∨ b.IsUncoerced → a.looselyEqual b = a.identical b) ∧
    (¬ a.IsComposite → ¬ b.IsComposite → a.typeTag = b.typeTag → a.looselyEqual b = a.structurallyEqual b) ∧
    (¬ a.IsComposite → ¬ b.IsComposite → a.typeTag ≠ b.typeTag →
      (a.looselyEqual b = true ↔ ∃ x y, a.toNumber? = some x ∧ b.toNumber? = some y ∧ x.equals y = true)) :=
  ⟨order_eq_of_identical hab,
    fun h hnan => ⟨structurallyEqual_of_identical h hnan, looselyEqual_of_identical h hnan⟩,
    order_eq_of_structurallyEqual hab,
    fun hobject _ hnan _ => structurallyEqual_of_order_eq hobject hnan,
    looselyEqual_comm a b,
    looselyEqual_eq_identical,
    fun ha _ => looselyEqual_eq_structurallyEqual ha,
    looselyEqual_iff_toNumber⟩

/-- Arrays that share an array with `nan` are equal in order, and structurally, but not loosely; the two zeros are equal
structurally; and `true` is loosely equal to the number 1, which "1.0" is not to "1". -/
theorem equalities_and_order_agree_sharing :
    (sharing 1 (.number .nan)).structurallyEqual (sharing 1 (.number .nan)) = true ∧
    (sharing 1 (.number .nan)).order (sharing 2 (.number .nan)) = .eq ∧
    (sharing 1 (.number .nan)).looselyEqual (sharing 2 (.number .nan)) = false ∧
    (Item.number .zero).structurallyEqual (.number (.real true 0)) = true ∧
    (Item.string "1.0").looselyEqual (.string "1") = false ∧
    (Item.number (.ofNat 1)).looselyEqual (.bool true) = true := by
  have hnan : ¬ (Item.number .nan).IsComposite := Bool.false_ne_true
  have hshared (r s : Ref) (hr : r ≠ 0) (hs : s ≠ 0) := equalities_and_order_agree _ _ (sharing_agrees hnan hr hs)
  have hprimitives (a b : Item) (ha : ¬ a.IsComposite) := equalities_and_order_agree a b (.of_primitive ha)
  obtain ⟨-, hidentical, -⟩ := hshared 1 1 (by decide) (by decide)
  obtain ⟨-, -, horder, -, -, hcomposite, -⟩ := hshared 1 2 (by decide) (by decide)
  obtain ⟨-, -, -, hzeros, -⟩ := hprimitives (.number .zero) (.number (.real true 0)) Bool.false_ne_true
  obtain ⟨-, -, -, -, -, -, htexts, -⟩ := hprimitives (.string "1.0") (.string "1") Bool.false_ne_true
  obtain ⟨-, -, -, -, -, -, -, hvalues⟩ := hprimitives (.number (.ofNat 1)) (.bool true) Bool.false_ne_true
  refine ⟨?_, horder (by decide), ?_, ?_, ?_, ?_⟩
  · exact (hidentical (identical_self _) (by simp [sharing, IsNaN])).1
  · rw [hcomposite (.inl (.inl rfl))]
    decide
  · have hobject (x : Number) : ¬ (Item.number x).HoldsObject := by
      rintro ⟨ref, fields, hwithin⟩
      cases hwithin
    have hreal (negative : Bool) : ¬ (Item.number (.real negative 0)).HoldsNaN := by
      rintro ⟨bits, hwithin⟩
      cases hwithin
    exact hzeros (hobject _) (hobject _) (hreal false) (hreal true) (by decide)
  · rw [htexts Bool.false_ne_true Bool.false_ne_true rfl]
    decide
  · exact (hvalues Bool.false_ne_true Bool.false_ne_true (by decide)).mpr ⟨_, _, rfl, rfl, by decide⟩

end Item

end LazyQuery
