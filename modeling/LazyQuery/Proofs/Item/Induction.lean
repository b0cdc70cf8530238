import LazyQuery.Item.Basic
import Mathlib.Tactic.Lemma

/-!
# Items by what they are made of

What holds of all primitives, and of every array and object if it holds of what is in it, holds of all items
(`Item.induction`).  `Item.Everywhere` says of a property that it holds at every depth of an item.
-/

namespace LazyQuery.Item

/-- Induction over what an item is made of. -/
@[elab_as_elim]
theorem induction {P : Item → Prop} (null : P .null) (bool : ∀ value, P (.bool value))
    (number : ∀ value, P (.number value)) (string : ∀ text, P (.string text))
    (array : ∀ ref elements, (∀ element ∈ elements, P element) → P (.array ref elements))
    (object : ∀ ref fields, (∀ field ∈ fields, P field.2) → P (.object ref fields)) : ∀ item, P item
  | .null => null
  | .bool value => bool value
  | .number value => number value
  | .string text => string text
  | .array ref elements =>
    array ref elements fun element _ => induction null bool number string array object element
  | .object ref fields =>
    object ref fields fun field _ => induction null bool number string array object field.2
termination_by item => sizeOf item
decreasing_by
  · have hsize := List.sizeOf_lt_of_mem ‹element ∈ elements›
    simp only [Item.array.sizeOf_spec]
    omega
  · have hsize := List.sizeOf_lt_of_mem ‹field ∈ fields›
    obtain ⟨key, value⟩ := field
    simp only [Item.object.sizeOf_spec, Prod.mk.sizeOf_spec] at *
    omega

mutual

/-- `P` holds of the item and of all items in it. -/
def Everywhere (P : Item → Prop) : Item → Prop
  | .array ref elements => P (.array ref elements) ∧ ElementsEverywhere P elements
  | .object ref fields => P (.object ref fields) ∧ FieldsEverywhere P fields
  | item => P item

def ElementsEverywhere (P : Item → Prop) : List Item → Prop
  | [] => True
  | element :: rest => Everywhere P element ∧ ElementsEverywhere P rest

def FieldsEverywhere (P : Item → Prop) : List (String × Item) → Prop
  | [] => True
  | (_, value) :: rest => Everywhere P value ∧ FieldsEverywhere P rest

end

section Everywhere

variable {P : Item → Prop} {ref : Ref} {elements : List Item} {fields : List (String × Item)}

lemma elementsEverywhere_iff : ElementsEverywhere P elements ↔ ∀ element ∈ elements, element.Everywhere P := by
  induction elements with
  | nil => simp [ElementsEverywhere]
  | cons element rest ih => simp [ElementsEverywhere, ih]

lemma fieldsEverywhere_iff : FieldsEverywhere P fields ↔ ∀ field ∈ fields, field.2.Everywhere P := by
  induction fields with
  | nil => simp [FieldsEverywhere]
  | cons field rest ih => rw [FieldsEverywhere, ih, List.forall_mem_cons]

lemma everywhere_array :
    (Item.array ref elements).Everywhere P ↔
      P (.array ref elements) ∧ ∀ element ∈ elements, element.Everywhere P := by
  rw [Everywhere, elementsEverywhere_iff]

lemma everywhere_object :
    (Item.object ref fields).Everywhere P ↔ P (.object ref fields) ∧ ∀ field ∈ fields, field.2.Everywhere P := by
  rw [Everywhere, fieldsEverywhere_iff]

end Everywhere

end LazyQuery.Item
