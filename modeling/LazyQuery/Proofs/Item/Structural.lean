import LazyQuery.Item.Equality
import LazyQuery.Proofs.Fields
import LazyQuery.Proofs.Item.Induction
import LazyQuery.Proofs.Number.Exact
import LazyQuery.Session

/-!
# Structural equality and shared composites

Composites of one reference are structurally equal without a look at their contents.  Where all composites of one reference
do have the same contents (`Item.Agrees`), this is of no harm: structural equality is symmetric and transitive, also where
some composites are shared and others are copies (`Item.structurallyEqual_trans`).

`Item.deeplyEqual` never looks at references.  It is the same except for what a shared composite hides: a `nan` in it
(`Item.deeplyEqual_of_structurallyEqual`).

The main statement is `Item.structural_equality_sees_contents`.
-/

namespace LazyQuery

namespace Item

/-! ### What is in an item -/

/-- The item `inner` is the item itself, or is in it at some depth. -/
inductive Within (inner : Item) : Item → Prop
  | self : Within inner inner
  | element {ref elements element} (mem : element ∈ elements) (within : Within inner element) :
      Within inner (.array ref elements)
  | field {ref fields field} (mem : field ∈ fields) (within : Within inner field.2) : Within inner (.object ref fields)

/-- The reference of a composite. -/
def ref? : Item → Option Ref
  | .array ref _ => some ref
  | .object ref _ => some ref
  | _ => none

def IsComposite (item : Item) : Prop :=
  item.ref?.isSome

/-- A value of type number that is not a number. -/
def IsNaN (item : Item) : Prop :=
  ∃ bits, item = .number (.nan bits)

def HoldsNaN (item : Item) : Prop :=
  ∃ bits, (Item.number (.nan bits)).Within item

/-- Composites of one kind and one reference, one of them in each item, have the same contents. -/
structure Agrees (a b : Item) : Prop where
  arrays {ref xs ys} : (Item.array ref xs).Within a → (Item.array ref ys).Within b → xs = ys
  objects {ref xs ys} : (Item.object ref xs).Within a → (Item.object ref ys).Within b → xs = ys

section Within

variable {a b inner : Item} {r s : Ref} {xs ys : List Item} {fs gs : List (String × Item)} {x y : Item}
  {f g : String × Item}

lemma within_array : inner.Within (.array r xs) ↔ inner = .array r xs ∨ ∃ x ∈ xs, inner.Within x := by
  constructor
  · intro h
    cases h with
    | self => exact .inl rfl
    | element mem within => exact .inr ⟨_, mem, within⟩
  · rintro (rfl | ⟨x, hx, h⟩)
    · exact .self
    · exact .element hx h

lemma within_object : inner.Within (.object r fs) ↔ inner = .object r fs ∨ ∃ f ∈ fs, inner.Within f.2 := by
  constructor
  · intro h
    cases h with
    | self => exact .inl rfl
    | field mem within => exact .inr ⟨_, mem, within⟩
  · rintro (rfl | ⟨f, hf, h⟩)
    · exact .self
    · exact .field hf h

/-- There is nothing in a primitive but itself. -/
lemma within_primitive (ha : ¬ a.IsComposite) : inner.Within a ↔ inner = a := by
  constructor
  · intro h
    cases h with
    | self => rfl
    | element | field => exact absurd rfl ha
  · rintro rfl
    exact .self

lemma Within.trans {c : Item} (h : a.Within b) (h' : b.Within c) : a.Within c := by
  induction h' with
  | self => exact h
  | element mem _ ih => exact .element mem ih
  | field mem _ ih => exact .field mem ih

/-- What agrees does so at every depth. -/
lemma Agrees.within (h : a.Agrees b) (hx : x.Within a) (hy : y.Within b) : x.Agrees y where
  arrays hxs hys := h.arrays (hxs.trans hx) (hys.trans hy)
  objects hxs hys := h.objects (hxs.trans hx) (hys.trans hy)

lemma Agrees.symm (h : a.Agrees b) : b.Agrees a where
  arrays hxs hys := (h.arrays hys hxs).symm
  objects hxs hys := (h.objects hys hxs).symm

lemma Agrees.element (h : (Item.array r xs).Agrees (.array s ys)) (hx : x ∈ xs) (hy : y ∈ ys) : x.Agrees y :=
  h.within (.element hx .self) (.element hy .self)

lemma Agrees.field (h : (Item.object r fs).Agrees (.object s gs)) (hf : f ∈ fs) (hg : g ∈ gs) : f.2.Agrees g.2 :=
  h.within (.field hf .self) (.field hg .self)

end Within

/-! ### Composites one element after another -/

section Composites

variable {r s : Ref} {xs ys : List Item} {fs gs : List (String × Item)}

lemma elementsEqual_iff : elementsEqual xs ys = true ↔ List.Forall₂ (fun x y => x.structurallyEqual y = true) xs ys := by
  induction xs generalizing ys with
  | nil => cases ys <;> simp [elementsEqual]
  | cons x xs ih => cases ys <;> simp [elementsEqual, ih]

lemma fieldsEqual_iff :
    fieldsEqual fs gs = true ↔ List.Forall₂ (fun f g => f.1 = g.1 ∧ f.2.structurallyEqual g.2 = true) fs gs := by
  induction fs generalizing gs with
  | nil => cases gs <;> simp [fieldsEqual]
  | cons f fs ih => cases gs <;> simp [fieldsEqual, ih]

lemma structurallyEqual_array :
    (Item.array r xs).structurallyEqual (.array s ys) = true ↔
      r = s ∨ List.Forall₂ (fun x y => x.structurallyEqual y = true) xs ys := by
  rw [structurallyEqual, Bool.or_eq_true, beq_iff_eq, elementsEqual_iff]

lemma structurallyEqual_object :
    (Item.object r fs).structurallyEqual (.object s gs) = true ↔
      r = s ∨ List.Forall₂ (fun f g => f.1 = g.1 ∧ f.2.structurallyEqual g.2 = true) fs gs := by
  rw [structurallyEqual, Bool.or_eq_true, beq_iff_eq, fieldsEqual_iff]

lemma typeTag_eq_of_structurallyEqual {a b : Item} (h : a.structurallyEqual b = true) : a.typeTag = b.typeTag := by
  cases a <;> cases b <;> first | rfl | cases h

end Composites

end Item

/-- Relations of the members go over to the lists. -/
lemma forall₂_trans {α β γ : Type} {R : α → β → Prop} {S : β → γ → Prop} {T : α → γ → Prop} {xs : List α} {ys : List β}
    {zs : List γ} (hxy : List.Forall₂ R xs ys) (hyz : List.Forall₂ S ys zs)
    (h : ∀ x ∈ xs, ∀ y ∈ ys, ∀ z ∈ zs, R x y → S y z → T x z) : List.Forall₂ T xs zs := by
  induction hxy generalizing zs with
  | nil =>
    cases hyz
    exact .nil
  | cons hfirst _ ih =>
    cases hyz with
    | cons hfirst' hrest' =>
      refine .cons (h _ List.mem_cons_self _ List.mem_cons_self _ List.mem_cons_self hfirst hfirst') (ih hrest' ?_)
      intro x hx y hy z hz
      exact h x (List.mem_cons_of_mem _ hx) y (List.mem_cons_of_mem _ hy) z (List.mem_cons_of_mem _ hz)

lemma forall₂_of_mem {α β : Type} {R S : α → β → Prop} {xs : List α} {ys : List β} (hxy : List.Forall₂ R xs ys)
    (h : ∀ x ∈ xs, ∀ y ∈ ys, R x y → S x y) : List.Forall₂ S xs ys := by
  induction hxy with
  | nil => exact .nil
  | cons hfirst _ ih =>
    refine .cons (h _ List.mem_cons_self _ List.mem_cons_self hfirst) (ih ?_)
    intro x hx y hy
    exact h x (List.mem_cons_of_mem _ hx) y (List.mem_cons_of_mem _ hy)

lemma forall₂_congr_of_mem {α β : Type} {R S : α → β → Prop} {xs : List α} {ys : List β}
    (h : ∀ x ∈ xs, ∀ y ∈ ys, (R x y ↔ S x y)) : List.Forall₂ R xs ys ↔ List.Forall₂ S xs ys := by
  constructor
  · intro hxy
    exact forall₂_of_mem hxy fun x hx y hy => (h x hx y hy).mp
  · intro hxy
    exact forall₂_of_mem hxy fun x hx y hy => (h x hx y hy).mpr

namespace Item

/-! ### Symmetry, transitivity, reflexivity -/

section Laws

variable {a b c : Item}

lemma structurallyEqual_symm (h : a.structurallyEqual b = true) : b.structurallyEqual a = true := by
  induction a using induction generalizing b with
  | null => cases b <;> exact h
  | bool x =>
    cases b with
    | bool y => exact beq_iff_eq.mpr (beq_iff_eq.mp h).symm
    | _ => cases h
  | number x =>
    cases b with
    | number y => exact Number.equals_symm h
    | _ => cases h
  | string x =>
    cases b with
    | string y => exact beq_iff_eq.mpr (beq_iff_eq.mp h).symm
    | _ => cases h
  | array r xs ih =>
    cases b with
    | array s ys =>
      rw [structurallyEqual_array] at h ⊢
      refine h.imp Eq.symm fun hxy => (forall₂_of_mem hxy fun x hx y _ hequal => ih x hx hequal).flip
    | _ => cases h
  | object r fs ih =>
    cases b with
    | object s gs =>
      rw [structurallyEqual_object] at h ⊢
      refine h.imp Eq.symm fun hfg => (forall₂_of_mem hfg fun f hf g _ hequal => ?_).flip
      exact ⟨hequal.1.symm, ih f hf hequal.2⟩
    | _ => cases h

lemma structurallyEqual_comm (a b : Item) : a.structurallyEqual b = b.structurallyEqual a :=
  Bool.eq_iff_iff.mpr ⟨structurallyEqual_symm, structurallyEqual_symm⟩

/-- **Structural equality is transitive** among items that agree. -/
theorem structurallyEqual_trans (hab : a.Agrees b) (hbc : b.Agrees c) (h : a.structurallyEqual b = true)
    (h' : b.structurallyEqual c = true) : a.structurallyEqual c = true := by
  have htag := typeTag_eq_of_structurallyEqual h
  have htag' := typeTag_eq_of_structurallyEqual h'
  induction a using induction generalizing b c with
  | null => cases b <;> first | exact h' | cases h
  | bool x =>
    cases b with
    | bool y =>
      cases beq_iff_eq.mp h
      exact h'
    | _ => cases htag
  | number x =>
    cases b with
    | number y =>
      cases c with
      | number z => exact Number.equals_trans h h'
      | _ => cases htag'
    | _ => cases htag
  | string x =>
    cases b with
    | string y =>
      cases beq_iff_eq.mp h
      exact h'
    | _ => cases htag
  | array r xs ih =>
    cases b with
    | array s ys =>
      cases c with
      | array t zs =>
        -- a shared composite may be replaced by the other one, as both have the same elements
        rw [structurallyEqual_array] at h h' ⊢
        rcases h with rfl | hxy
        · rwa [hab.arrays .self .self]
        rcases h' with rfl | hyz
        · rw [← hbc.arrays .self .self]
          exact .inr hxy
        refine .inr (forall₂_trans hxy hyz fun x hx y hy z hz hxy hyz => ?_)
        exact ih x hx (hab.element hx hy) (hbc.element hy hz) hxy hyz (typeTag_eq_of_structurallyEqual hxy)
          (typeTag_eq_of_structurallyEqual hyz)
      | _ => cases htag'
    | _ => cases htag
  | object r fs ih =>
    cases b with
    | object s gs =>
      cases c with
      | object t ks =>
        rw [structurallyEqual_object] at h h' ⊢
        rcases h with rfl | hfg
        · rwa [hab.objects .self .self]
        rcases h' with rfl | hgk
        · rw [← hbc.objects .self .self]
          exact .inr hfg
        refine .inr (forall₂_trans hfg hgk fun f hf g hg k hk hfg hgk => ⟨hfg.1.trans hgk.1, ?_⟩)
        exact ih f hf (hab.field hf hg) (hbc.field hg hk) hfg.2 hgk.2 (typeTag_eq_of_structurallyEqual hfg.2)
          (typeTag_eq_of_structurallyEqual hgk.2)
      | _ => cases htag'
    | _ => cases htag

/-- Only what is not a number is not structurally equal to itself. -/
lemma structurallyEqual_self_eq_false_iff : a.structurallyEqual a = false ↔ a.IsNaN := by
  unfold IsNaN
  cases a with
  | null => simp [structurallyEqual]
  | bool x => simp [structurallyEqual]
  | number x => rcases x with _ | ⟨s, i⟩ <;> simp [structurallyEqual, Number.equals]
  | string x => simp [structurallyEqual]
  | array r xs => simp [structurallyEqual]
  | object r fs => simp [structurallyEqual]

end Laws

/-! ### Comparing in depth -/

mutual

/-- Equal contents at every depth, without a look at references. -/
def deeplyEqual : Item → Item → Bool
  | .null, .null => true
  | .bool x, .bool y => x == y
  | .number x, .number y => x.equals y
  | .string x, .string y => x == y
  | .array _ xs, .array _ ys => elementsDeeplyEqual xs ys
  | .object _ fs, .object _ gs => fieldsDeeplyEqual fs gs
  | _, _ => false

def elementsDeeplyEqual : List Item → List Item → Bool
  | [], [] => true
  | x :: xs, y :: ys => deeplyEqual x y && elementsDeeplyEqual xs ys
  | _, _ => false

def fieldsDeeplyEqual : List (String × Item) → List (String × Item) → Bool
  | [], [] => true
  | (j, x) :: fs, (k, y) :: gs => j == k && deeplyEqual x y && fieldsDeeplyEqual fs gs
  | _, _ => false

end

section Depth

variable {a b : Item} {r s : Ref} {xs ys : List Item} {fs gs : List (String × Item)}

lemma elementsDeeplyEqual_iff :
    elementsDeeplyEqual xs ys = true ↔ List.Forall₂ (fun x y => x.deeplyEqual y = true) xs ys := by
  induction xs generalizing ys with
  | nil => cases ys <;> simp [elementsDeeplyEqual]
  | cons x xs ih => cases ys <;> simp [elementsDeeplyEqual, ih]

lemma fieldsDeeplyEqual_iff :
    fieldsDeeplyEqual fs gs = true ↔ List.Forall₂ (fun f g => f.1 = g.1 ∧ f.2.deeplyEqual g.2 = true) fs gs := by
  induction fs generalizing gs with
  | nil => cases gs <;> simp [fieldsDeeplyEqual]
  | cons f fs ih => cases gs <;> simp [fieldsDeeplyEqual, ih]

/-- What is equal in depth is structurally equal. -/
lemma structurallyEqual_of_deeplyEqual (h : a.deeplyEqual b = true) : a.structurallyEqual b = true := by
  induction a using induction generalizing b with
  | null | bool | number | string => cases b <;> exact h
  | array r xs ih =>
    cases b with
    | array s ys =>
      rw [deeplyEqual, elementsDeeplyEqual_iff] at h
      exact structurallyEqual_array.mpr (.inr (forall₂_of_mem h fun x hx y _ hequal => ih x hx hequal))
    | _ => cases h
  | object r fs ih =>
    cases b with
    | object s gs =>
      rw [deeplyEqual, fieldsDeeplyEqual_iff] at h
      refine structurallyEqual_object.mpr (.inr (forall₂_of_mem h fun f hf g _ hequal => ⟨hequal.1, ?_⟩))
      exact ih f hf hequal.2
    | _ => cases h

/-- An item that holds no `nan` is equal to itself in depth. -/
lemma deeplyEqual_self (h : ¬ a.HoldsNaN) : a.deeplyEqual a = true := by
  induction a using induction with
  | null => rfl
  | bool x => exact beq_self_eq_true x
  | number x =>
    rcases x with _ | ⟨s, i⟩
    · exact absurd ⟨_, .self⟩ h
    · simp [deeplyEqual, Number.equals]
  | string x => exact beq_self_eq_true x
  | array r xs ih =>
    rw [deeplyEqual, elementsDeeplyEqual_iff, List.forall₂_same]
    intro x hx
    refine ih x hx ?_
    rintro ⟨bits, hnan⟩
    exact h ⟨bits, .element hx hnan⟩
  | object r fs ih =>
    rw [deeplyEqual, fieldsDeeplyEqual_iff, List.forall₂_same]
    intro f hf
    refine ⟨rfl, ih f hf ?_⟩
    rintro ⟨bits, hnan⟩
    exact h ⟨bits, .field hf hnan⟩

/-- **What structural equality does not see** is a `nan` in a composite that both items share. -/
theorem deeplyEqual_of_structurallyEqual (hab : a.Agrees b)
    (hshared : ∀ shared : Item, shared.IsComposite → shared.Within a → shared.Within b → ¬ shared.HoldsNaN)
    (h : a.structurallyEqual b = true) : a.deeplyEqual b = true := by
  induction a using induction generalizing b with
  | null | bool | number | string => cases b <;> exact h
  | array r xs ih =>
    cases b with
    | array s ys =>
      rcases structurallyEqual_array.mp h with rfl | hxy
      · cases hab.arrays .self .self
        exact deeplyEqual_self (hshared (.array r xs) rfl .self .self)
      · rw [deeplyEqual, elementsDeeplyEqual_iff]
        refine forall₂_of_mem hxy fun x hx y hy hequal => ih x hx (hab.element hx hy) ?_ hequal
        intro shared hcomposite hwithin hwithin'
        exact hshared shared hcomposite (.element hx hwithin) (.element hy hwithin')
    | _ => cases h
  | object r fs ih =>
    cases b with
    | object s gs =>
      rcases structurallyEqual_object.mp h with rfl | hfg
      · cases hab.objects .self .self
        exact deeplyEqual_self (hshared (.object r fs) rfl .self .self)
      · rw [deeplyEqual, fieldsDeeplyEqual_iff]
        refine forall₂_of_mem hfg fun f hf g hg hequal => ⟨hequal.1, ih f hf (hab.field hf hg) ?_ hequal.2⟩
        intro shared hcomposite hwithin hwithin'
        exact hshared shared hcomposite (.field hf hwithin) (.field hg hwithin')
    | _ => cases h

/-- Where there is no `nan`, references do not matter. -/
lemma structurallyEqual_eq_deeplyEqual (hab : a.Agrees b) (ha : ¬ a.HoldsNaN) :
    a.structurallyEqual b = a.deeplyEqual b := by
  refine Bool.eq_iff_iff.mpr ⟨deeplyEqual_of_structurallyEqual hab ?_, structurallyEqual_of_deeplyEqual⟩
  exact fun shared _ hwithin _ ⟨bits, hnan⟩ => ha ⟨bits, hnan.trans hwithin⟩

end Depth

/-! ### Objects key by key -/

section Objects

variable {r s : Ref} {fs gs : List (String × Item)} {pairs pairs' : List (String × Item)} {σ τ : Session}

/-- The same keys, and structurally equal values under each of them. -/
def SameUnderKeys (value value' : String → Option Item) : Prop :=
  (∀ key, (value key).isSome = (value' key).isSome) ∧
    ∀ key x y, value key = some x → value' key = some y → x.structurallyEqual y = true

lemma sameUnderKeys_iff {value value' : String → Option Item} :
    SameUnderKeys value value' ↔
      ∀ key, Option.Rel (fun x y => x.structurallyEqual y = true) (value key) (value' key) := by
  constructor
  · rintro ⟨hkeys, hvalues⟩ key
    have hkey := hkeys key
    cases hx : value key with
    | none =>
      cases hy : value' key with
      | none => exact .none
      | some y => simp [hx, hy] at hkey
    | some x =>
      cases hy : value' key with
      | none => simp [hx, hy] at hkey
      | some y => exact .some (hvalues key x y hx hy)
  · intro h
    refine ⟨fun key => ?_, fun key x y hx hy => ?_⟩
    · have hkey := h key
      cases hx : value key <;> cases hy : value' key <;> rw [hx, hy] at hkey <;> first | rfl | cases hkey
    · have hkey := h key
      rw [hx, hy] at hkey
      cases hkey
      assumption

/-- **Objects that are not shared are compared key by key.** -/
theorem structurallyEqual_object_iff (hrs : r ≠ s) (hfs : Fields.InOrder fs) (hgs : Fields.InOrder gs) :
    (Item.object r fs).structurallyEqual (.object s gs) = true ↔
      SameUnderKeys (Item.object r fs).get? (Item.object s gs).get? := by
  have hfields := Fields.forall₂_iff_get? (R := fun x y : Item => x.structurallyEqual y = true) hfs hgs
  rw [structurallyEqual_object, or_iff_right hrs, hfields, sameUnderKeys_iff]
  rfl

/-- Neither the order of the pairs matters that objects are made of, nor do values that later ones replace. -/
lemma structurallyEqual_newObject_iff (hrefs : σ.nextRef ≠ τ.nextRef) :
    (newObject pairs σ).1.structurallyEqual (newObject pairs' τ).1 = true ↔
      SameUnderKeys (fun key => pairs.reverse.lookup key) fun key => pairs'.reverse.lookup key := by
  have hobjects := structurallyEqual_object_iff hrefs (Fields.inOrder_ofList pairs) (Fields.inOrder_ofList pairs')
  have hget (pairs : List (String × Item)) (ref : Ref) :
      (Item.object ref (Fields.ofList pairs)).get? = fun key => pairs.reverse.lookup key := by
    funext key
    exact Fields.get?_ofList pairs key
  rw [hget, hget] at hobjects
  exact hobjects

end Objects

/-- **Structural equality sees the contents of items**, as far as composites of one reference have the same contents:

* it is symmetric and transitive, and only `nan` is not equal to itself;
* objects that are not shared are equal if they have the same keys and equal values under each of them; and under each key
  an object has the last of the values that it was made with;
* it is the comparison that never looks at references, for items without a `nan`; in general it finds more items equal than
  that, but only where both items share a composite that holds a `nan`. -/
theorem structural_equality_sees_contents :
    (∀ a b : Item, a.structurallyEqual b = b.structurallyEqual a) ∧
    (∀ a b c : Item, a.Agrees b → b.Agrees c → a.structurallyEqual b = true → b.structurallyEqual c = true →
      a.structurallyEqual c = true) ∧
    (∀ a : Item, a.structurallyEqual a = false ↔ a.IsNaN) ∧
    (∀ r s fs gs, r ≠ s → Fields.InOrder fs → Fields.InOrder gs →
      ((Item.object r fs).structurallyEqual (.object s gs) = true ↔
        SameUnderKeys (Item.object r fs).get? (Item.object s gs).get?)) ∧
    (∀ pairs pairs' (σ τ : Session), σ.nextRef ≠ τ.nextRef →
      ((newObject pairs σ).1.structurallyEqual (newObject pairs' τ).1 = true ↔
        SameUnderKeys (fun key => pairs.reverse.lookup key) fun key => pairs'.reverse.lookup key)) ∧
    (∀ a b : Item, a.Agrees b → ¬ a.HoldsNaN → ¬ b.HoldsNaN → a.structurallyEqual b = a.deeplyEqual b) ∧
    (∀ a b : Item, a.deeplyEqual b = true → a.structurallyEqual b = true) ∧
    ∀ a b : Item, a.Agrees b → a.structurallyEqual b = true → a.deeplyEqual b = false →
      ∃ shared : Item, shared.IsComposite ∧ shared.Within a ∧ shared.Within b ∧ shared.HoldsNaN := by
  refine ⟨structurallyEqual_comm, fun a b c => structurallyEqual_trans, fun a => structurallyEqual_self_eq_false_iff,
    fun r s fs gs => structurallyEqual_object_iff, fun pairs pairs' σ τ => structurallyEqual_newObject_iff,
    fun a b hab ha _ => structurallyEqual_eq_deeplyEqual hab ha, fun a b => structurallyEqual_of_deeplyEqual,
    fun a b hab hequal hdeep => ?_⟩
  by_contra hnone
  have hshared : ∀ shared : Item, shared.IsComposite → shared.Within a → shared.Within b → ¬ shared.HoldsNaN :=
    fun shared hcomposite hwithin hwithin' hnan => hnone ⟨shared, hcomposite, hwithin, hwithin', hnan⟩
  rw [deeplyEqual_of_structurallyEqual hab hshared hequal] at hdeep
  cases hdeep

/-- An array that shares with others an array with the item `x`. -/
def sharing (ref : Ref) (x : Item) : Item :=
  .array ref [.array 0 [x]]

section Sharing

variable {r s : Ref} {x : Item} (hx : ¬ x.IsComposite)

include hx

lemma within_sharing {inner : Item} :
    inner.Within (sharing r x) ↔ inner = .array r [.array 0 [x]] ∨ inner = .array 0 [x] ∨ inner = x := by
  simp [sharing, within_array, within_primitive hx]

lemma sharing_agrees (hr : r ≠ 0) (hs : s ≠ 0) : (sharing r x).Agrees (sharing s x) := by
  constructor
  · intro ref xs ys hxs hys
    have hnot (xs : List Item) : Item.array ref xs ≠ x := by
      rintro rfl
      exact hx rfl
    simp only [within_sharing hx, array.injEq, hnot, or_false] at hxs hys
    rcases hxs with ⟨rfl, rfl⟩ | ⟨rfl, rfl⟩ <;> rcases hys with ⟨h, rfl⟩ | ⟨h, rfl⟩
    · rfl
    · exact absurd h hr
    · exact absurd h.symm hs
    · rfl
  · intro ref xs ys hxs
    have hnot : Item.object ref xs ≠ x := by
      rintro rfl
      exact hx rfl
    simp only [within_sharing hx, hnot, or_false, reduceCtorEq] at hxs

end Sharing

/-- Arrays that share an array with `nan` are equal, but not in depth; with null in it they are; and an object does not tell
how it was made. -/
theorem structural_equality_sees_contents_sharing :
    (sharing 1 (.number .nan)).structurallyEqual (sharing 3 (.number .nan)) = true ∧
    (∃ shared : Item, shared.IsComposite ∧ shared.Within (sharing 1 (.number .nan)) ∧
      shared.Within (sharing 2 (.number .nan)) ∧ shared.HoldsNaN) ∧
    (sharing 1 .null).structurallyEqual (sharing 2 .null) = (sharing 1 .null).deeplyEqual (sharing 2 .null) ∧
    SameUnderKeys (fun key => [("b", .bool true), ("a", .null), ("a", .bool false)].reverse.lookup key)
      (fun key => [("a", .bool false), ("b", .bool true)].reverse.lookup key) := by
  obtain ⟨-, htrans, -, -, hobjects, hdeep, -, hshared⟩ := structural_equality_sees_contents
  have hnull : ¬ Item.null.IsComposite := Bool.false_ne_true
  have hnan : ¬ (Item.number .nan).IsComposite := Bool.false_ne_true
  have h12 : (sharing 1 (.number .nan)).Agrees (sharing 2 (.number .nan)) := sharing_agrees hnan (by decide) (by decide)
  have h23 : (sharing 2 (.number .nan)).Agrees (sharing 3 (.number .nan)) := sharing_agrees hnan (by decide) (by decide)
  have hnone (ref : Ref) : ¬ (sharing ref .null).HoldsNaN := by simp [HoldsNaN, within_sharing hnull]
  refine ⟨htrans _ _ _ h12 h23 (by decide) (by decide), hshared _ _ h12 (by decide) (by decide), ?_, ?_⟩
  · exact hdeep _ _ (sharing_agrees hnull (by decide) (by decide)) (hnone 1) (hnone 2)
  · exact (hobjects _ _ ⟨1, #[]⟩ ⟨2, #[]⟩ (by decide)).mp (by decide)

end Item

end LazyQuery
