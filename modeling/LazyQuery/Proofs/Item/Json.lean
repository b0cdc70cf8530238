import LazyQuery.Item.Convert
import LazyQuery.Item.Equality
import LazyQuery.Proofs.Fields
import LazyQuery.Proofs.Item.Induction
import LazyQuery.Proofs.Number.Exact

/-!
# Items come back from JSON

This holds for every library of JSON values that does with numbers and with the entries of maps what such libraries say they do
(`JsonLibrary.Lawful`), and the standard one does (`JsonLibrary.lawful_standard`).

A finite number is a number in JSON, an integer or itself, and neither loses anything: finite numbers are the same in JSON
exactly if they are equal (`Number.toJson_eq_iff`).  From there it goes through arrays and objects: items of finite numbers that
are the same in JSON are structurally equal (`Item.structurallyEqual_of_toJson_eq`), and what is read from the JSON of an item
has that JSON again (`Item.represents_ofJson`).

JSON has no infinities and no `nan`; they are null in it, and `Item.withoutNonFinite` is the item with null for them.
Objects have their fields in order (`Item.InOrder`), as they are made by all that makes objects.

The main statement is `Item.items_come_back_from_json`.
-/

namespace LazyQuery

/-! ### Libraries -/

namespace JsonLibrary

/-- What a library of JSON values says of its numbers and maps. -/
structure Lawful (lib : JsonLibrary) : Prop where
  /-- An integer is read as the nearest number. -/
  toReal_ofInteger : ∀ i, lib.toReal? (lib.ofInteger i) = some (.ofInt i.toInt)
  /-- A finite number is kept as it is. -/
  toReal_ofReal : ∀ x : Number, x.isFinite = true → ∃ value, lib.ofReal? x = some value ∧ lib.toReal? value = some x
  /-- The others are refused. -/
  ofReal_nonfinite : ∀ x : Number, x.isFinite = false → lib.ofReal? x = none
  /-- Maps are in the order of their keys. -/
  inOrder_collect : ∀ {α : Type} (pairs : List (String × α)), Fields.InOrder (lib.collect pairs)
  /-- Under each key they have the last value that the pairs have under it. -/
  get?_collect : ∀ {α : Type} (pairs : List (String × α)) (key : String),
    Fields.get? (lib.collect pairs) key = pairs.reverse.lookup key

theorem lawful_standard : standard.Lawful where
  toReal_ofInteger _ := rfl
  toReal_ofReal x h := ⟨.real x, if_pos h, rfl⟩
  ofReal_nonfinite x h := if_neg (by simp [h])
  inOrder_collect := Fields.inOrder_ofList
  get?_collect := Fields.get?_ofList

/-- Maps are made of pairs as objects are. -/
lemma Lawful.collect_eq_ofList {lib : JsonLibrary} (hlib : lib.Lawful) {α : Type} (pairs : List (String × α)) :
    lib.collect pairs = Fields.ofList pairs := by
  refine Fields.eq_of_get?_eq (hlib.inOrder_collect pairs) (Fields.inOrder_ofList pairs) fun key => ?_
  rw [hlib.get?_collect, Fields.get?_ofList]

end JsonLibrary

variable {lib : JsonLibrary}

/-! ### Numbers -/

namespace Number

variable {x y : Number}

lemma writtenInteger_of_whole_zero (h : x.whole? = some 0) : x.writtenInteger? = some 0 := by
  simp [writtenInteger?, h]

lemma toInt_ofInt_of_written {i : Int} (h : x.writtenInteger? = some i) : (Int64.ofInt i).toInt = i := by
  unfold writtenInteger? at h
  split at h
  · split at h
    · cases h
      exact Int64.toInt_ofInt_of_le (by omega) (by omega)
    · cases h
  · cases h

variable (hlib : lib.Lawful)

include hlib

/-- **A finite number is a number in JSON, and read as an equal one.** -/
theorem exists_toJson_of_isFinite (h : x.isFinite = true) :
    ∃ value y, x.toJson lib = .number value ∧ lib.toReal? value = some y ∧ y.equals x = true := by
  unfold toJson
  cases hwritten : x.writtenInteger? with
  | some i =>
    refine ⟨_, _, rfl, hlib.toReal_ofInteger _, ?_⟩
    rw [toInt_ofInt_of_written hwritten]
    exact equals_ofInt_of_whole (whole_of_writtenInteger hwritten)
  | none =>
    obtain ⟨value, hvalue, hread⟩ := hlib.toReal_ofReal x h
    exact ⟨value, x, by rw [hvalue], hread, equals_self h⟩

lemma toJson_of_not_isFinite (h : x.isFinite = false) : x.toJson lib = .null := by
  have hwhole : x.whole? = none := by
    rcases x with _ | ⟨s, i⟩
    · rfl
    · have hrank : ¬ i.val < infiniteRank := by simpa [isFinite] using h
      rw [whole?, if_neg hrank]
  have hwritten : x.writtenInteger? = none := by rw [writtenInteger?, hwhole]
  simp only [toJson, hwritten, hlib.ofReal_nonfinite x h]

/-- **Finite numbers are the same in JSON exactly if they are equal.** -/
theorem toJson_eq_iff (hx : x.isFinite = true) (hy : y.isFinite = true) :
    x.toJson lib = y.toJson lib ↔ x.equals y = true := by
  refine ⟨fun h => ?_, fun h => ?_⟩
  · obtain ⟨value, x', hjson, hread, hequals⟩ := exists_toJson_of_isFinite hlib hx
    obtain ⟨value', y', hjson', hread', hequals'⟩ := exists_toJson_of_isFinite hlib hy
    rw [hjson, hjson'] at h
    cases h
    rw [hread] at hread'
    cases hread'
    exact equals_trans (equals_symm hequals) hequals'
  · obtain rfl | ⟨hxzero, hyzero⟩ := eq_or_zero_of_equals h
    · rfl
    · rw [toJson, toJson, writtenInteger_of_whole_zero hxzero, writtenInteger_of_whole_zero hyzero]

end Number

/-- The type of the item that a JSON value describes. -/
def Json.typeTag : Json lib → TypeTag
  | .null => .null
  | .bool _ => .boolean
  | .number _ => .number
  | .string _ => .string
  | .array _ => .array
  | .object _ => .object

namespace Item

/-! ### What JSON cannot hold -/

/-- No number is infinite or `nan`, at any depth. -/
def AllFinite : Item → Prop :=
  Everywhere fun
    | .number x => x.isFinite = true
    | _ => True

/-- The fields of all objects are in order, at every depth. -/
def InOrder : Item → Prop :=
  Everywhere fun
    | .object _ fields => Fields.InOrder fields
    | _ => True

mutual

/-- The item with null in the place of every number that is infinite or `nan`. -/
def withoutNonFinite : Item → Item
  | .number x => if x.isFinite then .number x else .null
  | .array ref elements => .array ref (elementsWithoutNonFinite elements)
  | .object ref fields => .object ref (fieldsWithoutNonFinite fields)
  | item => item

def elementsWithoutNonFinite : List Item → List Item
  | [] => []
  | element :: rest => withoutNonFinite element :: elementsWithoutNonFinite rest

def fieldsWithoutNonFinite : List (String × Item) → List (String × Item)
  | [] => []
  | (key, value) :: rest => (key, withoutNonFinite value) :: fieldsWithoutNonFinite rest

end

section Maps

variable (elements : List Item) (fields : List (String × Item))

lemma elementsToJson_eq_map : elementsToJson lib elements = elements.map (toJson lib) := by
  induction elements with
  | nil => rfl
  | cons element rest ih => rw [elementsToJson, ih, List.map_cons]

lemma fieldsToJson_eq_map : fieldsToJson lib fields = fields.map fun field => (field.1, field.2.toJson lib) := by
  induction fields with
  | nil => rfl
  | cons field rest ih => rw [fieldsToJson, ih, List.map_cons]

lemma elementsWithoutNonFinite_eq_map : elementsWithoutNonFinite elements = elements.map withoutNonFinite := by
  induction elements with
  | nil => rfl
  | cons element rest ih => rw [elementsWithoutNonFinite, ih, List.map_cons]

lemma fieldsWithoutNonFinite_eq_map :
    fieldsWithoutNonFinite fields = fields.map fun field => (field.1, field.2.withoutNonFinite) := by
  induction fields with
  | nil => rfl
  | cons field rest ih => rw [fieldsWithoutNonFinite, ih, List.map_cons]

end Maps

lemma allFinite_withoutNonFinite (item : Item) : item.withoutNonFinite.AllFinite := by
  induction item using induction with
  | null | bool | string => trivial
  | number x =>
    rw [withoutNonFinite]
    split
    · assumption
    · trivial
  | array ref elements ih =>
    rw [withoutNonFinite, elementsWithoutNonFinite_eq_map]
    exact everywhere_array.mpr ⟨trivial, List.forall_mem_map.mpr ih⟩
  | object ref fields ih =>
    rw [withoutNonFinite, fieldsWithoutNonFinite_eq_map]
    exact everywhere_object.mpr ⟨trivial, List.forall_mem_map.mpr ih⟩

lemma inOrder_withoutNonFinite {item : Item} (h : item.InOrder) : item.withoutNonFinite.InOrder := by
  induction item using induction with
  | null | bool | string => trivial
  | number x =>
    rw [withoutNonFinite]
    split <;> trivial
  | array ref elements ih =>
    rw [withoutNonFinite, elementsWithoutNonFinite_eq_map]
    exact everywhere_array.mpr ⟨trivial, List.forall_mem_map.mpr fun element helement =>
      ih element helement ((everywhere_array.mp h).2 element helement)⟩
  | object ref fields ih =>
    rw [withoutNonFinite, fieldsWithoutNonFinite_eq_map]
    obtain ⟨hfields, hvalues⟩ := everywhere_object.mp h
    exact everywhere_object.mpr ⟨List.pairwise_map.mpr hfields, List.forall_mem_map.mpr fun field hfield =>
      ih field hfield (hvalues field hfield)⟩

lemma withoutNonFinite_of_allFinite (item : Item) (h : item.AllFinite) : item.withoutNonFinite = item := by
  induction item using induction with
  | null | bool | string => rfl
  | number x => exact if_pos h
  | array ref elements ih =>
    rw [withoutNonFinite, elementsWithoutNonFinite_eq_map]
    have helements : ∀ element ∈ elements, element.withoutNonFinite = id element :=
      fun element helement => ih element helement ((everywhere_array.mp h).2 element helement)
    rw [List.map_congr_left helements, List.map_id]
  | object ref fields ih =>
    rw [withoutNonFinite, fieldsWithoutNonFinite_eq_map]
    have hfields : ∀ field ∈ fields, (field.1, field.2.withoutNonFinite) = id field :=
      fun field hfield => congrArg (Prod.mk field.1) (ih field hfield ((everywhere_object.mp h).2 field hfield))
    rw [List.map_congr_left hfields, List.map_id]

section ToJson

/-- Being in order is a matter of the keys. -/
lemma inOrder_fieldsToJson {fields : List (String × Item)} :
    Fields.InOrder (fieldsToJson lib fields) ↔ Fields.InOrder fields := by
  rw [fieldsToJson_eq_map]
  exact List.pairwise_map

variable (hlib : lib.Lawful)

include hlib

/-- The numbers that JSON cannot hold are null in it. -/
theorem toJson_withoutNonFinite (item : Item) : item.withoutNonFinite.toJson lib = item.toJson lib := by
  induction item using induction with
  | null | bool | string => rfl
  | number x =>
    cases hfinite : x.isFinite with
    | true => rw [withoutNonFinite, if_pos hfinite]
    | false =>
      rw [withoutNonFinite, if_neg (by simp [hfinite])]
      exact (Number.toJson_of_not_isFinite hlib hfinite).symm
  | array ref elements ih =>
    rw [withoutNonFinite, toJson, toJson, elementsWithoutNonFinite_eq_map, elementsToJson_eq_map, elementsToJson_eq_map,
      List.map_map]
    exact congrArg Json.array (List.map_congr_left ih)
  | object ref fields ih =>
    rw [withoutNonFinite, toJson, toJson, fieldsWithoutNonFinite_eq_map, fieldsToJson_eq_map, fieldsToJson_eq_map,
      List.map_map]
    refine congrArg (Json.object ∘ lib.collect) (List.map_congr_left fun field hfield => ?_)
    exact congrArg (Prod.mk field.1) (ih field hfield)

/-- An object in order has its fields as they are. -/
lemma toJson_object {ref : Ref} {fields : List (String × Item)} (h : Fields.InOrder fields) :
    (Item.object ref fields).toJson lib = .object (fieldsToJson lib fields) := by
  rw [toJson, hlib.collect_eq_ofList, Fields.ofList_of_inOrder (inOrder_fieldsToJson.mpr h)]

/-! ### Items of the same JSON -/

/-- A finite item is in JSON what it is. -/
lemma typeTag_toJson {item : Item} (h : item.AllFinite) : (item.toJson lib).typeTag = item.typeTag := by
  cases item with
  | number x =>
    obtain ⟨value, y, hjson, -⟩ := Number.exists_toJson_of_isFinite hlib h
    rw [toJson, hjson]
    rfl
  | _ => rfl

lemma typeTag_eq_of_toJson_eq {x y : Item} (hx : x.AllFinite) (hy : y.AllFinite) (h : x.toJson lib = y.toJson lib) :
    x.typeTag = y.typeTag := by
  rw [← typeTag_toJson hlib hx, h, typeTag_toJson hlib hy]

omit hlib in
lemma elementsEqual_of_toJson_eq {xs ys : List Item} (h : elementsToJson lib xs = elementsToJson lib ys)
    (hequal : ∀ x ∈ xs, ∀ y ∈ ys, x.toJson lib = y.toJson lib → x.structurallyEqual y = true) :
    elementsEqual xs ys = true := by
  induction xs generalizing ys with
  | nil =>
    cases ys with
    | nil => rfl
    | cons => cases h
  | cons x xs ih =>
    cases ys with
    | nil => cases h
    | cons y ys =>
      obtain ⟨hhead, hrest⟩ := List.cons.inj h
      refine Bool.and_eq_true_iff.mpr ⟨hequal x List.mem_cons_self y List.mem_cons_self hhead, ih hrest ?_⟩
      exact fun x hx y hy => hequal x (List.mem_cons_of_mem _ hx) y (List.mem_cons_of_mem _ hy)

omit hlib in
lemma fieldsEqual_of_toJson_eq {xs ys : List (String × Item)} (h : fieldsToJson lib xs = fieldsToJson lib ys)
    (hequal : ∀ x ∈ xs, ∀ y ∈ ys, x.2.toJson lib = y.2.toJson lib → x.2.structurallyEqual y.2 = true) :
    fieldsEqual xs ys = true := by
  induction xs generalizing ys with
  | nil =>
    cases ys with
    | nil => rfl
    | cons => cases h
  | cons x xs ih =>
    cases ys with
    | nil => cases h
    | cons y ys =>
      obtain ⟨hfield, hrest⟩ := List.cons.inj h
      obtain ⟨hkey, hvalue⟩ := Prod.mk.inj hfield
      have hhead : (x.1 == y.1 && x.2.structurallyEqual y.2) = true :=
        Bool.and_eq_true_iff.mpr ⟨beq_iff_eq.mpr hkey, hequal x List.mem_cons_self y List.mem_cons_self hvalue⟩
      refine Bool.and_eq_true_iff.mpr ⟨hhead, ih hrest ?_⟩
      exact fun x hx y hy => hequal x (List.mem_cons_of_mem _ hx) y (List.mem_cons_of_mem _ hy)

/-- **Finite items of the same JSON are structurally equal.** -/
theorem structurallyEqual_of_toJson_eq {x y : Item} (hx : x.AllFinite) (hy : y.AllFinite) (hxorder : x.InOrder)
    (hyorder : y.InOrder) (h : x.toJson lib = y.toJson lib) : x.structurallyEqual y = true := by
  induction x using induction generalizing y with
  | null =>
    cases y with
    | null => rfl
    | _ => cases typeTag_eq_of_toJson_eq hlib hx hy h
  | bool value =>
    cases y with
    | bool value' => exact beq_iff_eq.mpr (Json.bool.inj h)
    | _ => cases typeTag_eq_of_toJson_eq hlib hx hy h
  | number x =>
    cases y with
    | number y => exact (Number.toJson_eq_iff hlib hx hy).mp h
    | _ => cases typeTag_eq_of_toJson_eq hlib hx hy h
  | string text =>
    cases y with
    | string text' => exact beq_iff_eq.mpr (Json.string.inj h)
    | _ => cases typeTag_eq_of_toJson_eq hlib hx hy h
  | array ref elements ih =>
    cases y with
    | array ref' elements' =>
      refine Bool.or_eq_true_iff.mpr (.inr (elementsEqual_of_toJson_eq (Json.array.inj h) fun x hmem y hmem' hjson => ?_))
      exact ih x hmem ((everywhere_array.mp hx).2 x hmem) ((everywhere_array.mp hy).2 y hmem')
        ((everywhere_array.mp hxorder).2 x hmem) ((everywhere_array.mp hyorder).2 y hmem') hjson
    | _ => cases typeTag_eq_of_toJson_eq hlib hx hy h
  | object ref fields ih =>
    cases y with
    | object ref' fields' =>
      obtain ⟨horder, hvalues⟩ := everywhere_object.mp hxorder
      obtain ⟨horder', hvalues'⟩ := everywhere_object.mp hyorder
      rw [toJson_object hlib horder, toJson_object hlib horder'] at h
      refine Bool.or_eq_true_iff.mpr (.inr (fieldsEqual_of_toJson_eq (Json.object.inj h) fun x hmem y hmem' hjson => ?_))
      exact ih x hmem ((everywhere_object.mp hx).2 x hmem) ((everywhere_object.mp hy).2 y hmem') (hvalues x hmem)
        (hvalues' y hmem') hjson
    | _ => cases typeTag_eq_of_toJson_eq hlib hx hy h

end ToJson

/-! ### There and back -/

lemma forall₂_elementsOfJson {R : Json lib → Item → Prop} {elements : List (Json lib)}
    (h : ∀ element ∈ elements, ∀ σ, R element ((ofJson element).run σ).1) (σ : Session) :
    List.Forall₂ R elements ((elementsOfJson elements).run σ).1 := by
  induction elements generalizing σ with
  | nil => exact .nil
  | cons element rest ih =>
    obtain ⟨helement, hrest⟩ := List.forall_mem_cons.mp h
    exact .cons (helement σ) (ih hrest _)

lemma forall₂_fieldsOfJson {R : Json lib → Item → Prop} {fields : List (String × Json lib)}
    (h : ∀ field ∈ fields, ∀ σ, R field.2 ((ofJson field.2).run σ).1) (σ : Session) :
    List.Forall₂ (fun field found => found.1 = field.1 ∧ R field.2 found.2) fields ((fieldsOfJson fields).run σ).1 := by
  induction fields generalizing σ with
  | nil => exact .nil
  | cons field rest ih =>
    obtain ⟨hfield, hrest⟩ := List.forall_mem_cons.mp h
    exact .cons ⟨rfl, hfield σ⟩ (ih hrest _)

/-- The item is finite, and its JSON is the given one. -/
def Represents (json : Json lib) (item : Item) : Prop :=
  item.toJson lib = json ∧ item.AllFinite

lemma represents_number (hlib : lib.Lawful) (x : Number) (σ : Session) :
    Represents (x.toJson lib) ((ofJson (x.toJson lib)).run σ).1 := by
  cases hfinite : x.isFinite with
  | false =>
    rw [Number.toJson_of_not_isFinite hlib hfinite]
    exact ⟨rfl, trivial⟩
  | true =>
    obtain ⟨value, y, hjson, hread, hequals⟩ := Number.exists_toJson_of_isFinite hlib hfinite
    have hfinite' := Number.isFinite_of_equals hequals hfinite
    have hsame := (Number.toJson_eq_iff hlib hfinite' hfinite).mpr hequals
    have hnumber : ((ofJson (.number value : Json lib)).run σ).1 = .number y := by
      show Item.number ((lib.toReal? value).getD .nan) = _
      rw [hread]
      rfl
    rw [hjson, hnumber]
    exact ⟨hsame.trans hjson, hfinite'⟩

lemma represents_elements {elements : List (Json lib)} {found : List Item} (h : List.Forall₂ Represents elements found) :
    elementsToJson lib found = elements ∧ ∀ item ∈ found, item.AllFinite := by
  induction h with
  | nil => exact ⟨rfl, by simp⟩
  | cons hitem _ ih => exact ⟨congrArg₂ List.cons hitem.1 ih.1, List.forall_mem_cons.mpr ⟨hitem.2, ih.2⟩⟩

lemma represents_fields {fields : List (String × Json lib)} {found : List (String × Item)}
    (h : List.Forall₂ (fun field found => found.1 = field.1 ∧ Represents field.2 found.2) fields found) :
    fieldsToJson lib found = fields ∧ ∀ field ∈ found, field.2.AllFinite := by
  induction h with
  | nil => exact ⟨rfl, by simp⟩
  | cons hfield _ ih =>
    obtain ⟨hkey, hjson, hfinite⟩ := hfield
    exact ⟨congrArg₂ List.cons (Prod.ext hkey hjson) ih.1, List.forall_mem_cons.mpr ⟨hfinite, ih.2⟩⟩

/-- **An item comes back from its JSON with finite numbers and with the same JSON.** -/
theorem represents_ofJson (hlib : lib.Lawful) {item : Item} (h : item.InOrder) (σ : Session) :
    Represents (item.toJson lib) ((ofJson (item.toJson lib)).run σ).1 := by
  induction item using induction generalizing σ with
  | null | bool | string => exact ⟨rfl, trivial⟩
  | number x => exact represents_number hlib x σ
  | array ref elements ih =>
    have helements := (everywhere_array.mp h).2
    have hrepresents : ∀ json ∈ elementsToJson lib elements, ∀ σ, Represents json ((ofJson json).run σ).1 := by
      rw [elementsToJson_eq_map]
      exact List.forall_mem_map.mpr fun element helement => ih element helement (helements element helement)
    obtain ⟨hjson, hfinite⟩ := represents_elements (forall₂_elementsOfJson hrepresents σ)
    exact ⟨congrArg Json.array hjson, everywhere_array.mpr ⟨trivial, hfinite⟩⟩
  | object ref fields ih =>
    obtain ⟨hfields, hvalues⟩ := everywhere_object.mp h
    have hrepresents : ∀ json ∈ fieldsToJson lib fields, ∀ σ, Represents json.2 ((ofJson json.2).run σ).1 := by
      rw [fieldsToJson_eq_map]
      exact List.forall_mem_map.mpr fun field hfield => ih field hfield (hvalues field hfield)
    obtain ⟨hjson, hfinite⟩ := represents_fields (forall₂_fieldsOfJson hrepresents σ)
    have hkept : Fields.InOrder (fieldsToJson lib ((fieldsOfJson (fieldsToJson lib fields)).run σ).1) := by
      rw [hjson]
      exact inOrder_fieldsToJson.mpr hfields
    have horder := inOrder_fieldsToJson.mp hkept
    have hobject : ((ofJson (.object (fieldsToJson lib fields))).run σ).1 =
        .object ((fieldsOfJson (fieldsToJson lib fields)).run σ).2.nextRef
          ((fieldsOfJson (fieldsToJson lib fields)).run σ).1 :=
      congrArg (Item.object _) (Fields.ofList_of_inOrder horder)
    rw [toJson_object hlib hfields, hobject]
    exact ⟨(toJson_object hlib horder).trans (congrArg Json.object hjson), everywhere_object.mpr ⟨trivial, hfinite⟩⟩

lemma inOrder_newObject {fields : List (String × Item)} (h : ∀ field ∈ fields, field.2.InOrder) (σ : Session) :
    ((newObject fields).run σ).1.InOrder :=
  everywhere_object.mpr ⟨Fields.inOrder_ofList fields, fun field hfield => h field (Fields.mem_of_mem_ofList hfield)⟩

mutual

/-- The objects that are read from JSON have their fields in order. -/
theorem inOrder_ofJson (json : Json lib) (σ : Session) : ((ofJson json).run σ).1.InOrder := by
  match json with
  | .null | .bool _ | .number _ | .string _ => trivial
  | .array elements => exact everywhere_array.mpr ⟨trivial, inOrder_elementsOfJson elements σ⟩
  | .object fields => exact inOrder_newObject (inOrder_fieldsOfJson fields σ) _

theorem inOrder_elementsOfJson (elements : List (Json lib)) (σ : Session) :
    ∀ item ∈ ((elementsOfJson elements).run σ).1, item.InOrder := by
  match elements with
  | [] => exact fun item h => absurd h List.not_mem_nil
  | element :: rest => exact List.forall_mem_cons.mpr ⟨inOrder_ofJson element σ, inOrder_elementsOfJson rest _⟩

theorem inOrder_fieldsOfJson (fields : List (String × Json lib)) (σ : Session) :
    ∀ field ∈ ((fieldsOfJson fields).run σ).1, field.2.InOrder := by
  match fields with
  | [] => exact fun field h => absurd h List.not_mem_nil
  | (_, value) :: rest => exact List.forall_mem_cons.mpr ⟨inOrder_ofJson value σ, inOrder_fieldsOfJson rest _⟩

end

/-- **Items come back from JSON**, of every library that keeps to what it says.  An item has the fields of its objects in
order, as all objects have that are made; then, in every session:

* what comes back is structurally equal to the item with null for the numbers that JSON cannot hold, and it is the same in
  JSON again;
* if all numbers are finite, it is structurally equal to the item itself.

And items with finite numbers that are the same in JSON are structurally equal. -/
theorem items_come_back_from_json (hlib : lib.Lawful) :
    (∀ item : Item, item.InOrder → ∀ σ,
      ((ofJson (item.toJson lib)).run σ).1.structurallyEqual item.withoutNonFinite = true ∧
      ((ofJson (item.toJson lib)).run σ).1.toJson lib = item.toJson lib) ∧
    (∀ item : Item, item.InOrder → item.AllFinite → ∀ σ,
      ((ofJson (item.toJson lib)).run σ).1.structurallyEqual item = true) ∧
    (∀ x y : Item, x.InOrder → y.InOrder → x.AllFinite → y.AllFinite → x.toJson lib = y.toJson lib →
      x.structurallyEqual y = true) ∧
    ∀ (json : Json lib) σ, ((ofJson json).run σ).1.InOrder := by
  have hback (item : Item) (hitem : item.InOrder) (σ : Session) :
      ((ofJson (item.toJson lib)).run σ).1.structurallyEqual item.withoutNonFinite = true ∧
      ((ofJson (item.toJson lib)).run σ).1.toJson lib = item.toJson lib := by
    obtain ⟨hjson, hfinite⟩ := represents_ofJson hlib hitem σ
    refine ⟨structurallyEqual_of_toJson_eq hlib hfinite (allFinite_withoutNonFinite item) (inOrder_ofJson _ σ)
      (inOrder_withoutNonFinite hitem) ?_, hjson⟩
    rw [hjson, toJson_withoutNonFinite hlib]
  refine ⟨hback, fun item hitem hfinite σ => ?_,
    fun x y hxorder hyorder hx hy => structurallyEqual_of_toJson_eq hlib hx hy hxorder hyorder, inOrder_ofJson⟩
  have hsame := (hback item hitem σ).1
  rwa [withoutNonFinite_of_allFinite item hfinite] at hsame

/-- An array with -0, and with an object that holds 0 and `nan`. -/
def zerosAndNaN : Item :=
  .array 0 [.number (.ofRank true 0), .object 1 [("a", .number .zero), ("b", .number .nan)]]

/-- With the standard library it comes back with null for `nan`; and the two zeros are one in JSON. -/
theorem items_come_back_from_json_zeros :
    let zeros : Item := .array 0 [.number (.ofRank true 0), .object 1 [("a", .number .zero), ("b", .null)]]
    JsonLibrary.standard.Lawful ∧ zerosAndNaN.InOrder ∧ zeros.InOrder ∧ zeros.AllFinite ∧
    ((ofJson (zerosAndNaN.toJson .standard)).run ⟨2, #[]⟩).1.structurallyEqual zeros = true ∧
    ((ofJson (zerosAndNaN.toJson .standard)).run ⟨2, #[]⟩).1.toJson .standard = zerosAndNaN.toJson .standard ∧
    ((ofJson (zeros.toJson .standard)).run ⟨2, #[]⟩).1.structurallyEqual zeros = true ∧
    (Item.number (.ofRank true 0)).toJson .standard = (Item.number .zero).toJson .standard ∧
    (Item.number (.ofRank true 0)).structurallyEqual (.number .zero) = true := by
  intro zeros
  have hlib := JsonLibrary.lawful_standard
  obtain ⟨hback, hfinite, hsame, -⟩ := items_come_back_from_json hlib
  have hkeys : compare "a" "b" = .lt := by decide
  have hab (a b : Item) : Fields.InOrder [("a", a), ("b", b)] := List.pairwise_pair.mpr hkeys
  have hNaN : zerosAndNaN.InOrder := ⟨trivial, trivial, ⟨hab _ _, trivial, trivial, trivial⟩, trivial⟩
  have hzeros : zeros.InOrder := ⟨trivial, trivial, ⟨hab _ _, trivial, trivial, trivial⟩, trivial⟩
  have hzerosFinite : zeros.AllFinite := ⟨trivial, rfl, ⟨trivial, rfl, trivial, trivial⟩, trivial⟩
  have hjson : (Item.number (.ofRank true 0)).toJson .standard = (Item.number .zero).toJson .standard :=
    (Number.toJson_eq_iff hlib (x := .ofRank true 0) (y := .zero) rfl rfl).mpr (by decide)
  exact ⟨hlib, hNaN, hzeros, hzerosFinite, (hback zerosAndNaN hNaN _).1, (hback zerosAndNaN hNaN _).2,
    hfinite zeros hzeros hzerosFinite _, hjson, hsame _ _ trivial trivial rfl rfl hjson⟩

end Item

end LazyQuery
