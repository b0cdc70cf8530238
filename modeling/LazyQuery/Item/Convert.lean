import LazyQuery.Item.Cast
import LazyQuery.Json
import LazyQuery.Session

/-!
# Items and JSON

* `Item.toJson` — the item as a value of a JSON library, numbers that JSON cannot hold becoming null;
* `Item.ofJson` — the item that a JSON value describes, with new references for its composites;
* `Item.display` — the JSON text of an item.
-/

namespace LazyQuery

variable (lib : JsonLibrary)

/-- A number as a JSON value: an integer if it is written as one. -/
def Number.toJson (x : Number) : Json lib :=
  match x.writtenInteger? with
  | some i => .number (lib.ofInteger (Int64.ofInt i))
  | none =>
    match lib.ofReal? x with
    | some value => .number value
    | none => .null

namespace Item

mutual

def toJson : Item → Json lib
  | .null => .null
  | .bool value => .bool value
  | .number value => value.toJson lib
  | .string text => .string text
  | .array _ elements => .array (elementsToJson elements)
  | .object _ fields => .object (lib.collect (fieldsToJson fields))

def elementsToJson : List Item → List (Json lib)
  | [] => []
  | element :: rest => toJson element :: elementsToJson rest

def fieldsToJson : List (String × Item) → List (String × Json lib)
  | [] => []
  | (key, value) :: rest => (key, toJson value) :: fieldsToJson rest

end

variable {lib}

mutual

/-- A number that is none of binary64 is read as `nan`. -/
def ofJson : Json lib → Eff Item
  | .null => return .null
  | .bool value => return .bool value
  | .number value => return .number ((lib.toReal? value).getD .nan)
  | .string text => return .string text
  | .array elements => do newArray (← elementsOfJson elements)
  | .object fields => do newObject (← fieldsOfJson fields)

def elementsOfJson : List (Json lib) → Eff (List Item)
  | [] => return []
  | element :: rest => do return (← ofJson element) :: (← elementsOfJson rest)

def fieldsOfJson : List (String × Json lib) → Eff (List (String × Item))
  | [] => return []
  | (key, value) :: rest => do return (key, ← ofJson value) :: (← fieldsOfJson rest)

end

def display (item : Item) : String :=
  (item.toJson .standard).render

end Item

end LazyQuery
