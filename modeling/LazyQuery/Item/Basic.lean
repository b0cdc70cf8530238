import LazyQuery.Fields
import LazyQuery.Number.Basic

/-!
# Items

The dynamically typed values that a query works on.  Arrays and objects carry a reference that tells composites of the
same contents apart; it stays with the item wherever the item goes.

* `Item.typeTag` — the type of an item;
* `Item.isTruthy` — the Boolean that an item stands for;
* `Item.number?`, `Item.integer?`, `Item.elements?`, `Item.get?`, … — what an item holds.
-/

namespace LazyQuery

/-- The types that items have. -/
inductive TypeTag where
  | null
  | boolean
  | number
  | string
  | array
  | object
  deriving DecidableEq, Hashable, Repr

namespace TypeTag

def all : List TypeTag := [.null, .boolean, .number, .string, .array, .object]

def name : TypeTag → String
  | .null => "null"
  | .boolean => "boolean"
  | .number => "number"
  | .string => "string"
  | .array => "array"
  | .object => "object"

/-- The type of a name, in any case; `bool` is short for `boolean`. -/
def ofName? (name : String) : Option TypeTag :=
  match String.ofList (name.toList.map Char.toLower) with
  | "null" => some .null
  | "boolean" => some .boolean
  | "bool" => some .boolean
  | "number" => some .number
  | "string" => some .string
  | "array" => some .array
  | "object" => some .object
  | _ => none

/-- The place of a type when items of different types are sorted. -/
def rank : TypeTag → Nat
  | .null => 0
  | .boolean => 1
  | .number => 2
  | .string => 3
  | .array => 4
  | .object => 5

end TypeTag

/-- What tells composites of the same contents apart. -/
abbrev Ref := Nat

inductive Item where
  | null
  | bool (value : Bool)
  | number (value : Number)
  | string (text : String)
  | array (ref : Ref) (elements : List Item)
  | object (ref : Ref) (fields : List (String × Item))
  deriving Inhabited

namespace Item

def typeTag : Item → TypeTag
  | .null => .null
  | .bool _ => .boolean
  | .number _ => .number
  | .string _ => .string
  | .array _ _ => .array
  | .object _ _ => .object

def isNull : Item → Bool
  | .null => true
  | _ => false

def bool? : Item → Option Bool
  | .bool value => some value
  | _ => none

def number? : Item → Option Number
  | .number value => some value
  | _ => none

/-- The integer that a number without fraction stands for, kept within 64 bits. -/
def integer? : Item → Option Int
  | .number value => value.toInteger?
  | _ => none

def string? : Item → Option String
  | .string text => some text
  | _ => none

def elements? : Item → Option (List Item)
  | .array _ elements => some elements
  | _ => none

/-- The value under a key of an object. -/
def get? (item : Item) (key : String) : Option Item :=
  match item with
  | .object _ fields => Fields.get? fields key
  | _ => none

/-- Null, false, the zeros, `nan` and the empty string stand for false, everything else for true. -/
def isTruthy : Item → Bool
  | .null => false
  | .bool value => value
  | .number value => !(value.isZero || value.isNaN)
  | .string text => !text.isEmpty
  | .array _ _ => true
  | .object _ _ => true

end Item

end LazyQuery
