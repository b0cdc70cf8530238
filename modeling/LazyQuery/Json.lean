import LazyQuery.Fields
import LazyQuery.Number.Text
import LazyQuery.Text.Quoted

/-!
# JSON values

The values are those of a library, which has numbers of its own and maps for the objects; what the conversions use of it is a
parameter (`JsonLibrary`).  In `JsonLibrary.standard` numbers are either integers or binary64 numbers, and objects are ordered
by key.  `Json.render` writes a value of that without blanks.
-/

namespace LazyQuery

/-- The numbers and the maps of a library of JSON values. -/
structure JsonLibrary where
  Num : Type
  ofInteger : Int64 → Num
  /-- The number, unless JSON cannot hold it. -/
  ofReal? : Number → Option Num
  toReal? : Num → Option Number
  /-- The entries of the map of pairs, in the order in which it has them. -/
  collect {α : Type} : List (String × α) → List (String × α)

inductive Json (lib : JsonLibrary) where
  | null
  | bool (value : Bool)
  | number (value : lib.Num)
  | string (text : String)
  | array (elements : List (Json lib))
  | object (fields : List (String × Json lib))
  deriving Inhabited

inductive JsonNumber where
  | integer (value : Int)
  | real (value : Number)

namespace JsonNumber

/-- The number nearest to it. -/
def toNumber : JsonNumber → Number
  | .integer value => .ofInt value
  | .real value => value

/-- The text of a number, null if JSON cannot hold it. -/
def render : JsonNumber → String
  | .integer value => toString value
  | .real value => value.decimalText.getD "null"

end JsonNumber

/-- Integers are kept as such, infinities and `nan` are refused, and of several values under one key the last one wins. -/
def JsonLibrary.standard : JsonLibrary where
  Num := JsonNumber
  ofInteger i := .integer i.toInt
  ofReal? x := if x.isFinite then some (.real x) else none
  toReal? x := some x.toNumber
  collect := Fields.ofList

namespace Json

/-- Texts joined by commas between two brackets. -/
def enclose (opening : String) (parts : List String) (closing : String) : String :=
  opening ++ String.intercalate "," parts ++ closing

mutual

def render : Json .standard → String
  | .null => "null"
  | .bool value => if value then "true" else "false"
  | .number value => JsonNumber.render value
  | .string text => quote text
  | .array elements => enclose "[" (renderElements elements) "]"
  | .object fields => enclose "\x7b" (renderFields fields) "\x7d"

def renderElements : List (Json .standard) → List String
  | [] => []
  | element :: rest => render element :: renderElements rest

def renderFields : List (String × Json .standard) → List String
  | [] => []
  | (key, value) :: rest => (quote key ++ ":" ++ render value) :: renderFields rest

end

end Json

end LazyQuery
