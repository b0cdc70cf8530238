import LazyQuery.Item.Cast

/-!
# Three equalities

* `Item.identical` — primitives by value, all that is not a number being one, composites by reference;
* `Item.looselyEqual` — composites by reference, primitives also across types by their numeric value;
* `Item.structurallyEqual` — by contents at every depth.
-/

namespace LazyQuery

namespace Item

/-- Primitives by value, composites by reference.  What is not a number is identical to whatever else is not, and 0 to -0. -/
def identical : Item → Item → Bool
  | .null, .null => true
  | .bool x, .bool y => x == y
  | .number x, .number y => x.equals y || (x.isNaN && y.isNaN)
  | .string x, .string y => x == y
  | .array r _, .array s _ => r == s
  | .object r _, .object s _ => r == s
  | _, _ => false

/-- Between primitives of different types the numeric values count; null equals null only. -/
def looselyEqual : Item → Item → Bool
  | .number x, .number y => x.equals y
  | .null, b => b.isNull
  | a, .null => a.isNull
  | .array r xs, b => identical (.array r xs) b
  | .object r xs, b => identical (.object r xs) b
  | a, .array r xs => identical a (.array r xs)
  | a, .object r xs => identical a (.object r xs)
  | .string x, .string y => x == y
  | .bool x, .bool y => x == y
  | a, b =>
    match a.toNumber?, b.toNumber? with
    | some x, some y => x.equals y
    | _, _ => false

mutual

/-- Equal contents at every depth.  Composites of one reference are equal without a look at their contents. -/
def structurallyEqual : Item → Item → Bool
  | .null, .null => true
  | .bool x, .bool y => x == y
  | .number x, .number y => x.equals y
  | .string x, .string y => x == y
  | .array r xs, .array s ys => r == s || elementsEqual xs ys
  | .object r xs, .object s ys => r == s || fieldsEqual xs ys
  | _, _ => false

def elementsEqual : List Item → List Item → Bool
  | [], [] => true
  | x :: xs, y :: ys => structurallyEqual x y && elementsEqual xs ys
  | _, _ => false

def fieldsEqual : List (String × Item) → List (String × Item) → Bool
  | [], [] => true
  | (j, x) :: xs, (k, y) :: ys => j == k && structurallyEqual x y && fieldsEqual xs ys
  | _, _ => false

end

end Item

end LazyQuery
