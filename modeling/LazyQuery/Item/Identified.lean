import LazyQuery.Item.Equality
import Std.Data.HashSet

/-!
# Sets of items by identity

An `IdentityKey` is an item compared by identity, and an `IdentitySet` a hash set of such keys.

* `Item.digest` — what a hasher is fed of an item: its type, and then the value of a primitive or the reference of a composite.
-/

namespace LazyQuery

/-- The bits that stand for a number in a digest: the quiet pattern for whatever is not a number, and that of the positive zero
for both zeros. -/
def Number.keyBits (x : Number) : UInt64 :=
  if x.isNaN then Number.nan.toBits
  else if x.isZero then Number.zero.toBits
  else x.toBits

/-- What a hasher is fed after the type of an item. -/
inductive Digest where
  | nothing
  | bool (value : Bool)
  | bits (bits : UInt64)
  | text (text : String)
  | reference (ref : Ref)
  deriving DecidableEq, Hashable, Repr

def Item.digest (item : Item) : TypeTag × Digest :=
  (item.typeTag, match item with
    | .null => .nothing
    | .bool value => .bool value
    | .number value => .bits value.keyBits
    | .string text => .text text
    | .array ref _ => .reference ref
    | .object ref _ => .reference ref)

/-- An item as a key: identical items are one key. -/
structure IdentityKey where
  item : Item

namespace IdentityKey

instance : BEq IdentityKey := ⟨fun a b => a.item.identical b.item⟩

instance : Hashable IdentityKey := ⟨fun key => hash key.item.digest⟩

end IdentityKey

abbrev IdentitySet := Std.HashSet IdentityKey

namespace IdentitySet

def ofItems (items : List Item) : IdentitySet :=
  items.foldl (fun set item => set.insert ⟨item⟩) ∅

/-- Adds an item, and tells whether it is new. -/
def add (set : IdentitySet) (item : Item) : Bool × IdentitySet :=
  let (known, set) := set.containsThenInsert ⟨item⟩
  (!known, set)

def has (set : IdentitySet) (item : Item) : Bool :=
  set.contains ⟨item⟩

end IdentitySet

end LazyQuery
