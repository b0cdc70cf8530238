import LazyQuery.Operator.Part
import LazyQuery.Sequence.Basic

/-!
# Operators that hand on a sequence

The stages that these operators put on their source.  Where the operator works with a second sequence, that one is given
by its items.

* filtering: `Stage.filterBy`, `Stage.ofType`, `Stage.cast`;
* projection and joining: `Stage.select`, `Stage.selectMany`, `Stage.joinWith`, `Stage.groupJoin`;
* grouping and arranging: `Stage.groupBy`, `Stage.reverse`;
* combination: `Stage.zipWith`, `Stage.union`, `Stage.intersect`, `Stage.except`, `Stage.defaultIfEmpty`.
-/

namespace LazyQuery.Stage

/-! ## Filtering -/

def filterBy (predicate : Callable) : Stage :=
  .filter {
    handle
      | .ok item => predicate.test item
      | .error _ => return true
    handle_error := fun _ => rfl }

def ofType (target : TypeTag) : Stage :=
  .filter {
    handle
      | .ok item => return item.typeTag == target
      | .error _ => return true
    handle_error := fun _ => rfl }

def cast (target : TypeTag) : Stage :=
  .map {
    handle
      | .ok item =>
        match item.castTo? target with
        | some result => return .ok result
        | none => return .error (.invalidCast item.typeTag target)
      | .error e => return .error e
    handle_error := fun _ => rfl }

/-! ## Projection -/

def select (selector : Callable) : Stage :=
  .map {
    handle
      | .ok item => return .ok (← selector.call item)
      | .error e => return .error e
    handle_error := fun _ => rfl }

/-- The inner items, each passed through the result function with the outer one, if there is such a function. -/
def projectInner (result : Option Callable) (outer : Item) : List Item → Eff (List Item)
  | [] => return []
  | inner :: rest => do
    let row ← match result with
      | some f => f.call2 outer inner
      | none => pure inner
    return row :: (← projectInner result outer rest)

/-- The selector must give arrays; their elements follow one another. -/
def selectMany (selector : Callable) (result : Option Callable) : Stage :=
  .expand {
    handle
      | .ok item => do
        let inner ← selector.call item
        match inner.elements? with
        | some elements => return .ok (← projectInner result item elements)
        | none => return .error (.invalidArgument "selectMany"
            ("selector returned " ++ inner.typeTag.name ++ ", expected an array"))
      | .error e => return .error e
    handle_error := fun _ => rfl } []

/-! ## Joining -/

/-- One row for each inner item whose key equals the outer key. -/
def joinRows (innerKey : Callable) (result : Option Callable) (outer key : Item) : List Item → Eff (List Item)
  | [] => return []
  | inner :: rest => do
    if key.structurallyEqual (← innerKey.call inner) then
      let row ← match result with
        | some f => f.call2 outer inner
        | none => newArray [outer, inner]
      return row :: (← joinRows innerKey result outer key rest)
    else joinRows innerKey result outer key rest

/-- Each item with every inner item of equal key.  The inner keys are worked out anew for each outer item. -/
def joinWith (inner : List Item) (outerKey innerKey : Callable) (result : Option Callable) : Stage :=
  .expand {
    handle
      | .ok outer => do
        let key ← outerKey.call outer
        return .ok (← joinRows innerKey result outer key inner)
      | .error e => return .error e
    handle_error := fun _ => rfl } []

/-- The inner items whose key equals the outer key. -/
def matching (innerKey : Callable) (key : Item) : List Item → Eff (List Item)
  | [] => return []
  | inner :: rest => do
    if key.structurallyEqual (← innerKey.call inner) then return inner :: (← matching innerKey key rest)
    else matching innerKey key rest

/-- Each item with the array of all inner items of equal key. -/
def groupJoin (inner : List Item) (outerKey innerKey : Callable) (result : Option Callable) : Stage :=
  .map {
    handle
      | .ok outer => do
        let key ← outerKey.call outer
        let found ← newArray (← matching innerKey key inner)
        match result with
        | some f => return .ok (← f.call2 outer found)
        | none => return .ok (← newObject [("outer", outer), ("inner", found)])
      | .error e => return .error e
    handle_error := fun _ => rfl }

/-! ## Grouping and arranging -/

/-- What is handed out for a group. -/
def emitGroup (result : Option Callable) (group : Group) : Eff Item := do
  let items ← newArray group.items
  match result with
  | some f => f.call2 group.key items
  | none => newObject [("key", group.key), ("items", items)]

def groupBy (key : Callable) (result : Option Callable) : Stage :=
  .group key.call (emitGroup result) []

def reverse : Stage :=
  .gather (fun items => return items.reverse) []

/-! ## Combination -/

def zipWith (others : List Item) (result : Option Callable) : Stage :=
  .zip (fun left right =>
    match result with
    | some f => f.call2 left right
    | none => newArray [left, right]) others

/-- The items of the source and the other ones, of identical items the first. -/
def union (others : List Item) : List Stage :=
  [.append others, .unique ∅]

/-- The items that are also among the others, of identical items the first. -/
def intersect (others : List Item) : List Stage :=
  let members := IdentitySet.ofItems others
  [.filter {
    handle
      | .ok item => return members.has item
      | .error _ => return true
    handle_error := fun _ => rfl }, .unique ∅]

/-- The items that are not among the others, of identical items the first. -/
def except (others : List Item) : List Stage :=
  [.unique (IdentitySet.ofItems others)]

/-- Without a default the source is handed on as it is. -/
def defaultIfEmpty : Option Item → List Stage
  | some fallback => [.orElse fallback false]
  | none => []

end LazyQuery.Stage

namespace LazyQuery.Sequence

/-- The source with the given stages put on it, the first of them nearest to the source. -/
def withStages (source : Sequence) (stages : List Stage) : Sequence :=
  stages.foldl (fun s stage => .through stage s) source

end LazyQuery.Sequence
