import LazyQuery.Item.Order
import LazyQuery.Operator.Part
import LazyQuery.Sequence.Basic

/-!
# Sorting by keys

Items are sorted by a list of keys: the first key that tells two items apart decides.  The sort is stable, for descending
keys too.  Keys are worked out for every comparison anew, and a later key only where all the earlier ones tie.  Which items a
stable sort compares is left open; here the halves are sorted, the front one first, and then merged.

* `SortKey.ofPart` — the key of an ordering part;
* `compareInTurn` — two items, compared key by key;
* `sortByKeys` — the items in order;
* `Sequence.sorted` — the items of a sequence in order.
-/

namespace LazyQuery

structure SortKey where
  selector : Callable
  direction : Direction

namespace SortKey

def ofPart (part : Part) : Except QueryError SortKey := do
  let selector ← part.requireFunction 0 "key selector"
  return ⟨selector, if part.operator.isDescending then .descending else .ascending⟩

end SortKey

/-- Compares two items key by key.  The values of a key are worked out when its turn comes, and the first key that tells
the items apart decides. -/
def compareInTurn : List SortKey → Item → Item → Eff Ordering
  | [], _, _ => return .eq
  | key :: keys, a, b => do
    let x ← key.selector.call a
    let y ← key.selector.call b
    match key.direction.apply (x.order y) with
    | .eq => compareInTurn keys a b
    | decided => return decided

/-- Merges two sorted lists behind the items that are merged already, the last of which stands first.  Of two items that tie,
the one of the first list comes first. -/
def mergeByKeys (keys : List SortKey) (merged : List Item) : List Item → List Item → Eff (List Item)
  | [], ys => return merged.reverse ++ ys
  | x :: xs, [] => return merged.reverse ++ x :: xs
  | x :: xs, y :: ys => do
    if (← compareInTurn keys y x).isLT then mergeByKeys keys (y :: merged) (x :: xs) ys
    else mergeByKeys keys (x :: merged) xs (y :: ys)
termination_by xs ys => xs.length + ys.length

def sortByKeys (keys : List SortKey) : List Item → Eff (List Item)
  | [] => return []
  | [item] => return [item]
  | first :: second :: rest => do
    let front ← sortByKeys keys ((first :: second :: rest).take ((rest.length + 3) / 2))
    let back ← sortByKeys keys ((first :: second :: rest).drop ((rest.length + 3) / 2))
    mergeByKeys keys [] front back
termination_by items => items.length
decreasing_by
  all_goals
    simp only [List.length_take, List.length_drop, List.length_cons]
    omega

namespace Sequence

def sorted (keys : List SortKey) (source : Sequence) : Sequence :=
  .through (.gather (sortByKeys keys) []) source

end Sequence

end LazyQuery
