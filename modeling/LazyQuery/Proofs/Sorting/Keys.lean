import LazyQuery.Operator.Sorting
import LazyQuery.Proofs.Item.Order
import LazyQuery.Proofs.Sequence.Pull
import LazyQuery.Proofs.Sorting.Stable

/-!
# Sorting by keys as one comparison

Sorting works out keys for each comparison anew, and each key is a call that may do anything in the session.  If the values
of the keys depend on the items alone (`SortKey.Steady`), then two items compare alike in every session, and all of this is
a stable sort by one comparison of items (`sortByKeys_run`): by the first key, where ties are broken by the other keys
(`compareBy`).  Key lists that follow one another are therefore sorts in a row, the later list first
(`stableSort_compareBy_append`).
-/

namespace LazyQuery

namespace SortKey

/-- The value of the key depends on the item alone.  Composites that are made anew count by their contents. -/
def Steady (key : SortKey) : Prop :=
  ∀ (item : Item) (σ τ : Session), (key.selector.call item σ).1.contents = (key.selector.call item τ).1.contents

/-- The value of a steady key, which is the same in each session. -/
def value (key : SortKey) (item : Item) : Item :=
  (key.selector.call item {}).1.contents

def compare (key : SortKey) (a b : Item) : Ordering :=
  key.direction.apply ((key.value a).order (key.value b))

lemma Steady.contents_call {key : SortKey} (h : key.Steady) (item : Item) (σ : Session) :
    (key.selector.call item σ).1.contents = key.value item :=
  h item σ {}

end SortKey

/-- Compares items by their values of all keys: the first key that tells them apart decides. -/
def compareBy : List SortKey → Item → Item → Ordering
  | [] => fun _ _ => .eq
  | key :: keys => compareLex key.compare (compareBy keys)

/-! ### Comparing by keys -/

section Comparison

instance (key : SortKey) : Std.TransCmp key.compare where
  eq_swap {a b} := by
    unfold SortKey.compare
    rw [Item.order_swap (key.value b) (key.value a)]
    cases key.direction <;> rfl
  isLE_trans {a b c} hab hbc := by
    unfold SortKey.compare at *
    cases hdirection : key.direction with
    | ascending =>
      rw [hdirection] at hab hbc
      exact Item.isLE_order_trans _ _ _ hab hbc
    | descending =>
      rw [hdirection] at hab hbc
      have hba : ((key.value b).order (key.value a)).isLE := by
        rw [Item.order_swap (key.value a) (key.value b)]
        exact hab
      have hcb : ((key.value c).order (key.value b)).isLE := by
        rw [Item.order_swap (key.value b) (key.value c)]
        exact hbc
      have hca := Item.isLE_order_trans _ _ _ hcb hba
      rw [Item.order_swap (key.value a) (key.value c)] at hca
      exact hca

instance transCmp_compareBy (keys : List SortKey) : Std.TransCmp (compareBy keys) := by
  induction keys with
  | nil => exact { eq_swap := rfl, isLE_trans := fun _ _ => rfl }
  | cons key keys ih =>
    unfold compareBy
    infer_instance

lemma compareBy_append (keys keys' : List SortKey) :
    compareBy (keys ++ keys') = compareLex (compareBy keys) (compareBy keys') := by
  induction keys with
  | nil => rfl
  | cons key keys ih =>
    funext a b
    rw [List.cons_append, compareBy, ih]
    show (key.compare a b).then ((compareBy keys a b).then (compareBy keys' a b)) =
      ((key.compare a b).then (compareBy keys a b)).then (compareBy keys' a b)
    rw [Ordering.then_assoc]

/-- **Sorting by the keys of two lists is sorting by the later list and then by the earlier one.** -/
theorem stableSort_compareBy_append (keys keys' : List SortKey) (items : List Item) :
    stableSort (compareBy (keys ++ keys')) items = stableSort (compareBy keys) (stableSort (compareBy keys') items) := by
  rw [stableSort_stableSort, compareBy_append]

end Comparison

/-! ### Merging items -/

section Merging

variable {keys : List SortKey} {cmp : Item → Item → Ordering} [Std.TransCmp cmp] {P : Session → Prop} {σ : Session}
  (hcompare : ∀ a b σ, P σ → ∃ τ, P τ ∧ compareInTurn keys a b σ = (cmp a b, τ))

include hcompare

/-- Where comparisons come to one order of the items, merging is merging by it. -/
lemma mergeByKeys_run (merged xs ys : List Item) (hσ : P σ) :
    ∃ τ, P τ ∧ mergeByKeys keys merged xs ys σ = (merged.reverse ++ xs.merge ys (fun a b => (cmp a b).isLE), τ) := by
  induction xs generalizing merged ys σ with
  | nil =>
    rw [mergeByKeys, List.nil_merge]
    exact ⟨σ, hσ, rfl⟩
  | cons x xs ihx =>
    induction ys generalizing merged σ with
    | nil =>
      rw [mergeByKeys, List.merge_right]
      exact ⟨σ, hσ, rfl⟩
    | cons y ys ihy =>
      obtain ⟨τ, hτ, hrun⟩ := hcompare y x σ hσ
      rw [mergeByKeys, Eff.bind_run hrun, List.cons_merge_cons, cmp_swap cmp y x]
      cases cmp y x with
      | lt =>
        obtain ⟨υ, hυ, hrest⟩ := ihy (y :: merged) hτ
        exact ⟨υ, hυ, by simpa using hrest⟩
      | eq | gt =>
        obtain ⟨υ, hυ, hrest⟩ := ihx (x :: merged) (y :: ys) hτ
        exact ⟨υ, hυ, by simpa using hrest⟩

/-- **Comparisons that come to one order of the items sort them by it**, and keep what they keep of the session. -/
theorem sortByKeys_of_compareInTurn (items : List Item) (hσ : P σ) :
    ∃ τ, P τ ∧ sortByKeys keys items σ = (stableSort cmp items, τ) := by
  induction items using sortByKeys.induct generalizing σ with
  | case1 =>
    rw [sortByKeys, stableSort, List.mergeSort_nil]
    exact ⟨σ, hσ, rfl⟩
  | case2 item =>
    rw [sortByKeys, stableSort, List.mergeSort_singleton]
    exact ⟨σ, hσ, rfl⟩
  | case3 first second rest ihfront ihback =>
    obtain ⟨τ, hτ, hfront⟩ := ihfront hσ
    obtain ⟨υ, hυ, hback⟩ := ihback hτ
    obtain ⟨ω, hω, hmerge⟩ := mergeByKeys_run hcompare [] _ _ hυ
    refine ⟨ω, hω, ?_⟩
    rw [sortByKeys, Eff.bind_run hfront, Eff.bind_run hback, hmerge, stableSort_halves]
    rfl

end Merging

/-! ### Steady keys -/

section Steady

variable {keys : List SortKey} (hkeys : ∀ key ∈ keys, key.Steady)

include hkeys

/-- **Steady keys compare two items alike in every session.** -/
theorem compareInTurn_run (a b : Item) (σ : Session) : (compareInTurn keys a b σ).1 = compareBy keys a b := by
  induction keys generalizing σ with
  | nil => rfl
  | cons key keys ih =>
    have hkey : key.Steady := hkeys key List.mem_cons_self
    have hrest : ∀ key ∈ keys, key.Steady := fun key hmem => hkeys key (List.mem_cons_of_mem _ hmem)
    rcases hx : key.selector.call a σ with ⟨x, τ⟩
    rcases hy : key.selector.call b τ with ⟨y, ω⟩
    have hcompare : key.direction.apply (x.order y) = key.compare a b := by
      have ha := hkey.contents_call a σ
      have hb := hkey.contents_call b τ
      rw [hx] at ha
      rw [hy] at hb
      rw [SortKey.compare, ← ha, ← hb, Item.order_contents]
    rw [compareInTurn, Eff.bind_run hx, Eff.bind_run hy, hcompare]
    show _ = (key.compare a b).then (compareBy keys a b)
    cases key.compare a b with
    | lt => rfl
    | eq => exact ih hrest ω
    | gt => rfl

/-- **Sorting by steady keys is one stable sort of the items**, from whatever session it starts. -/
theorem sortByKeys_run (items : List Item) (σ : Session) :
    ∃ τ, sortByKeys keys items σ = (stableSort (compareBy keys) items, τ) := by
  have hcompare (a b : Item) (σ : Session) (_ : True) : ∃ τ, True ∧ compareInTurn keys a b σ = (compareBy keys a b, τ) :=
    ⟨_, trivial, Prod.ext (compareInTurn_run hkeys a b σ) rfl⟩
  obtain ⟨τ, -, hrun⟩ := sortByKeys_of_compareInTurn hcompare items trivial
  exact ⟨τ, hrun⟩

end Steady

/-! ### Two keys -/

/-- Sorts downwards by the types of the items, and then upwards by new arrays of the item and `nan`. -/
def typeThenBoxed : List SortKey :=
  [⟨.unary fun item => return .string item.typeTag.name, .descending⟩,
    ⟨.unary fun item => newArray [item, .number .nan], .ascending⟩]

lemma steady_typeThenBoxed : ∀ key ∈ typeThenBoxed, key.Steady := by
  rw [typeThenBoxed, List.forall_mem_cons, List.forall_mem_singleton]
  exact ⟨fun _ _ _ => rfl, fun _ _ _ => rfl⟩

end LazyQuery
