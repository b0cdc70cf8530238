import LazyQuery.Proofs.Sorting.Keys

/-!
# Comparisons are total preorders

Items of all kinds and at every depth are in a total preorder (`IsTotalPreorder`), and so they are by every list of keys.

A sort compares items key by key and works out the two values of a key when its turn comes (`compareInTurn`).  It could as
well work out the values of all keys of an item beforehand (`keyValues`) and compare these (`compareKeys`).  If the values
depend on the items alone, then both are the comparison `compareBy`, in whatever sessions the values are worked out
(`compareInTurn_run`, `compareKeys_keyValues`).

The main statement is `comparisons_are_total_preorders`.
-/

namespace LazyQuery

/-- A comparison that can be sorted by: any two compare one way or the other, not being greater carries over, and what
compares as equal compares alike with everything. -/
structure IsTotalPreorder {α : Type} (cmp : α → α → Ordering) : Prop where
  swap (a b : α) : cmp b a = (cmp a b).swap
  self (a : α) : cmp a a = .eq
  trans (a b c : α) : cmp a b ≠ .gt → cmp b c ≠ .gt → cmp a c ≠ .gt
  alike (a b c : α) : cmp a b = .eq → cmp a c = cmp b c ∧ cmp c a = cmp c b

lemma isTotalPreorder_of_transCmp {α : Type} (cmp : α → α → Ordering) [Std.TransCmp cmp] : IsTotalPreorder cmp where
  swap := cmp_swap cmp
  self _ := Std.ReflCmp.compare_self
  trans a b c hab hbc := by
    have hab' : (cmp a b).isLE := Ordering.isLE_iff_ne_gt.mpr hab
    have hbc' : (cmp b c).isLE := Ordering.isLE_iff_ne_gt.mpr hbc
    exact Ordering.isLE_iff_ne_gt.mp (isLE_trans cmp a b c hab' hbc')
  alike _ _ _ h := ⟨Std.TransCmp.congr_left h, Std.TransCmp.congr_right h⟩

/-! ### Keys -/

/-- The values of all keys for an item. -/
def keyValues (item : Item) : List SortKey → Eff (List Item)
  | [] => return []
  | key :: keys => do return (← key.selector.call item) :: (← keyValues item keys)

/-- Compares by the first pair of key values that differ, each in its direction. -/
def compareKeys : List Direction → List Item → List Item → Ordering
  | direction :: directions, x :: xs, y :: ys =>
    (direction.apply (x.order y)).then (compareKeys directions xs ys)
  | _, _, _ => .eq

section Keys

variable {keys : List SortKey}

/-- Key values compare as the items do that they are of. -/
lemma compareKeys_eq_compareBy {a b : Item} {xs ys : List Item}
    (hx : xs.map Item.contents = keys.map fun key => key.value a)
    (hy : ys.map Item.contents = keys.map fun key => key.value b) :
    compareKeys (keys.map SortKey.direction) xs ys = compareBy keys a b := by
  induction keys generalizing xs ys with
  | nil => cases xs <;> rfl
  | cons key keys ih =>
    rcases xs with _ | ⟨x, xs⟩
    · cases hx
    rcases ys with _ | ⟨y, ys⟩
    · cases hy
    simp only [List.map_cons, List.cons.injEq] at hx hy
    have horder : x.order y = (key.value a).order (key.value b) := by rw [← hx.1, ← hy.1, Item.order_contents]
    have hrest := ih hx.2 hy.2
    show (key.direction.apply (x.order y)).then (compareKeys (keys.map SortKey.direction) xs ys) = _
    rw [horder, hrest]
    rfl

variable (hkeys : ∀ key ∈ keys, key.Steady)

include hkeys

lemma keyValues_run (item : Item) (σ : Session) :
    ∃ values τ, keyValues item keys σ = (values, τ) ∧ values.map Item.contents = keys.map fun key => key.value item := by
  induction keys generalizing σ with
  | nil => exact ⟨[], σ, rfl, rfl⟩
  | cons key keys ih =>
    rcases hcall : key.selector.call item σ with ⟨x, ω⟩
    obtain ⟨values, τ, hvalues, hcontents⟩ := ih (fun key hkey => hkeys key (List.mem_cons_of_mem _ hkey)) ω
    have hx : x.contents = key.value item := by
      have h := (hkeys key List.mem_cons_self).contents_call item σ
      rw [hcall] at h
      exact h
    refine ⟨x :: values, τ, ?_, by rw [List.map_cons, List.map_cons, hx, hcontents]⟩
    rw [keyValues, Eff.bind_run hcall, Eff.bind_run hvalues]
    rfl

/-- **Values of steady keys compare as the items do**, wherever they were worked out. -/
theorem compareKeys_keyValues (a b : Item) (σ τ : Session) :
    compareKeys (keys.map SortKey.direction) (keyValues a keys σ).1 (keyValues b keys τ).1 = compareBy keys a b := by
  obtain ⟨xs, σ', hx, hxs⟩ := keyValues_run hkeys a σ
  obtain ⟨ys, τ', hy, hys⟩ := keyValues_run hkeys b τ
  rw [hx, hy]
  exact compareKeys_eq_compareBy hxs hys

end Keys

/-- **Comparisons are total preorders**: that of items, and for every list of keys whose values depend on the items alone,
that by the keys in turn and that by their values, which are the same.  Every comparison may take place in a session of its
own. -/
theorem comparisons_are_total_preorders :
    IsTotalPreorder Item.order ∧
    ∀ keys : List SortKey, (∀ key ∈ keys, key.Steady) → ∀ σ τ : Item → Item → Session,
      IsTotalPreorder (fun a b => (compareInTurn keys a b (σ a b)).1) ∧
      ∀ a b, compareKeys (keys.map SortKey.direction) (keyValues a keys (σ a b)).1 (keyValues b keys (τ a b)).1 =
        (compareInTurn keys a b (σ a b)).1 := by
  refine ⟨isTotalPreorder_of_transCmp Item.order, fun keys hkeys σ τ => ⟨?_, fun a b => ?_⟩⟩
  · simp only [compareInTurn_run hkeys]
    exact isTotalPreorder_of_transCmp (compareBy keys)
  · rw [compareInTurn_run hkeys, compareKeys_keyValues hkeys]

/-- Downwards by type and then upwards as elements of new arrays, the two zeros are equal, and so they compare alike with
`nan`. -/
theorem comparisons_are_total_preorders_zeros :
    (∀ key ∈ typeThenBoxed, key.Steady) ∧
    (compareInTurn typeThenBoxed (.number (.ofRank false 0)) (.number (.ofRank true 0)) {}).1 = .eq ∧
    (compareInTurn typeThenBoxed (.number (.ofRank false 0)) (.number .nan) {}).1 =
      (compareInTurn typeThenBoxed (.number (.ofRank true 0)) (.number .nan) {}).1 := by
  obtain ⟨hpreorder, -⟩ :=
    comparisons_are_total_preorders.2 typeThenBoxed steady_typeThenBoxed (fun _ _ => {}) fun _ _ => {}
  have hzeros : (compareInTurn typeThenBoxed (.number (.ofRank false 0)) (.number (.ofRank true 0)) {}).1 = .eq := by
    decide +kernel
  exact ⟨steady_typeThenBoxed, hzeros, (hpreorder.alike _ _ _ hzeros).1⟩

end LazyQuery
