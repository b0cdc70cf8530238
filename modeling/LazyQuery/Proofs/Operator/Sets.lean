import LazyQuery.Operator.Apply
import LazyQuery.Proofs.Item.Identity
import LazyQuery.Proofs.Sequence.Sifting

/-!
# Set operators

The operators `union`, `intersect` and `except` work with sets of items that go by identity.  In terms of lists they are:

* `Item.firstOccurrences` — the items that no identical one precedes, which is what `union` with no items leaves;
* `Item.isAmong` — being identical to one of the given items, which is what `contains` finds out.

The stages of the operators sift their source, each by a hash set that grows with the items (`Stage.firsts_eq`), and the
laws come down to those of first occurrences (`Item.filter_firstOccurrences`, `Item.firstOccurrences_append`).  The main
statement is `set_operators_go_by_identity`.
-/

namespace LazyQuery

open Sequence

/-! ### First occurrences -/

namespace Item

/-- The items that no identical one precedes. -/
def firstOccurrences (items : List Item) : List Item :=
  items.eraseDupsBy identical

/-- Is the item identical to one of the given items? -/
def isAmong (items : List Item) (item : Item) : Bool :=
  items.any fun member => member.identical item

/-- No two of the items are identical. -/
def Distinct (items : List Item) : Prop :=
  items.Pairwise fun x y => x.identical y = false

section FirstOccurrences

variable {x y : Item} {xs ys : List Item}

lemma isAmong_congr (h : x.identical y = true) : isAmong xs x = isAmong xs y := by
  unfold isAmong
  congr 1
  funext member
  rw [member.identical_comm x, member.identical_comm y, identical_congr h]

@[simp] lemma firstOccurrences_nil : firstOccurrences [] = [] := rfl

lemma firstOccurrences_cons :
    firstOccurrences (x :: xs) = x :: firstOccurrences (xs.filter fun y => !x.identical y) := by
  unfold firstOccurrences
  rw [List.eraseDupsBy_cons]
  congr 3
  funext y
  rw [x.identical_comm y]
  cases y.identical x <;> rfl

/-- First occurrences are taken away one by one from the front, so this is an induction on how many items there are. -/
lemma firstOccurrences_induction {motive : List Item → Prop} (nil : motive [])
    (cons : ∀ x xs, motive (xs.filter fun y => !x.identical y) → motive (x :: xs)) (xs : List Item) : motive xs := by
  induction h : xs.length using Nat.strongRecOn generalizing xs with
  | ind n ih =>
    cases xs with
    | nil => exact nil
    | cons x xs =>
      refine cons x xs (ih _ ?_ _ rfl)
      rw [← h]
      exact Nat.lt_succ_of_le (List.length_filter_le _ _)

lemma firstOccurrences_sublist (xs : List Item) : (firstOccurrences xs).Sublist xs := by
  induction xs using firstOccurrences_induction with
  | nil => exact List.Sublist.refl []
  | cons x xs ih =>
    rw [firstOccurrences_cons]
    exact (ih.trans List.filter_sublist).cons_cons x

/-- **First occurrences are pairwise not identical.** -/
theorem distinct_firstOccurrences (xs : List Item) : Distinct (firstOccurrences xs) := by
  induction xs using firstOccurrences_induction with
  | nil => exact List.Pairwise.nil
  | cons x xs ih =>
    rw [firstOccurrences_cons]
    refine List.Pairwise.cons (fun y hy => ?_) ih
    have hmem := (firstOccurrences_sublist _).mem hy
    simpa using (List.mem_filter.mp hmem).2

/-- A condition that does not tell identical items apart may be asked before or after. -/
lemma filter_firstOccurrences {p : Item → Bool} (hp : ∀ x y, x.identical y = true → p x = p y) (xs : List Item) :
    (firstOccurrences xs).filter p = firstOccurrences (xs.filter p) := by
  induction xs using firstOccurrences_induction with
  | nil => rfl
  | cons x xs ih =>
    rw [firstOccurrences_cons]
    cases hx : p x with
    | true =>
      rw [List.filter_cons_of_pos hx, List.filter_cons_of_pos hx, firstOccurrences_cons, ih, List.filter_filter,
        List.filter_filter]
      simp only [Bool.and_comm]
    | false =>
      -- what is identical to `x` does not meet the condition either
      have hrest : (xs.filter fun y => !x.identical y).filter p = xs.filter p := by
        rw [List.filter_filter]
        refine List.filter_congr fun y _ => ?_
        cases hy : x.identical y with
        | true => rw [← hp x y hy, hx]; rfl
        | false => simp
      rw [List.filter_cons_of_neg (by simp [hx]), List.filter_cons_of_neg (by simp [hx]), ih, hrest]

lemma filter_isAmong_firstOccurrences (others xs : List Item) :
    (firstOccurrences xs).filter (isAmong others) = firstOccurrences (xs.filter (isAmong others)) :=
  filter_firstOccurrences (fun _ _ h => isAmong_congr h) xs

lemma filter_not_isAmong_firstOccurrences (others xs : List Item) :
    (firstOccurrences xs).filter (fun x => !isAmong others x) = firstOccurrences (xs.filter fun x => !isAmong others x) :=
  filter_firstOccurrences (fun _ _ h => congrArg (!·) (isAmong_congr h)) xs

/-- **First occurrences of items behind others** are those that are not among the others. -/
theorem firstOccurrences_append (xs ys : List Item) :
    firstOccurrences (xs ++ ys) = firstOccurrences xs ++ (firstOccurrences ys).filter fun y => !isAmong xs y := by
  induction xs using firstOccurrences_induction generalizing ys with
  | nil => simp [isAmong]
  | cons x xs ih =>
    rw [List.cons_append, firstOccurrences_cons, List.filter_append, ih, firstOccurrences_cons, List.cons_append]
    congr 2
    rw [filter_not_isAmong_firstOccurrences, filter_not_isAmong_firstOccurrences, List.filter_filter]
    congr 1
    refine List.filter_congr fun y _ => ?_
    rw [isAmong, isAmong, List.any_cons, List.any_filter]
    cases hy : x.identical y with
    | true => simp
    | false =>
      -- an item identical to `y` is not identical to `x`
      have hother : ∀ z, (!x.identical z && z.identical y) = z.identical y := by
        intro z
        cases hz : x.identical z with
        | false => simp
        | true => rw [← identical_congr hz, hy]; rfl
      simp only [hother]
      simp

lemma firstOccurrences_concat (xs : List Item) (x : Item) :
    firstOccurrences (xs ++ [x]) = firstOccurrences xs ++ if isAmong xs x then [] else [x] := by
  have hsingle : firstOccurrences [x] = [x] := rfl
  rw [firstOccurrences_append, hsingle]
  cases h : isAmong xs x with
  | true => simp [h]
  | false => simp [h]

end FirstOccurrences

end Item

/-! ### The stages -/

open Item (firstOccurrences isAmong)

/-- **A hash set lets the first occurrences pass** of those items that it does not have from the start. -/
theorem Stage.firsts_eq (seen : IdentitySet) (xs : List Item) :
    Stage.firsts seen xs = firstOccurrences (xs.filter fun x => !seen.has x) := by
  induction xs generalizing seen with
  | nil => rfl
  | cons x xs ih =>
    rw [Stage.firsts, IdentitySet.fst_add, ih]
    simp only [IdentitySet.has_add, Bool.not_or]
    cases hx : seen.has x with
    | false =>
      rw [List.filter_cons_of_pos (by simp [hx]), Item.firstOccurrences_cons, List.filter_filter]
      rfl
    | true =>
      rw [if_neg (by simp), List.filter_cons_of_neg (by simp [hx])]
      congr 1
      refine List.filter_congr fun y _ => ?_
      cases hy : x.identical y with
      | true => rw [← seen.has_congr hy, hx]; rfl
      | false => simp

lemma Stage.firsts_empty (xs : List Item) : Stage.firsts ∅ xs = firstOccurrences xs := by
  simp [Stage.firsts_eq]

lemma Stage.firsts_ofItems (others xs : List Item) :
    Stage.firsts (IdentitySet.ofItems others) xs = (firstOccurrences xs).filter fun x => !isAmong others x := by
  rw [Stage.firsts_eq, Item.filter_not_isAmong_firstOccurrences]
  simp only [IdentitySet.has_ofItems, isAmong]

namespace Sequence

section Makes

variable (source : Sequence) (others : List Item)

lemma makes_unique (seen : IdentitySet) {s : Sequence} :
    Makes s (.through (.unique seen) s) (Stage.firsts seen) (Stage.firsts seen) := by
  refine makes_sift_nil fun xs => ?_
  obtain ⟨seen', hsifts⟩ := Stage.sifts_unique seen xs
  exact ⟨_, hsifts, rfl⟩

lemma makes_union :
    Makes source (source.withStages (Stage.union others)) firstOccurrences fun xs => firstOccurrences (xs ++ others) := by
  have happend : Makes source (.through (.append others) source) id fun xs => xs ++ others :=
    makes_sift fun xs => ⟨_, Stage.sifts_append others xs, rfl⟩
  have hunion := happend.trans (makes_unique ∅)
  simp only [Stage.firsts_empty] at hunion
  exact hunion

lemma makes_intersect :
    Makes source (source.withStages (Stage.intersect others)) (fun xs => (firstOccurrences xs).filter (isAmong others))
      fun xs => (firstOccurrences xs).filter (isAmong others) := by
  have hstages : Stage.intersect others = [.filter (.ofItems fun x => return isAmong others x), .unique ∅] := by
    refine congrArg (fun members => [Stage.filter members, .unique ∅]) (Handler.eq_ofItems fun x => ?_)
    exact congrArg pure (IdentitySet.has_ofItems x others)
  have hfilter : Makes source (.through (.filter (.ofItems fun x => return isAmong others x)) source)
      (List.filter (isAmong others)) (List.filter (isAmong others)) :=
    makes_sift_nil fun xs => ⟨_, Stage.sifts_filter (fun _ => rfl) xs, rfl⟩
  have hintersect := hfilter.trans (makes_unique ∅)
  simp only [Stage.firsts_empty, ← Item.filter_isAmong_firstOccurrences] at hintersect
  rw [hstages]
  exact hintersect

lemma makes_except :
    Makes source (source.withStages (Stage.except others))
      (fun xs => (firstOccurrences xs).filter fun x => !isAmong others x)
      fun xs => (firstOccurrences xs).filter fun x => !isAmong others x := by
  have hexcept : Makes source _ _ _ := makes_unique (IdentitySet.ofItems others)
  simp only [funext (Stage.firsts_ofItems others)] at hexcept
  exact hexcept

end Makes

/-- Looking for an item among given ones takes a step for each of them, and one more. -/
lemma contains_ofItems (needle : Item) (others : List Item) {budget : Nat} (hbudget : others.length < budget)
    (σ : Session) : (contains needle budget (.ofItems others)).run.run σ = (some (.ok (isAmong others needle)), σ) := by
  induction others generalizing budget with
  | nil =>
    obtain ⟨budget, rfl⟩ := Nat.exists_eq_add_one_of_ne_zero (Nat.ne_of_gt hbudget)
    exact reduce_of_finished rfl
  | cons member others ih =>
    obtain ⟨budget, rfl⟩ := Nat.exists_eq_add_one_of_ne_zero (Nat.ne_of_gt (Nat.lt_of_le_of_lt (Nat.zero_le _) hbudget))
    have hstep : (ofItems (member :: others)).advance σ = ((some (.item member), .ofItems others), σ) := rfl
    refine (reduce_of_item hstep).trans ?_
    rw [isAmong, List.any_cons]
    cases member.identical needle with
    | true => rfl
    | false => exact ih (Nat.lt_of_succ_lt_succ hbudget)

end Sequence

/-! ### The operators -/

/-- Given the array of the items `others`, the operator makes `result` of its input. -/
def Combines (operator : Operator) (input : Output) (others : List Item) (result : Sequence) : Prop :=
  ∀ budget ref, apply budget input ⟨operator, [.literal (.array ref others)]⟩ = pure (.sequence result)

/-- **Set operators go by identity.**  For every source, as far as it is gone through and up to its end, and for every array
of other items:

* the union with no items has the first occurrences among the items of the source;
* of these, the intersection has those that are among the others, and the difference those that are not;
* the union has the first occurrences and, at the end of the source, the items of the difference the other way round;
* no two items of a result are identical.

An item is among the others exactly if looking for it there finds it, and an item is a first occurrence unless it is among
the items before it. -/
theorem set_operators_go_by_identity (source : Sequence) (others : List Item) :
    ∃ distinct union intersection difference : Sequence,
      Combines .union (.sequence source) [] distinct ∧ Combines .union (.sequence source) others union ∧
      Combines .intersect (.sequence source) others intersection ∧
      Combines .except (.sequence source) others difference ∧
      Makes source distinct firstOccurrences firstOccurrences ∧
      Makes source intersection (fun xs => (firstOccurrences xs).filter (isAmong others))
        (fun xs => (firstOccurrences xs).filter (isAmong others)) ∧
      Makes source difference (fun xs => (firstOccurrences xs).filter fun x => !isAmong others x)
        (fun xs => (firstOccurrences xs).filter fun x => !isAmong others x) ∧
      Makes source union firstOccurrences
        (fun xs => firstOccurrences xs ++ (firstOccurrences others).filter fun x => !isAmong xs x) ∧
      (∀ xs ref, ∃ rest, Combines .except (.value (.array ref others)) xs rest ∧
        ∀ σ, Drains σ rest ((firstOccurrences others).filter fun x => !isAmong xs x) .finished σ) ∧
      (∀ xs, Item.Distinct (firstOccurrences xs) ∧ Item.Distinct ((firstOccurrences xs).filter (isAmong others)) ∧
        Item.Distinct ((firstOccurrences xs).filter fun x => !isAmong others x) ∧
        Item.Distinct (firstOccurrences xs ++ (firstOccurrences others).filter fun x => !isAmong xs x)) ∧
      (∀ x ref budget, others.length < budget → ∀ σ,
        (apply budget (.value (.array ref others)) ⟨.contains, [.literal x]⟩).run.run σ =
          (some (.ok (.value (.bool (isAmong others x)))), σ)) ∧
      ∀ xs x, firstOccurrences (xs ++ [x]) = firstOccurrences xs ++ if isAmong xs x then [] else [x] := by
  refine ⟨_, _, _, _, fun _ _ => rfl, fun _ _ => rfl, fun _ _ => rfl, fun _ _ => rfl, ?_, makes_intersect source others,
    makes_except source others, ?_, fun xs ref => ⟨_, fun _ _ => rfl, fun σ => ?_⟩, fun xs => ?_,
    fun x ref budget hbudget σ => ?_, fun xs x => ?_⟩
  · simpa only [List.append_nil] using makes_union source []
  · simpa only [Item.firstOccurrences_append] using makes_union source others
  · exact (makes_except (.ofItems others) xs).2 σ others σ (drains_queue others σ)
  · have hdistinct := Item.distinct_firstOccurrences xs
    refine ⟨hdistinct, hdistinct.filter _, hdistinct.filter _, ?_⟩
    rw [← Item.firstOccurrences_append]
    exact Item.distinct_firstOccurrences _
  · exact Eval.bind_run (contains_ofItems x others hbudget σ)
  · exact Item.firstOccurrences_concat xs x

/-- The union of a source that has null twice with null and another item; and null is found among these. -/
theorem set_operators_go_by_identity_null :
    (∃ union, Combines .union (.sequence (.ofItems [.null, .bool true, .null])) [.null, .bool false] union ∧
      Drains {} union [.null, .bool true, .bool false] .finished {}) ∧
    (apply 3 (.value (.array 0 [.null, .bool false])) ⟨.contains, [.literal .null]⟩).run.run {} =
      (some (.ok (.value (.bool true))), {}) := by
  obtain ⟨-, union, -, -, -, hcombines, -, -, -, -, -, hunion, -, -, hcontains, -⟩ :=
    set_operators_go_by_identity (.ofItems [.null, .bool true, .null]) [.null, .bool false]
  refine ⟨⟨union, hcombines, ?_⟩, ?_⟩
  · exact hunion.2 {} _ {} (drains_queue [.null, .bool true, .null] {})
  · exact hcontains .null 0 3 (by decide) {}

end LazyQuery
