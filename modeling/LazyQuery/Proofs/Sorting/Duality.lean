import LazyQuery.Proofs.Engine.Building
import LazyQuery.Proofs.Sorting.Fusion

/-!
# Sorting in the opposite direction

With the direction of every key flipped, two items compare as they did the other way round (`compareBy_flipped`).  So the
sort by the flipped keys is the one by the original keys seen from behind.  Equal items stand as they came in both; they
would stand the other way round if the source were not reversed before the sort (`reverse_stableSort_reverse`).

The main statement is `Engine.flipped_keys_sort_in_reverse`.
-/

namespace LazyQuery

/-! ### Directions -/

namespace Direction

def flipped : Direction → Direction
  | .ascending => .descending
  | .descending => .ascending

lemma apply_flipped (direction : Direction) (o : Ordering) : direction.flipped.apply o = direction.apply o.swap := by
  cases direction with
  | ascending => rfl
  | descending => exact (Ordering.swap_swap (o := o)).symm

end Direction

namespace SortKey

/-- The key in the opposite direction. -/
def flipped (key : SortKey) : SortKey :=
  { key with direction := key.direction.flipped }

lemma Steady.flipped {key : SortKey} (h : key.Steady) : key.flipped.Steady := h

lemma compare_flipped (key : SortKey) (a b : Item) : key.flipped.compare a b = key.compare b a := by
  have hswap : ((key.value a).order (key.value b)).swap = (key.value b).order (key.value a) :=
    (Item.order_swap (key.value a) (key.value b)).symm
  show key.direction.flipped.apply ((key.value a).order (key.value b)) = key.direction.apply _
  rw [Direction.apply_flipped, hswap]

end SortKey

section Keys

variable {keys : List SortKey}

lemma forall_steady_flipped (hkeys : ∀ key ∈ keys, key.Steady) : ∀ key ∈ keys.map SortKey.flipped, key.Steady := by
  intro key hkey
  obtain ⟨original, hmem, rfl⟩ := List.mem_map.mp hkey
  exact (hkeys original hmem).flipped

/-- **Flipped keys compare two items the other way round.** -/
theorem compareBy_flipped (keys : List SortKey) (a b : Item) :
    compareBy (keys.map SortKey.flipped) a b = compareBy keys b a := by
  induction keys with
  | nil => rfl
  | cons key keys ih =>
    show (key.flipped.compare a b).then (compareBy (keys.map SortKey.flipped) a b) =
      (key.compare b a).then (compareBy keys b a)
    rw [key.compare_flipped, ih]

lemma stableSort_flipped (keys : List SortKey) (items : List Item) :
    stableSort (compareBy (keys.map SortKey.flipped)) items = (stableSort (compareBy keys) items.reverse).reverse := by
  have hopposite : compareBy (keys.map SortKey.flipped) = fun a b => compareBy keys b a := by
    funext a b
    exact compareBy_flipped keys a b
  rw [hopposite, reverse_stableSort_reverse]

end Keys

/-! ### Sequences -/

namespace Sequence

/-- The items of a sequence from the last to the first. -/
def reversed (source : Sequence) : Sequence :=
  source.withStages [.reverse]

section Reversed

variable {s t : Sequence} {keys : List SortKey} {σ : Session} {ys : List Item} {ending : Ending}

lemma exists_drains_reversed_iff :
    (∃ ω, Drains σ s.reversed ys ending ω) ↔
      ∃ xs, (∃ τ, Drains σ s xs ending τ) ∧ ys = ending.arranging List.reverse xs :=
  exists_drains_gather_iff fun _ τ => ⟨τ, rfl⟩

/-- The sort by flipped keys goes through its source as the other sort through the reversed one. -/
theorem sameItems_flipped (hkeys : ∀ key ∈ keys, key.Steady) (source : Sequence) :
    (source.sorted (keys.map SortKey.flipped)).SameItems (source.reversed.sorted keys).reversed := by
  intro σ ys ending
  rw [exists_drains_sorted_iff (forall_steady_flipped hkeys), exists_drains_reversed_iff]
  simp only [exists_drains_sorted_iff hkeys, exists_drains_reversed_iff, Ending.sorting_eq_arranging]
  have harranging : ∀ xs, ending.arranging (stableSort (compareBy (keys.map SortKey.flipped))) xs =
      ending.arranging List.reverse
        (ending.arranging (stableSort (compareBy keys)) (ending.arranging List.reverse xs)) := by
    intro xs
    cases ending with
    | finished => exact stableSort_flipped keys xs
    | failed e => rfl
  constructor
  · rintro ⟨xs, hdrains, rfl⟩
    exact ⟨_, ⟨_, ⟨xs, hdrains, rfl⟩, rfl⟩, harranging xs⟩
  · rintro ⟨_, ⟨_, ⟨xs, hdrains, rfl⟩, rfl⟩, rfl⟩
    exact ⟨xs, hdrains, (harranging xs).symm⟩

end Reversed

end Sequence

/-! ### Parts -/

namespace Operator

/-- The ordering operators in the opposite direction. -/
def flipped : Operator → Operator
  | .order place direction => .order place direction.flipped
  | operator => operator

end Operator

namespace Part

/-- An ordering part in the opposite direction. -/
def flipped (part : Part) : Part :=
  { part with operator := part.operator.flipped }

def reverse : Part :=
  ⟨.reverse, []⟩

end Part

section Parts

variable {part : Part} {parts : List Part} {key : SortKey} {keys : List SortKey}

lemma isOrdering_flipped (part : Part) : part.flipped.isOrdering = part.isOrdering := by
  obtain ⟨operator, arguments⟩ := part
  cases operator <;> rfl

lemma refinesOrdering_flipped (part : Part) : part.flipped.refinesOrdering = part.refinesOrdering := by
  obtain ⟨operator, arguments⟩ := part
  cases operator with
  | order place direction => cases place <;> rfl
  | _ => rfl

lemma ofPart_flipped (hpart : part.isOrdering) (h : SortKey.ofPart part = .ok key) :
    SortKey.ofPart part.flipped = .ok key.flipped := by
  obtain ⟨operator, arguments⟩ := part
  cases operator with
  | order place direction =>
    unfold SortKey.ofPart Part.requireFunction at h ⊢
    have hfunction : Part.function? (Part.flipped ⟨.order place direction, arguments⟩) 0 =
        Part.function? ⟨.order place direction, arguments⟩ 0 := rfl
    rw [hfunction]
    cases hselector : Part.function? ⟨.order place direction, arguments⟩ 0 with
    | none =>
      rw [hselector] at h
      cases h
    | some selector =>
      rw [hselector] at h
      cases h
      cases direction <;> rfl
  | _ => cases hpart

/-- The keys of flipped parts are flipped. -/
lemma readKeys_flipped (hparts : ∀ part ∈ parts, part.isOrdering) (h : readKeys parts = .ok keys) :
    readKeys (parts.map Part.flipped) = .ok (keys.map SortKey.flipped) := by
  induction parts generalizing keys with
  | nil =>
    cases h
    rfl
  | cons part parts ih =>
    obtain ⟨key, rest, hkey, hrest, rfl⟩ := readKeys_cons_eq_ok.mp h
    have hpart : part.isOrdering := hparts part List.mem_cons_self
    have hparts' : ∀ part ∈ parts, part.isOrdering := fun part hmem => hparts part (List.mem_cons_of_mem _ hmem)
    exact readKeys_cons_eq_ok.mpr ⟨key.flipped, rest.map SortKey.flipped, ofPart_flipped hpart hkey,
      ih hparts' hrest, rfl⟩

end Parts

/-! ### Queries -/

namespace Engine

variable (engine : Engine)

/-- A run between two reversals is executed as a sort of the reversed source, reversed. -/
lemma executeSequence_reversed_run (source : Sequence) {first : Part} {refining : List Part} {keys : List SortKey}
    (hfirst : first.isOrdering) (hrefining : ∀ part ∈ refining, part.refinesOrdering)
    (hkeys : readKeys (first :: refining) = .ok keys) :
    (engine.executeSequence source (.reverse :: (first :: refining) ++ [.reverse])).unlogged =
      pure (.sequence (source.reversed.sorted keys).reversed) := by
  have hsegments : segments (.reverse :: (first :: refining) ++ [.reverse]) =
      [.single .reverse, .ordering first refining, .single .reverse] := by
    rw [segments_append_single rfl, segments_cons_single rfl, segments_run hfirst hrefining, segments]
    rfl
  have hreverse : ∀ s : Sequence, apply engine.budget (.sequence s) .reverse = pure (.sequence s.reversed) :=
    fun _ => rfl
  have hrun : Segment.interpret engine.budget (.sequence source.reversed) (.ordering first refining) =
      pure (.sequence (source.reversed.sorted keys)) := by
    rw [Segment.interpret, hkeys]
    rfl
  rw [executeSequence_segments, hsegments]
  simp only [interpret, Segment.interpret, hreverse, pure_bind] at hrun ⊢
  rw [hrun, pure_bind, hreverse, pure_bind]

/-- **Sorting by flipped keys is sorting in reverse.**  For keys whose values depend on the items alone and every source:

* the sort by the flipped keys, and the sort of the reversed source by the keys themselves when it is reversed again, hand
  out the same items and end alike; and if the source ends without an error, then so do they, with the same items;
* likewise for queries: an ordering run with all its directions flipped comes to the same as the run between two reversals. -/
theorem flipped_keys_sort_in_reverse (source : Sequence) :
    (∀ keys : List SortKey, (∀ key ∈ keys, key.Steady) →
      (source.sorted (keys.map SortKey.flipped)).SameItems (source.reversed.sorted keys).reversed ∧
      ∀ σ xs, (∃ τ, Sequence.Drains σ source xs .finished τ) → ∃ ys : List Item, ys.Perm xs ∧
        (∃ τ, Sequence.Drains σ (source.sorted (keys.map SortKey.flipped)) ys .finished τ) ∧
        ∃ τ, Sequence.Drains σ (source.reversed.sorted keys).reversed ys .finished τ) ∧
    ∀ first refining, (∀ part ∈ first :: refining, part.SortsSteadily) → (∀ part ∈ refining, part.refinesOrdering) →
      YieldSame (engine.executeSequence source ((first :: refining).map Part.flipped)).unlogged
        (engine.executeSequence source (.reverse :: (first :: refining) ++ [.reverse])).unlogged := by
  constructor
  · intro keys hkeys
    have hsame := Sequence.sameItems_flipped hkeys source
    refine ⟨hsame, fun σ xs hdrains => ?_⟩
    have hflipped : ∃ τ, Sequence.Drains σ (source.sorted (keys.map SortKey.flipped))
        (stableSort (compareBy (keys.map SortKey.flipped)) xs) .finished τ :=
      (Sequence.exists_drains_sorted_iff (forall_steady_flipped hkeys)).mpr ⟨xs, hdrains, rfl⟩
    exact ⟨_, stableSort_perm _ xs, hflipped, (hsame σ _ .finished).mp hflipped⟩
  · intro first refining hparts hrefining
    obtain ⟨keys, hkeys, hsteady⟩ := exists_readKeys hparts
    have hfirst : first.isOrdering := (hparts first List.mem_cons_self).1
    have hflipped : readKeys ((first :: refining).map Part.flipped) = .ok (keys.map SortKey.flipped) :=
      readKeys_flipped (fun part hpart => (hparts part hpart).1) hkeys
    have hrefining' : ∀ part ∈ refining.map Part.flipped, part.refinesOrdering := by
      intro part hpart
      obtain ⟨original, hmem, rfl⟩ := List.mem_map.mp hpart
      rw [refinesOrdering_flipped]
      exact hrefining original hmem
    have hfirst' : first.flipped.isOrdering := by
      rw [isOrdering_flipped]
      exact hfirst
    exact ⟨_, _, engine.executeSequence_run source hfirst' hrefining' hflipped,
      engine.executeSequence_reversed_run source hfirst hrefining hkeys, Sequence.sameItems_flipped hsteady source⟩

/-- Three items by two keys, and a query of two ordering parts. -/
theorem flipped_keys_sort_in_reverse_typeThenBoxed :
    (∀ key ∈ typeThenBoxed, key.Steady) ∧
    (∃ ys : List Item, ys.Perm [.bool true, .null, .bool false] ∧
      (∃ τ, Sequence.Drains {} ((Sequence.ofItems [.bool true, .null, .bool false]).sorted
        (typeThenBoxed.map SortKey.flipped)) ys .finished τ) ∧
      ∃ τ, Sequence.Drains {} ((Sequence.ofItems [.bool true, .null, .bool false]).reversed.sorted
        typeThenBoxed).reversed ys .finished τ) ∧
    YieldSame
      (executeSequence ⟨{}, "q", 0⟩ (.ofItems [.bool true, .null, .bool false])
        ([byType .starts .ascending, byItem .continues .descending].map Part.flipped)).unlogged
      (executeSequence ⟨{}, "q", 0⟩ (.ofItems [.bool true, .null, .bool false])
        (.reverse :: [byType .starts .ascending, byItem .continues .descending] ++ [.reverse])).unlogged := by
  obtain ⟨hsorts, hqueries⟩ :=
    flipped_keys_sort_in_reverse ⟨{}, "q", 0⟩ (.ofItems [.bool true, .null, .bool false])
  have hparts : ∀ part ∈ [byType .starts .ascending, byItem .continues .descending], part.SortsSteadily := by
    simp [byType_sortsSteadily, byItem_sortsSteadily]
  have hrefining : ∀ part ∈ [byItem .continues .descending], part.refinesOrdering := by
    simp [byItem, Part.refinesOrdering, Operator.continuesOrdering]
  refine ⟨steady_typeThenBoxed, ?_, hqueries _ _ hparts hrefining⟩
  exact (hsorts typeThenBoxed steady_typeThenBoxed).2 {} _ ⟨_, Sequence.drains_queue _ {}⟩

end Engine

end LazyQuery
