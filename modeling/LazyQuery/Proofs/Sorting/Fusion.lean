import LazyQuery.Proofs.Engine.Segments
import LazyQuery.Proofs.Sorting.Keys

/-!
# Ordering runs are fused

An ordering run sorts its source once, by all of its keys, and this comes to the same as sorting by its keys one at a
time, the last of them first.  Likewise ordering runs that directly follow one another come to the same as a single run.
The statement about queries is `Engine.adjacent_orderings_fuse`.

Whether two sequences come to the same is a matter of going through them from the same session
(`Sequence.SameItems`): they hand out the same items and end alike.  A sorted sequence goes through all of its source
when it is first asked, and only then works out keys (`Sequence.exists_drains_sorted_iff`); so everything comes down to
the sorts of the items, and an error of the source is in the way of all of them alike.
-/

namespace LazyQuery

/-! ### Going through a sorted sequence -/

/-- What sorting makes of the items that come before an ending. -/
def Ending.sorting (keys : List SortKey) (xs : List Item) : Ending → List Item
  | .finished => stableSort (compareBy keys) xs
  | .failed _ => []

/-- What any arranging makes of them. -/
def Ending.arranging (f : List Item → List Item) (xs : List Item) : Ending → List Item
  | .finished => f xs
  | .failed _ => []

lemma Ending.sorting_eq_arranging (keys : List SortKey) (xs : List Item) (ending : Ending) :
    ending.sorting keys xs = ending.arranging (stableSort (compareBy keys)) xs := by
  cases ending <;> rfl

namespace Sequence

section Gather

variable {arrange : List Item → Eff (List Item)} {held xs ys : List Item} {ending : Ending} {σ τ υ ω : Session}
  {s t : Sequence} {r : Reply} {e : QueryError}

lemma works_gather_of_finished (h : Drains σ s xs .finished τ) (harrange : arrange (held.reverse ++ xs) τ = (ys, υ)) :
    Works σ (.through (.gather arrange held) s) (.queue (ys.map pure)) υ := by
  generalize hending : Ending.finished = ending at h
  induction h generalizing held with
  | work step _ ih => exact .step (ThroughStep.advance (.work rfl step)) (ih harrange hending)
  | @item _ _ _ _ _ x _ _ step _ ih =>
    refine .step (ThroughStep.advance (.item rfl step rfl)) (ih ?_ hending)
    rw [List.reverse_cons, List.append_assoc]
    exact harrange
  | @ends _ _ _ _ r _ step reply =>
    subst hending
    rcases r with _ | _ | _
    · cases reply
    · cases reply
    · rw [List.append_nil] at harrange
      exact .step (ThroughStep.advance (.finished rfl step (Eff.bind_run harrange))) .done

lemma pulls_gather_of_failed (h : Drains σ s xs (.failed e) τ) :
    Pulls σ (.through (.gather arrange held) s) (.failure e) .exhausted τ := by
  generalize hending : Ending.failed e = ending at h
  induction h generalizing held with
  | work step _ ih => exact .work (ThroughStep.advance (.work rfl step)) (ih hending)
  | item step _ ih => exact .work (ThroughStep.advance (.item rfl step rfl)) (ih hending)
  | @ends _ _ _ _ r _ step reply =>
    subst hending
    rcases r with _ | _ | _
    · cases reply
    · cases reply
      exact .reply (ThroughStep.advance (.failure rfl step))
    · cases reply

/-- A gathering stage does not reply before its source has ended or failed. -/
lemma exists_drains_of_pulls_gather (h : Pulls σ (.through (.gather arrange held) s) r t τ) :
    ∃ xs ending υ, Drains σ s xs ending υ := by
  generalize hthrough : Sequence.through (.gather arrange held) s = u at h
  induction h generalizing held s with
  | reply step =>
    subst hthrough
    generalize hp : (some _, _) = p at step
    cases throughStep_of_advance step with
    | emit hdemand => cases hdemand
    | stop hdemand => cases hdemand
    | item _ _ hreceive =>
      cases hreceive
      cases hp
    | failure _ hsource => exact ⟨[], _, _, .ends hsource rfl⟩
    | _ => cases hp
  | work step rest ih =>
    subst hthrough
    generalize hp : (none, _) = p at step
    cases throughStep_of_advance step with
    | emit hdemand => cases hdemand
    | stop hdemand => cases hdemand
    | failure => cases hp
    | finished _ hsource => exact ⟨[], _, _, .ends hsource rfl⟩
    | work _ hsource =>
      cases hp
      obtain ⟨xs, ending, υ, hdrains⟩ := ih rfl
      exact ⟨xs, ending, υ, .work hsource hdrains⟩
    | item _ hsource hreceive =>
      cases hreceive
      cases hp
      obtain ⟨xs, ending, υ, hdrains⟩ := ih rfl
      exact ⟨_, ending, υ, .item hsource hdrains⟩

lemma drains_gather_of_finished (h : Drains σ s xs .finished τ) (harrange : arrange (held.reverse ++ xs) τ = (ys, ω)) :
    Drains σ (.through (.gather arrange held) s) ys .finished ω :=
  (works_gather_of_finished h harrange).drains (drains_queue ys ω)

lemma drains_gather_of_failed (h : Drains σ s xs (.failed e) τ) :
    Drains σ (.through (.gather arrange held) s) [] (.failed e) τ :=
  .last (pulls_gather_of_failed h) rfl

/-- A gathering stage hands out nothing before its source has ended. -/
lemma source_drains_of_drains_gather (h : Drains σ (.through (.gather arrange held) s) ys ending ω) :
    (∃ xs τ, Drains σ s xs .finished τ ∧ arrange (held.reverse ++ xs) τ = (ys, ω) ∧ ending = .finished) ∨
      ∃ xs e, Drains σ s xs (.failed e) ω ∧ ys = [] ∧ ending = .failed e := by
  obtain ⟨r, t, υ, hpull⟩ := h.exists_pulls
  obtain ⟨xs, ending', τ, hdrains⟩ := exists_drains_of_pulls_gather hpull
  cases ending' with
  | finished =>
    rcases harrange : arrange (held.reverse ++ xs) τ with ⟨items, κ⟩
    obtain ⟨rfl, rfl, rfl⟩ := h.unique (drains_gather_of_finished hdrains harrange)
    exact .inl ⟨xs, τ, hdrains, harrange, rfl⟩
  | failed e =>
    obtain ⟨rfl, rfl, rfl⟩ := h.unique (drains_gather_of_failed hdrains)
    exact .inr ⟨xs, e, hdrains, rfl, rfl⟩

/-- **An arranged sequence has the arranged items of its source, if the source ends, and none of them if it fails.** -/
theorem exists_drains_gather_iff {f : List Item → List Item} (harrange : ∀ xs τ, ∃ ω, arrange xs τ = (f xs, ω)) :
    (∃ ω, Drains σ (.through (.gather arrange []) s) ys ending ω) ↔
      ∃ xs, (∃ τ, Drains σ s xs ending τ) ∧ ys = ending.arranging f xs := by
  constructor
  · rintro ⟨ω, h⟩
    rcases source_drains_of_drains_gather h with ⟨xs, τ, hdrains, hrun, rfl⟩ | ⟨xs, e, hdrains, rfl, rfl⟩
    · obtain ⟨ω', hrun'⟩ := harrange xs τ
      rw [List.reverse_nil, List.nil_append, hrun'] at hrun
      cases hrun
      exact ⟨xs, ⟨τ, hdrains⟩, rfl⟩
    · exact ⟨xs, ⟨ω, hdrains⟩, rfl⟩
  · rintro ⟨xs, ⟨τ, hdrains⟩, rfl⟩
    rcases ending with _ | e
    · obtain ⟨ω, hrun⟩ := harrange xs τ
      exact ⟨ω, drains_gather_of_finished hdrains hrun⟩
    · exact ⟨τ, drains_gather_of_failed hdrains⟩

end Gather

/-- Gone through from the same session, the two hand out the same items and end alike, or go on for ever. -/
def SameItems (s t : Sequence) : Prop :=
  ∀ σ xs ending, (∃ τ, Drains σ s xs ending τ) ↔ ∃ τ, Drains σ t xs ending τ

section Sorted

variable {keys keys' : List SortKey} {s t : Sequence}

/-- **A sorted sequence has the items of its source in order, if the source ends, and none of them if it fails.** -/
theorem exists_drains_sorted_iff (hkeys : ∀ key ∈ keys, key.Steady) {σ : Session} {ys : List Item} {ending : Ending} :
    (∃ ω, Drains σ (s.sorted keys) ys ending ω) ↔ ∃ xs, (∃ τ, Drains σ s xs ending τ) ∧ ys = ending.sorting keys xs := by
  simp only [Ending.sorting_eq_arranging]
  exact exists_drains_gather_iff (sortByKeys_run hkeys)

lemma SameItems.trans {u : Sequence} (h : s.SameItems t) (h' : t.SameItems u) : s.SameItems u := by
  intro σ xs ending
  rw [h σ xs ending, h' σ xs ending]

lemma SameItems.symm (h : s.SameItems t) : t.SameItems s :=
  fun σ xs ending => (h σ xs ending).symm

lemma SameItems.sorted (hkeys : ∀ key ∈ keys, key.Steady) (h : s.SameItems t) :
    (s.sorted keys).SameItems (t.sorted keys) := by
  intro σ ys ending
  rw [exists_drains_sorted_iff hkeys, exists_drains_sorted_iff hkeys]
  simp only [h σ _ ending]

/-- **Sorting a sorted sequence is sorting once**, by the keys of the later sort first. -/
theorem sorted_sorted (hkeys : ∀ key ∈ keys, key.Steady) (hkeys' : ∀ key ∈ keys', key.Steady) :
    ((s.sorted keys').sorted keys).SameItems (s.sorted (keys ++ keys')) := by
  have happend : ∀ key ∈ keys ++ keys', key.Steady := by
    intro key hkey
    rcases List.mem_append.mp hkey with hkey | hkey
    · exact hkeys key hkey
    · exact hkeys' key hkey
  intro σ ys ending
  rw [exists_drains_sorted_iff hkeys, exists_drains_sorted_iff happend]
  simp only [exists_drains_sorted_iff hkeys']
  have hsorting : ∀ xs, ending.sorting (keys ++ keys') xs = ending.sorting keys (ending.sorting keys' xs) := by
    intro xs
    rcases ending with _ | e
    · exact stableSort_compareBy_append keys keys' xs
    · rfl
  constructor
  · rintro ⟨zs, ⟨xs, hdrains, rfl⟩, rfl⟩
    exact ⟨xs, hdrains, (hsorting xs).symm⟩
  · rintro ⟨xs, hdrains, rfl⟩
    exact ⟨_, ⟨xs, hdrains, rfl⟩, hsorting xs⟩

end Sorted

end Sequence

/-! ### Ordering parts -/

/-- An ordering part whose key depends on the items alone. -/
def Part.SortsSteadily (part : Part) : Prop :=
  part.isOrdering ∧ ∃ key, SortKey.ofPart part = .ok key ∧ key.Steady

/-- Both come to sequences, and these to the same items and the same ending. -/
def YieldSame (x y : Eval Output) : Prop :=
  ∃ s t, x = pure (.sequence s) ∧ y = pure (.sequence t) ∧ s.SameItems t

section Parts

variable {budget : Nat} {source : Sequence} {part first : Part} {parts parts' refining : List Part} {key : SortKey}
  {keys : List SortKey}

/-- Applied alone, an ordering part sorts by its own key. -/
lemma apply_ordering (hpart : part.isOrdering) (hkey : SortKey.ofPart part = .ok key) :
    apply budget (.sequence source) part = pure (.sequence (source.sorted [key])) := by
  obtain ⟨operator, arguments⟩ := part
  cases operator <;> try cases hpart
  unfold apply Part.plan
  rw [hkey]
  rfl

lemma readKeys_append_eq_ok (h : readKeys (parts ++ parts') = .ok keys) :
    ∃ front back, readKeys parts = .ok front ∧ readKeys parts' = .ok back ∧ keys = front ++ back := by
  induction parts generalizing keys with
  | nil => exact ⟨[], keys, rfl, h, rfl⟩
  | cons part parts ih =>
    obtain ⟨key, rest, hkey, hrest, rfl⟩ := readKeys_cons_eq_ok.mp h
    obtain ⟨front, back, hfront, hback, rfl⟩ := ih hrest
    exact ⟨key :: front, back, readKeys_cons_eq_ok.mpr ⟨key, front, hkey, hfront, rfl⟩, hback, rfl⟩

/-- Parts that sort steadily have steady keys. -/
lemma exists_readKeys (h : ∀ part ∈ parts, part.SortsSteadily) :
    ∃ keys, readKeys parts = .ok keys ∧ ∀ key ∈ keys, key.Steady := by
  induction parts with
  | nil => exact ⟨[], rfl, by simp⟩
  | cons part parts ih =>
    obtain ⟨-, key, hkey, hsteady⟩ := h part List.mem_cons_self
    obtain ⟨keys, hkeys, hrest⟩ := ih fun part hpart => h part (List.mem_cons_of_mem _ hpart)
    refine ⟨key :: keys, readKeys_cons_eq_ok.mpr ⟨key, keys, hkey, hkeys, rfl⟩, ?_⟩
    intro key' hkey'
    rcases List.mem_cons.mp hkey' with rfl | hkey'
    · exact hsteady
    · exact hrest key' hkey'

/-- Ordering parts applied one at a time, the last one first, sort by all their keys. -/
lemma foldlM_apply_reverse (h : ∀ part ∈ first :: refining, part.SortsSteadily)
    (hkeys : readKeys (first :: refining) = .ok keys) :
    ∃ t, (first :: refining).reverse.foldlM (apply budget) (.sequence source) = pure (.sequence t) ∧
      (source.sorted keys).SameItems t := by
  induction refining generalizing first keys with
  | nil =>
    obtain ⟨hfirst, -⟩ := h first List.mem_cons_self
    obtain ⟨key, rest, hkey, hrest, rfl⟩ := readKeys_cons_eq_ok.mp hkeys
    cases hrest
    refine ⟨source.sorted [key], ?_, fun _ _ _ => Iff.rfl⟩
    rw [List.reverse_singleton, List.foldlM_cons, apply_ordering hfirst hkey, pure_bind, List.foldlM_nil]
  | cons second refining ih =>
    have hrefining : ∀ part ∈ second :: refining, part.SortsSteadily :=
      fun part hpart => h part (List.mem_cons_of_mem _ hpart)
    obtain ⟨hfirst, key, hkey, hsteady⟩ := h first List.mem_cons_self
    obtain ⟨rest, hrest, hrestSteady⟩ := exists_readKeys hrefining
    have hkeysEq : keys = [key] ++ rest := by
      rw [readKeys_cons_eq_ok.mpr ⟨key, rest, hkey, hrest, rfl⟩] at hkeys
      cases hkeys
      rfl
    obtain ⟨t, hchain, hsame⟩ := ih hrefining hrest
    have hsingle : ∀ key' ∈ [key], key'.Steady := by simpa using hsteady
    refine ⟨t.sorted [key], ?_, ?_⟩
    · rw [List.reverse_cons, List.foldlM_append, hchain, pure_bind, List.foldlM_cons, apply_ordering hfirst hkey,
        pure_bind, List.foldlM_nil]
    · rw [hkeysEq]
      exact (Sequence.sorted_sorted hsingle hrestSteady).symm.trans (hsame.sorted hsingle)

/-- Ordering runs executed one after the other sort by the keys of all of them, those of the last run first. -/
lemma interpret_orderings {runs : List Segment} (hruns : runs ≠ [])
    (hordering : ∀ run ∈ runs, ∃ first refining, run = .ordering first refining)
    (h : ∀ part ∈ runs.flatMap Segment.parts, part.SortsSteadily)
    (hkeys : readKeys (runs.reverse.flatMap Segment.parts) = .ok keys) :
    ∃ t, interpret budget runs (.sequence source) = pure (.sequence t) ∧ t.SameItems (source.sorted keys) := by
  induction runs generalizing source keys with
  | nil => exact absurd rfl hruns
  | cons run runs ih =>
    obtain ⟨first, refining, rfl⟩ := hordering run List.mem_cons_self
    rw [List.flatMap_cons] at h
    obtain ⟨own, hown, hownSteady⟩ := exists_readKeys fun part hpart => h part (List.mem_append_left _ hpart)
    have hstep : interpret budget (.ordering first refining :: runs) (.sequence source) =
        interpret budget runs (.sequence (source.sorted own)) := by
      rw [interpret, Segment.interpret]
      rw [Segment.parts] at hown
      rw [hown]
      rfl
    rw [List.reverse_cons, List.flatMap_append, List.flatMap_singleton] at hkeys
    obtain ⟨later, own', hlater, hown', rfl⟩ := readKeys_append_eq_ok hkeys
    rw [hown] at hown'
    cases hown'
    rw [hstep]
    rcases runs with _ | ⟨second, runs⟩
    · cases hlater
      exact ⟨source.sorted own, rfl, fun _ _ _ => Iff.rfl⟩
    · have hrest : ∀ part ∈ (second :: runs).flatMap Segment.parts, part.SortsSteadily :=
        fun part hpart => h part (List.mem_append_right _ hpart)
      obtain ⟨t, hrun, hsame⟩ := ih (List.cons_ne_nil _ _)
        (fun run hrun => hordering run (List.mem_cons_of_mem _ hrun)) hrest hlater
      have hreverse : ∀ part ∈ (second :: runs).reverse.flatMap Segment.parts, part.SortsSteadily := by
        intro part hpart
        obtain ⟨run, hrun, hmem⟩ := List.mem_flatMap.mp hpart
        exact hrest part (List.mem_flatMap.mpr ⟨run, List.mem_reverse.mp hrun, hmem⟩)
      obtain ⟨keys', hkeys', hlaterSteady⟩ := exists_readKeys hreverse
      rw [hlater] at hkeys'
      cases hkeys'
      exact ⟨t, hrun, hsame.trans (Sequence.sorted_sorted hlaterSteady hownSteady)⟩

end Parts

/-! ### Queries -/

namespace Engine

variable (engine : Engine) (source : Sequence)

/-- A run is executed as one sort by all its keys. -/
lemma executeSequence_run {first : Part} {refining : List Part} {keys : List SortKey} (hfirst : first.isOrdering)
    (hrefining : ∀ part ∈ refining, part.refinesOrdering) (hkeys : readKeys (first :: refining) = .ok keys) :
    (engine.executeSequence source (first :: refining)).unlogged = pure (.sequence (source.sorted keys)) := by
  rw [executeSequence_segments, segments_run hfirst hrefining, interpret, Segment.interpret, hkeys]
  rfl

/-- **Ordering runs fuse.**  On every source, and for ordering parts whose keys depend on the items alone:
the run of a first part and parts that refine its ordering comes to the same as its parts applied one at a time, the last
one first; and ordering parts that fall into any number of adjacent runs come to the same as every single run whose keys
are those of the last of them, then those of the one before it, and so on to the first. -/
theorem adjacent_orderings_fuse :
    (∀ first refining, (∀ part ∈ first :: refining, part.SortsSteadily) → (∀ part ∈ refining, part.refinesOrdering) →
      YieldSame (engine.executeSequence source (first :: refining)).unlogged
        ((first :: refining).reverse.foldlM (apply engine.budget) (.sequence source))) ∧
    ∀ parts first refining, (∀ part ∈ parts, part.SortsSteadily) →
      first.isOrdering → (∀ part ∈ refining, part.refinesOrdering) →
      readKeys (first :: refining) = readKeys ((segments parts).reverse.flatMap Segment.parts) →
      YieldSame (engine.executeSequence source parts).unlogged
        (engine.executeSequence source (first :: refining)).unlogged := by
  constructor
  · intro first refining h hrefining
    obtain ⟨keys, hkeys, -⟩ := exists_readKeys h
    obtain ⟨t, hchain, hsame⟩ := foldlM_apply_reverse h hkeys
    exact ⟨source.sorted keys, t, engine.executeSequence_run source (h first List.mem_cons_self).1 hrefining hkeys,
      hchain, hsame⟩
  · intro parts first refining h hfirst hrefining hfused
    have hmem : ∀ part ∈ (segments parts).flatMap Segment.parts, part.SortsSteadily := by
      rw [flatMap_parts_segments]
      exact h
    have hreverse : ∀ part ∈ (segments parts).reverse.flatMap Segment.parts, part.SortsSteadily := by
      intro part hpart
      obtain ⟨run, hrun, hpart⟩ := List.mem_flatMap.mp hpart
      exact hmem part (List.mem_flatMap.mpr ⟨run, List.mem_reverse.mp hrun, hpart⟩)
    obtain ⟨keys, hkeys, -⟩ := exists_readKeys hreverse
    have hruns : segments parts ≠ [] := by
      intro hnil
      rw [hkeys, readKeys_cons_eq_ok] at hfused
      rw [hnil] at hkeys
      obtain ⟨key, rest, -, -, hcons⟩ := hfused
      cases hkeys
      cases hcons
    obtain ⟨t, hinterpret, hsame⟩ := interpret_orderings hruns
      (ordering_of_mem_segments fun part hpart => (h part hpart).1) hmem hkeys
    rw [executeSequence_segments, executeSequence_run engine source hfirst hrefining (hfused.trans hkeys)]
    exact ⟨t, _, hinterpret, rfl, hsame⟩

/-- A part that sorts by the types of the items. -/
def byType (place : OrderingPlace) (direction : Direction) : Part :=
  ⟨.order place direction, [.function (.unary fun item => return .string item.typeTag.name)]⟩

/-- A part that sorts by the items themselves. -/
def byItem (place : OrderingPlace) (direction : Direction) : Part :=
  ⟨.order place direction, [.function (.unary fun item => return item)]⟩

lemma byType_sortsSteadily (place : OrderingPlace) (direction : Direction) : (byType place direction).SortsSteadily :=
  ⟨rfl, _, rfl, fun _ _ _ => rfl⟩

lemma byItem_sortsSteadily (place : OrderingPlace) (direction : Direction) : (byItem place direction).SortsSteadily :=
  ⟨rfl, _, rfl, fun _ _ _ => rfl⟩

/-- A run of two parts, and that run followed by a third part that starts a run of its own. -/
theorem adjacent_orderings_fuse_byType_byItem :
    YieldSame
      (executeSequence ⟨{}, "q", 0⟩ (.ofItems [.bool true, .null, .bool false])
        [byType .starts .ascending, byItem .continues .descending]).unlogged
      ([byType .starts .ascending, byItem .continues .descending].reverse.foldlM (apply 0)
        (.sequence (.ofItems [.bool true, .null, .bool false]))) ∧
    YieldSame
      (executeSequence ⟨{}, "q", 0⟩ (.ofItems [.bool true, .null, .bool false])
        [byType .starts .ascending, byItem .continues .descending, byItem .starts .ascending]).unlogged
      (executeSequence ⟨{}, "q", 0⟩ (.ofItems [.bool true, .null, .bool false])
        [byItem .continues .ascending, byType .continues .ascending, byItem .continues .descending]).unlogged := by
  have htype := byType_sortsSteadily
  have hitem := byItem_sortsSteadily
  have hsegments : segments [byType .starts .ascending, byItem .continues .descending, byItem .starts .ascending] =
      [.ordering (byType .starts .ascending) [byItem .continues .descending],
        .ordering (byItem .starts .ascending) []] := by
    have hfirst : (byType .starts .ascending).isOrdering := rfl
    rw [segments, if_pos hfirst]
    exact congrArg _ (segments_run rfl (by simp))
  refine ⟨(adjacent_orderings_fuse _ _).1 _ _ ?_ ?_, (adjacent_orderings_fuse _ _).2 _ _ _ ?_ rfl ?_ ?_⟩
  · simp [htype, hitem]
  · simp [byItem, Part.refinesOrdering, Operator.continuesOrdering]
  · simp [htype, hitem]
  · simp [byItem, byType, Part.refinesOrdering, Operator.continuesOrdering]
  · rw [hsegments]
    rfl

end Engine

end LazyQuery
