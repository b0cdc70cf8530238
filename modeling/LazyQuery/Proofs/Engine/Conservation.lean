import LazyQuery.Proofs.Engine.Building
import LazyQuery.Proofs.Operator.Conservation

/-!
# Items keep their identity

Parts that make no items select, arrange or add them (`Operator.keepsItems`).  All of their stages keep the items that they
get, and what these stages hold from the start is what the parts add (`conserves_of_stagesOf`).

The main statement is `Engine.items_keep_their_identity`.
-/

namespace LazyQuery

open Sequence

/-! ### Parts -/

namespace Operator

/-- The operators that hand on some of their items, in their order. -/
def selectsItems : Operator → Bool
  | .filter | .ofType | .take | .skip | .takeWhile | .skipWhile | .distinct | .intersect | .except => true
  | _ => false

/-- The operators that hand on all of their items in another order. -/
def arrangesItems : Operator → Bool
  | .reverse | .order _ _ => true
  | _ => false

/-- The operators that hand on their items and given ones. -/
def addsItems : Operator → Bool
  | .concatWith | .union | .defaultIfEmpty => true
  | _ => false

/-- The operators that make no items. -/
def keepsItems (operator : Operator) : Bool :=
  operator.selectsItems || operator.arrangesItems || operator.addsItems

end Operator

namespace Part

/-- The items that a part adds to those of its source: the elements of its array, or its default. -/
def additions (part : Part) : List Item :=
  match part.operator with
  | .concatWith | .union => ((part.literal? 0).bind Item.elements?).getD []
  | .defaultIfEmpty => (part.literal? 0).toList
  | _ => []

end Part

section Parts

variable {part : Part} {parts : List Part} {stages : List Stage} {plan : Plan}

lemma elements?_of_requireElements {position : Nat} {what : String} {elements : List Item}
    (h : part.requireElements position what = .ok elements) :
    ((part.literal? position).bind Item.elements?) = some elements := by
  obtain ⟨item, hitem, helements⟩ := bind_eq_ok h
  unfold Part.requireLiteral at hitem
  cases hliteral : part.literal? position with
  | none =>
    rw [hliteral] at hitem
    cases hitem
  | some literal =>
    rw [hliteral] at hitem
    cases hitem
    rw [Option.bind_some]
    cases hfound : item.elements? with
    | none =>
      rw [hfound] at helements
      cases helements
    | some found =>
      rw [hfound] at helements
      cases helements
      rfl

lemma plan_of_stages (h : part.stages = .ok stages) : ∃ plan, part.plan = .ok plan ∧ plan.stages = stages := by
  unfold Part.stages at h
  cases hplan : part.plan with
  | error e =>
    rw [hplan] at h
    cases h
  | ok plan =>
    rw [hplan] at h
    cases h
    exact ⟨plan, rfl, rfl⟩

lemma mergeByKeys_answers {keys : List SortKey} {merged xs ys zs : List Item}
    (h : (mergeByKeys keys merged xs ys).Answers zs) : zs.Perm (merged ++ (xs ++ ys)) := by
  induction xs generalizing merged ys with
  | nil =>
    rw [mergeByKeys] at h
    rw [Eff.Answers.of_pure h]
    exact (List.reverse_perm merged).append_right ys
  | cons x xs ihx =>
    induction ys generalizing merged with
    | nil =>
      rw [mergeByKeys] at h
      rw [Eff.Answers.of_pure h, List.append_nil]
      exact (List.reverse_perm merged).append_right (x :: xs)
    | cons y ys ihy =>
      rw [mergeByKeys] at h
      obtain ⟨ordering, -, h⟩ := Eff.Answers.bind h
      split at h
      · have hmiddle : (merged ++ (x :: xs ++ y :: ys)).Perm (y :: (merged ++ (x :: xs ++ ys))) := by
          rw [← List.append_assoc, ← List.append_assoc]
          exact List.perm_middle
        exact (ihy h).trans hmiddle.symm
      · exact (ihx h).trans List.perm_middle.symm

/-- Whatever the keys are, sorting loses no item and makes none. -/
theorem rearranges_sortByKeys (keys : List SortKey) : Stage.Rearranges (sortByKeys keys) := by
  intro xs ys h
  induction xs using sortByKeys.induct generalizing ys with
  | case1 | case2 =>
    rw [sortByKeys] at h
    rw [Eff.Answers.of_pure h]
  | case3 first second rest ihfront ihback =>
    rw [sortByKeys] at h
    obtain ⟨front, hfront, h⟩ := Eff.Answers.bind h
    obtain ⟨back, hback, h⟩ := Eff.Answers.bind h
    have hparts := (ihfront front hfront).append (ihback back hback)
    rw [List.take_append_drop] at hparts
    exact (mergeByKeys_answers h).trans hparts

lemma rearranges_reverse : Stage.Rearranges fun items => return items.reverse := by
  intro xs ys h
  rw [h.of_pure]
  exact xs.reverse_perm

lemma selects_of_stages (hselects : part.operator.selectsItems) (h : part.stages = .ok stages) :
    ∀ stage ∈ stages, stage.Selects := by
  obtain ⟨plan, hplan, rfl⟩ := plan_of_stages h
  obtain ⟨operator, arguments⟩ := part
  cases operator with
  | filter | ofType | take | skip | takeWhile | skipWhile | except =>
    obtain ⟨argument, -, hstages⟩ := bind_eq_ok hplan
    cases hstages
    exact List.forall_mem_singleton.mpr trivial
  | distinct =>
    cases hplan
    exact List.forall_mem_singleton.mpr trivial
  | intersect =>
    obtain ⟨others, -, hstages⟩ := bind_eq_ok hplan
    cases hstages
    exact List.forall_mem_cons.mpr ⟨trivial, List.forall_mem_singleton.mpr trivial⟩
  | _ => cases hselects

lemma arranges_of_stages (harranges : part.operator.arrangesItems) (h : part.stages = .ok stages) :
    ∀ stage ∈ stages, stage.Arranges := by
  obtain ⟨plan, hplan, rfl⟩ := plan_of_stages h
  obtain ⟨operator, arguments⟩ := part
  cases operator with
  | reverse =>
    cases hplan
    exact List.forall_mem_singleton.mpr ⟨_, rfl, rearranges_reverse⟩
  | order =>
    obtain ⟨key, -, hstages⟩ := bind_eq_ok hplan
    cases hstages
    exact List.forall_mem_singleton.mpr ⟨_, rfl, rearranges_sortByKeys _⟩
  | _ => cases harranges

lemma additions_of_not_adds (h : part.operator.addsItems = false) : part.additions = [] := by
  obtain ⟨operator, arguments⟩ := part
  cases operator <;> first | rfl | cases h

/-- What the stages of a part hold from the start is what it adds, if it makes no items. -/
lemma conserves_of_stages (hkeeps : part.operator.keepsItems) (h : part.stages = .ok stages) :
    (∀ stage ∈ stages, stage.Conserves) ∧ stages.flatMap Stage.holds = part.additions := by
  cases hadds : part.operator.addsItems with
  | false =>
    rw [Operator.keepsItems, hadds, Bool.or_false, Bool.or_eq_true] at hkeeps
    have hstages : ∀ stage ∈ stages, stage.Conserves ∧ stage.holds = [] := by
      intro stage hstage
      rcases hkeeps with hselects | harranges
      · exact (selects_of_stages hselects h stage hstage).conserves
      · exact (arranges_of_stages harranges h stage hstage).conserves
    rw [additions_of_not_adds hadds]
    exact ⟨fun stage hstage => (hstages stage hstage).1,
      List.flatMap_eq_nil_iff.mpr fun stage hstage => (hstages stage hstage).2⟩
  | true =>
    obtain ⟨plan, hplan, rfl⟩ := plan_of_stages h
    obtain ⟨operator, arguments⟩ := part
    cases operator with
    | concatWith =>
      obtain ⟨others, hothers, hstages⟩ := bind_eq_ok hplan
      cases hstages
      refine ⟨List.forall_mem_singleton.mpr trivial, ?_⟩
      rw [Part.additions, elements?_of_requireElements hothers]
      simp [Plan.stages, Stage.holds]
    | union =>
      obtain ⟨others, hothers, hstages⟩ := bind_eq_ok hplan
      cases hstages
      refine ⟨List.forall_mem_cons.mpr ⟨trivial, List.forall_mem_singleton.mpr trivial⟩, ?_⟩
      rw [Part.additions, elements?_of_requireElements hothers]
      simp [Plan.stages, Stage.union, Stage.holds]
    | defaultIfEmpty =>
      cases hplan
      rw [Part.additions]
      cases Part.literal? ⟨.defaultIfEmpty, arguments⟩ 0 with
      | none => exact ⟨List.forall_mem_nil _, rfl⟩
      | some fallback => exact ⟨List.forall_mem_singleton.mpr trivial, rfl⟩
    | _ => cases hadds

/-- What holds of the stages of each part, and of the one stage of an ordering run, holds of the stages of a query. -/
theorem stagesOf_induction {Q : List Part → List Stage → Prop} (hnil : Q [] [])
    (happend : ∀ parts stages parts' stages', Q parts stages → Q parts' stages' → Q (parts ++ parts') (stages ++ stages'))
    (hsingle : ∀ part stages, part.stages = .ok stages → Q [part] stages)
    (hordering : ∀ first refining keys, (∀ part ∈ first :: refining, part.isOrdering) →
      Q (first :: refining) [.gather (sortByKeys keys) []])
    (h : stagesOf parts = .ok stages) : Q parts stages := by
  have hruns : ∀ first refining, .ordering first refining ∈ segments parts →
      ∀ part ∈ first :: refining, part.isOrdering := fun _ _ => isOrdering_of_mem_segments
  rw [← flatMap_parts_segments parts]
  unfold stagesOf at h
  generalize segments parts = pieces at h hruns ⊢
  induction pieces generalizing stages with
  | nil =>
    cases h
    exact hnil
  | cons piece pieces ih =>
    obtain ⟨own, hown, h⟩ := bind_eq_ok h
    obtain ⟨rest, hrest, h⟩ := bind_eq_ok h
    cases h
    rw [List.flatMap_cons]
    refine happend _ _ _ _ ?_
      (ih hrest fun first refining hmem => hruns first refining (List.mem_cons_of_mem _ hmem))
    cases piece with
    | single part => exact hsingle part own hown
    | ordering first refining =>
      obtain ⟨keys, -, hstage⟩ := bind_eq_ok hown
      cases hstage
      exact hordering first refining keys (hruns first refining List.mem_cons_self)

lemma conserves_of_stagesOf (hparts : ∀ part ∈ parts, part.operator.keepsItems) (h : stagesOf parts = .ok stages) :
    (∀ stage ∈ stages, stage.Conserves) ∧ stages.flatMap Stage.holds = parts.flatMap Part.additions := by
  refine stagesOf_induction (Q := fun parts stages => (∀ part ∈ parts, part.operator.keepsItems) →
    (∀ stage ∈ stages, stage.Conserves) ∧ stages.flatMap Stage.holds = parts.flatMap Part.additions)
    (fun _ => ⟨List.forall_mem_nil _, rfl⟩) ?_ ?_ ?_ h hparts
  · intro parts stages parts' stages' hfront hback hparts
    rw [List.forall_mem_append] at hparts
    obtain ⟨hconserves, hholds⟩ := hfront hparts.1
    obtain ⟨hconserves', hholds'⟩ := hback hparts.2
    rw [List.flatMap_append, List.flatMap_append, hholds, hholds']
    exact ⟨List.forall_mem_append.mpr ⟨hconserves, hconserves'⟩, rfl⟩
  · intro part stages hstages hparts
    rw [List.flatMap_singleton]
    exact conserves_of_stages (hparts part List.mem_cons_self) hstages
  · intro first refining keys hrun _
    refine ⟨List.forall_mem_singleton.mpr (rearranges_sortByKeys keys), ?_⟩
    have hnone : ∀ part ∈ first :: refining, part.additions = [] := by
      intro part hpart
      have horders := hrun part hpart
      refine additions_of_not_adds ?_
      obtain ⟨operator, arguments⟩ := part
      cases operator <;> first | rfl | cases horders
    rw [List.flatMap_eq_nil_iff.mpr hnone]
    rfl

/-- The same for what is said of each stage alone. -/
lemma forall_stagesOf {allows : Operator → Bool} {Q : Stage → Prop}
    (hsingle : ∀ (part : Part) stages, allows part.operator → part.stages = .ok stages → ∀ stage ∈ stages, Q stage)
    (hordering : ∀ first : Part, first.isOrdering → allows first.operator → ∀ keys, Q (.gather (sortByKeys keys) []))
    (hparts : ∀ part ∈ parts, allows part.operator) (h : stagesOf parts = .ok stages) : ∀ stage ∈ stages, Q stage := by
  refine stagesOf_induction (Q := fun parts stages => (∀ part ∈ parts, allows part.operator) → ∀ stage ∈ stages, Q stage)
    (fun _ => List.forall_mem_nil _) ?_ ?_ ?_ h hparts
  · intro parts stages parts' stages' hfront hback hparts
    rw [List.forall_mem_append] at hparts
    exact List.forall_mem_append.mpr ⟨hfront hparts.1, hback hparts.2⟩
  · intro part stages hstages hparts
    exact hsingle part stages (hparts part List.mem_cons_self) hstages
  · intro first refining keys hrun hparts
    exact List.forall_mem_singleton.mpr
      (hordering first (hrun first List.mem_cons_self) (hparts first List.mem_cons_self) keys)

lemma selects_of_stagesOf (hparts : ∀ part ∈ parts, part.operator.selectsItems) (h : stagesOf parts = .ok stages) :
    ∀ stage ∈ stages, stage.Selects := by
  refine forall_stagesOf (fun part stages => selects_of_stages) (fun first horders hselects keys => ?_) hparts h
  obtain ⟨operator, arguments⟩ := first
  cases operator with
  | order => cases hselects
  | _ => cases horders

lemma arranges_of_stagesOf (hparts : ∀ part ∈ parts, part.operator.arrangesItems) (h : stagesOf parts = .ok stages) :
    ∀ stage ∈ stages, stage.Arranges :=
  forall_stagesOf (fun _ _ => arranges_of_stages) (fun _ _ _ keys => ⟨_, rfl, rearranges_sortByKeys keys⟩) hparts h

end Parts

/-! ### Queries -/

namespace Engine

variable (engine : Engine)

/-- **Items keep their identity.**  Parts that make no items are refused for one of them whose arguments are not what its
operator wants, or they come to stages on the source such that for all pulls of these, and those of the source that they
take:

* the items that are handed out are among those that the source has handed out and those that the parts add, none of them
  more often than it is there;
* if all parts select items, then they are a subsequence of those of the source;
* if all parts arrange items, then they are a permutation of those of the source once there is an ending without an error.
  Over a source without an error there always is one. -/
theorem items_keep_their_identity (source : Sequence) {parts : List Part}
    (hparts : ∀ part ∈ parts, part.operator.keepsItems) :
    (∃ part ∈ parts, ∃ e, part.plan = .error e ∧ (engine.executeSequence source parts).unlogged = throw e) ∨
    ∃ stages, (engine.executeSequence source parts).unlogged = pure (.sequence (source.withStages stages)) ∧
      (∀ history u, Pulled (source.withStages stages) history u →
        ∃ asked t, AsksAll stages source asked history ∧ Pulled source asked t) ∧
      (∀ asked history, AsksAll stages source asked history →
        (itemsOf history).Subperm (itemsOf asked ++ parts.flatMap Part.additions) ∧
        ((∀ part ∈ parts, part.operator.selectsItems) → (itemsOf history).Sublist (itemsOf asked)) ∧
        ((∀ part ∈ parts, part.operator.arrangesItems) → Finished history →
          Finished asked ∧ (itemsOf history).Perm (itemsOf asked))) ∧
      ((∀ part ∈ parts, part.operator.arrangesItems) → (source.Delivers fun _ ending => ending = .finished) →
        (source.withStages stages).Delivers fun _ ending => ending = .finished) := by
  have hlazy : ∀ part ∈ parts, part.IsLazy := by
    intro part hpart
    have hkeeps := hparts part hpart
    obtain ⟨operator, arguments⟩ := part
    cases operator <;> first | rfl | cases hkeeps
  rw [engine.executeSequence_of_isLazy source hlazy]
  cases hstages : stagesOf parts with
  | error e =>
    obtain ⟨part, hmem, hplan⟩ := exists_refused_of_stagesOf hstages
    exact .inl ⟨part, hmem, e, hplan, rfl⟩
  | ok stages =>
    obtain ⟨hconserves, hholds⟩ := conserves_of_stagesOf hparts hstages
    refine .inr ⟨stages, rfl, fun history u hpulled => ?_, fun asked history hasks => ⟨?_, fun hselects => ?_,
      fun harranges hfinished => ?_⟩, fun harranges hsource => ?_⟩
    · obtain ⟨asked, hasks, t, hasked⟩ := exists_asksAll hpulled
      exact ⟨asked, t, hasks, hasked⟩
    · rw [← hholds]
      exact hasks.subperm hconserves
    · exact hasks.sublist (selects_of_stagesOf hselects hstages)
    · exact hasks.perm (arranges_of_stagesOf harranges hstages) hfinished
    · exact hsource.arranged (arranges_of_stagesOf harranges hstages)

/-- Two items that are reversed come to an end, and then they are those of the source. -/
theorem items_keep_their_identity_reverse :
    ∃ stages, (executeSequence ⟨{}, "q", 0⟩ (.ofItems [.null, .bool true]) [⟨.reverse, []⟩]).unlogged =
        pure (.sequence ((ofItems [.null, .bool true]).withStages stages)) ∧
      (∀ asked history, AsksAll stages (.ofItems [.null, .bool true]) asked history → Finished history →
        (itemsOf history).Perm (itemsOf asked)) ∧
      ((ofItems [.null, .bool true]).withStages stages).Delivers fun _ ending => ending = .finished := by
  have hparts : ∀ part ∈ [(⟨.reverse, []⟩ : Part)], part.operator.keepsItems := List.forall_mem_singleton.mpr rfl
  have harranges : ∀ part ∈ [(⟨.reverse, []⟩ : Part)], part.operator.arrangesItems := List.forall_mem_singleton.mpr rfl
  have hsource : (ofItems [.null, .bool true]).Delivers fun _ ending => ending = .finished :=
    (Delivers.queue _).mono fun _ _ h => h.2
  rcases items_keep_their_identity ⟨{}, "q", 0⟩ (.ofItems [.null, .bool true]) hparts with
    ⟨part, hmem, e, hplan, -⟩ | ⟨stages, hexecute, -, hitems, hends⟩
  · obtain rfl := List.mem_singleton.mp hmem
    cases hplan
  · refine ⟨stages, hexecute, fun asked history hasks hfinished => ?_, hends harranges hsource⟩
    exact ((hitems asked history hasks).2.2 harranges hfinished).2

end Engine

end LazyQuery
