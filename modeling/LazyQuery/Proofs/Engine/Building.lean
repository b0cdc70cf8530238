import LazyQuery.Proofs.Engine.Segments

/-!
# Building a query is free of work

Parts without a terminal one come to stages that are put on the source, or to the first refusal of an argument.  Both are
found in the parts alone (`stagesOf`): the source is taken as it is, the session is left as it is, and what the functions
in the parts do plays no role (`stagesOf_mapFunctions`).  A part in a query stands before the first terminal one or comes
after the work of that; so up to its dispatch there is no work either.

The main statement is `Engine.building_is_free_of_work`.
-/

namespace LazyQuery

open Sequence

/-! ### The stages of a query -/

/-- The stages to put on the source.  Going through the source takes none. -/
def Plan.stages : Plan → List Stage
  | .lazily stages => stages
  | .eagerly _ => []

namespace Part

/-- The part hands on a sequence. -/
def IsLazy (part : Part) : Prop :=
  part.operator.isTerminal = false

def stages (part : Part) : Except QueryError (List Stage) :=
  Plan.stages <$> part.plan

end Part

/-- The stages of a piece of a query.  A run of ordering parts has one, which sorts by all keys. -/
def Segment.stages : Segment → Except QueryError (List Stage)
  | .ordering first refining => do return [.gather (sortByKeys (← readKeys (first :: refining))) []]
  | .single part => part.stages

/-- The stages of pieces in a row, or the first refusal. -/
def stagesOfPieces : List Segment → Except QueryError (List Stage)
  | [] => .ok []
  | piece :: pieces => do return (← piece.stages) ++ (← stagesOfPieces pieces)

/-- **The stages that the parts put on their source**, the first of them nearest to it; or the refusal of the first part
whose arguments are not what its operator wants. -/
def stagesOf (parts : List Part) : Except QueryError (List Stage) :=
  stagesOfPieces (segments parts)

/-- The source with the stages on it, if there are such. -/
def onSource (source : Sequence) (stages : Except QueryError (List Stage)) : Except QueryError Output :=
  (fun stages => .sequence (source.withStages stages)) <$> stages

section Stages

variable (budget : Nat) {source : Sequence} {part : Part} {plan : Plan} {parts : List Part} {pieces : List Segment}

/-- A part that is not terminal plans stages. -/
lemma exists_lazily_of_plan (hpart : part.IsLazy) (hplan : part.plan = .ok plan) : ∃ stages, plan = .lazily stages := by
  obtain ⟨operator, arguments⟩ := part
  cases operator with
  | distinct | defaultIfEmpty | reverse =>
    cases hplan
    exact ⟨_, rfl⟩
  | filter | ofType | cast | select | selectMany | take | skip | takeWhile | skipWhile | groupBy | concatWith | zip | union
  | intersect | except | order =>
    obtain ⟨argument, -, hstages⟩ := bind_eq_ok hplan
    cases hstages
    exact ⟨_, rfl⟩
  | joinWith | groupJoin =>
    obtain ⟨inner, -, hrest⟩ := bind_eq_ok hplan
    obtain ⟨outerKey, -, hrest⟩ := bind_eq_ok hrest
    obtain ⟨innerKey, -, hstages⟩ := bind_eq_ok hrest
    cases hstages
    exact ⟨_, rfl⟩
  | _ => cases hpart

/-- A sequence is a source for every part. -/
lemma source_sequence (part : Part) (source : Sequence) : part.source (.sequence source) = .ok source := by
  obtain ⟨operator, arguments⟩ := part
  cases operator <;> rfl

/-- **Applying a part that is not terminal is no work.** -/
theorem apply_of_isLazy (hpart : part.IsLazy) :
    apply budget (.sequence source) part = Eval.ofExcept (onSource source part.stages) := by
  rw [apply, source_sequence, Part.stages]
  cases hplan : part.plan with
  | error e => rfl
  | ok plan =>
    obtain ⟨stages, rfl⟩ := exists_lazily_of_plan hpart hplan
    rfl

lemma withStages_append (source : Sequence) (stages stages' : List Stage) :
    source.withStages (stages ++ stages') = (source.withStages stages).withStages stages' :=
  List.foldl_append

/-- The same for a piece of a query. -/
lemma segment_of_isLazy {piece : Segment} (hpiece : ∀ part ∈ piece.parts, part.IsLazy) :
    piece.interpret budget (.sequence source) = Eval.ofExcept (onSource source piece.stages) := by
  cases piece with
  | single part => exact apply_of_isLazy budget (hpiece part List.mem_cons_self)
  | ordering first refining =>
    rw [Segment.interpret, Segment.stages]
    cases readKeys (first :: refining) <;> rfl

/-- **And for all pieces in a row.** -/
theorem interpret_of_isLazy (hpieces : ∀ part ∈ pieces.flatMap Segment.parts, part.IsLazy) :
    interpret budget pieces (.sequence source) = Eval.ofExcept (onSource source (stagesOfPieces pieces)) := by
  induction pieces generalizing source with
  | nil => rfl
  | cons piece pieces ih =>
    rw [List.flatMap_cons] at hpieces
    have hpiece : ∀ part ∈ piece.parts, part.IsLazy := fun part hpart => hpieces part (List.mem_append_left _ hpart)
    have hrest : ∀ part ∈ pieces.flatMap Segment.parts, part.IsLazy :=
      fun part hpart => hpieces part (List.mem_append_right _ hpart)
    rw [interpret, segment_of_isLazy budget hpiece, stagesOfPieces]
    rcases piece.stages with e | stages
    · rfl
    · show interpret budget pieces (.sequence (source.withStages stages)) = _
      rw [ih hrest]
      rcases stagesOfPieces pieces with e | stages'
      · rfl
      · show (pure (.sequence ((source.withStages stages).withStages stages')) : Eval Output) = _
        rw [← withStages_append]
        rfl

/-- An ordering run is refused for one of its parts. -/
lemma exists_refused_of_readKeys {e : QueryError} (hparts : ∀ part ∈ parts, part.isOrdering)
    (h : readKeys parts = .error e) : ∃ part ∈ parts, part.plan = .error e := by
  induction parts with
  | nil => cases h
  | cons part parts ih =>
    obtain ⟨hpart, hrest⟩ := List.forall_mem_cons.mp hparts
    rw [readKeys_cons] at h
    rcases bind_eq_error h with hkey | ⟨key, -, h⟩
    · refine ⟨part, List.mem_cons_self, ?_⟩
      obtain ⟨operator, arguments⟩ := part
      cases operator with
      | order =>
        rw [Part.plan, hkey]
        rfl
      | _ => cases hpart
    · have hkeys : readKeys parts = .error e := by
        rcases hread : readKeys parts with e' | keys
        · rw [hread] at h
          exact h
        · rw [hread] at h
          cases h
      obtain ⟨refused, hmem, hplan⟩ := ih hrest hkeys
      exact ⟨refused, List.mem_cons_of_mem _ hmem, hplan⟩

/-- **A query is refused for one of its parts**, as that part by itself is. -/
theorem exists_refused_of_stagesOf {e : QueryError} (h : stagesOf parts = .error e) :
    ∃ part ∈ parts, part.plan = .error e := by
  have hruns : ∀ first refining, .ordering first refining ∈ segments parts →
      ∀ part ∈ first :: refining, part.isOrdering := fun _ _ => isOrdering_of_mem_segments
  rw [← flatMap_parts_segments parts]
  unfold stagesOf at h
  generalize segments parts = pieces at h hruns ⊢
  induction pieces with
  | nil => cases h
  | cons piece pieces ih =>
    rw [List.flatMap_cons]
    rcases bind_eq_error h with hpiece | ⟨own, -, h⟩
    · obtain ⟨refused, hmem, hplan⟩ : ∃ part ∈ piece.parts, part.plan = .error e := by
        cases piece with
        | single part =>
          rcases hplan : part.plan with e' | plan
          · rw [Segment.stages, Part.stages, hplan] at hpiece
            cases hpiece
            exact ⟨part, List.mem_cons_self, hplan⟩
          · rw [Segment.stages, Part.stages, hplan] at hpiece
            cases hpiece
        | ordering first refining =>
          rcases bind_eq_error hpiece with hkeys | ⟨keys, -, hstages⟩
          · exact exists_refused_of_readKeys (hruns first refining List.mem_cons_self) hkeys
          · cases hstages
      exact ⟨refused, List.mem_append_left _ hmem, hplan⟩
    · rcases bind_eq_error h with hrest | ⟨rest, -, hstages⟩
      · obtain ⟨refused, hmem, hplan⟩ := ih hrest fun first refining hmem => hruns first refining (List.mem_cons_of_mem _ hmem)
        exact ⟨refused, List.mem_append_right _ hmem, hplan⟩
      · cases hstages

lemma interpret_append (front back : List Segment) (current : Output) :
    interpret budget (front ++ back) current = interpret budget front current >>= interpret budget back := by
  induction front generalizing current with
  | nil => exact (pure_bind current _).symm
  | cons piece front ih =>
    rw [List.cons_append, interpret, interpret, bind_assoc]
    exact bind_congr fun output => ih output

lemma takeWhile_append_cons {p : Part → Bool} (hp : p part = false) (before after : List Part) :
    (before ++ part :: after).takeWhile p = before.takeWhile p := by
  have hafter : (part :: after).takeWhile p = [] := List.takeWhile_cons_of_neg (by simp [hp])
  rw [List.takeWhile_append, hafter]
  split
  · next hlength =>
    have hall := (List.takeWhile_prefix p).eq_of_length hlength
    rw [List.append_nil, hall]
  · rfl

lemma dropWhile_append_cons {p : Part → Bool} (hp : p part = false) (before after : List Part) :
    (before ++ part :: after).dropWhile p = before.dropWhile p ++ part :: after := by
  have hafter : (part :: after).dropWhile p = part :: after := List.dropWhile_cons_of_neg (by simp [hp])
  rw [List.dropWhile_append, hafter]
  split
  · next hempty => rw [List.isEmpty_iff.mp hempty, List.nil_append]
  · rfl

/-- A part that is no ordering part is a piece of its own. -/
lemma segments_cons_single (hpart : part.isOrdering = false) (parts : List Part) :
    segments (part :: parts) = .single part :: segments parts := by
  rw [segments, if_neg (by simp [hpart])]

/-- And the pieces before it end there. -/
lemma segments_append_single (hpart : part.isOrdering = false) (before after : List Part) :
    segments (before ++ part :: after) = segments before ++ .single part :: segments after := by
  have hrefines : part.refinesOrdering = false := by
    cases hrefines : part.refinesOrdering with
    | false => rfl
    | true =>
      rw [isOrdering_of_refines hrefines] at hpart
      cases hpart
  induction before using segments.induct with
  | case1 => rw [List.nil_append, segments_cons_single hpart, segments, List.nil_append]
  | case2 first before hfirst ih =>
    rw [List.cons_append, segments, if_pos hfirst, takeWhile_append_cons hrefines, dropWhile_append_cons hrefines, ih,
      segments, if_pos hfirst, List.cons_append]
  | case3 first before hfirst ih =>
    rw [List.cons_append, segments, if_neg hfirst, ih, segments, if_neg hfirst, List.cons_append]

end Stages

/-! ### Functions play no role -/

/-- The error that there is instead of a result. -/
def refusal? {α : Type} : Except QueryError α → Option QueryError
  | .ok _ => none
  | .error e => some e

def Argument.mapFunction (φ : Callable → Callable) : Argument → Argument
  | .literal item => .literal item
  | .function f => .function (φ f)

/-- The part with other functions in the place of its own. -/
def Part.mapFunctions (φ : Callable → Callable) (part : Part) : Part :=
  ⟨part.operator, part.arguments.map (Argument.mapFunction φ)⟩

def Segment.mapFunctions (φ : Callable → Callable) : Segment → Segment
  | .ordering first refining => .ordering (first.mapFunctions φ) (refining.map (Part.mapFunctions φ))
  | .single part => .single (part.mapFunctions φ)

section Functions

variable {α β γ δ : Type}

/-- What is refused is refused by the first of two steps, or else by the second. -/
lemma refusal?_bind {x : Except QueryError α} {y : Except QueryError β} {f : α → Except QueryError γ}
    {g : β → Except QueryError δ} (h : refusal? x = refusal? y) (hnext : ∀ a b, refusal? (f a) = refusal? (g b)) :
    refusal? (x >>= f) = refusal? (y >>= g) := by
  rcases x with e | a <;> rcases y with e' | b
  · exact h
  · cases h
  · cases h
  · exact hnext a b

/-- Nothing is refused where there are results, whatever they are. -/
lemma refusal?_pure (a : α) (b : β) :
    refusal? (pure a : Except QueryError α) = refusal? (pure b : Except QueryError β) :=
  rfl

lemma refusal?_map (f : α → β) (x : Except QueryError α) : refusal? (f <$> x) = refusal? x := by
  cases x <;> rfl

variable (φ : Callable → Callable) (part : Part) (position : Nat) (what : String)

lemma function?_mapFunctions : (part.mapFunctions φ).function? position = (part.function? position).map φ := by
  unfold Part.function? Part.mapFunctions
  rw [List.getElem?_map]
  rcases part.arguments[position]? with _ | _ | _ <;> rfl

lemma literal?_mapFunctions : (part.mapFunctions φ).literal? position = part.literal? position := by
  unfold Part.literal? Part.mapFunctions
  rw [List.getElem?_map]
  rcases part.arguments[position]? with _ | _ | _ <;> rfl

lemma requireFunction_mapFunctions :
    refusal? ((part.mapFunctions φ).requireFunction position what) = refusal? (part.requireFunction position what) := by
  unfold Part.requireFunction
  rw [function?_mapFunctions]
  cases part.function? position <;> rfl

lemma requireLiteral_mapFunctions :
    (part.mapFunctions φ).requireLiteral position what = part.requireLiteral position what := by
  unfold Part.requireLiteral
  rw [literal?_mapFunctions]
  rfl

lemma requireInteger_mapFunctions :
    (part.mapFunctions φ).requireInteger position what = part.requireInteger position what := by
  unfold Part.requireInteger
  rw [requireLiteral_mapFunctions]
  rfl

lemma requireElements_mapFunctions :
    (part.mapFunctions φ).requireElements position what = part.requireElements position what := by
  unfold Part.requireElements
  rw [requireLiteral_mapFunctions]
  rfl

lemma requireType_mapFunctions : (part.mapFunctions φ).requireType = part.requireType := by
  unfold Part.requireType
  rw [requireLiteral_mapFunctions]
  rfl

/-- Plans are refused for what the arguments are, not for what the functions among them do. -/
theorem plan_mapFunctions : refusal? (part.mapFunctions φ).plan = refusal? part.plan := by
  have hfunction := requireFunction_mapFunctions φ part
  have helements := requireElements_mapFunctions φ part
  have hinteger := requireInteger_mapFunctions φ part
  have hliteral := requireLiteral_mapFunctions φ part
  have htype := requireType_mapFunctions φ part
  obtain ⟨operator, arguments⟩ := part
  cases operator with
  | filter | select | selectMany | takeWhile | skipWhile | groupBy | all | aggregate =>
    exact refusal?_bind (hfunction 0 _) fun _ _ => refusal?_pure _ _
  | order =>
    exact refusal?_bind (refusal?_bind (hfunction 0 _) fun _ _ => refusal?_pure _ _) fun _ _ => refusal?_pure _ _
  | joinWith | groupJoin =>
    exact refusal?_bind (congrArg refusal? (helements 0 _)) fun _ _ =>
      refusal?_bind (hfunction 1 _) fun _ _ => refusal?_bind (hfunction 2 _) fun _ _ => refusal?_pure _ _
  | ofType | cast => exact refusal?_bind (congrArg refusal? htype) fun _ _ => refusal?_pure _ _
  | take | skip | elementAt => exact refusal?_bind (congrArg refusal? (hinteger 0 _)) fun _ _ => refusal?_pure _ _
  | concatWith | zip | union | intersect | except | sequenceEqual =>
    exact refusal?_bind (congrArg refusal? (helements 0 _)) fun _ _ => refusal?_pure _ _
  | contains => exact refusal?_bind (congrArg refusal? (hliteral 0 _)) fun _ _ => refusal?_pure _ _
  | distinct | defaultIfEmpty | reverse | first | last | single | any | count | min | max | sum | average =>
    exact refusal?_pure _ _

lemma readKeys_mapFunctions (parts : List Part) :
    refusal? (readKeys (parts.map (Part.mapFunctions φ))) = refusal? (readKeys parts) := by
  induction parts with
  | nil => rfl
  | cons part parts ih =>
    rw [List.map_cons, readKeys_cons, readKeys_cons]
    refine refusal?_bind (refusal?_bind (requireFunction_mapFunctions φ part 0 _) fun _ _ => rfl) fun _ _ => ?_
    rw [refusal?_map, refusal?_map, ih]

lemma segments_mapFunctions (parts : List Part) :
    segments (parts.map (Part.mapFunctions φ)) = (segments parts).map (Segment.mapFunctions φ) := by
  have hrefines : Part.refinesOrdering ∘ Part.mapFunctions φ = Part.refinesOrdering := rfl
  induction parts using segments.induct with
  | case1 => simp [segments]
  | case2 part parts hpart ih =>
    have hmap : (part.mapFunctions φ).isOrdering = true := hpart
    rw [List.map_cons, segments, if_pos hmap, segments, if_pos hpart, List.takeWhile_map, List.dropWhile_map, hrefines,
      ih, List.map_cons]
    rfl
  | case3 part parts hpart ih =>
    have hmap : ¬ (part.mapFunctions φ).isOrdering = true := hpart
    rw [List.map_cons, segments, if_neg hmap, segments, if_neg hpart, ih, List.map_cons]
    rfl

/-- **Whether a query is refused, and how, does not depend on what its functions do.** -/
theorem stagesOf_mapFunctions (parts : List Part) :
    refusal? (stagesOf (parts.map (Part.mapFunctions φ))) = refusal? (stagesOf parts) := by
  unfold stagesOf
  rw [segments_mapFunctions]
  induction segments parts with
  | nil => rfl
  | cons piece pieces ih =>
    refine refusal?_bind ?_ fun _ _ => refusal?_bind ih fun _ _ => rfl
    cases piece with
    | ordering first refining => exact refusal?_bind (readKeys_mapFunctions φ (first :: refining)) fun _ _ => rfl
    | single part =>
      show refusal? (Plan.stages <$> _) = refusal? (Plan.stages <$> _)
      rw [refusal?_map, refusal?_map, plan_mapFunctions]

end Functions

/-! ### Queries -/

namespace Engine

variable (engine : Engine)

/-- Executing parts without a terminal one is putting their stages on the source. -/
lemma executeSequence_of_isLazy (source : Sequence) {parts : List Part} (hparts : ∀ part ∈ parts, part.IsLazy) :
    (engine.executeSequence source parts).unlogged = Eval.ofExcept (onSource source (stagesOf parts)) := by
  rw [executeSequence_segments]
  exact interpret_of_isLazy engine.budget (by rwa [flatMap_parts_segments])

/-- **Building a query is free of work.**

* Parts without a terminal one come to stages, or to a refusal, that depend on the parts alone.  Executing them on a source,
  whatever it is, puts the stages on it and leaves the session as it is.
* Where a terminal part is the first one, this is all that comes before its dispatch.
* What the functions in the parts do makes no difference to whether there is a refusal, and to which. -/
theorem building_is_free_of_work :
    (∀ parts, (∀ part ∈ parts, part.operator.isTerminal = false) → ∀ source,
      (engine.executeSequence source parts).unlogged = Eval.ofExcept (onSource source (stagesOf parts))) ∧
    (∀ before terminal after, (∀ part ∈ before, part.operator.isTerminal = false) →
      terminal.operator.isTerminal = true → ∀ source,
      (engine.executeSequence source (before ++ terminal :: after)).unlogged =
        Eval.ofExcept (onSource source (stagesOf before)) >>= fun current =>
          apply engine.budget current terminal >>= fun current => (engine.run [] current after).unlogged) ∧
    ∀ φ parts, refusal? (stagesOf (parts.map (Part.mapFunctions φ))) = refusal? (stagesOf parts) := by
  refine ⟨fun parts hparts source => engine.executeSequence_of_isLazy source hparts,
    fun before terminal after hbefore hterminal source => ?_, stagesOf_mapFunctions⟩
  · have horders : terminal.isOrdering = false := by
      obtain ⟨operator, arguments⟩ := terminal
      cases operator <;> first | rfl | cases hterminal
    rw [executeSequence_segments, segments_append_single horders, interpret_append,
      interpret_of_isLazy engine.budget (by rwa [flatMap_parts_segments])]
    simp only [unlogged_run, resume_nil]
    rfl

/-- Hands out nulls without end and reports each pull. -/
def reportingSource : Sequence :=
  .producer (fun k => do report "pull"; return (.item .null, k)) 0

/-- Reports each item that it is called with. -/
def reportingFunction : Callable :=
  .unary fun item => do report item.display; return item

/-- A filter on a source is built without a word of either; also if a count comes next, which would never end. -/
theorem building_is_free_of_work_reporting :
    (executeSequence ⟨{}, "q", 0⟩ reportingSource [⟨.filter, [.function reportingFunction]⟩]).unlogged.run.run {} =
      (some (.ok (.sequence (.through (.filterBy reportingFunction) reportingSource))), {}) ∧
    (executeSequence ⟨{}, "q", 0⟩ reportingSource
        [⟨.filter, [.function reportingFunction]⟩, ⟨.count, []⟩]).unlogged =
      (do (run ⟨{}, "q", 0⟩ [] (← apply 0 (.sequence (.through (.filterBy reportingFunction) reportingSource))
        ⟨.count, []⟩) []).unlogged) ∧
    refusal? (stagesOf [⟨.filter, [.function reportingFunction]⟩]) = none := by
  obtain ⟨hlazy, hterminal, hfunctions⟩ := building_is_free_of_work ⟨{}, "q", 0⟩
  let silent : Callable := .unary fun item => return item
  let parts (f : Callable) : List Part := [⟨.filter, [.function f]⟩]
  have hparts (f : Callable) : ∀ part ∈ parts f, part.operator.isTerminal = false := List.forall_mem_singleton.mpr rfl
  have hstages (f : Callable) : stagesOf (parts f) = .ok [.filterBy f] := by
    rw [stagesOf, segments_cons_single rfl, segments]
    rfl
  have hsilent := hfunctions (fun _ => reportingFunction) (parts silent)
  refine ⟨?_, ?_, hsilent.trans (by rw [hstages]; rfl)⟩
  · rw [hlazy (parts _) (hparts _), hstages]
    rfl
  · have hcount := hterminal (parts reportingFunction) ⟨.count, []⟩ [] (hparts _) rfl reportingSource
    rw [hstages] at hcount
    exact hcount

end Engine

end LazyQuery
