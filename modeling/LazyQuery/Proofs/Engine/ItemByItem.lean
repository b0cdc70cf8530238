import LazyQuery.Proofs.Operator.Chain

/-!
# Chains work item by item

A history of pulls of a chain has a trace for each of its pulls (`Sequence.Traced`), and only one.  Put together, these are
the visits of the items that are taken from the source, as far as they are needed (`Sequence.ItemByItem`): none is taken
before an item that gets through is asked for, and nothing takes place once the source has ended.

The main statement is `Engine.chains_work_item_by_item`.
-/

namespace LazyQuery

open Sequence

namespace Sequence

/-! ### Histories -/

/-- The trace of each pull in a history of the chain.  The pulls go on with the source as it was left, and after an ending
nothing takes place any more. -/
inductive Traced (links : List Link) : Sequence → List (Session × Reply × Session) → List (List Visit) → Prop
  | start {s} : Traced links s [] []
  | item {σ τ s t y visits history traces} (serves : Serves links σ s visits (.item y) t τ)
      (rest : Traced links t history traces) : Traced links s ((σ, .item y, τ) :: history) (visits :: traces)
  | ending {σ τ s t r visits history} (serves : Serves links σ s visits r t τ) (ending : r.isEnding)
      (rest : ∀ pull ∈ history, ∃ υ, pull = (υ, .finished, υ)) :
      Traced links s ((σ, r, τ) :: history) (visits :: history.map fun _ => [])

section Histories

variable {links : List Link} {σ τ τ' : Session} {s t t' : Sequence} {x : Item} {result result' : Option Item}
  {r r' : Reply} {calls calls' : List Call} {visits visits' : List Visit} {history : List (Session × Reply × Session)}
  {traces traces' : List (List Visit)}

lemma pulled_exhausted_iff :
    (∃ u, Pulled .exhausted history u) ↔ ∀ pull ∈ history, ∃ υ, pull = (υ, .finished, υ) := by
  induction history with
  | nil => exact iff_of_true ⟨_, .start⟩ (List.forall_mem_nil _)
  | cons pull history ih =>
    rw [List.forall_mem_cons, ← ih]
    constructor
    · rintro ⟨u, _ | ⟨first, rest⟩⟩
      obtain ⟨rfl, rfl, rfl⟩ := pulls_exhausted.mp first
      exact ⟨⟨_, rfl⟩, _, rest⟩
    · rintro ⟨⟨υ, rfl⟩, u, rest⟩
      exact ⟨u, .next (.reply rfl) rest⟩

/-- **The histories of a chain are those that have a trace.** -/
theorem pulled_iff_traced : (∃ u, Pulled (s.chained links) history u) ↔ ∃ traces, Traced links s history traces := by
  constructor
  · rintro ⟨u, h⟩
    generalize hv : s.chained links = v at h
    induction h generalizing s with
    | start => exact ⟨[], .start⟩
    | @next σ τ v w u r history first rest ih =>
      subst hv
      obtain ⟨visits, t, hserves, hw⟩ := exists_serves_of_pulls first
      cases hr : r.isEnding with
      | true =>
        cases eq_exhausted (first.isExhausted.trans hr)
        exact ⟨_, .ending hserves hr (pulled_exhausted_iff.mp ⟨u, rest⟩)⟩
      | false =>
        rcases r with y | e | _
        · obtain ⟨traces, htraced⟩ := ih (hw y rfl).symm
          exact ⟨_, .item hserves htraced⟩
        · cases hr
        · cases hr
  · rintro ⟨traces, h⟩
    induction h with
    | start => exact ⟨_, .start⟩
    | item serves _ ih =>
      obtain ⟨u, hrest⟩ := ih
      exact ⟨u, .next serves.pulls hrest⟩
    | ending serves ending rest =>
      obtain ⟨u, hrest⟩ := pulled_exhausted_iff.mpr rest
      have hfirst := serves.pulls
      rw [if_pos ending] at hfirst
      exact ⟨u, .next hfirst hrest⟩

lemma Handles.unique (h : Handles links σ x calls result τ) (h' : Handles links σ x calls' result' τ') :
    calls = calls' ∧ result = result' ∧ τ = τ' := by
  induction h generalizing calls' with
  | passed =>
    cases h'
    exact ⟨rfl, rfl, rfl⟩
  | rejected call rejects =>
    cases h' with
    | rejected call' _ =>
      cases call.symm.trans call'
      exact ⟨rfl, rfl, rfl⟩
    | handed call' hands _ =>
      cases call.symm.trans call'
      cases rejects.symm.trans hands
  | handed call hands _ ih =>
    cases h' with
    | rejected call' rejects =>
      cases call.symm.trans call'
      cases rejects.symm.trans hands
    | handed call' hands' rest' =>
      cases call.symm.trans call'
      cases hands.symm.trans hands'
      obtain ⟨rfl, rfl, rfl⟩ := ih rest'
      exact ⟨rfl, rfl, rfl⟩

lemma Serves.unique (h : Serves links σ s visits r t τ) (h' : Serves links σ s visits' r' t' τ') :
    visits = visits' ∧ r = r' ∧ t = t' ∧ τ = τ' := by
  induction h generalizing visits' with
  | ends pulls ending =>
    cases h' with
    | ends pulls' _ =>
      obtain ⟨rfl, rfl, rfl⟩ := pulls.unique pulls'
      exact ⟨rfl, rfl, rfl, rfl⟩
    | passes pulls' _ | rejects pulls' _ _ =>
      obtain ⟨rfl, -, -⟩ := pulls.unique pulls'
      cases ending
  | passes pulls handles =>
    cases h' with
    | ends pulls' ending =>
      obtain ⟨rfl, -, -⟩ := pulls.unique pulls'
      cases ending
    | passes pulls' handles' =>
      obtain ⟨hx, rfl, rfl⟩ := pulls.unique pulls'
      cases hx
      obtain ⟨rfl, hy, rfl⟩ := handles.unique handles'
      cases hy
      exact ⟨rfl, rfl, rfl, rfl⟩
    | rejects pulls' handles' _ =>
      obtain ⟨hx, rfl, rfl⟩ := pulls.unique pulls'
      cases hx
      obtain ⟨-, hy, -⟩ := handles.unique handles'
      cases hy
  | rejects pulls handles _ ih =>
    cases h' with
    | ends pulls' ending =>
      obtain ⟨rfl, -, -⟩ := pulls.unique pulls'
      cases ending
    | passes pulls' handles' =>
      obtain ⟨hx, rfl, rfl⟩ := pulls.unique pulls'
      cases hx
      obtain ⟨-, hy, -⟩ := handles.unique handles'
      cases hy
    | rejects pulls' handles' rest' =>
      obtain ⟨hx, rfl, rfl⟩ := pulls.unique pulls'
      cases hx
      obtain ⟨rfl, -, rfl⟩ := handles.unique handles'
      obtain ⟨rfl, rfl, rfl, rfl⟩ := ih rest'
      exact ⟨rfl, rfl, rfl, rfl⟩

/-- There is one trace of a history. -/
theorem Traced.unique (h : Traced links s history traces) (h' : Traced links s history traces') : traces = traces' := by
  induction h generalizing traces' with
  | start =>
    cases h'
    rfl
  | item serves _ ih =>
    cases h' with
    | item serves' rest' =>
      obtain ⟨rfl, -, rfl, -⟩ := serves.unique serves'
      rw [ih rest']
    | ending _ ending _ => cases ending
  | ending serves ending _ =>
    cases h' with
    | item => cases ending
    | ending serves' _ _ =>
      obtain ⟨rfl, -⟩ := serves.unique serves'
      rfl

end Histories

/-! ### Item by item -/

/-- The visit takes an item, which goes through the links and comes to `result`. -/
def Visit.Gives (links : List Link) (visit : Visit) (result : Option Item) : Prop :=
  ∃ x σ τ, visit.reply = .item x ∧ Handles links σ x visit.calls result τ

/-- The visits are those of the items that are taken from the source, each with what it comes to.  These results are the
first replies, and with the last of them the visits stop; or there is one more, a pull that brings the ending of the source,
and from then on the chain replies on its own. -/
def ItemByItem (links : List Link) (replies : List Reply) (visits : List Visit) : Prop :=
  ∃ (taken : List (Visit × Option Item)) (ending : Option Reply) (more : Nat),
    (∀ p ∈ taken, p.1.Gives links p.2) ∧ (∀ r ∈ ending, r.isEnding) ∧
    visits = taken.map Prod.fst ++ ending.toList.map (⟨·, []⟩) ∧
    replies = (taken.filterMap Prod.snd).map .item ++ ending.toList ++ List.replicate more .finished ∧
    (ending = none → more = 0 ∧ ∀ p ∈ taken.getLast?, p.2.isSome)

section ItemByItem

variable {links : List Link} {σ τ : Session} {s t : Sequence} {x : Item} {result : Option Item} {r : Reply}
  {calls : List Call} {visits : List Visit} {history : List (Session × Reply × Session)} {traces : List (List Visit)}

/-- **An item costs one call of each function that it gets to**, in the order of the links; and it gets to all of them
unless it is rejected. -/
theorem Handles.functions (h : Handles links σ x calls result τ) :
    calls.map Call.function <+: links.map Link.function ∧
      (result.isSome → calls.map Call.function = links.map Link.function) := by
  induction h with
  | passed => exact ⟨List.prefix_rfl, fun _ => rfl⟩
  | rejected => exact ⟨List.prefix_append [_] _, fun h => by cases h⟩
  | handed _ _ _ ih => exact ⟨List.prefix_cons_inj _ |>.mpr ih.1, fun h => congrArg _ (ih.2 h)⟩

lemma Serves.taken (h : Serves links σ s visits r t τ) :
    ∃ rejected : List Visit, (∀ visit ∈ rejected, visit.Gives links none) ∧
      ((r.isEnding ∧ visits = rejected ++ [⟨r, []⟩]) ∨
        ∃ visit y, r = .item y ∧ visit.Gives links (some y) ∧ visits = rejected ++ [visit]) := by
  induction h with
  | ends _ ending => exact ⟨[], List.forall_mem_nil _, .inl ⟨ending, rfl⟩⟩
  | passes _ handles => exact ⟨[], List.forall_mem_nil _, .inr ⟨_, _, rfl, ⟨_, _, _, rfl, handles⟩, rfl⟩⟩
  | @rejects _ _ _ _ _ _ _ x calls _ _ _ handles _ ih =>
    obtain ⟨rejected, hrejected, hlast⟩ := ih
    have hfirst : Visit.Gives links ⟨.item x, calls⟩ none := ⟨x, _, _, rfl, handles⟩
    refine ⟨_ :: rejected, List.forall_mem_cons.mpr ⟨hfirst, hrejected⟩, ?_⟩
    rcases hlast with ⟨hending, rfl⟩ | ⟨visit, y, hr, hgives, rfl⟩
    · exact .inl ⟨hending, rfl⟩
    · exact .inr ⟨visit, y, hr, hgives, rfl⟩

lemma gives_of_mem_rejected {rejected : List Visit} (h : ∀ visit ∈ rejected, visit.Gives links none) :
    ∀ p ∈ rejected.map (·, none), p.1.Gives links p.2 := by
  intro p hp
  obtain ⟨visit, hvisit, rfl⟩ := List.mem_map.mp hp
  exact h visit hvisit

/-- **The traces of all pulls together are item by item.** -/
theorem Traced.itemByItem (h : Traced links s history traces) :
    ItemByItem links (history.map (·.2.1)) traces.flatten := by
  induction h with
  | start => exact ⟨[], none, 0, by simp⟩
  | @item _ _ _ _ y _ history _ serves _ ih =>
    obtain ⟨rejected, hrejected, ⟨hending, -⟩ | ⟨visit, y', hy, hgives, rfl⟩⟩ := serves.taken
    · cases hending
    cases hy
    obtain ⟨taken, ending, more, htaken, hending, hvisits, hreplies, hnone⟩ := ih
    refine ⟨rejected.map (·, none) ++ (visit, some y) :: taken, ending, more, ?_, hending, ?_, ?_, fun h => ?_⟩
    · rw [List.forall_mem_append, List.forall_mem_cons]
      exact ⟨gives_of_mem_rejected hrejected, hgives, htaken⟩
    · simp [hvisits, Function.comp_def]
    · simp [hreplies]
    · obtain ⟨hmore, hlast⟩ := hnone h
      refine ⟨hmore, fun p hp => ?_⟩
      rw [List.getLast?_append, List.getLast?_cons, Option.some_or] at hp
      cases hp
      cases htail : taken.getLast? with
      | none => rfl
      | some p => exact hlast p htail
  | @ending _ _ _ _ r _ history serves ending rest =>
    obtain ⟨rejected, hrejected, ⟨-, rfl⟩ | ⟨visit, y, rfl, -, -⟩⟩ := serves.taken
    · have hfinished : history.map (·.2.1) = List.replicate history.length .finished := by
        refine List.eq_replicate_iff.mpr ⟨by simp, fun r' hr' => ?_⟩
        obtain ⟨pull, hpull, rfl⟩ := List.mem_map.mp hr'
        obtain ⟨υ, rfl⟩ := rest pull hpull
        rfl
      refine ⟨rejected.map (·, none), some r, history.length, gives_of_mem_rejected hrejected, ?_, ?_, ?_, ?_⟩
      · rintro r' ⟨⟩
        exact ending
      · simp [Function.comp_def]
      · simp [hfinished]
      · rintro ⟨⟩
    · cases ending

end ItemByItem

end Sequence

/-! ### Queries -/

namespace Engine

variable (engine : Engine)

/-- **Chains work item by item.**  The parts of a chain on a source come to a sequence such that:

* its histories of pulls are those in which each pull does what its trace says, and nothing else; there is one such trace;
* over any number of pulls the trace is that of the items taken from the source, one after another, up to the one that gives
  the last reply, or up to the pull that brings the ending of the source;
* for each item there is at most one call of each function, in the order of the parts, and one of all functions unless the
  item is rejected. -/
theorem chains_work_item_by_item (source : Sequence) (links : List Link) :
    ∃ out, (engine.executeSequence source (links.map Link.part)).unlogged = pure (.sequence out) ∧
      (∀ history, (∃ u, Pulled out history u) ↔ ∃ traces, Traced links source history traces) ∧
      (∀ history traces, Traced links source history traces →
        (∀ traces', Traced links source history traces' → traces' = traces) ∧
        ItemByItem links (history.map (·.2.1)) traces.flatten) ∧
      ∀ σ x calls result τ, Handles links σ x calls result τ →
        calls.map Call.function <+: links.map Link.function ∧
        (result.isSome → calls.map Call.function = links.map Link.function) := by
  refine ⟨source.chained links, ?_, fun history => pulled_iff_traced, fun history traces htraced => ?_, ?_⟩
  · have hlazy : ∀ part ∈ links.map Link.part, part.IsLazy := by
      intro part hpart
      obtain ⟨link, -, rfl⟩ := List.mem_map.mp hpart
      exact link.isLazy_part
    rw [engine.executeSequence_of_isLazy source hlazy, stagesOf_links]
    rfl
  · exact ⟨fun traces' htraced' => htraced'.unique htraced, htraced.itemByItem⟩
  · intro σ x calls result τ hhandles
    exact hhandles.functions

/-- A pull of a selection and a filter that report what they do is one pull of the source and one call of each. -/
theorem chains_work_item_by_item_reporting :
    ∃ out u, (executeSequence ⟨{}, "q", 0⟩ reportingSource [⟨.select, [.function reportingFunction]⟩,
        ⟨.filter, [.function (.predicate fun _ => do report "kept"; return true)]⟩]).unlogged = pure (.sequence out) ∧
      Pulled out [({}, .item .null, ⟨0, #["pull", "null", "kept"]⟩)] u := by
  let keeping : Callable := .predicate fun _ => do report "kept"; return true
  obtain ⟨out, hout, hhistories, -⟩ := chains_work_item_by_item ⟨{}, "q", 0⟩ reportingSource
    [⟨true, reportingFunction, []⟩, ⟨false, keeping, []⟩]
  have hpull : Pulls {} reportingSource (.item .null) reportingSource ⟨0, #["pull"]⟩ := .reply rfl
  have hselect : reportingFunction.call .null ⟨0, #["pull"]⟩ = (.null, ⟨0, #["pull", "null"]⟩) := rfl
  have hkeep : keeping.call .null ⟨0, #["pull", "null"]⟩ = (.bool true, ⟨0, #["pull", "null", "kept"]⟩) := rfl
  have hhandles : Handles [⟨true, reportingFunction, []⟩, ⟨false, keeping, []⟩] _ _ _ (some .null) _ :=
    .handed hselect rfl (.handed hkeep rfl .passed)
  obtain ⟨u, hpulled⟩ := (hhistories _).mpr ⟨_, .item (.passes hpull hhandles) .start⟩
  exact ⟨out, u, hout, hpulled⟩

end Engine

end LazyQuery
