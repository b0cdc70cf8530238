import LazyQuery.Proofs.Engine.Logging

/-!
# A configuration only filters the log

Two engines that differ in their configuration come to the same for every query.  What they log is the story of the
execution, and each shows of it what its configuration lets through; so the log under any configuration is that of the
verbose one with some of the records left out (`Execution.relog`).  The default configuration leaves out all but a
rejection.

The main statement is `Engine.configuration_only_filters_the_log`.
-/

namespace LazyQuery

/-- The record as it is in an execution with another identifier. -/
def Log.Record.tagged (queryId : String) (record : Log.Record) : Log.Record :=
  { record with fields := record.fields.map fun field => if field.1 = "query_id" then (field.1, queryId) else field }

namespace Execution

variable {α : Type} {work work' : Execution α} {σ τ : Session} {log : List Log.Record}
  {r : Option (Except QueryError α)} {f : List Log.Record → List Log.Record}

/-- The execution with its log changed. -/
def relog (f : List Log.Record → List Log.Record) (work : Execution α) : Execution α :=
  ExceptT.mk (OptionT.mk ((do
    let (r, log) ← work.run.run.run
    return (r, f log) : Eff _) : Logged (Option (Except QueryError α))))

lemma run_relog (h : work.run.run.run σ = ((r, log), τ)) : (work.relog f).run.run.run σ = ((r, f log), τ) :=
  Eff.bind_run h

/-- Executions are one if they come out and log the same in every session. -/
lemma eq_relog (h : ∀ σ, ∃ r log τ, work'.run.run.run σ = ((r, log), τ) ∧ work.run.run.run σ = ((r, f log), τ)) :
    work = work'.relog f := by
  apply ExceptT.ext
  apply OptionT.ext
  funext σ
  obtain ⟨r, log, τ, hwork', hwork⟩ := h σ
  exact hwork.trans (run_relog hwork').symm

/-- What is done with the log does not show in the work. -/
lemma unlogged_relog : (work.relog f).unlogged = work.unlogged := rfl

end Execution

namespace Engine

/-- What the configuration shows of the records of an execution with another identifier. -/
def shown (config : Config) (queryId : String) (log : List Log.Record) : List Log.Record :=
  (log.filter config.shows).map (.tagged queryId)

/-- What is logged of a result where only failures are. -/
def failure (engine : Engine) (parts : List Part) : Option (Except QueryError Output) → List Log.Record
  | some (.error e) => [engine.rejected parts e]
  | _ => []

section Filtering

variable (config : Config) (queryId queryId' : String) (budget : Nat) (source : Sequence) (item : Item) (parts : List Part)

/-- The rejection of a query is the same under all configurations, but for the identifier. -/
lemma tagged_rejected (e : QueryError) :
    [rejected ⟨.verbose, queryId', budget⟩ parts e].map (.tagged queryId) =
      [rejected ⟨config, queryId, budget⟩ parts e] := by
  simp [rejected, Log.Record.ofEvent, Log.Record.tagged]

/-- And so is the story of an execution. -/
lemma tagged_story (σ : Session) :
    (story ⟨.verbose, queryId', budget⟩ source parts σ).map (.tagged queryId) =
      story ⟨config, queryId, budget⟩ source parts σ := by
  have hbegun : (begun ⟨.verbose, queryId', budget⟩ parts).tagged queryId = begun ⟨config, queryId, budget⟩ parts := by
    simp [begun, Log.Record.ofEvent, Log.Record.tagged]
  have hpiece : Log.Record.tagged queryId ∘ Segment.record queryId' = Segment.record queryId := by
    funext piece
    cases piece <;> simp [Segment.record, Log.Record.ofEvent, Log.Record.tagged]
  have houtcome (r : Option (Except QueryError Output)) :
      (outcome ⟨.verbose, queryId', budget⟩ parts r).map (.tagged queryId) = outcome ⟨config, queryId, budget⟩ parts r := by
    rcases r with _ | e | output
    · rfl
    · exact tagged_rejected config queryId queryId' budget parts e
    · simp [outcome, completed, Log.Record.ofEvent, Log.Record.tagged]
  rw [story, story, List.map_cons, List.map_append, List.map_map, hbegun, hpiece, houtcome]

/-- The verbose configuration shows all records, and the given one some of them. -/
lemma shown_verbose {log log' : List Log.Record} (h : log.map (.tagged queryId) = log') :
    shown config queryId (log.filter Config.verbose.shows) = log'.filter config.shows := by
  rw [List.filter_eq_self.mpr fun record _ => Config.shows_verbose record, shown, ← h, List.filter_map]
  rfl

lemma executeSequence_eq_relog :
    executeSequence ⟨config, queryId, budget⟩ source parts =
      (executeSequence ⟨.verbose, queryId', budget⟩ source parts).relog (shown config queryId) := by
  refine Execution.eq_relog fun σ => ?_
  rcases hrun : (interpret budget (segments parts) (.sequence source)).run.run σ with ⟨r, τ⟩
  refine ⟨r, _, τ, executeSequence_logs ⟨.verbose, queryId', budget⟩ hrun, ?_⟩
  rw [shown_verbose config queryId (tagged_story config queryId queryId' budget source parts σ)]
  exact executeSequence_logs ⟨config, queryId, budget⟩ hrun

lemma execute_eq_relog :
    execute ⟨config, queryId, budget⟩ item parts =
      (execute ⟨.verbose, queryId', budget⟩ item parts).relog (shown config queryId) := by
  rw [execute, execute]
  cases hparts : parts.isEmpty with
  | true => cases Sequence.ofItem? item <;> rfl
  | false =>
    cases Sequence.ofItem? item with
    | ok s => exact executeSequence_eq_relog config queryId queryId' budget s parts
    | error e =>
      refine Execution.eq_relog fun σ => ⟨some (.error e), _, σ, reject_run ⟨.verbose, queryId', budget⟩ parts e σ, ?_⟩
      rw [shown_verbose config queryId (tagged_rejected config queryId queryId' budget parts e)]
      exact reject_run ⟨config, queryId, budget⟩ parts e σ

end Filtering

/-! ### The default configuration -/

section Default

variable (queryId : String) (budget : Nat) (parts : List Part)

/-- The default configuration shows nothing of a story but that the query is rejected. -/
lemma story_default {source : Sequence} {σ τ : Session} {r : Option (Except QueryError Output)}
    (hrun : (interpret budget (segments parts) (.sequence source)).run.run σ = (r, τ)) :
    (story ⟨{}, queryId, budget⟩ source parts σ).filter ({} : Config).shows = failure ⟨{}, queryId, budget⟩ parts r := by
  have hpieces (pieces : List Segment) :
      (pieces.map (Segment.record queryId)).filter ({} : Config).shows = [] := by
    refine List.filter_eq_nil_iff.mpr ?_
    simp only [List.forall_mem_map]
    intro piece _
    cases piece <;> exact Bool.false_ne_true
  have hbegun : ({} : Config).shows (begun ⟨{}, queryId, budget⟩ parts) = false := rfl
  rw [story, hrun, List.filter_cons_of_neg (by simp [hbegun]), List.filter_append, hpieces, List.nil_append]
  rcases r with _ | e | output <;> rfl

lemma executeSequence_default (source : Sequence) (σ : Session) : ∃ r τ,
    (executeSequence ⟨{}, queryId, budget⟩ source parts).run.run.run σ =
      ((r, failure ⟨{}, queryId, budget⟩ parts r), τ) := by
  rcases hrun : (interpret budget (segments parts) (.sequence source)).run.run σ with ⟨r, τ⟩
  refine ⟨r, τ, ?_⟩
  rw [← story_default queryId budget parts hrun]
  exact executeSequence_logs ⟨{}, queryId, budget⟩ hrun

lemma execute_default (item : Item) (σ : Session) : ∃ r τ,
    (execute ⟨{}, queryId, budget⟩ item parts).run.run.run σ = ((r, failure ⟨{}, queryId, budget⟩ parts r), τ) := by
  rw [execute]
  cases hparts : parts.isEmpty with
  | true =>
    cases Sequence.ofItem? item with
    | ok s => exact ⟨some (.ok (.sequence s)), σ, rfl⟩
    | error e => exact ⟨some (.ok (.value item)), σ, rfl⟩
  | false =>
    cases Sequence.ofItem? item with
    | ok s => exact executeSequence_default queryId budget parts s σ
    | error e => exact ⟨some (.error e), σ, reject_run ⟨{}, queryId, budget⟩ parts e σ⟩

end Default

/-- **A configuration only filters the log.**

* Executing a query under any configuration is executing it under the verbose one, its records put under the own
  identifier and only those logged that the configuration shows: the ones that are grave enough, and dispatches only if
  they are traced.
* So two configurations differ in nothing but their logs.
* Under the default configuration, a query that comes to an output logs nothing, and one that fails logs one record, which
  says so. -/
theorem configuration_only_filters_the_log (queryId queryId' : String) (budget : Nat) (parts : List Part) :
    (∀ config source, executeSequence ⟨config, queryId, budget⟩ source parts =
      (executeSequence ⟨.verbose, queryId', budget⟩ source parts).relog (shown config queryId)) ∧
    (∀ config item, execute ⟨config, queryId, budget⟩ item parts =
      (execute ⟨.verbose, queryId', budget⟩ item parts).relog (shown config queryId)) ∧
    (∀ config config' source, (executeSequence ⟨config, queryId, budget⟩ source parts).unlogged =
      (executeSequence ⟨config', queryId', budget⟩ source parts).unlogged) ∧
    (∀ config config' item, (execute ⟨config, queryId, budget⟩ item parts).unlogged =
      (execute ⟨config', queryId', budget⟩ item parts).unlogged) ∧
    (∀ source σ, ∃ r τ, (executeSequence ⟨{}, queryId, budget⟩ source parts).run.run.run σ =
      ((r, failure ⟨{}, queryId, budget⟩ parts r), τ)) ∧
    ∀ item σ, ∃ r τ, (execute ⟨{}, queryId, budget⟩ item parts).run.run.run σ =
      ((r, failure ⟨{}, queryId, budget⟩ parts r), τ) := by
  refine ⟨fun config source => executeSequence_eq_relog config queryId queryId' budget source parts,
    fun config item => execute_eq_relog config queryId queryId' budget item parts, fun config config' source => ?_,
    fun config config' item => ?_, executeSequence_default queryId budget parts, execute_default queryId budget parts⟩
  · rw [executeSequence_eq_relog config queryId queryId', executeSequence_eq_relog config' queryId' queryId',
      Execution.unlogged_relog, Execution.unlogged_relog]
  · rw [execute_eq_relog config queryId queryId', execute_eq_relog config' queryId' queryId', Execution.unlogged_relog,
      Execution.unlogged_relog]

/-- A query that is refused for its argument logs three records if all are shown, one if only failures are, and none if
only what is fatal is shown. -/
example : ((executeSequence ⟨.verbose, "q", 0⟩ .empty [⟨.take, []⟩]).run.run.run {}).1.2.length = 3 ∧
    ((executeSequence ⟨.quiet, "q", 0⟩ .empty [⟨.take, []⟩]).run.run.run {}).1.2.length = 1 ∧
    ((executeSequence ⟨⟨.fatal, true⟩, "q", 0⟩ .empty [⟨.take, []⟩]).run.run.run {}).1.2.length = 0 := by decide

end Engine

end LazyQuery
