import LazyQuery.Engine.Execute
import Mathlib.Tactic.Lemma

/-!
# Executions without their log

Dropping the log of an execution leaves the work that it does on the query.  It goes through the steps of an execution
one by one (`Execution.unlogged_bind`, `Execution.unlogged_tryCatch`), and what an engine does for its log alone vanishes
(`Engine.unlogged_emit`).  So an execution on a sequence is the run over its parts
(`Engine.unlogged_executeSequence`).
-/

namespace LazyQuery

/-! ### Work that logs -/

namespace Logged

variable {α β : Type}

lemma id_map (work : Logged α) : id <$> work = work := by
  funext s
  show ((_, _ ++ []), _) = _
  rw [List.append_nil]
  rfl

lemma bind_assoc {γ : Type} (work : Logged α) (next : α → Logged β) (last : β → Logged γ) :
    work >>= next >>= last = work >>= fun a => next a >>= last := by
  funext s
  show ((_, (_ ++ _) ++ _), _) = _
  rw [List.append_assoc]
  rfl

instance : LawfulMonad Logged :=
  LawfulMonad.mk' Logged id_map (fun _ _ => rfl) bind_assoc

lemma unlogged_bind (work : Logged α) (next : α → Logged β) :
    (work >>= next).unlogged = work.unlogged >>= fun a => (next a).unlogged := rfl

end Logged

/-! ### Evaluations -/

namespace Eval

variable {α : Type}

/-- Evaluations that do the same work are one. -/
lemma ext_run {x y : Eval α} (h : x.run.run = y.run.run) : x = y :=
  ExceptT.ext (OptionT.ext h)

/-- Looking at how an evaluation comes out and then going on with that is the evaluation. -/
lemma tryCatch_bind (x : Eval α) :
    (tryCatch (Except.ok <$> x) (fun e => pure (.error e)) >>= fun
      | .ok a => pure a
      | .error e => throw e) = x := by
  funext s
  simp only [tryCatch, tryCatchThe, MonadExceptOf.tryCatch, ExceptT.tryCatch, Functor.map, ExceptT.map, bind,
    ExceptT.bind, OptionT.bind, ExceptT.mk, OptionT.mk, StateT.bind]
  rcases x s with ⟨_ | _ | _, t⟩ <;> rfl

end Eval

/-! ### Executions -/

namespace Execution

variable {α β : Type}

lemma run_unlogged (work : Execution α) : work.unlogged.run.run = work.run.run.unlogged := rfl

@[simp] lemma unlogged_pure (a : α) : (pure a : Execution α).unlogged = pure a := rfl

@[simp] lemma unlogged_throw (e : QueryError) : (throw e : Execution α).unlogged = throw e := rfl

@[simp] lemma unlogged_silent (work : Eval α) : (silent work).unlogged = work := rfl

@[simp] lemma unlogged_ofExcept (result : Except QueryError α) :
    (ofExcept result).unlogged = Eval.ofExcept result := rfl

@[simp] lemma unlogged_bind (work : Execution α) (next : α → Execution β) :
    (work >>= next).unlogged = work.unlogged >>= fun a => (next a).unlogged := by
  apply Eval.ext_run
  rw [run_unlogged]
  simp only [ExceptT.run_bind, OptionT.run_bind, Option.elimM, Logged.unlogged_bind, run_unlogged]
  congr 1
  funext r
  rcases r with _ | _ | _ <;> rfl

@[simp] lemma unlogged_map (f : α → β) (work : Execution α) : (f <$> work).unlogged = f <$> work.unlogged := by
  rw [← bind_pure_comp, unlogged_bind, ← bind_pure_comp]
  rfl

@[simp] lemma unlogged_tryCatch (work : Execution α) (handler : QueryError → Execution α) :
    (tryCatch work handler).unlogged = tryCatch work.unlogged fun e => (handler e).unlogged := by
  apply Eval.ext_run
  rw [run_unlogged]
  simp only [tryCatch, tryCatchThe, MonadExceptOf.tryCatch, ExceptT.tryCatch, ExceptT.run_mk, OptionT.run_bind,
    Option.elimM, Logged.unlogged_bind]
  congr 1
  funext r
  rcases r with _ | _ | _ <;> rfl

/-- What is done for the log alone does not show. -/
lemma unlogged_lift {work : Logged Unit} (h : work.unlogged = pure ()) :
    (liftM work : Execution Unit).unlogged = pure () := by
  have hlift : (liftM work : Execution Unit).unlogged = liftM work.unlogged := rfl
  rw [hlift, h]
  rfl

end Execution

/-! ### Engines -/

namespace Engine

variable (engine : Engine)

@[simp] lemma unlogged_emit (event : Log.Event) (fields : List (String × String)) :
    (liftM (engine.emit event fields) : Execution Unit).unlogged = pure () := by
  apply Execution.unlogged_lift
  unfold emit
  split <;> rfl

@[simp] lemma unlogged_flush_nil (current : Output) : (engine.flush [] current).unlogged = pure current := by
  simp [flush]

lemma unlogged_flush {keys : List SortKey} (h : keys ≠ []) (current : Output) :
    (engine.flush keys current).unlogged = do
      return .sequence ((← Eval.ofExcept current.toSequence).sorted keys) := by
  simp [flush, h]

@[simp] lemma unlogged_dispatch (current : Output) (part : Part) :
    (engine.dispatch current part).unlogged = apply engine.budget current part := by
  unfold dispatch
  split <;> simp

/-- **An execution on a sequence is the run over its parts.** -/
theorem unlogged_executeSequence (source : Sequence) (parts : List Part) :
    (engine.executeSequence source parts).unlogged = (engine.run [] (.sequence source) parts).unlogged := by
  unfold executeSequence complete reject
  simp only [Execution.unlogged_bind, unlogged_emit, pure_bind, Execution.unlogged_tryCatch, Execution.unlogged_map,
    Execution.unlogged_pure]
  refine Eq.trans (bind_congr fun outcome => ?_) (Eval.tryCatch_bind _)
  rcases outcome with e | output
  · simp
  · simp

end Engine

end LazyQuery
