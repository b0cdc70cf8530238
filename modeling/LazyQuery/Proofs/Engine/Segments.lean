import LazyQuery.Proofs.Engine.Unlogged
import Mathlib.Data.List.TakeWhile

/-!
# Queries piece by piece

A query falls into maximal ordering runs and single other parts (`segments`).  Executing it is going through these pieces
from left to right (`interpret`): a single part is applied to what there is so far, and an ordering run reads all its keys
and then sorts once by all of them.

The engine reads the parts one by one and keeps the keys of the open run beside the value from before the run.  What such
a state still has to do is said by `resume`, and the run from each state does that (`unlogged_run`); the main statement is
`unlogged_execute_eq_interpret`.
-/

namespace LazyQuery

/-! ### Pieces -/

/-- A piece of a query that is executed at one go. -/
inductive Segment where
  /-- An ordering part and the parts that refine its ordering. -/
  | ordering (first : Part) (refining : List Part)
  /-- A part that is no ordering part. -/
  | single (part : Part)

namespace Part

def isOrdering (part : Part) : Bool :=
  part.operator.isOrdering

def refinesOrdering (part : Part) : Bool :=
  part.operator.continuesOrdering

end Part

/-- **The pieces of a query.**  An ordering part takes all refining parts that directly follow it into its run; a refining
part that follows no ordering part starts a run of its own. -/
def segments : List Part → List Segment
  | [] => []
  | part :: parts =>
    if part.isOrdering then
      .ordering part (parts.takeWhile Part.refinesOrdering) :: segments (parts.dropWhile Part.refinesOrdering)
    else .single part :: segments parts
termination_by parts => parts.length
decreasing_by
  · exact Nat.lt_succ_of_le (List.dropWhile_sublist _).length_le
  · exact Nat.lt_succ_self _

namespace Segment

def parts : Segment → List Part
  | .ordering first refining => first :: refining
  | .single part => [part]

end Segment

/-- No part is lost, and none changes its place. -/
theorem flatMap_parts_segments (parts : List Part) : (segments parts).flatMap Segment.parts = parts := by
  induction parts using segments.induct with
  | case1 => simp [segments]
  | case2 part parts hpart ih =>
    rw [segments, if_pos hpart, List.flatMap_cons, ih]
    simp [Segment.parts, List.takeWhile_append_dropWhile]
  | case3 part parts hpart ih =>
    rw [segments, if_neg hpart, List.flatMap_cons, ih]
    simp [Segment.parts]

/-- A run is a query of one piece. -/
lemma segments_run {first : Part} {refining : List Part} (hfirst : first.isOrdering)
    (hrefining : ∀ part ∈ refining, part.refinesOrdering) : segments (first :: refining) = [.ordering first refining] := by
  rw [segments, if_pos hfirst, List.takeWhile_eq_self_iff.mpr hrefining, List.dropWhile_eq_nil_iff.mpr hrefining]
  simp [segments]

lemma isOrdering_of_refines {part : Part} (h : part.refinesOrdering) : part.isOrdering := by
  obtain ⟨operator, arguments⟩ := part
  cases operator <;> first | rfl | cases h

/-- In an ordering run there are ordering parts only. -/
lemma isOrdering_of_mem_segments {first : Part} {refining parts : List Part}
    (h : Segment.ordering first refining ∈ segments parts) : ∀ part ∈ first :: refining, part.isOrdering := by
  induction parts using segments.induct with
  | case1 => simp [segments] at h
  | case2 part parts hpart ih =>
    rw [segments, if_pos hpart] at h
    rcases List.mem_cons.mp h with hhead | htail
    · cases hhead
      intro part' hpart'
      rcases List.mem_cons.mp hpart' with rfl | hpart'
      · exact hpart
      · exact isOrdering_of_refines (List.mem_takeWhile_imp hpart')
    · exact ih htail
  | case3 part parts hpart ih =>
    rw [segments, if_neg hpart] at h
    rcases List.mem_cons.mp h with hhead | htail
    · cases hhead
    · exact ih htail

/-- The pieces of a query of ordering parts are ordering runs. -/
lemma ordering_of_mem_segments {parts : List Part} (h : ∀ part ∈ parts, part.isOrdering) :
    ∀ run ∈ segments parts, ∃ first refining, run = .ordering first refining := by
  induction parts using segments.induct with
  | case1 => simp [segments]
  | case2 part parts hpart ih =>
    rw [segments, if_pos hpart]
    intro run hrun
    rcases List.mem_cons.mp hrun with rfl | hrun
    · exact ⟨part, _, rfl⟩
    · exact ih (fun part hmem => h part (List.mem_cons_of_mem _ ((List.dropWhile_sublist _).mem hmem))) run hrun
  | case3 part parts hpart _ => exact absurd (h part List.mem_cons_self) hpart

/-! ### Executing the pieces -/

/-- The keys of a run from left to right.  The first part without a function in its first place is refused. -/
def readKeys : List Part → Except QueryError (List SortKey)
  | [] => .ok []
  | part :: parts =>
    match part.function? 0 with
    | none => .error (.invalidArgument part.operator.name "missing key selector")
    | some selector => do
      let direction := if part.operator.isDescending then .descending else .ascending
      return ⟨selector, direction⟩ :: (← readKeys parts)

/-- One piece, executed on what there is so far. -/
def Segment.interpret (budget : Nat) (current : Output) : Segment → Eval Output
  | .ordering first refining => do
    let keys ← Eval.ofExcept (readKeys (first :: refining))
    let source ← Eval.ofExcept current.toSequence
    return .sequence (source.sorted keys)
  | .single part => apply budget current part

/-- The pieces, executed from left to right. -/
def interpret (budget : Nat) : List Segment → Output → Eval Output
  | [], current => return current
  | segment :: rest, current => do interpret budget rest (← segment.interpret budget current)

/-! ### The state of a run -/

/-- What is still to be done when the parts are left, `current` is the output from before the open run and `pending` are
the keys that have been read of it.  Without such keys no run is open. -/
def resume (budget : Nat) (pending : List SortKey) (current : Output) (parts : List Part) : Eval Output :=
  if pending.isEmpty then interpret budget (segments parts) current
  else do
    let keys ← Eval.ofExcept (readKeys (parts.takeWhile Part.refinesOrdering))
    let source ← Eval.ofExcept current.toSequence
    interpret budget (segments (parts.dropWhile Part.refinesOrdering)) (.sequence (source.sorted (pending ++ keys)))

section Steps

variable {budget : Nat} {pending : List SortKey} {current : Output} {part : Part} {parts : List Part}

lemma resume_nil : resume budget [] current parts = interpret budget (segments parts) current := rfl

lemma resume_of_ne_nil (h : pending ≠ []) :
    resume budget pending current parts =
      Eval.ofExcept (readKeys (parts.takeWhile Part.refinesOrdering)) >>= fun keys =>
        Eval.ofExcept current.toSequence >>= fun source =>
          interpret budget (segments (parts.dropWhile Part.refinesOrdering))
            (.sequence (source.sorted (pending ++ keys))) := by
  rw [resume, if_neg (by simpa using h)]

lemma Eval.ofExcept_bind {α β : Type} (x : Except QueryError α) (f : α → Except QueryError β) :
    Eval.ofExcept (x >>= f) = Eval.ofExcept x >>= fun a => Eval.ofExcept (f a) := by
  rcases x with e | a
  · rfl
  · exact (pure_bind a fun a => Eval.ofExcept (f a)).symm

lemma bind_eq_ok {α β : Type} {x : Except QueryError α} {f : α → Except QueryError β} {b : β} (h : x >>= f = .ok b) :
    ∃ a, x = .ok a ∧ f a = .ok b := by
  rcases x with e | a
  · cases h
  · exact ⟨a, rfl, h⟩

lemma bind_eq_error {α β : Type} {x : Except QueryError α} {f : α → Except QueryError β} {e : QueryError}
    (h : x >>= f = .error e) : x = .error e ∨ ∃ a, x = .ok a ∧ f a = .error e := by
  rcases x with e' | a
  · cases h
    exact .inl rfl
  · exact .inr ⟨a, rfl, h⟩

/-- Reading the keys of a run is reading that of its first part and then those of the others. -/
lemma readKeys_cons (part : Part) (parts : List Part) :
    readKeys (part :: parts) = SortKey.ofPart part >>= fun key => (key :: ·) <$> readKeys parts := by
  rw [readKeys]
  unfold SortKey.ofPart Part.requireFunction
  rcases part.function? 0 with _ | selector
  · rfl
  · rfl

lemma readKeys_cons_eq_ok {part : Part} {parts : List Part} {keys : List SortKey} :
    readKeys (part :: parts) = .ok keys ↔
      ∃ key rest, SortKey.ofPart part = .ok key ∧ readKeys parts = .ok rest ∧ keys = key :: rest := by
  rw [readKeys_cons]
  rcases SortKey.ofPart part with e | key
  · simp [bind, Except.bind]
  · rcases readKeys parts with e | rest
    · simp [bind, Except.bind, Functor.map, Except.map]
    · simp [bind, Except.bind, Functor.map, Except.map, eq_comm]

lemma ofExcept_readKeys_cons (part : Part) (parts : List Part) :
    Eval.ofExcept (readKeys (part :: parts)) = Eval.ofExcept (SortKey.ofPart part) >>= fun key =>
      Eval.ofExcept (readKeys parts) >>= fun keys => pure (key :: keys) := by
  rw [readKeys_cons, Eval.ofExcept_bind]
  congr 1
  funext key
  rcases readKeys parts with e | keys
  · rfl
  · rfl

/-- An ordering part opens a run where none is open. -/
lemma resume_ordering (hpart : part.isOrdering = true) :
    resume budget [] current (part :: parts) =
      Eval.ofExcept (SortKey.ofPart part) >>= fun key => resume budget [key] current parts := by
  rw [resume_nil, segments, if_pos hpart]
  simp only [resume_of_ne_nil (List.cons_ne_nil _ _), interpret, Segment.interpret, ofExcept_readKeys_cons, bind_assoc,
    pure_bind, List.singleton_append]

/-- A part that is no ordering part is applied where no run is open. -/
lemma resume_single (hpart : part.isOrdering = false) :
    resume budget [] current (part :: parts) =
      apply budget current part >>= fun current => resume budget [] current parts := by
  rw [resume_nil, segments, if_neg (by simp [hpart])]
  rfl

/-- A refining part joins the open run. -/
lemma resume_refining (hpending : pending ≠ []) (hpart : part.refinesOrdering = true) :
    resume budget pending current (part :: parts) =
      Eval.ofExcept (SortKey.ofPart part) >>= fun key => resume budget (pending ++ [key]) current parts := by
  have happend : ∀ key, pending ++ [key] ≠ [] := by simp
  simp only [resume_of_ne_nil hpending, resume_of_ne_nil (happend _), List.takeWhile_cons_of_pos hpart,
    List.dropWhile_cons_of_pos hpart, ofExcept_readKeys_cons, bind_assoc, pure_bind, List.append_assoc,
    List.singleton_append]

/-- What does not refine the ordering closes the open run. -/
lemma resume_closing (hpending : pending ≠ []) (hparts : ∀ part ∈ parts.head?, part.refinesOrdering = false) :
    resume budget pending current parts = Eval.ofExcept current.toSequence >>= fun source =>
      resume budget [] (.sequence (source.sorted pending)) parts := by
  have htake : parts.takeWhile Part.refinesOrdering = [] := by
    rcases parts with _ | ⟨part, parts⟩
    · rfl
    · exact List.takeWhile_cons_of_neg (by simp [hparts part rfl])
  have hdrop : parts.dropWhile Part.refinesOrdering = parts := by
    rcases parts with _ | ⟨part, parts⟩
    · rfl
    · exact List.dropWhile_cons_of_neg (by simp [hparts part rfl])
  have hkeys : Eval.ofExcept (readKeys []) = pure [] := rfl
  rw [resume_of_ne_nil hpending, htake, hdrop, hkeys, pure_bind, List.append_nil]
  rfl

end Steps

/-! ### The run -/

namespace Engine

variable (engine : Engine)

/-- What a run does from a state in which no run is open, or after it has closed the open one. -/
lemma unlogged_flush_bind (pending : List SortKey) (current : Output) {parts : List Part}
    (hparts : ∀ part ∈ parts.head?, part.refinesOrdering = false) :
    ((engine.flush pending current).unlogged >>= fun current => resume engine.budget [] current parts) =
      resume engine.budget pending current parts := by
  by_cases hpending : pending = []
  · rw [hpending, unlogged_flush_nil, pure_bind]
  · rw [unlogged_flush engine hpending, resume_closing hpending hparts]
    simp only [bind_assoc, pure_bind]

/-- **The run from each state does what that state has still to do.** -/
theorem unlogged_run (pending : List SortKey) (current : Output) (parts : List Part) :
    (engine.run pending current parts).unlogged = resume engine.budget pending current parts := by
  induction parts generalizing pending current with
  | nil =>
    rw [run, ← engine.unlogged_flush_bind pending current (by simp)]
    simp [resume, segments, interpret]
  | cons part parts ih =>
    unfold run
    split
    · -- a refining part joins the open run, or opens one
      next direction hoperator =>
      have hrefines : part.refinesOrdering = true := by simp [Part.refinesOrdering, hoperator, Operator.continuesOrdering]
      have horders : part.isOrdering = true := by simp [Part.isOrdering, hoperator, Operator.isOrdering]
      simp only [Execution.unlogged_bind, Execution.unlogged_ofExcept, ih]
      by_cases hpending : pending = []
      · rw [hpending, resume_ordering horders]
        rfl
      · rw [resume_refining hpending hrefines]
    · -- a starting part closes the open run and opens its own
      next direction hoperator =>
      have hrefines : part.refinesOrdering = false := by simp [Part.refinesOrdering, hoperator, Operator.continuesOrdering]
      have horders : part.isOrdering = true := by simp [Part.isOrdering, hoperator, Operator.isOrdering]
      rw [← engine.unlogged_flush_bind pending current (by simpa using hrefines)]
      simp only [Execution.unlogged_bind, Execution.unlogged_ofExcept, ih, resume_ordering horders]
    · -- any other part closes the open run and is applied
      next hcontinues hstarts =>
      have hrefines : part.refinesOrdering = false := by
        unfold Part.refinesOrdering Operator.continuesOrdering
        split
        · next direction hoperator => exact absurd hoperator (hcontinues direction)
        · rfl
      have horders : part.isOrdering = false := by
        unfold Part.isOrdering Operator.isOrdering
        split
        · next place direction hoperator =>
          cases place with
          | starts => exact absurd hoperator (hstarts direction)
          | continues => exact absurd hoperator (hcontinues direction)
        · rfl
      rw [← engine.unlogged_flush_bind pending current (by simpa using hrefines)]
      simp only [Execution.unlogged_bind, unlogged_dispatch, ih, resume_single horders]

/-- On a sequence, the pieces are all that an execution does. -/
lemma executeSequence_segments (source : Sequence) (parts : List Part) :
    (engine.executeSequence source parts).unlogged = interpret engine.budget (segments parts) (.sequence source) := by
  rw [unlogged_executeSequence, unlogged_run, resume_nil]

/-- **Execution goes through the pieces of a query.**  On every sequence, and on every array unless there are no parts,
the parts come to what their maximal ordering runs and single other parts come to one after another. -/
theorem unlogged_execute_eq_interpret :
    (∀ source parts, (engine.executeSequence source parts).unlogged =
      interpret engine.budget (segments parts) (.sequence source)) ∧
    ∀ ref elements part parts, (engine.execute (.array ref elements) (part :: parts)).unlogged =
      interpret engine.budget (segments (part :: parts)) (.sequence (.ofItems elements)) := by
  refine ⟨engine.executeSequence_segments, ?_⟩
  intro ref elements part parts
  have hexecute : engine.execute (.array ref elements) (part :: parts) =
      engine.executeSequence (.ofItems elements) (part :: parts) := rfl
  rw [hexecute, executeSequence_segments]

end Engine

end LazyQuery
