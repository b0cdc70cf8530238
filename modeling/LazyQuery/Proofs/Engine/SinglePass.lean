import LazyQuery.Proofs.Engine.Segments
import LazyQuery.Proofs.Sequence.SinglePass

/-!
# Queries go through their source once

What a query comes to does not depend on what its source would do after its ending (`interpret_relapse`): an operator
that consumes its source asks it no further, and one that hands on a sequence puts its stages on it.  A sequence that a
query comes to is a fresh one (`interpret_ensures_fresh`).

Together with what holds of every sequence this is `Engine.sources_are_gone_through_once`.
-/

namespace LazyQuery

open Sequence

/-- The output with another sequence in the place of its sequence. -/
def Output.map (f : Sequence → Sequence) : Output → Output
  | .sequence s => .sequence (f s)
  | .value item => .value item
  | .absent => .absent

/-! ### Results of an evaluation -/

/-- All results of the evaluation are as `P` says. -/
def Eval.Ensures {α : Type} (x : Eval α) (P : α → Prop) : Prop :=
  ∀ σ a τ, x.run.run σ = (some (.ok a), τ) → P a

namespace Eval.Ensures

variable {α β : Type} {P : α → Prop} {Q : β → Prop}

lemma pure {a : α} (h : P a) : Eval.Ensures (Pure.pure a) P := by
  intro σ a' τ hrun
  cases hrun
  exact h

lemma ofExcept {result : Except QueryError α} (h : ∀ a, result = .ok a → P a) :
    Eval.Ensures (Eval.ofExcept result) P := by
  rcases result with e | a
  · intro σ a' τ hrun
    cases hrun
  · exact pure (h a rfl)

lemma bind {x : Eval α} {f : α → Eval β} (hx : x.Ensures P) (hf : ∀ a, P a → (f a).Ensures Q) :
    (x >>= f).Ensures Q := by
  intro σ b τ hrun
  obtain ⟨a, ω, hwork, hrest⟩ := Eval.exists_of_bind_run hrun
  exact hf a (hx σ a ω hwork) ω b τ hrest

/-- Nothing need be known of a first step. -/
lemma after {x : Eval α} {f : α → Eval β} (hf : ∀ a, (f a).Ensures Q) : (x >>= f).Ensures Q :=
  bind (P := fun _ => True) (fun _ _ _ _ => trivial) fun a _ => hf a

end Eval.Ensures

/-- Changing results that are none of those that there are changes nothing. -/
lemma Eval.map_eq_self {α : Type} {x : Eval α} {f : α → α} (h : x.Ensures fun a => f a = a) : f <$> x = x := by
  apply Eval.ext_run
  funext σ
  rw [← bind_pure_comp]
  rcases hwork : x.run.run σ with ⟨_ | e | a, ω⟩
  · rw [Eval.bind_run_of_none hwork]
  · rw [Eval.bind_run_of_error hwork]
  · rw [Eval.bind_run hwork]
    show (some (Except.ok (f a)), ω) = _
    rw [h σ a ω hwork]

/-! ### Operators that consume their source -/

/-- A consumption that does not get to what a producer would do after its ending, and that comes to no sequence. -/
def Settles (run : Nat → Sequence → Eval Output) : Prop :=
  ∀ budget s, (∀ again, run budget (s.relapse again) = run budget s) ∧
    (run budget s).Ensures fun out => ∀ t, out ≠ .sequence t

section Eagerly

variable {α β : Type}

/-- **Consuming a sequence does not get to what its producer would do after its ending.** -/
theorem reduce_relapse (again : Eff (Reply × Nat)) (step : α → Item → Eval (Verdict α β))
    (finish : α → Except QueryError β) (budget : Nat) (state : α) (s : Sequence) :
    reduce step finish budget state (s.relapse again) = reduce step finish budget state s := by
  induction budget generalizing state s with
  | zero => rfl
  | succ budget ih =>
    apply Eval.ext_run
    funext σ
    rcases hs : s.advance σ with ⟨⟨_ | x | e | _, t⟩, τ⟩
    · rw [reduce_of_work hs, reduce_of_work (advance_relapse hs), ih]
    · rw [reduce_of_item hs, reduce_of_item (advance_relapse hs)]
      simp only [ih]
    · rw [reduce_of_failure hs, reduce_of_failure (advance_relapse hs)]
    · rw [reduce_of_finished hs, reduce_of_finished (advance_relapse hs)]

/-- A result is settled if it is made of what a sequence is reduced to. -/
lemma settles_of_bind {body : Nat → Sequence → Eval α} {output : α → Output}
    (hbody : ∀ again budget s, body budget (s.relapse again) = body budget s) (houtput : ∀ a t, output a ≠ .sequence t) :
    Settles fun budget s => body budget s >>= fun a => pure (output a) := by
  intro budget s
  refine ⟨fun again => congrArg (· >>= _) (hbody again budget s), ?_⟩
  exact .after fun a => .pure (houtput a)

lemma settles_finding {run : Nat → Sequence → Eval (Option Item)}
    (hrun : ∀ again budget s, run budget (s.relapse again) = run budget s) :
    Settles fun budget s => return .ofOption (← run budget s) := by
  refine settles_of_bind hrun ?_
  intro found t
  cases found <;> simp [Output.ofOption]

lemma settles_value {run : Nat → Sequence → Eval α} (item : α → Item)
    (hrun : ∀ again budget s, run budget (s.relapse again) = run budget s) :
    Settles fun budget s => return .value (item (← run budget s)) :=
  settles_of_bind hrun (by simp)

lemma elementAt_relapse (again : Eff (Reply × Nat)) (whenAbsent : WhenAbsent) (index : Int) (budget : Nat)
    (s : Sequence) : elementAt whenAbsent index budget (s.relapse again) = elementAt whenAbsent index budget s := by
  unfold elementAt
  rw [reduce_relapse]

/-- **Every operator that consumes its source settles its result.** -/
theorem settles_of_plan {part : Part} {run : Nat → Sequence → Eval Output} (hplan : part.plan = .ok (.eagerly run)) :
    Settles run := by
  have hreduce {α β : Type} (step : α → Item → Eval (Verdict α β)) (finish : α → Except QueryError β) (state : α) :
      ∀ again budget (s : Sequence),
        reduce step finish budget state (s.relapse again) = reduce step finish budget state s :=
    fun again budget s => reduce_relapse again step finish budget state s
  obtain ⟨operator, arguments⟩ := part
  cases operator with
  | first | last | single =>
    cases hplan
    exact settles_finding (hreduce _ _ _)
  | elementAt =>
    obtain ⟨index, -, hrun⟩ := bind_eq_ok hplan
    cases hrun
    exact settles_finding fun again budget s => elementAt_relapse again _ index budget s
  | contains | sequenceEqual | all =>
    obtain ⟨argument, -, hrun⟩ := bind_eq_ok hplan
    cases hrun
    exact settles_value _ (hreduce _ _ _)
  | any | min | max | sum | average =>
    cases hplan
    exact settles_value _ (hreduce _ _ _)
  | count =>
    cases hplan
    exact settles_value _ fun again budget s => by rw [count, reduce_relapse]; rfl
  | aggregate =>
    obtain ⟨folder, -, hrun⟩ := bind_eq_ok hplan
    cases hrun
    exact settles_value id (hreduce _ _ _)
  | distinct | defaultIfEmpty | reverse => cases hplan
  | filter | ofType | cast | select | selectMany | take | skip | takeWhile | skipWhile | groupBy | concatWith | zip | union
  | intersect | except | order =>
    obtain ⟨argument, -, hrun⟩ := bind_eq_ok hplan
    cases hrun
  | joinWith | groupJoin =>
    obtain ⟨inner, -, hplan⟩ := bind_eq_ok hplan
    obtain ⟨outerKey, -, hplan⟩ := bind_eq_ok hplan
    obtain ⟨innerKey, -, hrun⟩ := bind_eq_ok hplan
    cases hrun

end Eagerly

/-! ### Applying parts and executing queries -/

/-- No sequence that is exhausted from the start. -/
def Output.Fresh (output : Output) : Prop :=
  ∀ s, output = .sequence s → s.isExhausted = false

section Relapse

variable (again : Eff (Reply × Nat)) (budget : Nat)

lemma withStages_relapse (s : Sequence) (stages : List Stage) :
    (s.relapse again).withStages stages = (s.withStages stages).relapse again := by
  unfold withStages
  induction stages generalizing s with
  | nil => rfl
  | cons stage stages ih => exact ih (.through stage s)

lemma toSequence_relapse (current : Output) :
    (current.map (relapse again)).toSequence = relapse again <$> current.toSequence := by
  rcases current with s | item | _
  · rfl
  · cases item <;> rfl
  · rfl

lemma source_relapse (part : Part) (current : Output) :
    part.source (current.map (relapse again)) = relapse again <$> part.source current := by
  obtain ⟨operator, arguments⟩ := part
  cases operator with
  | defaultIfEmpty =>
    rcases current with s | item | _
    · rfl
    · cases item <;> rfl
    · rfl
  | _ => exact toSequence_relapse again current

lemma isExhausted_of_toSequence {current : Output} {s : Sequence} (hcurrent : current.Fresh)
    (hs : current.toSequence = .ok s) : s.isExhausted = false := by
  rcases current with t | item | _
  · cases hs
    exact hcurrent s rfl
  · cases item <;> cases hs
    rfl
  · cases hs

lemma isExhausted_of_source {part : Part} {current : Output} {s : Sequence} (hcurrent : current.Fresh)
    (hs : part.source current = .ok s) : s.isExhausted = false := by
  obtain ⟨operator, arguments⟩ := part
  cases operator with
  | defaultIfEmpty =>
    rcases current with t | item | _
    · exact isExhausted_of_toSequence hcurrent hs
    · cases item <;> cases hs <;> rfl
    · cases hs
      rfl
  | _ => exact isExhausted_of_toSequence hcurrent hs

lemma isExhausted_withStages {s : Sequence} (hs : s.isExhausted = false) (stages : List Stage) :
    (s.withStages stages).isExhausted = false := by
  unfold withStages
  induction stages generalizing s with
  | nil => exact hs
  | cons stage stages ih => exact @ih (.through stage s) rfl

/-- **A part works on its source as far as that goes, and no further.** -/
theorem apply_relapse (part : Part) (current : Output) :
    apply budget (current.map (relapse again)) part = Output.map (relapse again) <$> apply budget current part := by
  unfold apply
  rw [source_relapse]
  rcases part.source current with e | s
  · rfl
  · rcases hplan : part.plan with e | stages | run
    · rfl
    · show (pure (.sequence ((s.relapse again).withStages stages)) : Eval Output) = _
      rw [withStages_relapse]
      rfl
    · obtain ⟨hrelapse, hensures⟩ := settles_of_plan hplan budget s
      show run budget (s.relapse again) = Output.map (relapse again) <$> run budget s
      rw [hrelapse]
      refine (Eval.map_eq_self ?_).symm
      intro σ out τ hrun
      rcases out with t | item | _
      · exact absurd rfl (hensures σ _ τ hrun t)
      · rfl
      · rfl

/-- **What a part comes to is fresh**, if what it is applied to is. -/
theorem apply_ensures_fresh (part : Part) {current : Output} (hcurrent : current.Fresh) :
    (apply budget current part).Ensures Output.Fresh := by
  refine .bind (.ofExcept fun s hs => isExhausted_of_source hcurrent hs) fun s hs => ?_
  refine .bind (.ofExcept fun plan hplan => hplan) fun plan hplan => ?_
  cases plan with
  | lazily stages =>
    refine .pure fun t ht => ?_
    cases ht
    exact isExhausted_withStages hs stages
  | eagerly run =>
    intro σ out τ hrun t ht
    exact absurd ht ((settles_of_plan hplan budget s).2 σ out τ hrun t)

/-- The same for a piece of a query. -/
lemma segment_relapse (piece : Segment) (current : Output) :
    piece.interpret budget (current.map (relapse again)) =
      Output.map (relapse again) <$> piece.interpret budget current := by
  cases piece with
  | single part => exact apply_relapse again budget part current
  | ordering first refining =>
    rw [Segment.interpret, Segment.interpret, toSequence_relapse]
    rcases readKeys (first :: refining) with e | keys
    · rfl
    · rcases current.toSequence with e | s
      · rfl
      · rfl

lemma segment_ensures_fresh (piece : Segment) {current : Output} (hcurrent : current.Fresh) :
    (piece.interpret budget current).Ensures Output.Fresh := by
  cases piece with
  | single part => exact apply_ensures_fresh budget part hcurrent
  | ordering first refining =>
    refine .after fun keys => .after fun s => ?_
    refine .pure fun t ht => ?_
    cases ht
    rfl

/-- **And for all pieces in a row.** -/
theorem interpret_relapse (pieces : List Segment) (current : Output) :
    interpret budget pieces (current.map (relapse again)) =
      Output.map (relapse again) <$> interpret budget pieces current := by
  induction pieces generalizing current with
  | nil => rfl
  | cons piece pieces ih =>
    rw [interpret, interpret, segment_relapse, map_bind, bind_map_left]
    simp only [ih]

theorem interpret_ensures_fresh (pieces : List Segment) {current : Output} (hcurrent : current.Fresh) :
    (interpret budget pieces current).Ensures Output.Fresh := by
  induction pieces generalizing current with
  | nil => exact .pure hcurrent
  | cons piece pieces ih => exact .bind (segment_ensures_fresh budget piece hcurrent) fun out hout => ih hout

end Relapse

/-! ### Queries -/

namespace Engine

variable (engine : Engine) (parts : List Part) (produce : Nat → Eff (Reply × Nat)) (state : Nat)

/-- **Sources are gone through once.**

* Every sequence that is not exhausted from the start replies with items, then with at most one error, and then no more for
  ever, and it is exhausted exactly when one of the replies has been an ending.
* The sequence of a producer always replies, and all of its histories are those of a producer that would do anything else
  when it is asked again after its ending: so it never is.
* What the parts make of it has the same shape, if it is a sequence; and all that there is in making it, and in going
  through it, is the same for the producer that would do anything else after its ending. -/
theorem sources_are_gone_through_once :
    (∀ s : Sequence, s.isExhausted = false → s.IsSinglePass) ∧
    (∀ history u σ, Pulled (.producer produce state) history u → ∃ r t τ, Pulls σ u r t τ) ∧
    (∀ again, (Sequence.producer produce state).SameHistories (.producer (relapsing produce again) (state + 1))) ∧
    (∀ σ s τ, (engine.executeSequence (.producer produce state) parts).unlogged.run.run σ =
      (some (.ok (.sequence s)), τ) → s.IsSinglePass) ∧
    ∀ again, ∃ f, (∀ s : Sequence, s.SameHistories (f s)) ∧
      (engine.executeSequence (.producer (relapsing produce again) (state + 1)) parts).unlogged =
        Output.map f <$> (engine.executeSequence (.producer produce state) parts).unlogged := by
  have hfresh : Output.Fresh (.sequence (.producer produce state)) := by
    intro s hs
    cases hs
    rfl
  refine ⟨fun s => isSinglePass_of_fresh, fun history u σ h => Pulled.answers h σ, fun again => ?_, fun σ s τ hrun => ?_,
    fun again => ⟨relapse again, fun s => sameHistories_relapse again s, ?_⟩⟩
  · exact sameHistories_relapse again (.producer produce state)
  · rw [executeSequence_segments] at hrun
    exact isSinglePass_of_fresh (interpret_ensures_fresh engine.budget (segments parts) hfresh σ _ τ hrun s rfl)
  · rw [executeSequence_segments, executeSequence_segments]
    exact interpret_relapse again engine.budget (segments parts) (.sequence (.producer produce state))

/-- Asked for its items one by one, a source of a single null hands it out once; and so does that source reversed. -/
theorem sources_are_gone_through_once_null :
    (∃ u, Pulled (.counted 1 fun _ => .null) [({}, .item .null, {}), ({}, .finished, {})] u ∧ u.isExhausted ∧
      ∃ r t τ, Pulls {} u r t τ) ∧
    (Sequence.counted 1 fun _ => .null).IsSinglePass ∧
    ((Sequence.counted 1 fun _ => .null).withStages [.reverse]).IsSinglePass := by
  obtain ⟨hfresh, hanswers, -, hexecute, -⟩ := sources_are_gone_through_once ⟨{}, "q", 0⟩ [⟨.reverse, []⟩]
    (fun k => return (if k < 1 then .item .null else .finished, k + 1)) 0
  have hpulled : Pulled (.counted 1 fun _ => .null) [({}, .item .null, {}), ({}, .finished, {})] .exhausted :=
    .next (.reply rfl) (.next (.reply rfl) .start)
  refine ⟨⟨.exhausted, hpulled, rfl, hanswers _ _ {} hpulled⟩, hfresh _ rfl, hexecute {} _ {} ?_⟩
  have hsegments : segments [(⟨.reverse, []⟩ : Part)] = [.single ⟨.reverse, []⟩] := by
    rw [segments, if_neg (by decide), segments]
  rw [executeSequence_segments, hsegments]
  rfl

end Engine

end LazyQuery
