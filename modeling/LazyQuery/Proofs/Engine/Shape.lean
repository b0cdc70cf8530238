import LazyQuery.Proofs.Engine.Building
import LazyQuery.Proofs.Engine.Logging
import LazyQuery.Proofs.Engine.SinglePass

/-!
# The shape of an output

What a part comes to is a sequence exactly if its operator is not terminal, and it is no value only if its operator says so
(`Part.Shapes`).  What it is applied to must be a source, that is a sequence or an array; only `defaultIfEmpty` takes no
value and null as well (`Part.Takes`).

* `apply_ensures_shapes`, `apply_of_not_takes` — that is so for each part on its own;
* `resume_ensures_shapes` — so the last part of a query determines the shape of its output;
* `Engine.terminal_before_next` — and what a terminal part before it comes to is a source for the next part.

The main statement is `Engine.shapes_follow_the_operators`.
-/

namespace LazyQuery

open Sequence

/-! ### Terminal operators -/

/-- The operators that may come to no value. -/
def Operator.mayBeAbsent : Operator → Bool
  | .first .noValue | .last .noValue | .single .noValue | .elementAt .noValue => true
  | _ => false

/-- The operators work on sequences and on arrays. -/
def Output.IsSource (output : Output) : Prop :=
  (∃ s, output = .sequence s) ∨ ∃ ref elements, output = .value (.array ref elements)

namespace Part

/-- The output has the shape that the operator of the part says. -/
def Shapes (part : Part) (output : Output) : Prop :=
  ((∃ s, output = .sequence s) ↔ part.operator.isTerminal = false) ∧
    (output = .absent → part.operator.mayBeAbsent = true)

/-- The part can be applied to the output: it is a source, or the part is `defaultIfEmpty` and makes one of it. -/
def Takes (part : Part) (input : Output) : Prop :=
  input.IsSource ∨ (input = .absent ∨ input = .value .null) ∧ part.operator = .defaultIfEmpty

end Part

section Terminal

variable {α β : Type} {P : β → Prop}

/-- A sequence is reduced to what a step settles, or to what is made of the state at its end. -/
lemma reduce_ensures {step : α → Item → Eval (Verdict α β)} {finish : α → Except QueryError β}
    (hstep : ∀ state item, (step state item).Ensures fun verdict => ∀ b, verdict = .settled b → P b)
    (hfinish : ∀ state b, finish state = .ok b → P b) (budget : Nat) (state : α) (s : Sequence) :
    (reduce step finish budget state s).Ensures P := by
  induction budget generalizing state s with
  | zero =>
    intro σ b τ hrun
    cases hrun
  | succ budget ih =>
    intro σ b τ hrun
    rcases hadvance : s.advance σ with ⟨⟨_ | x | e | _, t⟩, ω⟩
    · rw [reduce_of_work hadvance] at hrun
      exact ih state t ω b τ hrun
    · rw [reduce_of_item hadvance] at hrun
      refine Eval.Ensures.bind (hstep state x) (fun verdict hverdict => ?_) ω b τ hrun
      cases verdict with
      | more state => exact ih state t
      | settled result => exact .pure (hverdict result rfl)
    · rw [reduce_of_failure hadvance] at hrun
      cases hrun
    · rw [reduce_of_finished hadvance] at hrun
      exact Eval.Ensures.ofExcept (hfinish state) ω b τ hrun

lemma absence_fails {operator : String} {sawAny : Bool} {found : Option Item}
    (h : absence operator .fails sawAny = .ok found) : found ≠ none := by
  cases h

lemma result_fails {operator : String} {finding : Finding} {found : Option Item}
    (h : finding.result operator .fails = .ok found) : found ≠ none := by
  unfold Finding.result at h
  split at h
  · cases h
    simp
  · exact absence_fails h

lemma first_fails (operator : String) (predicate : Option Callable) (budget : Nat) (s : Sequence) :
    (first operator .fails predicate budget s).Ensures (· ≠ none) := by
  refine reduce_ensures (fun _ item => .after fun accepted => ?_) (fun _ _ => absence_fails) budget _ s
  split
  · exact .pure (by rintro found ⟨⟩; simp)
  · exact .pure (by rintro found ⟨⟩)

lemma last_fails (operator : String) (predicate : Option Callable) (budget : Nat) (s : Sequence) :
    (last operator .fails predicate budget s).Ensures (· ≠ none) := by
  refine reduce_ensures (fun finding item => .after fun accepted => ?_) (fun _ _ => result_fails) budget _ s
  split
  · exact .pure (by rintro found ⟨⟩)
  · exact .pure (by rintro found ⟨⟩)

lemma single_fails (operator : String) (predicate : Option Callable) (budget : Nat) (s : Sequence) :
    (single operator .fails predicate budget s).Ensures (· ≠ none) := by
  refine reduce_ensures (fun finding item => .after fun accepted => ?_) (fun _ _ => result_fails) budget _ s
  split
  · split
    · rintro σ verdict τ ⟨⟩
    · exact .pure (by rintro found ⟨⟩)
  · exact .pure (by rintro found ⟨⟩)

lemma elementAt_fails (index : Int) (budget : Nat) (s : Sequence) :
    (elementAt .fails index budget s).Ensures (· ≠ none) := by
  unfold elementAt
  split
  · rintro σ found τ ⟨⟩
  · refine reduce_ensures (fun passed item => ?_) (fun _ _ => by rintro ⟨⟩) budget _ s
    split
    · exact .pure (by rintro found ⟨⟩; simp)
    · exact .pure (by rintro found ⟨⟩)

lemma ensures_finding {body : Eval (Option Item)} (h : body.Ensures (· ≠ none)) :
    (body >>= fun found => pure (.ofOption found)).Ensures (· ≠ Output.absent) := by
  refine .bind h fun found hfound => .pure ?_
  cases found with
  | none => exact absurd rfl hfound
  | some item => simp [Output.ofOption]

lemma ensures_value (body : Eval α) (item : α → Item) :
    (body >>= fun a => pure (.value (item a))).Ensures (· ≠ Output.absent) :=
  .after fun _ => .pure (by simp)

variable {part : Part} {stages : List Stage} {run : Nat → Sequence → Eval Output}

lemma isTerminal_of_eagerly (hplan : part.plan = .ok (.eagerly run)) : part.operator.isTerminal = true := by
  cases hterminal : part.operator.isTerminal with
  | true => rfl
  | false =>
    obtain ⟨stages, hstages⟩ := exists_lazily_of_plan hterminal hplan
    cases hstages

lemma isTerminal_of_lazily (hplan : part.plan = .ok (.lazily stages)) : part.operator.isTerminal = false := by
  obtain ⟨operator, arguments⟩ := part
  cases operator with
  | first | last | single | any | count | min | max | sum | average => cases hplan
  | elementAt | contains | sequenceEqual | all | aggregate =>
    obtain ⟨argument, -, hstages⟩ := bind_eq_ok hplan
    cases hstages
  | _ => rfl

/-- **A terminal operator comes to no value only if it says so.** -/
theorem absent_of_plan (hplan : part.plan = .ok (.eagerly run)) (hvalue : part.operator.mayBeAbsent = false)
    (budget : Nat) (s : Sequence) : (run budget s).Ensures (· ≠ .absent) := by
  have hterminal := isTerminal_of_eagerly hplan
  obtain ⟨operator, arguments⟩ := part
  cases operator with
  | first whenAbsent =>
    cases whenAbsent <;> cases hvalue
    cases hplan
    exact ensures_finding (first_fails _ _ _ _)
  | last whenAbsent =>
    cases whenAbsent <;> cases hvalue
    cases hplan
    exact ensures_finding (last_fails _ _ _ _)
  | single whenAbsent =>
    cases whenAbsent <;> cases hvalue
    cases hplan
    exact ensures_finding (single_fails _ _ _ _)
  | elementAt whenAbsent =>
    cases whenAbsent <;> cases hvalue
    obtain ⟨index, -, hrun⟩ := bind_eq_ok hplan
    cases hrun
    exact ensures_finding (elementAt_fails _ _ _)
  | contains | sequenceEqual | all | aggregate =>
    obtain ⟨argument, -, hrun⟩ := bind_eq_ok hplan
    cases hrun
    exact ensures_value _ _
  | any | count | min | max | sum | average =>
    cases hplan
    exact ensures_value _ _
  | _ => cases hterminal

end Terminal

/-! ### Applying parts -/

section Apply

variable (budget : Nat) {input : Output} {part : Part}

/-- **What a part comes to has the shape that its operator says.** -/
theorem apply_ensures_shapes (input : Output) (part : Part) : (apply budget input part).Ensures part.Shapes := by
  refine .after fun s => .bind (.ofExcept fun plan hplan => hplan) fun plan hplan => ?_
  cases plan with
  | lazily stages =>
    have hlazy := isTerminal_of_lazily hplan
    exact .pure ⟨by simp [hlazy], by simp⟩
  | eagerly run =>
    intro σ output τ hrun
    have hterminal := isTerminal_of_eagerly hplan
    have hsequence := (settles_of_plan hplan budget s).2 σ output τ hrun
    refine ⟨⟨fun ⟨t, ht⟩ => absurd ht (hsequence t), fun hlazy => ?_⟩, fun habsent => ?_⟩
    · rw [hterminal] at hlazy
      cases hlazy
    · cases hvalue : part.operator.mayBeAbsent with
      | true => rfl
      | false => exact absurd habsent (absent_of_plan hplan hvalue budget s σ output τ hrun)

/-- What is no source is refused. -/
lemma toSequence_eq_error (h : ¬ input.IsSource) : ∃ reason, input.toSequence = .error (.invalidSource reason) := by
  rcases input with s | item | _
  · exact absurd (.inl ⟨s, rfl⟩) h
  · cases item with
    | array ref elements => exact absurd (.inr ⟨ref, elements, rfl⟩) h
    | _ => exact ⟨_, rfl⟩
  · exact ⟨_, rfl⟩

lemma source_of_ne_defaultIfEmpty (h : part.operator ≠ .defaultIfEmpty) : part.source input = input.toSequence := by
  obtain ⟨operator, arguments⟩ := part
  cases operator with
  | defaultIfEmpty => exact absurd rfl h
  | _ => rfl

/-- For `defaultIfEmpty`, no value and null are the empty sequence. -/
lemma source_of_defaultIfEmpty (hinput : input = .absent ∨ input = .value .null)
    (hpart : part.operator = .defaultIfEmpty) : part.source input = .ok .empty := by
  obtain ⟨operator, arguments⟩ := part
  cases hpart
  rcases hinput with rfl | rfl <;> rfl

/-- Any other input that is no source is none for `defaultIfEmpty` either. -/
lemma source_of_not_takes (h : ¬ part.Takes input) : part.source input = input.toSequence := by
  by_cases hpart : part.operator = .defaultIfEmpty
  · have hinput : ¬ (input = .absent ∨ input = .value .null) := fun hinput => h (.inr ⟨hinput, hpart⟩)
    obtain ⟨operator, arguments⟩ := part
    cases hpart
    rcases input with s | item | _
    · rfl
    · cases item with
      | null => exact absurd (.inr rfl) hinput
      | _ => rfl
    · exact absurd (.inl rfl) hinput
  · exact source_of_ne_defaultIfEmpty hpart

/-- **A part that does not take its input is refused for that**, whatever its arguments are. -/
theorem apply_of_not_takes (h : ¬ part.Takes input) :
    ∃ reason, apply budget input part = throw (.invalidSource reason) := by
  obtain ⟨reason, hreason⟩ := toSequence_eq_error fun hsource => h (.inl hsource)
  refine ⟨reason, ?_⟩
  rw [apply, source_of_not_takes h, hreason]
  rfl

/-- `defaultIfEmpty` is never refused where there is no value or null. -/
theorem apply_defaultIfEmpty (hinput : input = .absent ∨ input = .value .null)
    (hpart : part.operator = .defaultIfEmpty) : ∃ s, apply budget input part = pure (.sequence s) := by
  rw [apply, source_of_defaultIfEmpty hinput hpart]
  obtain ⟨operator, arguments⟩ := part
  cases hpart
  exact ⟨_, rfl⟩

/-- So a part that comes to an output takes its input. -/
lemma takes_of_apply {output : Output} {σ τ : Session}
    (h : (apply budget input part).run.run σ = (some (.ok output), τ)) : part.Takes input := by
  by_contra htakes
  obtain ⟨reason, hreason⟩ := apply_of_not_takes budget htakes
  rw [hreason] at h
  cases h

end Apply

/-! ### Executing parts -/

section Execute

variable {budget : Nat} {pending : List SortKey} {current : Output} {part last : Part} {parts : List Part}
  {P : Output → Prop}

lemma isTerminal_of_isOrdering (h : part.isOrdering = true) : part.operator.isTerminal = false := by
  obtain ⟨operator, arguments⟩ := part
  cases operator with
  | order => rfl
  | _ => cases h

lemma isOrdering_of_isTerminal (h : part.operator.isTerminal = true) : part.isOrdering = false := by
  by_contra hordering
  rw [isTerminal_of_isOrdering (by simpa using hordering)] at h
  cases h

lemma shapes_sequence (h : part.operator.isTerminal = false) (s : Sequence) : part.Shapes (.sequence s) :=
  ⟨by simp [h], by simp⟩

lemma resume_done (current : Output) : resume budget [] current [] = pure current := by
  simp [resume, segments, interpret]

/-- One step from any state: an ordering part leaves an open run, any other part is applied. -/
lemma resume_step_ensures
    (hordering : part.isOrdering = true → ∀ keys ≠ [], ∀ current, (resume budget keys current parts).Ensures P)
    (hsingle : part.isOrdering = false → ∀ current,
      (apply budget current part >>= fun output => resume budget [] output parts).Ensures P) :
    (resume budget pending current (part :: parts)).Ensures P := by
  have hclosed (current : Output) : (resume budget [] current (part :: parts)).Ensures P := by
    cases hpart : part.isOrdering with
    | true =>
      rw [resume_ordering hpart]
      exact .after fun key => hordering hpart _ (List.cons_ne_nil _ _) current
    | false =>
      rw [resume_single hpart]
      exact hsingle hpart current
  by_cases hpending : pending = []
  · rw [hpending]
    exact hclosed current
  · cases hrefines : part.refinesOrdering with
    | true =>
      rw [resume_refining hpending hrefines]
      exact .after fun key => hordering (isOrdering_of_refines hrefines) _ (by simp) current
    | false =>
      rw [resume_closing hpending (by simpa using hrefines)]
      exact .after fun s => hclosed _

/-- **The last part determines the shape of the output**, whatever the state is that the parts are executed from. -/
theorem resume_ensures_shapes (pending : List SortKey) (current : Output) (parts : List Part) (last : Part) :
    (resume budget pending current (parts ++ [last])).Ensures last.Shapes := by
  induction parts generalizing pending current with
  | nil =>
    refine resume_step_ensures (fun hlast keys hkeys current => ?_) fun _ current => ?_
    · rw [resume_closing hkeys (by simp)]
      simp only [resume_done]
      exact .after fun s => .pure (shapes_sequence (isTerminal_of_isOrdering hlast) _)
    · simp only [resume_done, bind_pure]
      exact apply_ensures_shapes budget current last
  | cons part parts ih =>
    exact resume_step_ensures (fun _ keys _ current => ih keys current) fun _ current => .after fun output => ih [] output

/-- If all comes to an output, then the next part takes what there is. -/
lemma takes_of_resume {output : Output} {σ τ : Session}
    (h : (resume budget [] current (part :: parts)).run.run σ = (some (.ok output), τ)) : part.Takes current := by
  cases hpart : part.isOrdering with
  | true =>
    refine .inl ?_
    by_contra hsource
    obtain ⟨reason, hreason⟩ := toSequence_eq_error hsource
    rw [resume_ordering hpart] at h
    obtain ⟨key, τ₁, -, h⟩ := Eval.exists_of_bind_run h
    rw [resume_of_ne_nil (List.cons_ne_nil _ _), hreason] at h
    obtain ⟨keys, τ₂, -, h⟩ := Eval.exists_of_bind_run h
    cases h
  | false =>
    rw [resume_single hpart] at h
    obtain ⟨next, τ₁, happly, -⟩ := Eval.exists_of_bind_run h
    exact takes_of_apply budget happly

end Execute

namespace Engine

variable (engine : Engine) {terminal : Part} {before after : List Part} {source : Sequence}

/-- A query goes on from what its terminal parts come to. -/
lemma unlogged_executeSequence_terminal (hterminal : terminal.operator.isTerminal = true) (source : Sequence)
    (before after : List Part) :
    (engine.executeSequence source (before ++ terminal :: after)).unlogged =
      (engine.executeSequence source (before ++ [terminal])).unlogged >>= fun produced =>
        (engine.run [] produced after).unlogged := by
  have hordering := isOrdering_of_isTerminal hterminal
  have hfront : segments (before ++ [terminal]) = segments before ++ [.single terminal] := by
    rw [segments_append_single hordering, segments]
  have hpieces : segments (before ++ terminal :: after) = segments (before ++ [terminal]) ++ segments after := by
    rw [segments_append_single hordering, hfront, List.append_assoc, List.singleton_append]
  rw [executeSequence_segments, executeSequence_segments, hpieces, interpret_append]
  exact bind_congr fun produced => by rw [unlogged_run, resume_nil]

/-- **A terminal part before the last one comes to a source for the next part.** -/
theorem terminal_before_next {next : Part} (hterminal : terminal.operator.isTerminal = true) {output : Output}
    {σ τ : Session} (h : (engine.executeSequence source (before ++ terminal :: next :: after)).unlogged.run.run σ =
      (some (.ok output), τ)) :
    ∃ produced ω,
      (engine.executeSequence source (before ++ [terminal])).unlogged.run.run σ = (some (.ok produced), ω) ∧
      (engine.run [] produced (next :: after)).unlogged.run.run ω = (some (.ok output), τ) ∧
      ((∃ ref elements, produced = .value (.array ref elements)) ∨
        (produced = .absent ∨ produced = .value .null) ∧ next.operator = .defaultIfEmpty) := by
  rw [engine.unlogged_executeSequence_terminal hterminal] at h
  obtain ⟨produced, ω, hproduced, hrest⟩ := Eval.exists_of_bind_run h
  refine ⟨produced, ω, hproduced, hrest, ?_⟩
  have hshapes : terminal.Shapes produced := by
    rw [executeSequence_segments, ← resume_nil] at hproduced
    exact resume_ensures_shapes [] _ before terminal σ produced ω hproduced
  have htakes : next.Takes produced := by
    rw [unlogged_run] at hrest
    exact takes_of_resume hrest
  rcases htakes with (hsequence | harray) | hnone
  · rw [hshapes.1.mp hsequence] at hterminal
    cases hterminal
  · exact .inl harray
  · exact .inr hnone

/-- A query that comes to an output has been executed on a sequence. -/
lemma exists_array_of_execute {item : Item} {parts : List Part} (hparts : parts ≠ []) {output : Output} {σ τ : Session}
    (h : (engine.execute item parts).unlogged.run.run σ = (some (.ok output), τ)) :
    ∃ ref elements, item = .array ref elements ∧
      engine.execute item parts = engine.executeSequence (.ofItems elements) parts := by
  cases hitem : item.elements? with
  | some elements =>
    cases item with
    | array ref elements => exact ⟨ref, elements, rfl, engine.execute_array hparts ref elements⟩
    | _ => cases hitem
  | none =>
    obtain ⟨reason, hreason⟩ := engine.execute_of_not_array hparts hitem
    rw [hreason, reject, Execution.unlogged_bind, unlogged_emit, pure_bind, Execution.unlogged_throw] at h
    cases h

/-- **Shapes follow the operators.**

* What a part comes to, whatever it is applied to, is a sequence exactly if its operator is not terminal, and no value only
  if its operator may come to none.
* An input that is neither a sequence nor an array is an invalid source for every part, whatever its arguments are, except
  for `defaultIfEmpty` if it is no value or null; this comes to a sequence.
* So the last part of a query determines the shape of its output.
* A terminal part before the last one has come to an array, or to no value or null right before `defaultIfEmpty`; the query
  has gone on from that.
* All of this holds of queries on items too, as these are executed only on the elements of arrays. -/
theorem shapes_follow_the_operators :
    (∀ budget input part, (apply budget input part).Ensures part.Shapes) ∧
    (∀ budget (input : Output) (part : Part), ¬ part.Takes input →
      ∃ reason, apply budget input part = throw (.invalidSource reason)) ∧
    (∀ budget input part, input = .absent ∨ input = .value .null → part.operator = .defaultIfEmpty →
      ∃ s, apply budget input part = pure (.sequence s)) ∧
    (∀ source parts last, (engine.executeSequence source (parts ++ [last])).unlogged.Ensures last.Shapes) ∧
    (∀ source before terminal next after, terminal.operator.isTerminal = true → ∀ σ output τ,
      (engine.executeSequence source (before ++ terminal :: next :: after)).unlogged.run.run σ = (some (.ok output), τ) →
      ∃ produced ω,
        (engine.executeSequence source (before ++ [terminal])).unlogged.run.run σ = (some (.ok produced), ω) ∧
        (engine.run [] produced (next :: after)).unlogged.run.run ω = (some (.ok output), τ) ∧
        ((∃ ref elements, produced = .value (.array ref elements)) ∨
          (produced = .absent ∨ produced = .value .null) ∧ next.operator = .defaultIfEmpty)) ∧
    ∀ item parts, parts ≠ [] → ∀ σ output τ,
      (engine.execute item parts).unlogged.run.run σ = (some (.ok output), τ) →
      ∃ ref elements, item = .array ref elements ∧
        engine.execute item parts = engine.executeSequence (.ofItems elements) parts := by
  refine ⟨apply_ensures_shapes, fun budget input part => apply_of_not_takes budget,
    fun budget input part => apply_defaultIfEmpty budget, fun source parts last => ?_,
    fun source before terminal next after hterminal σ output τ => engine.terminal_before_next hterminal,
    fun item parts hparts σ output τ => engine.exists_array_of_execute hparts⟩
  rw [executeSequence_segments, ← resume_nil]
  exact resume_ensures_shapes [] _ parts last

/-- The first item of an empty sequence is no value, which `defaultIfEmpty` takes and `count` does not. -/
theorem shapes_follow_the_operators_first :
    let engine : Engine := ⟨{}, "q", 1⟩
    let first : Part := ⟨.first .noValue, []⟩
    let defaultIfEmpty : Part := ⟨.defaultIfEmpty, []⟩
    let count : Part := ⟨.count, []⟩
    (∃ s τ, (engine.executeSequence .empty [first, defaultIfEmpty]).unlogged.run.run {} =
      (some (.ok (.sequence s)), τ) ∧ defaultIfEmpty.Shapes (.sequence s)) ∧
    (∃ produced ω, (engine.executeSequence .empty [first]).unlogged.run.run {} = (some (.ok produced), ω) ∧
      (produced = .absent ∨ produced = .value .null)) ∧
    (∃ s, apply 1 .absent defaultIfEmpty = pure (.sequence s)) ∧
    (∃ reason, apply 1 .absent count = throw (.invalidSource reason)) ∧
    ∃ output τ, (engine.execute (.array 0 []) [count]).unlogged.run.run {} = (some (.ok output), τ) ∧
      engine.execute (.array 0 []) [count] = engine.executeSequence (.ofItems []) [count] := by
  intro engine first defaultIfEmpty count
  obtain ⟨-, hrefused, hdefault, hlast, hbefore, hitem⟩ := shapes_follow_the_operators engine
  obtain ⟨s, τ, hquery⟩ : ∃ s τ, (engine.executeSequence .empty [first, defaultIfEmpty]).unlogged.run.run {} =
      (some (.ok (.sequence s)), τ) := ⟨_, _, rfl⟩
  obtain ⟨output, ω, hcount⟩ : ∃ output ω, (engine.execute (.array 0 []) [count]).unlogged.run.run {} =
      (some (.ok output), ω) := ⟨_, _, rfl⟩
  have htakes : ¬ count.Takes .absent := by
    rintro ((⟨s, hs⟩ | ⟨ref, elements, hs⟩) | ⟨-, hoperator⟩)
    · cases hs
    · cases hs
    · cases hoperator
  refine ⟨⟨s, τ, hquery, hlast .empty [first] defaultIfEmpty {} _ τ hquery⟩, ?_,
    hdefault 1 .absent defaultIfEmpty (.inl rfl) rfl, hrefused 1 .absent count htakes, output, ω, hcount, ?_⟩
  · obtain ⟨produced, ω, hproduced, -, harray | ⟨hnone, -⟩⟩ := hbefore .empty [] first defaultIfEmpty [] rfl {} _ τ hquery
    · obtain ⟨ref, elements, rfl⟩ := harray
      cases hproduced
    · exact ⟨produced, ω, hproduced, hnone⟩
  · obtain ⟨ref, elements, hitem, hexecute⟩ := hitem (.array 0 []) [count] (List.cons_ne_nil _ _) {} output ω hcount
    cases hitem
    exact hexecute

end Engine

end LazyQuery
