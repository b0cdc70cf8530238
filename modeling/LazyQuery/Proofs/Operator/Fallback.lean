import LazyQuery.Proofs.Operator.Casting

/-!
# A default for nothing

What `defaultIfEmpty` puts on a source hands on everything and only then, when the source has ended without an item, has
something of its own to hand out.  So the first reply of the source decides: if it is an item or an error, nobody can tell the
result from the source any more, and if it is the end, the default comes in its place and after that nothing
(`Sequence.FallsBack`, `Sequence.pulled_defaulted_iff`).  This is said of all histories of pulls, with any other work between
them, and of sources that need not end.

The main statement is `defaultIfEmpty_stands_in_for_nothing`.
-/

namespace LazyQuery

open Sequence

/-! ### The first reply decides -/

namespace Sequence

/-- The source with what `defaultIfEmpty` puts on it. -/
def defaulted (source : Sequence) (fallback : Option Item) : Sequence :=
  source.withStages (Stage.defaultIfEmpty fallback)

/-- A history of the source that does not begin with its end; or one where the fallback stands in for that end, and there is
nothing more. -/
inductive FallsBack (source : Sequence) (fallback : Item) : List (Session × Reply × Session) → Prop
  | handsOn {history t} (pulled : Pulled source history t) (begins : ∀ pull ∈ history.head?, pull.2.1 ≠ .finished) :
      FallsBack source fallback history
  | standsIn {σ τ t rest} (ends : Pulls σ source .finished t τ)
      (after : ∀ pull ∈ rest, ∃ υ, pull = (υ, .finished, υ)) :
      FallsBack source fallback ((σ, .item fallback, τ) :: rest)

section Defaulted

variable {source s t u : Sequence} {fallback : Item} {σ τ : Session} {xs : List Item} {e : QueryError}
  {asked history : List (Session × Reply × Session)}

/-- After an item the stage lets everything pass. -/
lemma orElse_true_sameHistories (fallback : Item) (source : Sequence) :
    (Sequence.through (.orElse fallback true) source).SameHistories source :=
  sameHistories_of_passes_all ⟨rfl, rfl, fun _ => rfl⟩ source

lemma fallsBack_of_asks (h : Asks (.orElse fallback false) source asked history) : FallsBack source fallback history := by
  cases h with
  | start => exact .handsOn .start (by simp)
  | emit demand | full demand => cases demand
  | failure _ pulls rest =>
    rw [eq_exhausted pulls.isExhausted] at pulls
    exact .handsOn (.next pulls rest) (by simp)
  | finished _ pulls close rest =>
    cases close
    cases rest with
    | next first rest =>
      obtain ⟨rfl, rfl, rfl⟩ := first.unique (.reply rfl)
      exact .standsIn pulls (pulled_exhausted_iff.mp ((queue_nil_sameHistories _).mp ⟨_, rest⟩))
  | yield _ pulls receive rest =>
    cases receive
    obtain ⟨v, hrest⟩ := (orElse_true_sameHistories fallback _ _).mp rest.pulled_through
    exact .handsOn (.next pulls hrest) (by simp)
  | drop _ _ receive => cases receive
  | cut _ _ receive reply =>
    cases receive
    cases reply

/-- The first pull of an item. -/
lemma Pulls.defaulted_item {x : Item} (h : Pulls σ source (.item x) t τ) :
    Pulls σ (source.defaulted (some fallback)) (.item x) (.through (.orElse fallback true) t) τ := by
  have hreceive : (Stage.orElse fallback false).receive x τ = (.yield x (.orElse fallback true), τ) := rfl
  obtain ⟨v, υ, hworks, hlast⟩ := h.received rfl hreceive
  exact hworks.pulls (.reply hlast)

lemma Pulls.defaulted_failure (h : Pulls σ source (.failure e) t τ) :
    Pulls σ (source.defaulted (some fallback)) (.failure e) .exhausted τ := by
  obtain ⟨v, υ, hworks, hlast⟩ := h.works
  have hfailed : (Sequence.through (.orElse fallback false) v).advance υ = ((some (.failure e), .exhausted), τ) :=
    ThroughStep.advance (.failure rfl hlast)
  exact (hworks.through rfl).pulls (.reply hfailed)

/-- The fallback comes with the end of the source. -/
lemma Pulls.defaulted_finished (h : Pulls σ source .finished t τ) :
    Pulls σ (source.defaulted (some fallback)) (.item fallback) (.queue []) τ := by
  obtain ⟨v, υ, hworks, hlast⟩ := h.works
  have hclosed : (Sequence.through (.orElse fallback false) v).advance υ = ((none, .queue [pure fallback]), τ) :=
    ThroughStep.advance (.finished rfl hlast rfl)
  exact (hworks.through rfl).pulls (.work hclosed (.reply rfl))

/-- **There are no other histories than these, and all of these.** -/
theorem pulled_defaulted_iff :
    (∃ u, Pulled (source.defaulted (some fallback)) history u) ↔ FallsBack source fallback history := by
  constructor
  · rintro ⟨u, h⟩
    obtain ⟨asked, hasks⟩ := h.exists_asks
    exact fallsBack_of_asks hasks
  · intro h
    cases h with
    | handsOn pulled begins =>
      cases pulled with
      | start => exact ⟨_, .start⟩
      | @next _ _ _ t _ r _ first rest =>
        cases r with
        | item x =>
          obtain ⟨w, hrest⟩ := (orElse_true_sameHistories fallback t _).mpr ⟨_, rest⟩
          exact ⟨w, .next first.defaulted_item hrest⟩
        | failure e =>
          rw [eq_exhausted first.isExhausted] at rest
          exact ⟨_, .next first.defaulted_failure rest⟩
        | finished => exact absurd rfl (begins _ rfl)
    | standsIn ends after =>
      obtain ⟨w, hrest⟩ := (queue_nil_sameHistories _).mpr (pulled_exhausted_iff.mpr after)
      exact ⟨w, .next ends.defaulted_finished hrest⟩

/-- The first reply is not the end. -/
lemma not_pulls_defaulted_finished : ¬ Pulls σ (source.defaulted (some fallback)) .finished u τ := by
  intro h
  have hfallsBack := pulled_defaulted_iff.mp ⟨u, .next h .start⟩
  cases hfallsBack with
  | handsOn _ begins => exact begins _ rfl rfl

/-- **A second default is never wanted.** -/
theorem defaulted_defaulted_sameHistories (fallback : Item) (second : Option Item) :
    ((source.defaulted (some fallback)).defaulted second).SameHistories (source.defaulted (some fallback)) := by
  cases second with
  | none => exact .refl _
  | some other =>
    intro history
    rw [pulled_defaulted_iff]
    constructor
    · intro h
      cases h with
      | handsOn pulled => exact ⟨_, pulled⟩
      | standsIn ends => exact absurd ends not_pulls_defaulted_finished
    · rintro ⟨u, pulled⟩
      refine .handsOn pulled ?_
      cases pulled with
      | start => simp
      | @next _ _ _ _ _ r _ first _ =>
        rintro _ ⟨⟩ rfl
        exact not_pulls_defaulted_finished first

lemma sifts_orElse (fallback : Item) (yielded : Bool) (xs : List Item) :
    Stage.Sifts (.orElse fallback yielded) xs xs (.orElse fallback (yielded || !xs.isEmpty)) := by
  induction xs generalizing yielded with
  | nil => simpa using .start rfl
  | cons x xs ih =>
    have hrest := ih true
    simp only [List.isEmpty_cons, Bool.not_false, Bool.or_true, Bool.true_or] at hrest ⊢
    exact .keep rfl rfl hrest

lemma drains_defaulted (h : Drains σ source xs .finished τ) :
    Drains σ (source.defaulted (some fallback)) (if xs = [] then [fallback] else xs) .finished τ := by
  have hsifts := sifts_orElse fallback false xs
  cases xs with
  | nil =>
    have hclose : (Stage.orElse fallback false).close = pure ([fallback].map pure) := rfl
    exact h.sift hsifts hclose
  | cons x xs =>
    have hclose : (Stage.orElse fallback true).close = pure (([] : List Item).map pure) := rfl
    have hdrains := h.sift hsifts hclose
    rwa [List.append_nil] at hdrains

lemma drains_defaulted_failed (h : Drains σ source xs (.failed e) τ) :
    Drains σ (source.defaulted (some fallback)) xs (.failed e) τ :=
  h.sift_failed (sifts_orElse fallback false xs)

end Defaulted

end Sequence

/-! ### Parts -/

section Parts

variable {part : Part} {input : Output}

lemma plan_of_defaultIfEmpty (hpart : part.operator = .defaultIfEmpty) :
    part.plan = .ok (.lazily (Stage.defaultIfEmpty (part.literal? 0))) := by
  unfold Part.plan
  rw [hpart]
  rfl

lemma putsOn_defaultIfEmpty (hpart : part.operator = .defaultIfEmpty) (source : Sequence) :
    part.PutsOn source (source.defaulted (part.literal? 0)) :=
  fun budget => apply_of_stages budget (plan_of_defaultIfEmpty hpart)

/-- The source is all that can be refused. -/
lemma apply_eq_defaulted (hpart : part.operator = .defaultIfEmpty) (budget : Nat) (input : Output) :
    apply budget input part =
      Eval.ofExcept ((part.source input).map fun s => .sequence (s.defaulted (part.literal? 0))) := by
  rw [apply, plan_of_defaultIfEmpty hpart]
  cases part.source input <;> rfl

lemma source_eq_toSequence (hvalue : input ≠ .absent) (hnull : input ≠ .value .null) :
    part.source input = input.toSequence := by
  rcases input with s | item | _
  · exact source_sequence part s
  · obtain ⟨operator, arguments⟩ := part
    cases item with
    | null => exact absurd rfl hnull
    | _ => cases operator <;> rfl
  · exact absurd rfl hvalue

/-- A function is not an item. -/
lemma literal?_of_function? {position : Nat} {f : Callable} (h : part.function? position = some f) :
    part.literal? position = none := by
  unfold Part.function? at h
  split at h
  · next hargument => rw [Part.literal?, hargument]
  · cases h

end Parts

/-- **`defaultIfEmpty` stands in for nothing, and for nothing else.**

* On any input it comes to what it puts on its source, and it is refused only if there is no source.  No value and null are
  the empty sequence for it, and every other input is what it is for all operators.
* Without an item as its first argument, so with a function there as well, it hands its source on as it is.
* With an item it makes of a source whose first reply is an item or an error what has the histories of the source, and no
  others; where the first reply of the source is its end, the item comes instead, and after it nothing more.
* So the items of a source that ends come as they are if there are any, and an error comes after the items before it.  The
  first reply is never the end, and a second `defaultIfEmpty` changes nothing. -/
theorem defaultIfEmpty_stands_in_for_nothing (part : Part) (hpart : part.operator = .defaultIfEmpty) :
    (∀ budget input, apply budget input part =
      Eval.ofExcept ((part.source input).map fun s => .sequence (s.defaulted (part.literal? 0)))) ∧
    (∀ input, (input = .absent ∨ input = .value .null → part.source input = .ok .empty) ∧
      (input ≠ .absent → input ≠ .value .null → part.source input = input.toSequence)) ∧
    ((part.literal? 0 = none ∨ ∃ f, part.function? 0 = some f) → ∀ source : Sequence,
      source.defaulted (part.literal? 0) = source) ∧
    ∀ fallback, part.literal? 0 = some fallback → ∀ source : Sequence,
      part.PutsOn source (source.defaulted (some fallback)) ∧
      (∀ history, (∃ u, Pulled (source.defaulted (some fallback)) history u) ↔ FallsBack source fallback history) ∧
      (∀ σ xs τ, Drains σ source xs .finished τ →
        Drains σ (source.defaulted (some fallback)) (if xs = [] then [fallback] else xs) .finished τ) ∧
      (∀ σ xs e τ, Drains σ source xs (.failed e) τ → Drains σ (source.defaulted (some fallback)) xs (.failed e) τ) ∧
      (∀ σ u τ, ¬ Pulls σ (source.defaulted (some fallback)) .finished u τ) ∧
      ∀ next : Part, next.operator = .defaultIfEmpty → ∃ result, next.PutsOn (source.defaulted (some fallback)) result ∧
        result.SameHistories (source.defaulted (some fallback)) := by
  refine ⟨apply_eq_defaulted hpart, fun input => ⟨fun h => source_of_defaultIfEmpty h hpart, source_eq_toSequence⟩, ?_, ?_⟩
  · intro hnone source
    have hliteral : part.literal? 0 = none := by
      obtain hliteral | ⟨f, hf⟩ := hnone
      · exact hliteral
      · exact literal?_of_function? hf
    rw [hliteral]
    rfl
  · intro fallback hliteral source
    have hputsOn := putsOn_defaultIfEmpty hpart source
    rw [hliteral] at hputsOn
    refine ⟨hputsOn, fun history => pulled_defaulted_iff, fun σ xs τ => drains_defaulted,
      fun σ xs e τ => drains_defaulted_failed, fun σ u τ => not_pulls_defaulted_finished, fun next hnext => ?_⟩
    exact ⟨_, putsOn_defaultIfEmpty hnext _, defaulted_defaulted_sameHistories fallback _⟩

/-- No value becomes `true` and then nothing more; but a source that fails at once fails, and one item stays the only one. -/
theorem defaultIfEmpty_stands_in_for_nothing_true :
    let part : Part := ⟨.defaultIfEmpty, [.literal (.bool true)]⟩
    part.source .absent = .ok .empty ∧
    (∃ u, Pulled (Sequence.empty.defaulted (some (.bool true))) [({}, .item (.bool true), {}), ({}, .finished, {})] u) ∧
    Drains {} ((failing [] (.negativeCount (-1)) 0).defaulted (some (.bool true))) [] (.failed (.negativeCount (-1))) {} ∧
    Drains {} ((Sequence.ofItems [.null]).defaulted (some (.bool true))) [.null] .finished {} := by
  intro part
  obtain ⟨-, hsource, -, hdefault⟩ := defaultIfEmpty_stands_in_for_nothing part rfl
  obtain ⟨-, hhistories, -⟩ := hdefault (.bool true) rfl .empty
  obtain ⟨-, -, -, hfailed, -⟩ := hdefault (.bool true) rfl (failing [] (.negativeCount (-1)) 0)
  obtain ⟨-, -, hfinished, -⟩ := hdefault (.bool true) rfl (.ofItems [.null])
  refine ⟨(hsource .absent).1 (.inl rfl), (hhistories _).mpr (.standsIn (.reply rfl) ?_), ?_, ?_⟩
  · exact List.forall_mem_singleton.mpr ⟨_, rfl⟩
  · exact hfailed {} [] _ {} (.last (failing_pulls_failure rfl) rfl)
  · exact hfinished {} [.null] {} (drains_queue [.null] {})

end LazyQuery
