import LazyQuery.Proofs.Sorting.Extremes

/-!
# One numeric coercion

`sum`, `average` and `cast` to numbers ask for the numeric values of the items, or of what a function makes of them.  `sum` and
`average` read them in a loop of their own, and `cast` replaces items on their way; yet all three are the one scan
`numbersScan`.  They go on over the same items, stop at the same first one without a numeric value, with the same error
(`StopsCoercing`), and otherwise have the same numbers in the same order (`Amounts`).

The main statement is `Engine.sum_average_and_cast_coerce_alike`.
-/

namespace LazyQuery

open Sequence

/-! ### The scan -/

/-- The values of the visits are the numbers, one by one. -/
def Coerces (fed : List (Item × Item)) (xs : List Number) : Prop :=
  List.Forall₂ (fun visit x => visit.2.toNumber? = some x) fed xs

def numbersOf (visits : List (Item × Item)) : List Number :=
  visits.filterMap fun visit => visit.2.toNumber?

/-- The scan that takes the numeric values up to the first item that has none. -/
def numbersScan (selector : Option Callable) : Scan Item (Except QueryError (List Number)) where
  work := Callable.project selector
  settles _ _ value :=
    match numeric value with
    | .ok _ => none
    | .error e => some (.error e)
  otherwise visits := .ok (numbersOf visits)

/-- Gone through with the function called on each item, the source has values that are these numbers, and ends. -/
def Amounts (selector : Option Callable) (σ : Session) (source : Sequence) (xs : List Number) (τ : Session) : Prop :=
  ∃ fed, FeedsAll (Callable.project selector) σ source fed .finished τ ∧ Coerces fed xs

/-- Gone through like this, the source has numeric values up to the error that it ends with, or up to a value that is not
numeric, and the error is that it cannot be cast. -/
def StopsCoercing (selector : Option Callable) (σ : Session) (source : Sequence) (e : QueryError) (τ : Session) : Prop :=
  ∃ fed xs, Coerces fed xs ∧
    (FeedsAll (Callable.project selector) σ source fed (.failed e) τ ∨
      ∃ x value t, Feeds (Callable.project selector) σ source (fed ++ [(x, value)]) t τ ∧ value.toNumber? = none ∧
        e = .invalidCast value.typeTag .number)

section Coerces

variable {value : Item} {x : Number} {e : QueryError}

lemma numeric_ok_iff : numeric value = .ok x ↔ value.toNumber? = some x := by
  unfold numeric
  cases value.toNumber? <;> simp

lemma numeric_error_iff : numeric value = .error e ↔ value.toNumber? = none ∧ e = .invalidCast value.typeTag .number := by
  unfold numeric
  cases value.toNumber? <;> simp [eq_comm]

/-- Casting to a number is the same coercion. -/
lemma castTo?_number (value : Item) : value.castTo? .number = value.toNumber?.map .number := by
  cases value <;> rfl

lemma numbersOf_of_coerces {fed : List (Item × Item)} {xs : List Number} (h : Coerces fed xs) : numbersOf fed = xs := by
  unfold numbersOf
  induction h with
  | nil => rfl
  | cons hfirst _ ih => simp only [List.filterMap_cons, hfirst, ih]

/-- The scan goes on over numeric values. -/
lemma unsettled_numbers_iff {selector : Option Callable} {before fed : List (Item × Item)} :
    (numbersScan selector).Unsettled before fed ↔ ∃ xs, Coerces fed xs := by
  induction fed generalizing before with
  | nil => exact ⟨fun _ => ⟨[], .nil⟩, fun _ => trivial⟩
  | cons visit fed ih =>
    have hsettles : (numbersScan selector).settles before visit.1 visit.2 = none ↔ ∃ x, visit.2.toNumber? = some x := by
      simp only [numbersScan, ← numeric_ok_iff]
      cases numeric visit.2 <;> simp
    constructor
    · rintro ⟨hfirst, hrest⟩
      obtain ⟨x, hx⟩ := hsettles.mp hfirst
      obtain ⟨xs, hxs⟩ := ih.mp hrest
      exact ⟨x :: xs, .cons hx hxs⟩
    · rintro ⟨_, hxs⟩
      cases hxs with
      | cons hx hrest => exact ⟨hsettles.mpr ⟨_, hx⟩, ih.mpr ⟨_, hrest⟩⟩

end Coerces

/-! ### What it comes to -/

/-- The scan comes to numbers, or to an error, be it handed over or its own. -/
def Reads (selector : Option Callable) (σ : Session) (source : Sequence) (result : Except QueryError (List Number))
    (τ : Session) : Prop :=
  ∃ outcome, (numbersScan selector).Gives [] σ source outcome τ ∧ result = outcome >>= id

section Reads

variable {selector : Option Callable} {source : Sequence} {σ τ : Session} {e : QueryError} {xs : List Number}

theorem reads_ok_iff : Reads selector σ source (.ok xs) τ ↔ Amounts selector σ source xs τ := by
  constructor
  · rintro ⟨outcome, hgives, hresult⟩
    obtain ⟨fed, ending, hfeeds, hfed, rfl⟩ | ⟨fed, x, value, k, t, -, -, hsettles, rfl⟩ := hgives.exists_feedsAll_or
    · cases ending with
      | failed e => cases hresult
      | finished =>
        obtain ⟨ys, hys⟩ := unsettled_numbers_iff.mp hfed
        cases hresult
        exact ⟨fed, hfeeds, (numbersOf_of_coerces hys).symm ▸ hys⟩
    -- an answer that settles the scan is never a list of numbers
    · replace hresult : Except.ok xs = k := hresult
      simp only [numbersScan, ← hresult] at hsettles
      split at hsettles <;> cases hsettles
  · rintro ⟨fed, hfeeds, hfed⟩
    refine ⟨_, .of_feedsAll hfeeds (unsettled_numbers_iff.mpr ⟨xs, hfed⟩), ?_⟩
    exact congrArg Except.ok (numbersOf_of_coerces hfed).symm

theorem reads_error_iff : Reads selector σ source (.error e) τ ↔ StopsCoercing selector σ source e τ := by
  constructor
  · rintro ⟨outcome, hgives, hresult⟩
    obtain ⟨fed, ending, hfeeds, hfed, rfl⟩ | ⟨fed, x, value, k, t, hfeeds, hfed, hsettles, rfl⟩ :=
      hgives.exists_feedsAll_or
    · obtain ⟨xs, hxs⟩ := unsettled_numbers_iff.mp hfed
      cases ending with
      | finished => cases hresult
      | failed e =>
        cases hresult
        exact ⟨fed, xs, hxs, .inl hfeeds⟩
    -- the scan has stopped by itself, at a value that is not numeric
    · obtain ⟨xs, hxs⟩ := unsettled_numbers_iff.mp hfed
      replace hresult : Except.error e = k := hresult
      simp only [numbersScan, ← hresult] at hsettles
      cases hvalue : numeric value with
      | ok y =>
        rw [hvalue] at hsettles
        cases hsettles
      | error e' =>
        rw [hvalue] at hsettles
        cases hsettles
        obtain ⟨hnone, he⟩ := numeric_error_iff.mp hvalue
        exact ⟨fed, xs, hxs, .inr ⟨x, value, t, hfeeds, hnone, he⟩⟩
  · rintro ⟨fed, xs, hxs, hfeeds | ⟨x, value, t, hfeeds, hnone, he⟩⟩
    · exact ⟨.error e, .of_feedsAll hfeeds (unsettled_numbers_iff.mpr ⟨xs, hxs⟩), rfl⟩
    · have hsettles : (numbersScan selector).settles ([] ++ fed) x value = some (.error e) := by
        simp only [numbersScan, numeric_error_iff.mpr ⟨hnone, he⟩]
      exact ⟨.ok (.error e), .of_feeds hfeeds (unsettled_numbers_iff.mpr ⟨xs, hxs⟩) hsettles, rfl⟩

/-- What is made of the numbers is an error only where the scan comes to it. -/
lemma exists_reads_error_iff {β : Type} {f : List Number → β} :
    (∃ numbers, Reads selector σ source numbers τ ∧ Except.error e = numbers.map f) ↔ StopsCoercing selector σ source e τ := by
  rw [← reads_error_iff]
  constructor
  · rintro ⟨_ | xs, hreads, hresult⟩ <;> cases hresult
    exact hreads
  · exact fun hreads => ⟨_, hreads, rfl⟩

/-- A loop for the scan comes to what is made of the numbers, or to the error. -/
lemma comesTo_numbers_iff {α β : Type} {f : List Number → β} {step : α → Item → Eval (Verdict α β)}
    {finish : α → Except QueryError β} {result : Except QueryError β} (summary : List (Item × Item) → α)
    (h : (numbersScan selector).Implements summary (·.map f) step finish) :
    Eval.ComesTo (fun budget => reduce step finish budget (summary []) source) σ result τ ↔
      ∃ numbers, Reads selector σ source numbers τ ∧ result = numbers.map f := by
  have hrender (outcome : Except QueryError (Except QueryError (List Number))) :
      (outcome >>= fun k => k.map f) = (outcome >>= id).map f := by
    rcases outcome with _ | _ | _ <;> rfl
  rw [h.comesTo_iff []]
  constructor
  · rintro ⟨outcome, hgives, rfl⟩
    exact ⟨_, ⟨outcome, hgives, rfl⟩, hrender outcome⟩
  · rintro ⟨_, ⟨outcome, hgives, rfl⟩, rfl⟩
    exact ⟨outcome, hgives, (hrender outcome).symm⟩

end Reads

/-! ### The three loops -/

/-- The numbers added up from the left. -/
def added (xs : List Number) : Number :=
  xs.foldl (· + ·) .zero

/-- A sum by how many numbers it is of, and zero where there are none. -/
def mean (total : Number × Nat) : Number :=
  if total.2 = 0 then .zero else total.1 / .ofNat total.2

def averaged (xs : List Number) : Number :=
  mean (added xs, xs.length)

section Loops

variable {selector : Option Callable} {source : Sequence} {σ τ : Session}

lemma numbersOf_concat {visits : List (Item × Item)} {x value : Item} {y : Number} (h : value.toNumber? = some y) :
    numbersOf (visits ++ [(x, value)]) = numbersOf visits ++ [y] := by
  simp [numbersOf, h]

/-- A loop that goes on with the numeric values, and fails where there is none, is one for the scan. -/
lemma implements_numbers {α : Type} {f : List Number → Number} {next : α → Number → α} {finish : α → Except QueryError Number}
    (summary : List Number → α) (hnext : ∀ xs x, next (summary xs) x = summary (xs ++ [x]))
    (hfinish : ∀ xs, finish (summary xs) = .ok (f xs)) :
    (numbersScan selector).Implements (fun visits => summary (numbersOf visits)) (·.map f)
      (fun held item => do
        let value ← Callable.project selector item
        let x ← Eval.ofExcept (numeric value)
        return .more (next held x))
      finish where
  step_eq visits x := by
    dsimp only [numbersScan]
    refine bind_congr fun value => ?_
    cases hvalue : numeric value with
    | ok y =>
      simp only [numbersOf_concat (numeric_ok_iff.mp hvalue), ← hnext]
      rfl
    | error e => rfl
  finish_eq visits := hfinish _

lemma added_concat (xs : List Number) (x : Number) : added (xs ++ [x]) = added xs + x :=
  List.foldl_concat ..

/-- **Adding up** is a loop for the scan. -/
theorem sum_comesTo {result : Except QueryError Number} :
    Eval.ComesTo (fun budget => source.sum selector budget) σ result τ ↔
      ∃ numbers, Reads selector σ source numbers τ ∧ result = numbers.map added :=
  comesTo_numbers_iff _ (implements_numbers added (fun xs x => (added_concat xs x).symm) fun _ => rfl)

/-- **Averaging** is a loop of its own for it, which adds up to the same. -/
theorem average_comesTo {result : Except QueryError Number} :
    Eval.ComesTo (fun budget => source.average selector budget) σ result τ ↔
      ∃ numbers, Reads selector σ source numbers τ ∧ result = numbers.map averaged := by
  refine comesTo_numbers_iff _ (implements_numbers (fun xs => (added xs, xs.length)) (fun xs x => ?_) fun _ => rfl)
  rw [added_concat, List.length_append, List.length_singleton]

/-- **The two loops agree.**  They come to an error in the same runs, to the same one; and where there are numbers only, the
average is what the sum comes to, by how many they are. -/
theorem sum_and_average_agree :
    (∀ e, Eval.ComesTo (fun budget => source.sum selector budget) σ (.error e) τ ↔
      Eval.ComesTo (fun budget => source.average selector budget) σ (.error e) τ) ∧
    ∀ xs, Amounts selector σ source xs τ → ∃ total,
      Eval.ComesTo (fun budget => source.sum selector budget) σ (.ok total) τ ∧
      Eval.ComesTo (fun budget => source.average selector budget) σ (.ok (mean (total, xs.length))) τ := by
  refine ⟨fun e => ?_, fun xs hamounts => ⟨added xs, ?_, ?_⟩⟩
  · rw [sum_comesTo, average_comesTo, exists_reads_error_iff, exists_reads_error_iff]
  · exact sum_comesTo.mpr ⟨.ok xs, reads_ok_iff.mpr hamounts, rfl⟩
  · exact average_comesTo.mpr ⟨.ok xs, reads_ok_iff.mpr hamounts, rfl⟩

lemma goesBy_cast (target : TypeTag) : (Stage.cast target).GoesBy pure fun x _ =>
    (x.castTo? target).elim (.error (.invalidCast x.typeTag target)) fun y => .ok (some y) where
  demand_eq := rfl
  receive_eq {x σ c τ} h := by
    cases h
    unfold Stage.cast
    rw [Stage.receive]
    dsimp only
    cases x.castTo? target <;> rfl
  close_eq := rfl

/-- **Casting** what the function makes of the items is another. -/
theorem collect_cast_comesTo {result : Except QueryError (List Item)} :
    Eval.ComesTo (fun budget => (through (.cast .number) (source.projected selector)).collect budget) σ result τ ↔
      ∃ numbers, Reads selector σ source numbers τ ∧ result = numbers.map (·.map .number) := by
  refine (comesTo_reduce_through (goesBy_cast .number)).trans (comesTo_reduce_projected.trans ?_)
  refine comesTo_numbers_iff (fun visits => ((numbersOf visits).map Item.number).reverse) ⟨?_, ?_⟩
  · intro visits x
    dsimp only [numbersScan]
    refine bind_congr fun value => ?_
    rw [guarded]
    cases hvalue : numeric value with
    | ok y =>
      have hcast : value.castTo? .number = some (.number y) := by rw [castTo?_number, numeric_ok_iff.mp hvalue]; rfl
      simp only [hcast, numbersOf_concat (numeric_ok_iff.mp hvalue), List.map_append, List.reverse_append]
      rfl
    | error e =>
      obtain ⟨hnone, rfl⟩ := numeric_error_iff.mp hvalue
      have hcast : value.castTo? .number = none := by rw [castTo?_number, hnone]; rfl
      simp only [hcast]
      rfl
  · exact fun visits => congrArg Except.ok (List.reverse_reverse _)

/-- What the cast hands out are the numbers as items, and its ending is the error, if there is one. -/
theorem drains_cast_iff {result : Except QueryError (List Item)} :
    (∃ values ending, Drains σ (through (.cast .number) (source.projected selector)) values ending τ ∧
      result = ending.outcome values) ↔
      ∃ numbers, Reads selector σ source numbers τ ∧ result = numbers.map (·.map .number) := by
  rw [← collect_cast_comesTo, ← collect_iff_drains]
  exact (Eval.comesTo_iff_of_persists (reduce_persists _ _ _ _)).symm

lemma drains_cast_failed_iff {e : QueryError} :
    (∃ values, Drains σ (through (.cast .number) (source.projected selector)) values (.failed e) τ) ↔
      StopsCoercing selector σ source e τ := by
  rw [← reads_error_iff]
  constructor
  · rintro ⟨values, hdrains⟩
    obtain ⟨numbers, hreads, hresult⟩ := drains_cast_iff.mp ⟨values, _, hdrains, rfl⟩
    cases numbers with
    | ok xs => cases hresult
    | error e' =>
      cases hresult
      exact hreads
  · intro hreads
    obtain ⟨values, ending, hdrains, hresult⟩ := drains_cast_iff.mpr ⟨_, hreads, rfl⟩
    cases ending with
    | finished => cases hresult
    | failed e' =>
      cases hresult
      exact ⟨values, hdrains⟩

lemma drains_cast_finished_iff {values : List Item} :
    Drains σ (through (.cast .number) (source.projected selector)) values .finished τ ↔
      ∃ xs, Amounts selector σ source xs τ ∧ values = xs.map .number := by
  simp only [← reads_ok_iff]
  constructor
  · intro hdrains
    obtain ⟨numbers, hreads, hresult⟩ := drains_cast_iff.mp ⟨values, _, hdrains, rfl⟩
    cases numbers with
    | error e => cases hresult
    | ok xs =>
      cases hresult
      exact ⟨xs, hreads, rfl⟩
  · rintro ⟨xs, hreads, rfl⟩
    obtain ⟨values, ending, hdrains, hresult⟩ := drains_cast_iff.mpr ⟨_, hreads, rfl⟩
    cases ending with
    | failed e => cases hresult
    | finished =>
      cases hresult
      exact hdrains

lemma drains_cast_numbers_iff {xs : List Number} :
    Drains σ (through (.cast .number) (source.projected selector)) (xs.map .number) .finished τ ↔
      Amounts selector σ source xs τ := by
  have hinjective : Function.Injective Item.number := fun _ _ h => Item.number.inj h
  rw [drains_cast_finished_iff]
  constructor
  · rintro ⟨ys, hamounts, hvalues⟩
    rwa [hinjective.list_map hvalues]
  · exact fun hamounts => ⟨xs, hamounts, rfl⟩

end Loops

/-! ### Queries -/

/-- The part with this operator, given the function if there is one. -/
def numericPart (operator : Operator) (selector : Option Callable) : Part :=
  ⟨operator, selector.toList.map .function⟩

/-- The parts that cast what the function makes of the items, or the items themselves, to numbers. -/
def castSelected (selector : Option Callable) : List Part :=
  selections selector ++ [⟨.cast, [.literal (.string "number")]⟩]

namespace Engine

section Queries

variable (engine : Engine) {selector : Option Callable} {source : Sequence} {part : Part} {σ τ : Session}
  {result : Except QueryError Output}

lemma executeSequence_castSelected : (engine.executeSequence source (castSelected selector)).unlogged =
    pure (.sequence (through (.cast .number) (source.projected selector))) := by
  have hcast (s : Sequence) : interpret engine.budget (segments [⟨.cast, [.literal (.string "number")]⟩]) (.sequence s) =
      pure (.sequence (through (.cast .number) s)) := by
    rw [segments_cons_single rfl, segments]
    rfl
  rw [executeSequence_segments, castSelected]
  cases selector with
  | none => exact hcast source
  | some f =>
    rw [selections, List.singleton_append, segments_cons_single rfl]
    exact hcast (through (.select f) source)

/-- **A query that reads the numbers** comes to what its loop makes of them. -/
theorem comesTo_reading {f : List Number → Number} {run : Nat → Sequence → Eval Number} (hordering : part.isOrdering = false)
    (hplan : part.plan = .ok (.computing run)) (hpersists : Eval.Persists fun budget => run budget source)
    (hrun : ∀ {result}, Eval.ComesTo (fun budget => run budget source) σ result τ ↔
      ∃ numbers, Reads selector σ source numbers τ ∧ result = numbers.map f) :
    engine.ComesTo source [part] σ result τ ↔
      ∃ numbers, Reads selector σ source numbers τ ∧ result = numbers.map fun xs => .value (.number (f xs)) := by
  rw [comesTo_single engine hordering, comesTo_of_eagerly (source_sequence _ _) hplan]
  simp only [Eval.comesTo_map hpersists, hrun]
  constructor
  · rintro ⟨_, ⟨numbers, hreads, rfl⟩, rfl⟩
    exact ⟨numbers, hreads, by cases numbers <;> rfl⟩
  · rintro ⟨numbers, hreads, rfl⟩
    exact ⟨_, ⟨numbers, hreads, rfl⟩, by cases numbers <;> rfl⟩

lemma comesTo_sum : engine.ComesTo source [numericPart .sum selector] σ result τ ↔
    ∃ numbers, Reads selector σ source numbers τ ∧ result = numbers.map fun xs => .value (.number (added xs)) := by
  have hplan : (numericPart .sum selector).plan = .ok (.computing fun budget s => s.sum selector budget) := by
    cases selector <;> rfl
  exact engine.comesTo_reading rfl hplan (reduce_persists _ _ _ _) sum_comesTo

lemma comesTo_average : engine.ComesTo source [numericPart .average selector] σ result τ ↔
    ∃ numbers, Reads selector σ source numbers τ ∧ result = numbers.map fun xs => .value (.number (averaged xs)) := by
  have hplan : (numericPart .average selector).plan = .ok (.computing fun budget s => s.average selector budget) := by
    cases selector <;> rfl
  exact engine.comesTo_reading rfl hplan (reduce_persists _ _ _ _) average_comesTo

lemma comesTo_error_iff {f : List Number → Output} {parts : List Part} {e : QueryError}
    (h : ∀ {result}, engine.ComesTo source parts σ result τ ↔
      ∃ numbers, Reads selector σ source numbers τ ∧ result = numbers.map f) :
    engine.ComesTo source parts σ (.error e) τ ↔ StopsCoercing selector σ source e τ := by
  rw [h, exists_reads_error_iff]

lemma comesTo_ok_iff {f : List Number → Output} {parts : List Part} {output : Output}
    (h : ∀ {result}, engine.ComesTo source parts σ result τ ↔
      ∃ numbers, Reads selector σ source numbers τ ∧ result = numbers.map f) :
    engine.ComesTo source parts σ (.ok output) τ ↔
      ∃ xs, Drains σ (through (.cast .number) (source.projected selector)) (xs.map .number) .finished τ ∧ output = f xs := by
  simp only [h, drains_cast_numbers_iff, ← reads_ok_iff]
  constructor
  · rintro ⟨_ | xs, hreads, hresult⟩ <;> cases hresult
    exact ⟨xs, hreads, rfl⟩
  · rintro ⟨xs, hreads, rfl⟩
    exact ⟨_, hreads, rfl⟩

end Queries

/-- **Sums, averages and casts coerce alike.**  For any source, also one that fails, and any function on its items, or none:

* the sum, the average, and going through what is cast to numbers come to an error in the same runs, to the same one: the error
  of the source, or that of the first value that is not numeric, whichever is there first;
* otherwise the cast hands out the numeric values of all items, the sum adds them up from the left, and the average is this sum
  by how many there are, and zero where there are none. -/
theorem sum_average_and_cast_coerce_alike (engine : Engine) (selector : Option Callable) (source : Sequence) :
    ∃ cast : Sequence, (engine.executeSequence source (castSelected selector)).unlogged = pure (.sequence cast) ∧
      (∀ σ e τ,
        ((∃ values, Drains σ cast values (.failed e) τ) ↔ StopsCoercing selector σ source e τ) ∧
        (engine.ComesTo source [numericPart .sum selector] σ (.error e) τ ↔ StopsCoercing selector σ source e τ) ∧
        (engine.ComesTo source [numericPart .average selector] σ (.error e) τ ↔ StopsCoercing selector σ source e τ)) ∧
      (∀ σ values τ, Drains σ cast values .finished τ ↔
        ∃ xs, Amounts selector σ source xs τ ∧ values = xs.map .number) ∧
      ∀ σ output τ,
        (engine.ComesTo source [numericPart .sum selector] σ (.ok output) τ ↔
          ∃ xs, Drains σ cast (xs.map .number) .finished τ ∧ output = .value (.number (added xs))) ∧
        (engine.ComesTo source [numericPart .average selector] σ (.ok output) τ ↔
          ∃ xs, Drains σ cast (xs.map .number) .finished τ ∧ output = .value (.number (averaged xs))) :=
  ⟨_, engine.executeSequence_castSelected,
    fun _ _ _ => ⟨drains_cast_failed_iff, engine.comesTo_error_iff engine.comesTo_sum,
      engine.comesTo_error_iff engine.comesTo_average⟩,
    fun _ _ _ => drains_cast_finished_iff,
    fun _ _ _ => ⟨engine.comesTo_ok_iff engine.comesTo_sum, engine.comesTo_ok_iff engine.comesTo_average⟩⟩

/-- Of `true`, `"2"` and null the third is not numeric, and without it the sum is 3. -/
theorem sum_average_and_cast_coerce_alike_mixed :
    (∀ operator ∈ [Operator.sum, .average], ComesTo ⟨{}, "q", 0⟩ (.ofItems [.bool true, .string "2", .null])
      [numericPart operator none] {} (.error (.invalidCast .null .number)) {}) ∧
    ComesTo ⟨{}, "q", 0⟩ (.ofItems [.bool true, .string "2"]) [numericPart .sum none] {}
      (.ok (.value (.number (.ofNat 3)))) {} := by
  have hone : (Item.bool true).toNumber? = some (.ofNat 1) := rfl
  have htwo : (Item.string "2").toNumber? = some (.ofNat 2) := by decide
  have hfed : Coerces [(.bool true, .bool true), (.string "2", .string "2")] [.ofNat 1, .ofNat 2] :=
    .cons hone (.cons htwo .nil)
  constructor
  · obtain ⟨cast, -, herrors, -, -⟩ :=
      sum_average_and_cast_coerce_alike ⟨{}, "q", 0⟩ none (.ofItems [.bool true, .string "2", .null])
    have hstops : StopsCoercing none {} (.ofItems [.bool true, .string "2", .null]) (.invalidCast .null .number) {} :=
      ⟨_, _, hfed, .inr ⟨.null, .null, _, .item (.reply rfl) rfl (.item (.reply rfl) rfl (.item (.reply rfl) rfl .start)),
        rfl, rfl⟩⟩
    obtain ⟨-, hsum, haverage⟩ := herrors {} (.invalidCast .null .number) {}
    exact List.forall_mem_cons.mpr ⟨hsum.mpr hstops, List.forall_mem_singleton.mpr (haverage.mpr hstops)⟩
  · obtain ⟨cast, -, -, hcast, hvalues⟩ :=
      sum_average_and_cast_coerce_alike ⟨{}, "q", 0⟩ none (.ofItems [.bool true, .string "2"])
    have hamounts : Amounts none {} (.ofItems [.bool true, .string "2"]) [.ofNat 1, .ofNat 2] {} :=
      ⟨_, ⟨_, _, _, _, .item (.reply rfl) rfl (.item (.reply rfl) rfl .start), .reply rfl, rfl⟩, hfed⟩
    have hdrains := (hcast {} _ {}).mpr ⟨_, hamounts, rfl⟩
    have hadded : added [.ofNat 1, .ofNat 2] = .ofNat 3 := by decide
    exact (hvalues {} _ {}).1.mpr ⟨_, hdrains, by rw [hadded]⟩

end Engine

end LazyQuery
