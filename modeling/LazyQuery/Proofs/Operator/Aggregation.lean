import LazyQuery.Proofs.Sequence.Asking
import LazyQuery.Proofs.Sorting.Extremes

/-!
# Aggregating from the left

A loop that no item settles is a fold: it pulls its source once for each item, makes its next state of the state before and
of the item, and goes on to the ending (`Sequence.Folds`, `Sequence.comesTo_fold_iff`).  A fold over a source and the items
appended to it is one fold after the other, the second from the state and the session that the first has left
(`Sequence.folds_append_of_finished`).

`aggregate` folds what its projection makes of the items, from nothing if it has no seed (`Part.Aggregates.comesTo_iff`).
No function has to be pure for what is said here: the calls come in the same order, in the same sessions.

The main statement is `Engine.aggregate_folds_from_the_left`.
-/

namespace LazyQuery

open Sequence

namespace Sequence

/-! ### Folds -/

/-- From the session `σ` and the state `a` on, each item of the source is pulled and folded in, until the source ends as
said, with the state that is there then, in the session `τ`. -/
inductive Folds {α : Type} (next : α → Item → Eff α) : Session → α → Sequence → α → Ending → Session → Prop
  | ends {σ a s r t ending τ} (pull : Pulls σ s r t τ) (reply : r.ending? = some ending) : Folds next σ a s a ending τ
  | item {σ a s x t τ b υ c ending ω} (pull : Pulls σ s (.item x) t τ) (answer : next a x τ = (b, υ))
      (rest : Folds next υ b t c ending ω) : Folds next σ a s c ending ω

section Folds

variable {α β : Type} {next : α → Item → Eff α} {finish : α → Except QueryError β} {σ τ υ ω : Session} {a b c : α}
  {s t : Sequence} {x : Item} {ending ending' : Ending} {budget : Nat} {result : Except QueryError β}

/-- The rest of a pull after a step without a reply. -/
lemma Pulls.of_work {r : Reply} {u : Sequence} (h : Pulls σ s r u ω) (step : s.advance σ = ((none, t), τ)) :
    Pulls τ t r u ω := by
  cases h with
  | reply step' =>
    rw [step] at step'
    cases step'
  | work step' rest =>
    rw [step] at step'
    cases step'
    exact rest

/-- Work of the source counts as part of its next pull. -/
lemma Folds.of_work (step : s.advance σ = ((none, t), τ)) (h : Folds next τ a t c ending ω) :
    Folds next σ a s c ending ω := by
  cases h with
  | ends pull reply => exact .ends (.work step pull) reply
  | item pull answer rest => exact .item (.work step pull) answer rest

lemma folds_iff_of_works (h : Works σ s t τ) : Folds next σ a s c ending ω ↔ Folds next τ a t c ending ω := by
  induction h with
  | done => exact Iff.rfl
  | step step _ ih =>
    refine ⟨fun hfolds => ih.mp ?_, fun hfolds => (ih.mpr hfolds).of_work step⟩
    cases hfolds with
    | ends pull reply => exact .ends (pull.of_work step) reply
    | item pull answer rest => exact .item (pull.of_work step) answer rest

/-- After the first item there is the fold over the rest. -/
lemma folds_iff_of_item (hpull : Pulls σ s (.item x) t τ) (hnext : next a x τ = (b, υ)) :
    Folds next σ a s c ending ω ↔ Folds next υ b t c ending ω := by
  refine ⟨fun h => ?_, .item hpull hnext⟩
  cases h with
  | ends pull reply =>
    obtain ⟨rfl, -, -⟩ := hpull.unique pull
    cases reply
  | item pull answer rest =>
    obtain ⟨⟨⟩, rfl, rfl⟩ := hpull.unique pull
    rw [hnext] at answer
    cases answer
    exact rest

/-! #### Loops -/

/-- The step of a fold, which no item settles. -/
def folding (next : α → Item → Eff α) (state : α) (item : Item) : Eval (Verdict α β) := do
  return .more (← next state item)

lemma reduce_of_folded (hstep : s.advance σ = ((some (.item x), t), τ)) (hnext : next a x τ = (b, υ)) :
    (reduce (folding next) finish (budget + 1) a s).run.run σ = (reduce (folding next) finish budget b t).run.run υ := by
  rw [reduce_of_item hstep, folding, bind_assoc, Eval.lift_bind, Eff.bind_run hnext]
  rfl

lemma Folds.exists_reduce (h : Folds next σ a s c ending τ) :
    ∃ budget, (reduce (folding next) finish budget a s).run.run σ = (some (ending.result c >>= finish), τ) := by
  induction h with
  | @ends σ a s r t ending τ pull reply =>
    obtain ⟨v, ν, hworks, hlast⟩ := pull.works
    obtain ⟨spent, hspent⟩ := reduce_of_works hworks
    refine ⟨1 + spent, (hspent 1).trans ?_⟩
    cases r with
    | item x => cases reply
    | failure e =>
      cases reply
      exact reduce_of_failure hlast
    | finished =>
      cases reply
      rw [reduce_of_finished hlast, Eval.run_ofExcept]
      rfl
  | item pull answer _ ih =>
    obtain ⟨v, ν, hworks, hlast⟩ := pull.works
    obtain ⟨spent, hspent⟩ := reduce_of_works hworks
    obtain ⟨budget, hbudget⟩ := ih
    exact ⟨budget + 1 + spent, (hspent _).trans ((reduce_of_folded hlast answer).trans hbudget)⟩

lemma exists_folds_of_reduce (h : (reduce (folding next) finish budget a s).run.run σ = (some result, τ)) :
    ∃ c ending, Folds next σ a s c ending τ ∧ result = ending.result c >>= finish := by
  induction budget generalizing σ s a with
  | zero => cases h
  | succ budget ih =>
    rcases hstep : s.advance σ with ⟨⟨_ | x | e | _, t⟩, ω⟩
    · rw [reduce_of_work hstep] at h
      obtain ⟨c, ending, hfolds, hresult⟩ := ih h
      exact ⟨c, ending, hfolds.of_work hstep, hresult⟩
    · rcases hnext : next a x ω with ⟨b, υ⟩
      rw [reduce_of_folded hstep hnext] at h
      obtain ⟨c, ending, hfolds, hresult⟩ := ih h
      exact ⟨c, ending, .item (.reply hstep) hnext hfolds, hresult⟩
    · rw [reduce_of_failure hstep] at h
      cases h
      exact ⟨a, .failed e, .ends (.reply hstep) rfl, rfl⟩
    · rw [reduce_of_finished hstep, Eval.run_ofExcept] at h
      cases h
      exact ⟨a, .finished, .ends (.reply hstep) rfl, rfl⟩

/-- **A loop that no item settles comes to what the fold leaves at the ending**, or to the error of its source. -/
theorem comesTo_fold_iff : Eval.ComesTo (fun budget => reduce (folding next) finish budget a s) σ result τ ↔
    ∃ c ending, Folds next σ a s c ending τ ∧ result = ending.result c >>= finish := by
  rw [Eval.comesTo_iff_of_persists (reduce_persists _ _ _ _)]
  constructor
  · rintro ⟨budget, h⟩
    exact exists_folds_of_reduce h
  · rintro ⟨c, ending, hfolds, rfl⟩
    exact hfolds.exists_reduce

/-! #### Appended items -/

/-- A stage that asks its source does not reply before that has. -/
lemma Pulls.source_replies {stage : Stage} {r : Reply} {u : Sequence} (h : Pulls σ (.through stage s) r u τ)
    (hdemand : stage.demand = .ask) : ∃ r t υ, Pulls σ s r t υ := by
  obtain ⟨asked, hasks⟩ := h.exists_asks .start fun _ _ _ => ⟨[], .start⟩
  cases hasks with
  | emit demand => rw [hdemand] at demand; cases demand
  | full demand => rw [hdemand] at demand; cases demand
  | failure _ pulls | finished _ pulls | yield _ pulls | drop _ pulls | cut _ pulls => exact ⟨_, _, _, pulls⟩

/-- What a stage that appends answers to a pull, if its source has an item. -/
lemma Pulls.append {others : List Item} (h : Pulls σ s (.item x) t τ) :
    Pulls σ (.through (.append others) s) (.item x) (.through (.append others) t) τ := by
  have hreceive : (Stage.append others).receive x τ = (.yield x (.append others), τ) := rfl
  obtain ⟨u, υ, hworks, hstep⟩ := h.received rfl hreceive
  exact hworks.pulls (.reply hstep)

variable {others : List Item}

/-- **Behind a source that ends, the fold goes on over the appended items**, with the state and in the session that it has
come to. -/
theorem folds_append_of_finished (h : Folds next σ a s b .finished τ) :
    Folds next σ a (.through (.append others) s) c ending ω ↔ Folds next τ b (.ofItems others) c ending ω := by
  generalize hfinished : Ending.finished = first at h
  induction h with
  | @ends _ _ _ r _ _ τ pull reply =>
    subst hfinished
    cases r with
    | item x => cases reply
    | failure e => cases reply
    | finished =>
      obtain ⟨u, υ, hworks, hlast⟩ := pull.works
      have hclose : (Stage.append others).close τ = (others.map pure, τ) := rfl
      have hstep := ThroughStep.advance (.finished rfl hlast hclose)
      exact folds_iff_of_works ((hworks.through rfl).trans (.step hstep .done))
  | item pull answer _ ih => exact (folds_iff_of_item pull.append answer).trans (ih hfinished)

/-- Behind a source that fails there is nothing more. -/
theorem folds_append_of_failed {e : QueryError} (h : Folds next σ a s b (.failed e) τ) :
    Folds next σ a (.through (.append others) s) b (.failed e) τ := by
  generalize hfailed : Ending.failed e = last at h
  induction h with
  | @ends _ _ _ r _ _ τ pull reply =>
    subst hfailed
    cases r with
    | item x => cases reply
    | failure e =>
      cases reply
      obtain ⟨u, υ, hworks, hlast⟩ := pull.works
      have hstep : (Sequence.through (.append others) u).advance υ = ((some (.failure e), .exhausted), τ) :=
        ThroughStep.advance (.failure rfl hlast)
      exact .ends ((hworks.through rfl).pulls (.reply hstep)) rfl
    | finished => cases reply
  | item pull answer _ ih => exact .item pull.append answer (ih hfailed)

/-- And only if the source comes to an ending does the fold. -/
theorem Folds.exists_of_append (h : Folds next σ a (.through (.append others) s) c ending τ) :
    ∃ b first ω, Folds next σ a s b first ω := by
  generalize hthrough : Sequence.through (.append others) s = u at h
  induction h generalizing s with
  | ends pull reply =>
    subst hthrough
    obtain ⟨r, t, υ, hsource⟩ := pull.source_replies rfl
    cases r with
    | item x =>
      obtain ⟨rfl, -, -⟩ := pull.unique hsource.append
      cases reply
    | failure e => exact ⟨_, _, _, .ends hsource rfl⟩
    | finished => exact ⟨_, _, _, .ends hsource rfl⟩
  | item pull answer _ ih =>
    subst hthrough
    obtain ⟨r, t, υ, hsource⟩ := pull.source_replies rfl
    cases r with
    | item x =>
      obtain ⟨⟨⟩, rfl, rfl⟩ := pull.unique hsource.append
      obtain ⟨b, first, ω, hfolds⟩ := ih rfl
      exact ⟨b, first, ω, .item hsource answer hfolds⟩
    | failure e => exact ⟨_, _, _, .ends hsource rfl⟩
    | finished => exact ⟨_, _, _, .ends hsource rfl⟩

end Folds

end Sequence

/-! ### Aggregates -/

/-- The projected item joins those held, by the folder; if there are none, it is the first. -/
def accumulate (folder : Callable) (projection : Option Callable) (held : Option Item) (item : Item) :
    Eff (Option Item) := do
  let value ← Callable.project projection item
  match held with
  | some held => return some (← folder.call2 held value)
  | none => return some value

/-- The part is `aggregate` with this folder, and with this seed and this projection if there are such. -/
structure Part.Aggregates (folder : Callable) (seed : Option Item) (projection : Option Callable) (part : Part) : Prop where
  operator : part.operator = .aggregate
  folder : part.function? 0 = some folder
  seed : part.literal? 1 = seed
  projection : part.function? 2 = projection

section Aggregates

variable {folder : Callable} {seed : Option Item} {projection : Option Callable} {part : Part} {s t : Sequence}
  {σ τ υ : Session} {held held' : Option Item} {ending : Ending} {result : Except QueryError Output}

lemma accumulate_some (a x : Item) (σ : Session) : ∃ b τ, accumulate folder projection (some a) x σ = (some b, τ) := by
  rcases hvalue : Callable.project projection x σ with ⟨value, υ⟩
  rcases hcall : folder.call2 a value υ with ⟨b, τ⟩
  exact ⟨b, τ, (Eff.bind_run hvalue).trans (Eff.bind_run hcall)⟩

lemma accumulate_none {x v : Item} (h : Callable.project projection x σ = (v, τ)) :
    accumulate folder projection none x σ = (some v, τ) :=
  Eff.bind_run h

/-- What is held once is held until the end. -/
lemma exists_held_of_folds {a : Item} (h : Folds (accumulate folder projection) σ (some a) s held ending τ) :
    ∃ b, held = some b := by
  generalize hstate : some a = state at h
  induction h generalizing a with
  | ends => exact ⟨a, hstate.symm⟩
  | item pull answer _ ih =>
    subst hstate
    obtain ⟨b, υ, hsome⟩ := @accumulate_some folder projection a _ _
    rw [hsome] at answer
    cases answer
    exact ih rfl

/-- **Nothing is held in the end** only if there is no seed and no item. -/
theorem folds_none_iff : Folds (accumulate folder projection) σ seed s none ending τ ↔
    seed = none ∧ ∃ r t, Pulls σ s r t τ ∧ r.ending? = some ending := by
  constructor
  · intro h
    cases seed with
    | some a =>
      obtain ⟨b, hb⟩ := exists_held_of_folds h
      cases hb
    | none =>
      cases h with
      | ends pull reply => exact ⟨rfl, _, _, pull, reply⟩
      | item pull answer rest =>
        rw [accumulate_none rfl] at answer
        cases answer
        obtain ⟨b, hb⟩ := exists_held_of_folds rest
        cases hb
  · rintro ⟨rfl, r, t, pull, reply⟩
    exact .ends pull reply

lemma aggregate_eq_fold (budget : Nat) : Sequence.aggregate folder seed projection budget s =
    reduce (folding (accumulate folder projection)) (kept "aggregate") budget seed s := by
  refine congrArg (fun step => reduce step (kept "aggregate") budget seed s) (funext₂ fun held item => ?_)
  cases held <;> rfl

namespace Part.Aggregates

variable (h : part.Aggregates folder seed projection) {input : Output}

include h

lemma plan_eq : part.plan = .ok (.choosing (Sequence.aggregate folder seed projection)) := by
  obtain ⟨hoperator, hfolder, rfl, rfl⟩ := h
  obtain ⟨operator, arguments⟩ := part
  cases hoperator
  unfold Part.plan
  simp only [requireFunction_of_function? hfolder]
  rfl

lemma isOrdering_eq : part.isOrdering = false :=
  congrArg Operator.isOrdering h.operator

lemma source_eq : part.source input = input.toSequence :=
  source_of_ne_defaultIfEmpty (by rw [h.operator]; simp)

lemma comesTo_aggregate (hsource : input.toSequence = .ok s) : part.ComesTo input σ result τ ↔
    ∃ r, Eval.ComesTo (fun budget => Sequence.aggregate folder seed projection budget s) σ r τ ∧ result = r.map .value := by
  have hpersists : Eval.Persists fun budget => Sequence.aggregate folder seed projection budget s := reduce_persists _ _ _ _
  rw [comesTo_of_eagerly (h.source_eq.trans hsource) h.plan_eq, Eval.comesTo_map hpersists]

/-- **An aggregate comes to what the fold leaves**, to the error of its source, or to one of its own. -/
theorem comesTo_iff (hsource : input.toSequence = .ok s) : part.ComesTo input σ result τ ↔
    ∃ held ending, Folds (accumulate folder projection) σ seed s held ending τ ∧
      result = (ending.result held >>= kept "aggregate").map .value := by
  simp only [h.comesTo_aggregate hsource, aggregate_eq_fold, comesTo_fold_iff]
  constructor
  · rintro ⟨_, ⟨held, ending, hfolds, rfl⟩, rfl⟩
    exact ⟨held, ending, hfolds, rfl⟩
  · rintro ⟨held, ending, hfolds, rfl⟩
    exact ⟨_, ⟨held, ending, hfolds, rfl⟩, rfl⟩

theorem comesTo_ok_iff (hsource : input.toSequence = .ok s) {output : Output} : part.ComesTo input σ (.ok output) τ ↔
    ∃ b, Folds (accumulate folder projection) σ seed s (some b) .finished τ ∧ output = .value b := by
  rw [h.comesTo_iff hsource]
  constructor
  · rintro ⟨held, ending, hfolds, hresult⟩
    cases ending with
    | failed e => cases hresult
    | finished =>
      cases held with
      | none => cases hresult
      | some b =>
        cases hresult
        exact ⟨b, hfolds, rfl⟩
  · rintro ⟨b, hfolds, rfl⟩
    exact ⟨some b, .finished, hfolds, rfl⟩

/-- **An error is that of the source, or there is neither a seed nor an item.** -/
theorem comesTo_error_iff (hsource : input.toSequence = .ok s) {e : QueryError} :
    part.ComesTo input σ (.error e) τ ↔ (∃ held, Folds (accumulate folder projection) σ seed s held (.failed e) τ) ∨
      seed = none ∧ (∃ t, Pulls σ s .finished t τ) ∧ e = .emptySequence "aggregate" := by
  rw [h.comesTo_iff hsource]
  constructor
  · rintro ⟨held, ending, hfolds, hresult⟩
    cases ending with
    | failed e =>
      cases hresult
      exact .inl ⟨held, hfolds⟩
    | finished =>
      cases held with
      | some b => cases hresult
      | none =>
        cases hresult
        obtain ⟨hseed, r, t, pull, reply⟩ := folds_none_iff.mp hfolds
        rcases r with _ | _ | _ <;> cases reply
        exact .inr ⟨hseed, ⟨t, pull⟩, rfl⟩
  · rintro (⟨held, hfolds⟩ | ⟨hseed, ⟨t, pull⟩, rfl⟩)
    · exact ⟨held, .failed e, hfolds, rfl⟩
    · exact ⟨none, .finished, folds_none_iff.mpr ⟨hseed, _, t, pull, rfl⟩, rfl⟩

/-- **Projecting is a matter of the source.** -/
theorem comesTo_projected {plain : Part} (hplain : plain.Aggregates folder seed none) :
    part.ComesTo (.sequence s) σ result τ ↔ plain.ComesTo (.sequence (s.projected projection)) σ result τ := by
  have hstep : (fun (held : Option Item) item => do
      folding (accumulate folder none) held (← Callable.project projection item) :
        Option Item → Item → Eval (Verdict (Option Item) Item)) = folding (accumulate folder projection) := by
    funext held item
    cases held <;> rfl
  have hprojected (r : Except QueryError Item) :
      Eval.ComesTo (fun budget => Sequence.aggregate folder seed none budget (s.projected projection)) σ r τ ↔
        Eval.ComesTo (fun budget => Sequence.aggregate folder seed projection budget s) σ r τ := by
    simp only [aggregate_eq_fold, comesTo_reduce_projected, hstep]
  have hwhole : (Output.sequence s).toSequence = .ok s := rfl
  have hvalues : (Output.sequence (s.projected projection)).toSequence = .ok (s.projected projection) := rfl
  simp only [h.comesTo_aggregate hwhole, hplain.comesTo_aggregate hvalues, hprojected]

end Part.Aggregates

end Aggregates

namespace Engine

variable (engine : Engine)

/-- **Aggregating is a left fold that can be split anywhere.**  For any folder, seed and projection, whatever the functions
do in the session, and for any source, also one that fails or does not end:

* the aggregate comes to the value that the fold over the source leaves;
* with a projection it comes to what it comes to without one behind a `select` by the same function;
* with a seed, over the source and then the elements of an array, it comes to what the aggregate over the array comes to
  that has the aggregate over the source as its seed; or to the error of the latter, and to nothing if that comes to nothing;
* without a seed, over a source that has an item, it comes to what the aggregate over the rest comes to that has the
  projected item as its seed;
* an error is what a pull of the source has handed over, as it is; or it is the aggregate's own, of an empty sequence, where
  there is no seed and the source ends before an item, and only there. -/
theorem aggregate_folds_from_the_left {folder : Callable} {seed : Option Item} {projection : Option Callable} {part : Part}
    (hpart : part.Aggregates folder seed projection) (source : Sequence) (σ τ : Session) :
    (∀ output, engine.ComesTo source [part] σ (.ok output) τ ↔
      ∃ b, Folds (accumulate folder projection) σ seed source (some b) .finished τ ∧ output = .value b) ∧
    (∀ p, projection = some p → ∀ select plain : Part, select.operator = .select → select.function? 0 = some p →
      plain.Aggregates folder seed none → ∀ result,
        (engine.ComesTo source [part] σ result τ ↔ engine.ComesTo source [select, plain] σ result τ)) ∧
    (∀ a, seed = some a → ∀ concat : Part, concat.operator = .concatWith →
      ∀ others, concat.requireElements 0 "other sequence" = .ok others →
        (∀ b ω, engine.ComesTo source [part] σ (.ok (.value b)) ω → ∀ next : Part, next.Aggregates folder (some b) projection →
          ∀ array : Item, array.elements? = some others → ∀ result,
            (engine.ComesTo source [concat, part] σ result τ ↔ next.ComesTo (.value array) ω result τ)) ∧
        (∀ e ω, engine.ComesTo source [part] σ (.error e) ω → ∀ result,
          (engine.ComesTo source [concat, part] σ result τ ↔ result = .error e ∧ τ = ω)) ∧
        ∀ result, engine.ComesTo source [concat, part] σ result τ → ∃ result ω, engine.ComesTo source [part] σ result ω) ∧
    (seed = none → ∀ x rest ω v υ, Pulls σ source (.item x) rest ω → Callable.project projection x ω = (v, υ) →
      ∀ next : Part, next.Aggregates folder (some v) projection → ∀ result,
        (engine.ComesTo source [part] σ result τ ↔ engine.ComesTo rest [next] υ result τ)) ∧
    ∀ e, engine.ComesTo source [part] σ (.error e) τ ↔
      (∃ held, Folds (accumulate folder projection) σ seed source held (.failed e) τ) ∨
        seed = none ∧ (∃ t, Pulls σ source .finished t τ) ∧ e = .emptySequence "aggregate" := by
  have hcomes {s : Sequence} {seed : Option Item} {part : Part} (hpart : part.Aggregates folder seed projection)
      {σ τ : Session} {result : Except QueryError Output} : engine.ComesTo s [part] σ result τ ↔
        part.ComesTo (.sequence s) σ result τ := comesTo_single engine hpart.isOrdering_eq
  refine ⟨fun output => (hcomes hpart).trans (hpart.comesTo_ok_iff rfl), ?_, ?_, ?_,
    fun e => (hcomes hpart).trans (hpart.comesTo_error_iff rfl)⟩
  · rintro p rfl select plain hselect hp hplain result
    rw [engine.comesTo_cons (congrArg Operator.isOrdering hselect) (plan_of_select hselect hp), hcomes hpart,
      comesTo_single engine hplain.isOrdering_eq, hpart.comesTo_projected hplain]
    rfl
  · rintro a rfl concat hconcat others hothers
    have hboth {result : Except QueryError Output} : engine.ComesTo source [concat, part] σ result τ ↔
        part.ComesTo (.sequence (.through (.append others) source)) σ result τ := by
      rw [engine.comesTo_cons (congrArg Operator.isOrdering hconcat) (plan_of_concatWith hconcat hothers), hcomes hpart]
      rfl
    refine ⟨fun b ω hfirst next hnext array harray result => ?_, fun e ω hfirst result => ?_, fun result h => ?_⟩
    · obtain ⟨b', hfolds, ⟨⟩⟩ := (hpart.comesTo_ok_iff rfl).mp ((hcomes hpart).mp hfirst)
      have harray : (Output.value array).toSequence = .ok (.ofItems others) := by
        cases array <;> cases harray
        rfl
      rw [hboth, hpart.comesTo_iff rfl, hnext.comesTo_iff harray]
      simp only [folds_append_of_finished hfolds]
    · obtain ⟨held, hfolds⟩ | ⟨⟨⟩, -⟩ := (hpart.comesTo_error_iff rfl).mp ((hcomes hpart).mp hfirst)
      have hfails : part.ComesTo (.sequence (.through (.append others) source)) σ (.error e) ω :=
        (hpart.comesTo_error_iff rfl).mpr (.inl ⟨held, folds_append_of_failed hfolds⟩)
      rw [hboth]
      refine ⟨fun h => h.unique hfails, ?_⟩
      rintro ⟨rfl, rfl⟩
      exact hfails
    · obtain ⟨held, ending, hfolds, -⟩ := (hpart.comesTo_iff rfl).mp (hboth.mp h)
      obtain ⟨held', ending', ω, hfirst⟩ := hfolds.exists_of_append
      exact ⟨_, ω, (hcomes hpart).mpr ((hpart.comesTo_iff rfl).mpr ⟨held', ending', hfirst, rfl⟩)⟩
  · rintro rfl x rest ω v υ hpull hvalue next hnext result
    rw [hcomes hpart, hcomes hnext, hpart.comesTo_iff rfl, hnext.comesTo_iff rfl]
    simp only [folds_iff_of_item hpull (accumulate_none hvalue)]

/-- A folder that keeps both what it is given. -/
def pairing : Callable :=
  .binary fun held value => return .array 0 [held, value]

/-- From null on, both items are folded in, in order; and null is a seed also where there is no item, which fails without
one. -/
theorem aggregate_folds_from_the_left_null :
    Part.Aggregates pairing (some .null) none ⟨.aggregate, [.function pairing, .literal .null]⟩ ∧
    ComesTo ⟨{}, "q", 0⟩ (.ofItems [.bool true, .bool false]) [⟨.aggregate, [.function pairing, .literal .null]⟩] {}
      (.ok (.value (.array 0 [.array 0 [.null, .bool true], .bool false]))) {} ∧
    ComesTo ⟨{}, "q", 0⟩ (.ofItems []) [⟨.aggregate, [.function pairing, .literal .null]⟩] {} (.ok (.value .null)) {} ∧
    ComesTo ⟨{}, "q", 0⟩ (.ofItems []) [⟨.aggregate, [.function pairing]⟩] {} (.error (.emptySequence "aggregate")) {} := by
  have hseeded : Part.Aggregates pairing (some .null) none ⟨.aggregate, [.function pairing, .literal .null]⟩ :=
    ⟨rfl, rfl, rfl, rfl⟩
  have hunseeded : Part.Aggregates pairing none none ⟨.aggregate, [.function pairing]⟩ := ⟨rfl, rfl, rfl, rfl⟩
  have hend : Pulls {} (.ofItems []) .finished .exhausted {} := .reply rfl
  obtain ⟨htwo, -⟩ := aggregate_folds_from_the_left ⟨{}, "q", 0⟩ hseeded (.ofItems [.bool true, .bool false]) {} {}
  obtain ⟨hnone, -⟩ := aggregate_folds_from_the_left ⟨{}, "q", 0⟩ hseeded (.ofItems []) {} {}
  obtain ⟨-, -, -, -, herror⟩ := aggregate_folds_from_the_left ⟨{}, "q", 0⟩ hunseeded (.ofItems []) {} {}
  refine ⟨hseeded, (htwo _).mpr ⟨_, ?_, rfl⟩, (hnone _).mpr ⟨_, .ends hend rfl, rfl⟩,
    (herror _).mpr (.inr ⟨rfl, ⟨_, hend⟩, rfl⟩)⟩
  exact .item (.reply rfl) rfl (.item (.reply rfl) rfl (.ends (.reply rfl) rfl))

end Engine

end LazyQuery
