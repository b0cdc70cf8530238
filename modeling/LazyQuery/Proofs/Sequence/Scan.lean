import LazyQuery.Proofs.Operator.Chain
import LazyQuery.Proofs.Sequence.Feeding

/-!
# Scans

Operators that consume their source go through it in loops of their own, each with a state of its own.  `Scan` is what such a
loop is for: the work on an item, the answer with which an item settles the scan after those before it, and the answer where
none does.  `Scan.Gives` is what comes of it, pull by pull, with the errors that a pull of the source hands over told apart
from the answers of the scan.

* a loop whose state is a summary of the items seen so far comes to what the scan gives (`Scan.Implements.comesTo_iff`), so
  two loops for one scan come to the same;
* an error that is handed over comes at the end of a run on the source in which no item settles the scan
  (`Scan.gives_error_iff`); a scan that no item settles takes all items (`Scan.gives_iff_of_never`);
* a loop on a filter or a selection is a loop on the source of it, with the function called at each step
  (`Sequence.comesTo_reduce_link`).
-/

namespace LazyQuery

open Sequence

/-! ### Results and budgets -/

namespace Eval

/-- With every budget from some size on, the evaluation comes to the result, and leaves the session `τ`. -/
def ComesTo {α : Type} (run : Nat → Eval α) (σ : Session) (result : Except QueryError α) (τ : Session) : Prop :=
  ∃ enough, ∀ budget, enough ≤ budget → (run budget).run.run σ = (some result, τ)

/-- A larger budget comes to the same result. -/
def Persists {α : Type} (run : Nat → Eval α) : Prop :=
  ∀ {budget budget' σ result τ}, budget ≤ budget' → (run budget).run.run σ = (some result, τ) →
    (run budget').run.run σ = (some result, τ)

section ComesTo

variable {α β : Type} {run : Nat → Eval α} {σ τ τ' : Session} {result result' : Except QueryError α}

lemma ComesTo.unique (h : ComesTo run σ result τ) (h' : ComesTo run σ result' τ') : result = result' ∧ τ = τ' := by
  obtain ⟨enough, h⟩ := h
  obtain ⟨enough', h'⟩ := h'
  have hboth := (h (max enough enough') (le_max_left _ _)).symm.trans (h' _ (le_max_right _ _))
  cases hboth
  exact ⟨rfl, rfl⟩

lemma comesTo_iff_of_persists (hrun : Persists run) :
    ComesTo run σ result τ ↔ ∃ budget, (run budget).run.run σ = (some result, τ) := by
  constructor
  · rintro ⟨enough, h⟩
    exact ⟨enough, h enough le_rfl⟩
  · rintro ⟨budget, h⟩
    exact ⟨budget, fun budget' hle => hrun hle h⟩

lemma comesTo_const {x : Eval α} : ComesTo (fun _ => x) σ result τ ↔ x.run.run σ = (some result, τ) :=
  ⟨fun ⟨enough, h⟩ => h enough le_rfl, fun h => ⟨0, fun _ _ => h⟩⟩

lemma run_ofExcept (x : Except QueryError α) : (ofExcept x).run.run σ = (some x, σ) := by
  cases x <;> rfl

lemma comesTo_ofExcept {x : Except QueryError α} : ComesTo (fun _ => ofExcept x) σ result τ ↔ result = x ∧ τ = σ := by
  rw [comesTo_const, run_ofExcept]
  constructor
  · rintro ⟨⟩
    exact ⟨rfl, rfl⟩
  · rintro ⟨rfl, rfl⟩
    rfl

lemma run_map_iff {f : α → β} {x : Eval α} {result : Except QueryError β} :
    (do return f (← x) : Eval β).run.run σ = (some result, τ) ↔
      ∃ r, x.run.run σ = (some r, τ) ∧ result = r.map f := by
  rcases hx : x.run.run σ with ⟨_ | e | a, ω⟩
  · rw [Eval.bind_run_of_none hx]
    constructor
    · rintro ⟨⟩
    · rintro ⟨_, ⟨⟩, _⟩
  · rw [Eval.bind_run_of_error hx]
    constructor
    · rintro ⟨⟩
      exact ⟨_, rfl, rfl⟩
    · rintro ⟨_, ⟨⟩, rfl⟩
      rfl
  · rw [Eval.bind_run hx]
    constructor
    · rintro ⟨⟩
      exact ⟨_, rfl, rfl⟩
    · rintro ⟨_, ⟨⟩, rfl⟩
      rfl

lemma Persists.map (hrun : Persists run) (f : α → β) : Persists fun budget => do return f (← run budget) := by
  intro budget budget' σ result τ hle h
  obtain ⟨r, hr, rfl⟩ := run_map_iff.mp h
  exact run_map_iff.mpr ⟨r, hrun hle hr, rfl⟩

lemma comesTo_map (hrun : Persists run) {f : α → β} {result : Except QueryError β} :
    ComesTo (fun budget => do return f (← run budget)) σ result τ ↔ ∃ r, ComesTo run σ r τ ∧ result = r.map f := by
  rw [comesTo_iff_of_persists (hrun.map f)]
  constructor
  · rintro ⟨budget, h⟩
    obtain ⟨r, hr, hresult⟩ := run_map_iff.mp h
    exact ⟨r, (comesTo_iff_of_persists hrun).mpr ⟨budget, hr⟩, hresult⟩
  · rintro ⟨r, h, hresult⟩
    obtain ⟨budget, hr⟩ := (comesTo_iff_of_persists hrun).mp h
    exact ⟨budget, run_map_iff.mpr ⟨r, hr, hresult⟩⟩

/-- What comes after an evaluation may be replaced by what comes to the same. -/
lemma bind_run_congr {x : Eval α} {next next' : α → Eval β} {result : Except QueryError β}
    (h : (x >>= next).run.run σ = (some result, τ))
    (hnext : ∀ a ω, (next a).run.run ω = (some result, τ) → (next' a).run.run ω = (some result, τ)) :
    (x >>= next').run.run σ = (some result, τ) := by
  rcases hx : x.run.run σ with ⟨_ | e | a, ω⟩
  · rw [Eval.bind_run_of_none hx] at h
    cases h
  · rw [Eval.bind_run_of_error hx] at h ⊢
    exact h
  · rw [Eval.bind_run hx] at h ⊢
    exact hnext a ω h

end ComesTo

end Eval

/-! ### Loops and budgets -/

namespace Sequence

section Loops

variable {α β : Type} {step : α → Item → Eval (Verdict α β)} {finish : α → Except QueryError β} {state : α}
  {σ τ ω : Session} {s t : Sequence} {budget budget' : Nat} {result : Except QueryError β}

/-- **More budget than enough changes nothing.** -/
theorem reduce_persists (step : α → Item → Eval (Verdict α β)) (finish : α → Except QueryError β) (state : α)
    (s : Sequence) : Eval.Persists fun budget => reduce step finish budget state s := by
  intro budget budget' σ result τ hle h
  induction budget generalizing state s σ budget' with
  | zero => cases h
  | succ budget ih =>
    obtain ⟨rest, rfl⟩ := Nat.exists_eq_add_of_le' hle
    have hrest : budget ≤ rest + budget := Nat.le_add_left _ _
    rw [← Nat.add_assoc]
    rcases hstep : s.advance σ with ⟨⟨_ | x | e | _, t⟩, ω⟩
    · rw [reduce_of_work hstep] at h ⊢
      exact ih _ _ hrest h
    · rw [reduce_of_item hstep] at h ⊢
      refine Eval.bind_run_congr h fun verdict ν hverdict => ?_
      cases verdict with
      | more state => exact ih _ _ hrest hverdict
      | settled result => exact hverdict
    · rw [reduce_of_failure hstep] at h ⊢
      exact h
    · rw [reduce_of_finished hstep] at h ⊢
      exact h

/-- Steps without a reply cost nothing but budget. -/
lemma reduce_of_works (h : Works σ s t τ) : ∃ spent, ∀ budget,
    (reduce step finish (budget + spent) state s).run.run σ = (reduce step finish budget state t).run.run τ := by
  induction h with
  | done => exact ⟨0, fun _ => rfl⟩
  | step step _ ih =>
    obtain ⟨spent, hrest⟩ := ih
    exact ⟨spent + 1, fun budget => (reduce_of_work step).trans (hrest budget)⟩

end Loops

end Sequence

/-! ### Scans -/

/-- What a loop looks for in its source. -/
structure Scan (γ κ : Type) where
  /-- The work on an item, taken by itself. -/
  work : Item → Eff γ
  /-- The answer with which an item settles the scan, after those before it and what the work on them has come to. -/
  settles : List (Item × γ) → Item → γ → Option κ
  /-- The answer where none of the items settles the scan. -/
  otherwise : List (Item × γ) → κ

/-- What is there with an ending: an answer, or its error. -/
def Ending.result {κ : Type} (k : κ) : Ending → Except QueryError κ
  | .finished => .ok k
  | .failed e => .error e

namespace Scan

/-- From the session `σ` on, after the given visits, the scan of the source `s` comes to the outcome: to an answer of its own,
or to the error that a pull of the source has handed over. -/
inductive Gives {γ κ : Type} (scan : Scan γ κ) :
    List (Item × γ) → Session → Sequence → Except QueryError κ → Session → Prop
  | finished {visits σ s t τ} (pull : Pulls σ s .finished t τ) : Gives scan visits σ s (.ok (scan.otherwise visits)) τ
  | failed {visits σ s e t τ} (pull : Pulls σ s (.failure e) t τ) : Gives scan visits σ s (.error e) τ
  | settled {visits σ s x t τ c υ k} (pull : Pulls σ s (.item x) t τ) (answer : scan.work x τ = (c, υ))
      (settles : scan.settles visits x c = some k) : Gives scan visits σ s (.ok k) υ
  | goesOn {visits σ s x t τ c υ outcome ω} (pull : Pulls σ s (.item x) t τ) (answer : scan.work x τ = (c, υ))
      (settles : scan.settles visits x c = none) (rest : Gives scan (visits ++ [(x, c)]) υ t outcome ω) :
      Gives scan visits σ s outcome ω

/-- The loop with this step and this finish is the scan: its state is a summary of the visits so far, and its results are the
scan's answers as they are rendered. -/
structure Implements {α β γ κ : Type} (scan : Scan γ κ) (summary : List (Item × γ) → α) (render : κ → Except QueryError β)
    (step : α → Item → Eval (Verdict α β)) (finish : α → Except QueryError β) : Prop where
  step_eq : ∀ visits x, step (summary visits) x = (do
    let c ← scan.work x
    match scan.settles visits x c with
    | some k => return .settled (← Eval.ofExcept (render k))
    | none => return .more (summary (visits ++ [(x, c)])))
  finish_eq : ∀ visits, finish (summary visits) = render (scan.otherwise visits)

/-- The step of the scan's own loop, which remembers all visits. -/
def step {γ κ : Type} (scan : Scan γ κ) (visits : List (Item × γ)) (x : Item) : Eval (Verdict (List (Item × γ)) κ) := do
  let c ← scan.work x
  match scan.settles visits x c with
  | some k => return .settled k
  | none => return .more (visits ++ [(x, c)])

section Loops

variable {α β γ κ : Type} {scan : Scan γ κ} {summary : List (Item × γ) → α} {render : κ → Except QueryError β}
  {step : α → Item → Eval (Verdict α β)} {finish : α → Except QueryError β} {visits : List (Item × γ)}
  {σ τ υ ω : Session} {s t : Sequence} {x : Item} {c : γ} {k : κ} {budget : Nat} {outcome : Except QueryError κ}
  {result : Except QueryError β} {e : QueryError}

/-! #### One step -/

/-- Work of the source counts as part of its next pull. -/
lemma Gives.of_work (step : s.advance σ = ((none, t), τ)) (h : scan.Gives visits τ t outcome ω) :
    scan.Gives visits σ s outcome ω := by
  cases h with
  | finished pull => exact .finished (.work step pull)
  | failed pull => exact .failed (.work step pull)
  | settled pull answer settles => exact .settled (.work step pull) answer settles
  | goesOn pull answer settles rest => exact .goesOn (.work step pull) answer settles rest

lemma Gives.of_works (h : Works σ s t τ) (rest : scan.Gives visits τ t outcome ω) : scan.Gives visits σ s outcome ω := by
  induction h with
  | done => exact rest
  | step step _ ih => exact (ih rest).of_work step

/-- There is no outcome without a pull of the source. -/
lemma Gives.exists_pulls (h : scan.Gives visits σ s outcome ω) : ∃ r t τ, Pulls σ s r t τ := by
  cases h with
  | finished pull | failed pull | settled pull | goesOn pull => exact ⟨_, _, _, pull⟩

lemma Implements.reduce_of_settled (h : scan.Implements summary render step finish)
    (hstep : s.advance σ = ((some (.item x), t), τ)) (hwork : scan.work x τ = (c, υ))
    (hsettles : scan.settles visits x c = some k) :
    (reduce step finish (budget + 1) (summary visits) s).run.run σ = (some (render k), υ) := by
  rw [reduce_of_item hstep, h.step_eq, bind_assoc, Eval.lift_bind, Eff.bind_run hwork, hsettles]
  dsimp only
  cases render k <;> rfl

lemma Implements.reduce_of_unsettled (h : scan.Implements summary render step finish)
    (hstep : s.advance σ = ((some (.item x), t), τ)) (hwork : scan.work x τ = (c, υ))
    (hsettles : scan.settles visits x c = none) :
    (reduce step finish (budget + 1) (summary visits) s).run.run σ =
      (reduce step finish budget (summary (visits ++ [(x, c)])) t).run.run υ := by
  rw [reduce_of_item hstep, h.step_eq, bind_assoc, Eval.lift_bind, Eff.bind_run hwork, hsettles]
  rfl

lemma Implements.reduce_of_finished (h : scan.Implements summary render step finish)
    (hstep : s.advance σ = ((some .finished, t), τ)) :
    (reduce step finish (budget + 1) (summary visits) s).run.run σ = (some (render (scan.otherwise visits)), τ) := by
  rw [Sequence.reduce_of_finished hstep, h.finish_eq, Eval.run_ofExcept]

/-! #### Whole runs -/

/-- A budget that is enough for a pull's last step, and for what comes after it, is enough with some more for the pull. -/
lemma exists_reduce_of_pulls {r : Reply} (h : Pulls σ s r t τ)
    (hlast : ∀ v ν, v.advance ν = ((some r, t), τ) →
      ∃ budget, (reduce step finish budget (summary visits) v).run.run ν = (some result, ω)) :
    ∃ budget, (reduce step finish budget (summary visits) s).run.run σ = (some result, ω) := by
  obtain ⟨v, ν, hworks, hreply⟩ := h.works
  obtain ⟨spent, hspent⟩ := reduce_of_works hworks
  obtain ⟨budget, hbudget⟩ := hlast v ν hreply
  exact ⟨budget + spent, (hspent budget).trans hbudget⟩

lemma Implements.exists_reduce_of_gives (h : scan.Implements summary render step finish)
    (hgives : scan.Gives visits σ s outcome τ) :
    ∃ budget, (reduce step finish budget (summary visits) s).run.run σ = (some (outcome >>= render), τ) := by
  induction hgives with
  | finished pull => exact exists_reduce_of_pulls pull fun v ν hlast => ⟨1, h.reduce_of_finished hlast⟩
  | failed pull => exact exists_reduce_of_pulls pull fun v ν hlast => ⟨1, reduce_of_failure hlast⟩
  | settled pull answer settles =>
    exact exists_reduce_of_pulls pull fun v ν hlast => ⟨1, h.reduce_of_settled hlast answer settles⟩
  | goesOn pull answer settles _ ih =>
    obtain ⟨budget, hrest⟩ := ih
    exact exists_reduce_of_pulls pull fun v ν hlast =>
      ⟨budget + 1, (h.reduce_of_unsettled hlast answer settles).trans hrest⟩

lemma Implements.exists_gives_of_reduce (h : scan.Implements summary render step finish)
    (hrun : (reduce step finish budget (summary visits) s).run.run σ = (some result, τ)) :
    ∃ outcome, scan.Gives visits σ s outcome τ ∧ result = outcome >>= render := by
  induction budget generalizing σ s visits with
  | zero => cases hrun
  | succ budget ih =>
    rcases hstep : s.advance σ with ⟨⟨_ | x | e | _, t⟩, ω⟩
    · rw [reduce_of_work hstep] at hrun
      obtain ⟨outcome, hgives, hresult⟩ := ih hrun
      exact ⟨outcome, hgives.of_work hstep, hresult⟩
    · rcases hwork : scan.work x ω with ⟨c, υ⟩
      cases hsettles : scan.settles visits x c with
      | some k =>
        rw [h.reduce_of_settled hstep hwork hsettles] at hrun
        cases hrun
        exact ⟨.ok k, .settled (.reply hstep) hwork hsettles, rfl⟩
      | none =>
        rw [h.reduce_of_unsettled hstep hwork hsettles] at hrun
        obtain ⟨outcome, hgives, hresult⟩ := ih hrun
        exact ⟨outcome, .goesOn (.reply hstep) hwork hsettles hgives, hresult⟩
    · rw [reduce_of_failure hstep] at hrun
      cases hrun
      exact ⟨.error e, .failed (.reply hstep), rfl⟩
    · rw [h.reduce_of_finished hstep] at hrun
      cases hrun
      exact ⟨.ok _, .finished (.reply hstep), rfl⟩

/-- **A loop for a scan comes to what the scan gives**, and to nothing else. -/
theorem Implements.comesTo_iff (h : scan.Implements summary render step finish) (visits : List (Item × γ)) :
    Eval.ComesTo (fun budget => reduce step finish budget (summary visits) s) σ result τ ↔
      ∃ outcome, scan.Gives visits σ s outcome τ ∧ result = outcome >>= render := by
  rw [Eval.comesTo_iff_of_persists (reduce_persists step finish (summary visits) s)]
  constructor
  · rintro ⟨budget, hrun⟩
    exact h.exists_gives_of_reduce hrun
  · rintro ⟨outcome, hgives, rfl⟩
    exact h.exists_reduce_of_gives hgives

/-- The same where each answer is a result. -/
lemma Implements.comesTo_map_iff {f : κ → β} (h : scan.Implements summary (fun k => .ok (f k)) step finish)
    (visits : List (Item × γ)) : Eval.ComesTo (fun budget => reduce step finish budget (summary visits) s) σ result τ ↔
      ∃ outcome, scan.Gives visits σ s outcome τ ∧ result = outcome.map f := by
  have hmap (outcome : Except QueryError κ) : (outcome >>= fun k => .ok (f k)) = outcome.map f := by
    cases outcome <;> rfl
  simp only [h.comesTo_iff visits, hmap]

lemma Implements.comesTo_gives_iff {step : α → Item → Eval (Verdict α κ)} {finish : α → Except QueryError κ}
    (h : scan.Implements summary .ok step finish) (visits : List (Item × γ)) :
    Eval.ComesTo (fun budget => reduce step finish budget (summary visits) s) σ outcome τ ↔
      scan.Gives visits σ s outcome τ := by
  have hmap (outcome : Except QueryError κ) : outcome.map (fun k => k) = outcome := by
    cases outcome <;> rfl
  simp [Implements.comesTo_map_iff h visits, hmap]

lemma implements_step (scan : Scan γ κ) :
    scan.Implements id .ok scan.step fun visits => .ok (scan.otherwise visits) := by
  refine ⟨fun visits x => ?_, fun _ => rfl⟩
  rw [id, Scan.step]
  refine congrArg _ (funext fun c => ?_)
  cases scan.settles visits x c <;> rfl

lemma comesTo_step_iff : Eval.ComesTo
    (fun budget => reduce scan.step (fun visits => .ok (scan.otherwise visits)) budget visits s) σ outcome τ ↔
      scan.Gives visits σ s outcome τ :=
  scan.implements_step.comesTo_gives_iff visits

/-- A scan gives one outcome. -/
theorem Gives.unique {outcome' : Except QueryError κ} {τ' : Session} (h : scan.Gives visits σ s outcome τ)
    (h' : scan.Gives visits σ s outcome' τ') : outcome = outcome' ∧ τ = τ' :=
  (comesTo_step_iff.mpr h).unique (comesTo_step_iff.mpr h')

/-! #### Runs in which no item settles the scan -/

/-- None of the items settles the scan, one after the other, after those in `before`. -/
def Unsettled (scan : Scan γ κ) : List (Item × γ) → List (Item × γ) → Prop
  | _, [] => True
  | before, (x, c) :: fed => scan.settles before x c = none ∧ scan.Unsettled (before ++ [(x, c)]) fed

/-- **Without an item that settles it, the scan goes on to the ending.** -/
theorem Gives.of_feedsAll {fed : List (Item × γ)} {ending : Ending} (h : FeedsAll scan.work σ s fed ending τ)
    (hfed : scan.Unsettled visits fed) : scan.Gives visits σ s (ending.result (scan.otherwise (visits ++ fed))) τ := by
  obtain ⟨υ, t, r, u, hfeeds, hlast, hending⟩ := h
  induction hfeeds generalizing visits with
  | start =>
    rw [List.append_nil]
    cases r with
    | item x => cases hending
    | failure e =>
      cases hending
      exact .failed hlast
    | finished =>
      cases hending
      exact .finished hlast
  | @item _ _ _ _ _ _ _ x c fed pull answer _ ih =>
    obtain ⟨hsettles, hrest⟩ := hfed
    have hvisits : visits ++ (x, c) :: fed = (visits ++ [(x, c)]) ++ fed := by simp
    rw [hvisits]
    exact .goesOn pull answer hsettles (ih hrest hlast)

/-- **The first item that settles the scan gives its answer.** -/
theorem Gives.of_feeds {fed : List (Item × γ)} (h : Feeds scan.work σ s (fed ++ [(x, c)]) t τ)
    (hfed : scan.Unsettled visits fed) (hsettles : scan.settles (visits ++ fed) x c = some k) :
    scan.Gives visits σ s (.ok k) τ := by
  induction fed generalizing σ s visits with
  | nil =>
    rw [List.append_nil] at hsettles
    cases h with
    | item pull answer rest =>
      cases rest
      exact .settled pull answer hsettles
  | cons visit fed ih =>
    obtain ⟨y, d⟩ := visit
    obtain ⟨hfirst, hfed⟩ := hfed
    rw [List.append_cons] at hsettles
    cases h with
    | item pull answer rest => exact .goesOn pull answer hfirst (ih rest hfed hsettles)

/-- **A scan goes on to the ending, or an item settles it.** -/
theorem Gives.exists_feedsAll_or (h : scan.Gives visits σ s outcome τ) :
    (∃ fed ending, FeedsAll scan.work σ s fed ending τ ∧ scan.Unsettled visits fed ∧
      outcome = ending.result (scan.otherwise (visits ++ fed))) ∨
    ∃ fed x c k t, Feeds scan.work σ s (fed ++ [(x, c)]) t τ ∧ scan.Unsettled visits fed ∧
      scan.settles (visits ++ fed) x c = some k ∧ outcome = .ok k := by
  induction h with
  | @finished visits σ s t τ pull =>
    exact .inl ⟨[], .finished, ⟨_, _, _, _, .start, pull, rfl⟩, trivial, by rw [List.append_nil]; rfl⟩
  | failed pull => exact .inl ⟨[], .failed _, ⟨_, _, _, _, .start, pull, rfl⟩, trivial, rfl⟩
  | settled pull answer settles =>
    exact .inr ⟨[], _, _, _, _, .item pull answer .start, trivial, by rwa [List.append_nil], rfl⟩
  | goesOn pull answer settles _ ih =>
    obtain ⟨fed, ending, ⟨_, _, _, _, hfeeds, hlast, hending⟩, hfed, houtcome⟩ |
      ⟨fed, x, c, k, t, hfeeds, hfed, hsettles, houtcome⟩ := ih
    · refine .inl ⟨_ :: fed, ending, ⟨_, _, _, _, .item pull answer hfeeds, hlast, hending⟩, ⟨settles, hfed⟩, ?_⟩
      rw [houtcome, List.append_assoc, List.singleton_append]
    · refine .inr ⟨_ :: fed, x, c, k, t, .item pull answer hfeeds, ⟨settles, hfed⟩, ?_, houtcome⟩
      rwa [List.append_cons]

/-- **An error is handed over after a run in which no item settles the scan.** -/
theorem gives_error_iff :
    scan.Gives visits σ s (.error e) τ ↔ ∃ fed, FeedsAll scan.work σ s fed (.failed e) τ ∧ scan.Unsettled visits fed := by
  constructor
  · intro h
    obtain ⟨fed, ending, hfeeds, hfed, houtcome⟩ | ⟨_, _, _, _, _, _, _, _, houtcome⟩ := h.exists_feedsAll_or
    · cases ending with
      | finished => cases houtcome
      | failed e =>
        cases houtcome
        exact ⟨fed, hfeeds, hfed⟩
    · cases houtcome
  · rintro ⟨fed, hfeeds, hfed⟩
    exact .of_feedsAll hfeeds hfed

/-- **A scan that no item settles takes all items.** -/
theorem gives_iff_of_never (hnever : ∀ before x c, scan.settles before x c = none) :
    scan.Gives visits σ s outcome τ ↔
      ∃ fed ending, FeedsAll scan.work σ s fed ending τ ∧ outcome = ending.result (scan.otherwise (visits ++ fed)) := by
  have hunsettled (fed : List (Item × γ)) : ∀ before, scan.Unsettled before fed := by
    induction fed with
    | nil => exact fun _ => trivial
    | cons visit fed ih => exact fun before => ⟨hnever _ _ _, ih _⟩
  constructor
  · intro h
    obtain ⟨fed, ending, hfeeds, -, houtcome⟩ | ⟨_, _, _, _, _, _, _, hsettles, _⟩ := h.exists_feedsAll_or
    · exact ⟨fed, ending, hfeeds, houtcome⟩
    · rw [hnever] at hsettles
      cases hsettles
  · rintro ⟨fed, ending, hfeeds, rfl⟩
    exact .of_feedsAll hfeeds (hunsettled fed visits)

end Loops

end Scan

/-! ### Loops on a stage -/

/-- The stage does the work on each item, and by what that comes to it hands on one item, or drops it, or fails; it stays as it
is, and holds nothing. -/
structure Stage.GoesBy {γ : Type} (stage : Stage) (work : Item → Eff γ)
    (handsOn : Item → γ → Except QueryError (Option Item)) : Prop where
  demand_eq : stage.demand = .ask
  receive_eq {x σ c τ} : work x σ = (c, τ) → stage.receive x σ =
    (match handsOn x c with
      | .ok (some y) => .yield y stage
      | .ok none => .drop stage
      | .error e => .fail e, τ)
  close_eq : stage.close = pure []

/-- The step of a loop on such a stage, taken on the source of the stage. -/
def guarded {α β γ : Type} (work : Item → Eff γ) (handsOn : Item → γ → Except QueryError (Option Item))
    (step : α → Item → Eval (Verdict α β)) (state : α) (item : Item) : Eval (Verdict α β) := do
  match handsOn item (← work item) with
  | .ok (some y) => step state y
  | .ok none => return .more state
  | .error e => throw e

namespace Sequence

section Guarded

variable {α β γ : Type} {stage : Stage} {work : Item → Eff γ} {handsOn : Item → γ → Except QueryError (Option Item)}
  {step : α → Item → Eval (Verdict α β)} {finish : α → Except QueryError β} {state : α} {σ τ : Session} {s : Sequence}
  {budget : Nat} {result : Except QueryError β}

lemma guarded_run {x : Item} {c : γ} {ω : Session} {next : Verdict α β → Eval β} (hwork : work x τ = (c, ω)) :
    (guarded work handsOn step state x >>= next).run.run τ =
      (match handsOn x c with
        | .ok (some y) => step state y >>= next
        | .ok none => next (.more state)
        | .error e => throw e).run.run ω := by
  rw [guarded, bind_assoc, Eval.lift_bind, Eff.bind_run hwork]
  rcases handsOn x c with _ | _ | _ <;> rfl

lemma reduce_guarded_of_reduce_through (hstage : stage.GoesBy work handsOn)
    (h : (reduce step finish budget state (.through stage s)).run.run σ = (some result, τ)) :
    (reduce (guarded work handsOn step) finish budget state s).run.run σ = (some result, τ) := by
  induction budget generalizing σ s state with
  | zero => cases h
  | succ budget ih =>
    rcases hstep : s.advance σ with ⟨⟨_ | x | e | _, t⟩, ω⟩
    · rw [reduce_of_work (ThroughStep.advance (.work hstage.demand_eq hstep))] at h
      rw [reduce_of_work hstep]
      exact ih h
    · rcases hwork : work x ω with ⟨c, υ⟩
      have hadvance := ThroughStep.advance (.item hstage.demand_eq hstep (hstage.receive_eq hwork))
      rw [reduce_of_item hstep, guarded_run hwork]
      rcases hhands : handsOn x c with e | _ | y <;> rw [hhands] at hadvance
      · rw [reduce_of_failure hadvance] at h
        exact h
      · rw [reduce_of_work hadvance] at h
        exact ih h
      · rw [reduce_of_item hadvance] at h
        refine Eval.bind_run_congr h fun verdict ν hverdict => ?_
        cases verdict with
        | more state => exact ih hverdict
        | settled result => exact hverdict
    · rw [reduce_of_failure (ThroughStep.advance (.failure hstage.demand_eq hstep))] at h
      rw [reduce_of_failure hstep]
      exact h
    -- the stage still has to close, which is one more step than the source takes
    · have hclose : stage.close ω = ([], ω) := congrFun hstage.close_eq ω
      rw [reduce_of_work (ThroughStep.advance (.finished hstage.demand_eq hstep hclose))] at h
      rw [reduce_of_finished hstep]
      cases budget with
      | zero => cases h
      | succ budget =>
        rw [reduce_of_finished (t := .exhausted) (τ := ω) rfl] at h
        exact h

/-- One more step is enough, for the stage to close. -/
lemma reduce_through_of_reduce_guarded (hstage : stage.GoesBy work handsOn)
    (h : (reduce (guarded work handsOn step) finish budget state s).run.run σ = (some result, τ)) :
    (reduce step finish (budget + 1) state (.through stage s)).run.run σ = (some result, τ) := by
  induction budget generalizing σ s state with
  | zero => cases h
  | succ budget ih =>
    rcases hstep : s.advance σ with ⟨⟨_ | x | e | _, t⟩, ω⟩
    · rw [reduce_of_work hstep] at h
      rw [reduce_of_work (ThroughStep.advance (.work hstage.demand_eq hstep))]
      exact ih h
    · rcases hwork : work x ω with ⟨c, υ⟩
      have hadvance := ThroughStep.advance (.item hstage.demand_eq hstep (hstage.receive_eq hwork))
      rw [reduce_of_item hstep, guarded_run hwork] at h
      rcases hhands : handsOn x c with e | _ | y <;> rw [hhands] at hadvance h
      · rw [reduce_of_failure hadvance]
        exact h
      · rw [reduce_of_work hadvance]
        exact ih h
      · rw [reduce_of_item hadvance]
        refine Eval.bind_run_congr h fun verdict ν hverdict => ?_
        cases verdict with
        | more state => exact ih hverdict
        | settled result => exact hverdict
    · rw [reduce_of_failure hstep] at h
      rw [reduce_of_failure (ThroughStep.advance (.failure hstage.demand_eq hstep))]
      exact h
    · have hclose : stage.close ω = ([], ω) := congrFun hstage.close_eq ω
      rw [reduce_of_finished hstep] at h
      rw [reduce_of_work (ThroughStep.advance (.finished hstage.demand_eq hstep hclose)),
        reduce_of_finished (t := .exhausted) (τ := ω) rfl]
      exact h

/-- **A loop on a stage that goes item by item comes to what the loop on its source comes to, with the work at each step.** -/
theorem comesTo_reduce_through (hstage : stage.GoesBy work handsOn) :
    Eval.ComesTo (fun budget => reduce step finish budget state (.through stage s)) σ result τ ↔
      Eval.ComesTo (fun budget => reduce (guarded work handsOn step) finish budget state s) σ result τ := by
  rw [Eval.comesTo_iff_of_persists (reduce_persists _ _ _ _), Eval.comesTo_iff_of_persists (reduce_persists _ _ _ _)]
  constructor
  · rintro ⟨budget, h⟩
    exact ⟨budget, reduce_guarded_of_reduce_through hstage h⟩
  · rintro ⟨budget, h⟩
    exact ⟨budget + 1, reduce_through_of_reduce_guarded hstage h⟩

end Guarded

end Sequence

/-! #### Links -/

/-- The step of a loop on a link, taken on the source of the link. -/
def Link.guard {α β : Type} (link : Link) (step : α → Item → Eval (Verdict α β)) (state : α) (item : Item) :
    Eval (Verdict α β) := do
  match link.handsOn item (← link.function.call item) with
  | some y => step state y
  | none => return .more state

lemma Link.goesBy_stage (link : Link) :
    link.stage.GoesBy link.function.call fun x y => .ok (link.handsOn x y) where
  demand_eq := link.demand_stage
  receive_eq {x σ y τ} h := by
    rw [Link.receive_stage h]
    cases link.handsOn x y <;> rfl
  close_eq := link.close_stage

lemma Link.guarded_eq {α β : Type} (link : Link) (step : α → Item → Eval (Verdict α β)) :
    guarded link.function.call (fun x y => .ok (link.handsOn x y)) step = link.guard step := by
  funext state item
  refine congrArg _ (funext fun y => ?_)
  dsimp only
  cases link.handsOn item y <;> rfl

namespace Sequence

/-- **A loop on a filter or a selection comes to what the loop on its source comes to, with the function called at each
step.** -/
theorem comesTo_reduce_link {α β : Type} {step : α → Item → Eval (Verdict α β)} {finish : α → Except QueryError β}
    {state : α} {σ τ : Session} {s : Sequence} {result : Except QueryError β} (link : Link) :
    Eval.ComesTo (fun budget => reduce step finish budget state (.through link.stage s)) σ result τ ↔
      Eval.ComesTo (fun budget => reduce (link.guard step) finish budget state s) σ result τ := by
  rw [comesTo_reduce_through link.goesBy_stage, link.guarded_eq]

end Sequence

end LazyQuery
