import LazyQuery.Proofs.Operator.Failure
import LazyQuery.Proofs.Sequence.Feeding

/-!
# Searches stop where they are decided

Seven of the operators that consume their source look for an item that decides their answer.  `Search` is what such an
operator looks for: the verdict on an item, whether an item decides after those before it (`Search.decides`), the answer that
it gives, and the answer if there is none.  `Search.consume` is the one loop for all of them, with the items seen so far and
the verdicts on them as its state; the loop of each operator is this one with a summary of that state (`reduce_eq_consume`,
`apply_eq_consume`).

The main statement is `searches_stop_where_they_are_decided`.
-/

namespace LazyQuery

open Sequence

/-- What an operator looks for in its source. -/
inductive Search where
  | first (whenAbsent : WhenAbsent) (predicate : Option Callable)
  | single (whenAbsent : WhenAbsent) (predicate : Option Callable)
  | elementAt (whenAbsent : WhenAbsent) (index : Nat)
  | contains (needle : Item)
  | sequenceEqual (others : List Item)
  | any (predicate : Option Callable)
  | all (predicate : Callable)

namespace Search

def operator : Search → Operator
  | .first whenAbsent _ => .first whenAbsent
  | .single whenAbsent _ => .single whenAbsent
  | .elementAt whenAbsent _ => .elementAt whenAbsent
  | .contains _ => .contains
  | .sequenceEqual _ => .sequenceEqual
  | .any _ => .any
  | .all _ => .all

/-- The verdict on an item, taken by itself. -/
def verdict : Search → Item → Eff Bool
  | .first _ predicate, item => Callable.accepts predicate item
  | .single _ predicate, item => Callable.accepts predicate item
  | .elementAt _ _, _ => return true
  | .contains needle, item => return item.identical needle
  | .sequenceEqual _, _ => return true
  | .any predicate, item => Callable.accepts predicate item
  | .all predicate, item => predicate.test item

/-- **Does the item decide the search**, after the items before it and the verdicts on them? -/
def decides (search : Search) (before : List (Item × Bool)) (item : Item) (verdict : Bool) : Bool :=
  match search with
  | .first _ _ => verdict
  | .single _ _ => verdict && before.any (·.2)
  | .elementAt _ index => before.length == index
  | .contains _ => verdict
  | .sequenceEqual others =>
    match others[before.length]? with
    | some other => !item.looselyEqual other
    | none => true
  | .any _ => verdict
  | .all _ => !verdict

/-- The answer when the item decides. -/
def answer (search : Search) (item : Item) : Except QueryError Output :=
  match search with
  | .first _ _ => .ok (.value item)
  | .single whenAbsent _ => .error (.multipleMatches (Operator.single whenAbsent).name)
  | .elementAt _ _ => .ok (.value item)
  | .contains _ => .ok (.value (.bool true))
  | .sequenceEqual _ => .ok (.value (.bool false))
  | .any _ => .ok (.value (.bool true))
  | .all _ => .ok (.value (.bool false))

/-- The answer when none of the items decides, and the source has ended. -/
def otherwise (search : Search) (visits : List (Item × Bool)) : Except QueryError Output :=
  match search with
  | .first whenAbsent _ => (absence (Operator.first whenAbsent).name whenAbsent (!visits.isEmpty)).map .ofOption
  | .single whenAbsent _ =>
    match visits.find? (·.2) with
    | some (item, _) => .ok (.value item)
    | none => (absence (Operator.single whenAbsent).name whenAbsent (!visits.isEmpty)).map .ofOption
  | .elementAt whenAbsent index => (outOfRange whenAbsent index visits.length).map .ofOption
  | .contains _ => .ok (.value (.bool false))
  | .sequenceEqual others => .ok (.value (.bool (others.drop visits.length).isEmpty))
  | .any _ => .ok (.value (.bool false))
  | .all _ => .ok (.value (.bool true))

/-- None of the items decides. -/
def Undecided (search : Search) (visits : List (Item × Bool)) : Prop :=
  ∀ before item verdict after, visits = before ++ (item, verdict) :: after → search.decides before item verdict = false

/-- The search as one loop, after the given items. -/
def consume (search : Search) (budget : Nat) (visits : List (Item × Bool)) (s : Sequence) : Eval Output :=
  reduce
    (fun visits item => do
      let verdict ← search.verdict item
      if search.decides visits item verdict then return .settled (← Eval.ofExcept (search.answer item))
      else return .more (visits ++ [(item, verdict)]))
    search.otherwise budget visits s

end Search

/-- The part is this search, with arguments as its operator wants them. -/
def Part.Searches (part : Part) (search : Search) : Prop :=
  part.operator = search.operator ∧
    match search with
    | .first _ predicate => part.function? 0 = predicate
    | .single _ predicate => part.function? 0 = predicate
    | .elementAt _ index => ∃ item, part.literal? 0 = some item ∧ item.integer? = some index
    | .contains needle => part.literal? 0 = some needle
    | .sequenceEqual others => ∃ ref, part.literal? 0 = some (.array ref others)
    | .any predicate => part.function? 0 = predicate
    | .all predicate => part.function? 0 = some predicate

/-! ### The loops of the operators -/

section Loops

/-- **A loop that works on a summary of the items seen so far is the search itself**, if its steps are. -/
theorem reduce_eq_consume {α β : Type} (search : Search) (summary : List (Item × Bool) → α)
    (answer : Item → Except QueryError β) (out : β → Output) {step : α → Item → Eval (Verdict α β)}
    {finish : α → Except QueryError β}
    (hstep : ∀ visits item, step (summary visits) item = (do
      let verdict ← search.verdict item
      if search.decides visits item verdict then return .settled (← Eval.ofExcept (answer item))
      else return .more (summary (visits ++ [(item, verdict)]))))
    (hanswer : ∀ item, search.answer item = (answer item).map out)
    (hfinish : ∀ visits, search.otherwise visits = (finish (summary visits)).map out)
    (budget : Nat) (visits : List (Item × Bool)) (s : Sequence) :
    (do return out (← reduce step finish budget (summary visits) s)) = search.consume budget visits s := by
  induction budget generalizing visits s with
  | zero => rfl
  | succ budget ih =>
    rw [reduce, Search.consume, reduce, bind_assoc]
    refine congrArg _ (funext fun pulled => ?_)
    obtain ⟨reply, t⟩ := pulled
    cases reply with
    | none => exact ih visits t
    | some reply =>
      cases reply with
      | failure e => rfl
      | finished =>
        show (do return out (← Eval.ofExcept (finish (summary visits)))) = Eval.ofExcept (search.otherwise visits)
        rw [hfinish]
        cases finish (summary visits) <;> rfl
      | item x =>
        dsimp only
        rw [hstep]
        simp only [bind_assoc]
        refine congrArg _ (funext fun verdict => ?_)
        cases search.decides visits x verdict with
        | true =>
          rw [if_pos rfl, if_pos rfl, hanswer]
          cases answer x <;> rfl
        | false =>
          rw [if_neg Bool.false_ne_true, if_neg Bool.false_ne_true]
          exact ih (visits ++ [(x, verdict)]) t

variable (whenAbsent : WhenAbsent) (predicate : Option Callable) (budget : Nat) (s : Sequence)

lemma seen_append (visits : List (Item × Bool)) (visit : Item × Bool) : (!(visits ++ [visit]).isEmpty) = true := by
  cases visits <;> rfl

lemma first_eq_consume :
    (do return Output.ofOption (← first (Operator.first whenAbsent).name whenAbsent predicate budget s)) =
      (Search.first whenAbsent predicate).consume budget [] s := by
  refine reduce_eq_consume (.first whenAbsent predicate) (fun visits => !visits.isEmpty) (fun item => .ok (some item))
    _ (fun visits item => ?_) (fun _ => rfl) (fun _ => rfl) budget [] s
  refine congrArg _ (funext fun verdict => ?_)
  rw [seen_append]
  cases verdict <;> rfl

/-- What `single` remembers: whether there was an item, and the first that was accepted. -/
def findings (visits : List (Item × Bool)) : Finding :=
  ⟨!visits.isEmpty, (visits.find? (·.2)).map Prod.fst⟩

lemma single_eq_consume :
    (do return Output.ofOption (← single (Operator.single whenAbsent).name whenAbsent predicate budget s)) =
      (Search.single whenAbsent predicate).consume budget [] s := by
  refine reduce_eq_consume (.single whenAbsent predicate) findings
    (fun _ => .error (.multipleMatches (Operator.single whenAbsent).name)) _ (fun visits item => ?_) (fun _ => rfl)
    (fun visits => ?_) budget [] s
  · refine congrArg _ (funext fun verdict => ?_)
    have hnext : findings (visits ++ [(item, verdict)]) =
        ⟨true, ((visits.find? (·.2)).or (if verdict then some (item, verdict) else none)).map Prod.fst⟩ := by
      rw [findings, seen_append, List.find?_append, List.find?_singleton]
    have hany : visits.any (·.2) = (visits.find? (·.2)).isSome := by
      rw [Bool.eq_iff_iff, List.find?_isSome, List.any_eq_true]
    cases verdict with
    | false =>
      rw [hnext, if_neg Bool.false_ne_true, if_neg Bool.false_ne_true, Option.or_none]
      rfl
    | true =>
      rw [hnext, Search.decides, hany, findings]
      cases visits.find? (·.2) with
      | none => simp
      | some found =>
        simp
        rfl
  · rw [Search.otherwise, findings, Finding.result]
    cases visits.find? (·.2) <;> rfl

lemma elementAt_eq_consume (index : Nat) :
    (do return Output.ofOption (← elementAt whenAbsent index budget s)) =
      (Search.elementAt whenAbsent index).consume budget [] s := by
  rw [elementAt, if_neg (Int.natCast_nonneg index).not_gt]
  refine reduce_eq_consume (.elementAt whenAbsent index) List.length (fun item => .ok (some item)) _
    (fun visits item => ?_) (fun _ => rfl) (fun _ => rfl) budget [] s
  show _ = (if visits.length == index then _ else _)
  by_cases hlength : visits.length = index
  · simp [hlength]
    rfl
  · simp [hlength]

lemma contains_eq_consume (needle : Item) :
    (do return Output.value (.bool (← contains needle budget s))) = (Search.contains needle).consume budget [] s := by
  refine reduce_eq_consume (.contains needle) (fun _ => ()) (fun _ => .ok true) (fun b => .value (.bool b))
    (fun visits item => ?_) (fun _ => rfl) (fun _ => rfl) budget [] s
  show _ = (if item.identical needle then _ else _)
  cases item.identical needle <;> rfl

lemma equalTo_eq_consume (others : List Item) :
    (do return Output.value (.bool (← equalTo others budget s))) = (Search.sequenceEqual others).consume budget [] s := by
  refine reduce_eq_consume (.sequenceEqual others) (fun visits => others.drop visits.length) (fun _ => .ok false)
    (fun b => .value (.bool b)) (fun visits item => ?_) (fun _ => rfl) (fun _ => rfl) budget [] s
  show _ = (if Search.decides _ visits item true then _ else _)
  rw [Search.decides]
  cases hother : others[visits.length]? with
  | none =>
    rw [List.drop_eq_nil_of_le (List.getElem?_eq_none_iff.mp hother)]
    rfl
  | some other =>
    have hdrop : others.drop visits.length = other :: others.drop (visits ++ [(item, true)]).length := by
      obtain ⟨hlt, rfl⟩ := List.getElem?_eq_some_iff.mp hother
      rw [List.length_append, List.drop_eq_getElem_cons hlt]
      rfl
    rw [hdrop]
    dsimp only
    by_cases hequal : item.looselyEqual other = true
    · rw [if_pos hequal, if_neg (by simp [hequal])]
    · rw [if_neg hequal, if_pos (by simpa using hequal)]
      rfl

lemma any_eq_consume :
    (do return Output.value (.bool (← any predicate budget s))) = (Search.any predicate).consume budget [] s := by
  refine reduce_eq_consume (.any predicate) (fun _ => ()) (fun _ => .ok true) (fun b => .value (.bool b))
    (fun visits item => ?_) (fun _ => rfl) (fun _ => rfl) budget [] s
  refine congrArg _ (funext fun verdict => ?_)
  cases verdict <;> rfl

lemma all_eq_consume (predicate : Callable) :
    (do return Output.value (.bool (← all predicate budget s))) = (Search.all predicate).consume budget [] s := by
  refine reduce_eq_consume (.all predicate) (fun _ => ()) (fun _ => .ok false) (fun b => .value (.bool b))
    (fun visits item => ?_) (fun _ => rfl) (fun _ => rfl) budget [] s
  refine congrArg _ (funext fun verdict => ?_)
  cases verdict <;> rfl

/-- **A part that is a search goes through its source in the one loop**, with nothing seen so far. -/
theorem plan_of_searches {part : Part} {search : Search} (hpart : part.Searches search) :
    ∃ run, part.plan = .ok (.eagerly run) ∧ ∀ budget s, run budget s = search.consume budget [] s := by
  obtain ⟨operator, arguments⟩ := part
  obtain ⟨hoperator, harguments⟩ := hpart
  cases search with
  | first whenAbsent predicate =>
    cases (hoperator : operator = .first whenAbsent)
    subst harguments
    exact ⟨_, rfl, first_eq_consume whenAbsent _⟩
  | single whenAbsent predicate =>
    cases (hoperator : operator = .single whenAbsent)
    subst harguments
    exact ⟨_, rfl, single_eq_consume whenAbsent _⟩
  | elementAt whenAbsent index =>
    cases (hoperator : operator = .elementAt whenAbsent)
    obtain ⟨item, hitem, hindex⟩ := harguments
    refine ⟨_, ?_, fun budget s => elementAt_eq_consume whenAbsent budget s index⟩
    unfold Part.plan
    rw [requireInteger_of_literal? hitem hindex "index"]
    rfl
  | contains needle =>
    cases (hoperator : operator = .contains)
    refine ⟨_, ?_, fun budget s => contains_eq_consume budget s needle⟩
    unfold Part.plan
    rw [requireLiteral_of_literal? harguments "item"]
    rfl
  | sequenceEqual others =>
    cases (hoperator : operator = .sequenceEqual)
    obtain ⟨ref, hothers⟩ := harguments
    refine ⟨_, ?_, fun budget s => equalTo_eq_consume budget s others⟩
    unfold Part.plan
    rw [requireElements_of_literal? hothers "other sequence"]
    rfl
  | any predicate =>
    cases (hoperator : operator = .any)
    subst harguments
    exact ⟨_, rfl, any_eq_consume _⟩
  | all predicate =>
    cases (hoperator : operator = .all)
    refine ⟨_, ?_, fun budget s => all_eq_consume budget s predicate⟩
    unfold Part.plan
    rw [requireFunction_of_function? harguments "predicate"]
    rfl

lemma apply_eq_consume {part : Part} {search : Search} (hpart : part.Searches search) :
    apply budget (.sequence s) part = search.consume budget [] s := by
  obtain ⟨run, hplan, hrun⟩ := plan_of_searches hpart
  rw [apply, source_sequence, hplan, ← hrun]
  rfl

end Loops

/-! ### Going through a source -/

namespace Search

/-- What the search comes to with an ending, if none of the items before it decides. -/
def ended (search : Search) (visits : List (Item × Bool)) : Ending → Except QueryError Output
  | .finished => search.otherwise visits
  | .failed e => .error e

/-- From the session `σ` on, the item at the position `d` of the source is the first that decides; the verdict on it leaves
the session `τ`, after one pull for each of the items up to it and none for those behind it. -/
def DecidedAt (search : Search) (σ : Session) (s : Sequence) (d : Nat) (item : Item) (τ : Session) : Prop :=
  ∃ before t υ u κ verdict, Feeds search.verdict σ s before t υ ∧ before.length = d ∧ search.Undecided before ∧
    Pulls υ t (.item item) u κ ∧ search.verdict item κ = (verdict, τ) ∧ search.decides before item verdict = true

variable {search : Search} {σ τ υ κ : Session} {s t u : Sequence} {x : Item} {verdict : Bool} {budget : Nat}
  {visits fed : List (Item × Bool)} {ending : Ending} {r : Reply} {result : Except QueryError Output}

/-! #### One step of the loop -/

lemma consume_of_work (h : s.advance σ = ((none, t), τ)) :
    (search.consume (budget + 1) visits s).run.run σ = (search.consume budget visits t).run.run τ :=
  reduce_of_work h

lemma consume_of_undecided (h : s.advance σ = ((some (.item x), t), τ)) (hverdict : search.verdict x τ = (verdict, υ))
    (hdecides : search.decides visits x verdict = false) :
    (search.consume (budget + 1) visits s).run.run σ =
      (search.consume budget (visits ++ [(x, verdict)]) t).run.run υ := by
  refine (reduce_of_item h).trans ?_
  rw [bind_assoc, Eval.lift_bind, Eff.bind_run hverdict, hdecides]
  rfl

lemma consume_of_decided (h : s.advance σ = ((some (.item x), t), τ)) (hverdict : search.verdict x τ = (verdict, υ))
    (hdecides : search.decides visits x verdict = true) :
    (search.consume (budget + 1) visits s).run.run σ = (some (search.answer x), υ) := by
  refine (reduce_of_item h).trans ?_
  rw [bind_assoc, Eval.lift_bind, Eff.bind_run hverdict, hdecides, if_pos rfl]
  cases search.answer x <;> rfl

lemma consume_of_ending (h : s.advance σ = ((some r, t), τ)) (hending : r.ending? = some ending) :
    (search.consume (budget + 1) visits s).run.run σ = (some (search.ended visits ending), τ) := by
  cases r with
  | item x => cases hending
  | failure e =>
    cases hending
    exact reduce_of_failure h
  | finished =>
    cases hending
    refine (reduce_of_finished h).trans ?_
    rw [ended]
    cases search.otherwise visits <;> rfl

/-! #### Whole runs -/

/-- Steps without a reply cost nothing but budget. -/
lemma consume_of_works (search : Search) (visits : List (Item × Bool)) (h : Works σ s t τ) : ∃ spent, ∀ budget,
    (search.consume (budget + spent) visits s).run.run σ = (search.consume budget visits t).run.run τ := by
  induction h with
  | done => exact ⟨0, fun _ => rfl⟩
  | step step _ ih =>
    obtain ⟨spent, hrest⟩ := ih
    exact ⟨spent + 1, fun budget => (consume_of_work step).trans (hrest budget)⟩

/-- Items that do not decide are passed over. -/
theorem consume_of_feeds (visits : List (Item × Bool)) (h : Feeds search.verdict σ s fed t τ)
    (hundecided : search.Undecided (visits ++ fed)) : ∃ spent, ∀ budget,
      (search.consume (budget + spent) visits s).run.run σ = (search.consume budget (visits ++ fed) t).run.run τ := by
  induction h generalizing visits with
  | start => exact ⟨0, fun budget => by rw [List.append_nil]; rfl⟩
  | @item _ κ _ _ s t _ x verdict fed pull answer _ ih =>
    have hdecides : search.decides visits x verdict = false := hundecided visits x verdict fed rfl
    have hvisits : visits ++ (x, verdict) :: fed = (visits ++ [(x, verdict)]) ++ fed := by
      rw [List.append_assoc, List.singleton_append]
    rw [hvisits] at hundecided ⊢
    obtain ⟨u, ν, hworks, hlast⟩ := pull.works
    obtain ⟨spent, hfirst⟩ := consume_of_works search visits hworks
    obtain ⟨spent', hrest⟩ := ih _ hundecided
    refine ⟨spent' + 1 + spent, fun budget => ?_⟩
    rw [← Nat.add_assoc, hfirst]
    exact (consume_of_undecided hlast answer hdecides).trans (hrest budget)

/-- After items that do not decide, the search comes to what its step on the next reply comes to. -/
lemma consume_of_pulls (hfeeds : Feeds search.verdict σ s visits t υ) (hundecided : search.Undecided visits)
    (hpulls : Pulls υ t r u κ)
    (hlast : ∀ {v ν} budget, v.advance ν = ((some r, u), κ) →
      (search.consume (budget + 1) visits v).run.run ν = (some result, τ)) :
    ∃ spent, ∀ budget, spent ≤ budget → (search.consume budget [] s).run.run σ = (some result, τ) := by
  obtain ⟨spent, hbefore⟩ := consume_of_feeds [] hfeeds hundecided
  obtain ⟨v, ν, hworks, hreply⟩ := hpulls.works
  obtain ⟨spent', hwait⟩ := consume_of_works search visits hworks
  refine ⟨1 + spent' + spent, fun budget hbudget => ?_⟩
  obtain ⟨rest, rfl⟩ := Nat.exists_eq_add_of_le' hbudget
  rw [← Nat.add_assoc, hbefore, ← Nat.add_assoc, List.nil_append, hwait]
  exact hlast rest hreply

/-- **The search comes to an answer with the item that decides.** -/
theorem DecidedAt.consume {d : Nat} (h : search.DecidedAt σ s d x τ) :
    ∃ spent, ∀ budget, spent ≤ budget → (search.consume budget [] s).run.run σ = (some (search.answer x), τ) := by
  obtain ⟨before, t, υ, u, κ, verdict, hfeeds, -, hundecided, hpulls, hverdict, hdecides⟩ := h
  exact consume_of_pulls hfeeds hundecided hpulls fun _ hstep => consume_of_decided hstep hverdict hdecides

/-- **Without such an item, the search goes on to the ending.** -/
theorem consume_of_feedsAll (h : FeedsAll search.verdict σ s visits ending τ) (hundecided : search.Undecided visits) :
    ∃ spent, ∀ budget, spent ≤ budget →
      (search.consume budget [] s).run.run σ = (some (search.ended visits ending), τ) := by
  obtain ⟨υ, t, r, u, hfeeds, hpulls, hending⟩ := h
  exact consume_of_pulls hfeeds hundecided hpulls fun _ hstep => consume_of_ending hstep hending

lemma undecided_nil : search.Undecided [] := by
  intro before item verdict after h
  cases before <;> cases h

lemma Undecided.concat (h : search.Undecided visits) (hdecides : search.decides visits x verdict = false) :
    search.Undecided (visits ++ [(x, verdict)]) := by
  intro before item verdict' after hvisits
  rcases List.eq_nil_or_concat after with rfl | ⟨after, last, rfl⟩
  · obtain ⟨rfl, hlast⟩ := List.append_inj' hvisits rfl
    cases hlast
    exact hdecides
  · have hvisits' : visits ++ [(x, verdict)] = (before ++ (item, verdict') :: after) ++ [last] := by
      rw [hvisits, List.concat_eq_append, List.append_assoc, List.cons_append]
    exact h before item verdict' after (List.append_inj' hvisits' rfl).1

/-- **There is no other way to a result.** -/
theorem exists_feeds_of_consume (hundecided : search.Undecided visits)
    (h : (search.consume budget visits s).run.run σ = (some result, τ)) :
    ∃ fed t υ r u κ, Feeds search.verdict σ s fed t υ ∧ search.Undecided (visits ++ fed) ∧ Pulls υ t r u κ ∧
      ((∃ ending, r.ending? = some ending ∧ κ = τ ∧ result = search.ended (visits ++ fed) ending) ∨
        ∃ x verdict, r = .item x ∧ search.verdict x κ = (verdict, τ) ∧
          search.decides (visits ++ fed) x verdict = true ∧ result = search.answer x) := by
  induction budget generalizing σ s visits with
  | zero => cases h
  | succ budget ih =>
    rcases hstep : s.advance σ with ⟨⟨_ | r, t⟩, ω⟩
    · rw [consume_of_work hstep] at h
      obtain ⟨fed, t', υ, r, u, κ, hfeeds, hrest, hpulls, hresult⟩ := ih hundecided h
      cases hfeeds with
      | start => exact ⟨[], s, σ, r, u, κ, .start, hrest, .work hstep hpulls, hresult⟩
      | item pull answer rest => exact ⟨_, t', υ, r, u, κ, .item (.work hstep pull) answer rest, hrest, hpulls, hresult⟩
    · cases hending : r.ending? with
      | some ending =>
        rw [consume_of_ending hstep hending] at h
        cases h
        rw [← List.append_nil visits] at hundecided
        refine ⟨[], s, σ, r, t, _, .start, hundecided, .reply hstep, .inl ⟨ending, hending, rfl, ?_⟩⟩
        rw [List.append_nil]
      | none =>
        obtain ⟨x, rfl⟩ : ∃ x, r = .item x := by
          cases r with
          | item x => exact ⟨x, rfl⟩
          | failure e => cases hending
          | finished => cases hending
        rcases hverdict : search.verdict x ω with ⟨verdict, υ⟩
        cases hdecides : search.decides visits x verdict with
        | true =>
          rw [consume_of_decided hstep hverdict hdecides] at h
          cases h
          rw [← List.append_nil visits] at hundecided hdecides
          exact ⟨[], s, σ, _, t, ω, .start, hundecided, .reply hstep, .inr ⟨x, verdict, rfl, hverdict, hdecides, rfl⟩⟩
        | false =>
          rw [consume_of_undecided hstep hverdict hdecides] at h
          obtain ⟨fed, t', υ', r, u, κ, hfeeds, hrest, hpulls, hresult⟩ := ih (hundecided.concat hdecides) h
          rw [List.append_assoc] at hrest hresult
          exact ⟨_, t', υ', r, u, κ, .item (.reply hstep) hverdict hfeeds, hrest, hpulls, hresult⟩

end Search

/-- **Searches stop where they are decided.**  For a part that is a search, on any source, also an endless one, or one that
fails:

* if the item at position `d` is the first that decides, and no error comes before it, then the search comes to the answer
  that this item gives, in the session after `d + 1` pulls and the verdicts on their items;
* if none decides before the source ends or fails, the search comes to what the ending makes of it, right after the pull
  that brought the ending; an error is returned as it is;
* it comes to a result in no other way, whatever the budget.

With a negative index, `elementAt` comes to a result without any work. -/
theorem searches_stop_where_they_are_decided :
    (∀ (part : Part) (search : Search), part.Searches search → ∀ (σ : Session) (s : Sequence),
      (∀ d x τ, search.DecidedAt σ s d x τ → ∃ enough, ∀ budget, enough ≤ budget →
        (apply budget (.sequence s) part).run.run σ = (some (search.answer x), τ)) ∧
      (∀ visits ending τ, FeedsAll search.verdict σ s visits ending τ → search.Undecided visits →
        ∃ enough, ∀ budget, enough ≤ budget →
          (apply budget (.sequence s) part).run.run σ = (some (search.ended visits ending), τ)) ∧
      ∀ budget result τ, (apply budget (.sequence s) part).run.run σ = (some result, τ) →
        (∃ d x, search.DecidedAt σ s d x τ ∧ result = search.answer x) ∨
          ∃ visits ending, FeedsAll search.verdict σ s visits ending τ ∧ search.Undecided visits ∧
            result = search.ended visits ending) ∧
    ∀ (part : Part) (whenAbsent : WhenAbsent) (item : Item) (index : Int), part.operator = .elementAt whenAbsent →
      part.literal? 0 = some item → item.integer? = some index → index < 0 →
      ∀ (budget : Nat) (σ : Session) (s : Sequence), (apply budget (.sequence s) part).run.run σ =
        (some ((outOfRange whenAbsent index 0).map .ofOption), σ) := by
  refine ⟨fun part search hpart σ s => ?_, fun part whenAbsent item index hoperator hitem hindex hnegative => ?_⟩
  · simp only [apply_eq_consume _ _ hpart]
    refine ⟨fun d x τ => Search.DecidedAt.consume, fun visits ending τ => Search.consume_of_feedsAll,
      fun budget result τ h => ?_⟩
    obtain ⟨fed, t, υ, r, u, κ, hfeeds, hundecided, hpulls, ⟨ending, hending, rfl, hresult⟩ |
      ⟨x, verdict, rfl, hverdict, hdecides, hresult⟩⟩ := Search.exists_feeds_of_consume Search.undecided_nil h
    · exact .inr ⟨fed, ending, ⟨υ, t, r, u, hfeeds, hpulls, hending⟩, hundecided, hresult⟩
    · exact .inl ⟨fed.length, x, ⟨fed, t, υ, u, κ, verdict, hfeeds, rfl, hundecided, hpulls, hverdict, hdecides⟩, hresult⟩
  · obtain ⟨operator, arguments⟩ := part
    cases hoperator
    have hplan : Part.plan ⟨.elementAt whenAbsent, arguments⟩ = .ok (.finding (elementAt whenAbsent index)) := by
      unfold Part.plan
      rw [requireInteger_of_literal? hitem hindex "index"]
      rfl
    intro budget σ s
    rw [apply, source_sequence, hplan]
    show (do return Output.ofOption (← elementAt whenAbsent index budget s)).run.run σ = _
    rw [elementAt, if_pos hnegative]
    cases whenAbsent <;> rfl

/-- The first true item is found before the error; all items are asked for, and so there is an error; and there is nothing
at a negative index. -/
theorem searches_stop_where_they_are_decided_failing :
    (∃ enough, ∀ budget, enough ≤ budget →
      (apply budget (.sequence (failing [.null, .bool true] (.negativeCount (-1)) 0))
        ⟨.first .fails, [.function (.unary pure)]⟩).run.run {} = (some (.ok (.value (.bool true))), {})) ∧
    (∃ enough, ∀ budget, enough ≤ budget →
      (apply budget (.sequence (failing [.bool true] (.negativeCount (-1)) 0))
        ⟨.all, [.function (.unary pure)]⟩).run.run {} = (some (.error (.negativeCount (-1))), {})) ∧
    (apply 0 (.sequence (failing [] (.negativeCount (-1)) 0))
      ⟨.elementAt .fails, [.literal (.number (.ofInt (-1)))]⟩).run.run {} =
        (some (.error (.indexOutOfRange (-1) 0)), {}) := by
  obtain ⟨hsearches, hnegative⟩ := searches_stop_where_they_are_decided
  refine ⟨?_, ?_, ?_⟩
  · have hpart : Part.Searches ⟨.first .fails, [.function (.unary pure)]⟩ (.first .fails (some (.unary pure))) := ⟨rfl, rfl⟩
    obtain ⟨hdecided, -, -⟩ := hsearches _ _ hpart {} (failing [.null, .bool true] (.negativeCount (-1)) 0)
    refine hdecided 1 (.bool true) {}
      ⟨[(.null, false)], failing [.null, .bool true] (.negativeCount (-1)) 1, {},
        failing [.null, .bool true] (.negativeCount (-1)) 2, {}, true, ?_, rfl, ?_, ?_, rfl, rfl⟩
    · exact .item (failing_pulls_item rfl) rfl .start
    · exact Search.undecided_nil.concat rfl
    · exact failing_pulls_item rfl
  · have hpart : Part.Searches ⟨.all, [.function (.unary pure)]⟩ (.all (.unary pure)) := ⟨rfl, rfl⟩
    obtain ⟨-, hended, -⟩ := hsearches _ _ hpart {} (failing [.bool true] (.negativeCount (-1)) 0)
    refine hended [(.bool true, true)] (.failed (.negativeCount (-1))) {}
      ⟨{}, failing [.bool true] (.negativeCount (-1)) 1, .failure (.negativeCount (-1)), .exhausted, ?_, ?_, rfl⟩ ?_
    · exact .item (failing_pulls_item rfl) rfl .start
    · exact failing_pulls_failure rfl
    · exact Search.undecided_nil.concat rfl
  · exact hnegative _ .fails (.number (.ofInt (-1))) (-1) rfl rfl (by decide) (by decide) 0 {} _

end LazyQuery
