import LazyQuery.Proofs.Operator.Elements

/-!
# Predicates

An operator that takes a predicate might as well be put on a filter.  The loop of the operator alone on the filter is a loop
on the source, with a test at each step (`Sequence.comesTo_reduce_link`); there it is the loop of the operator with the
predicate (`comesTo_count_filtered`, `comesTo_any_filtered`), or a loop for the same scan, which has not noticed the items that
were rejected (`Element.gives_filtered_iff`).

The main statement is `predicates_filter_first`.
-/

namespace LazyQuery

open Sequence

/-! ### Filtering first -/

/-- The items of the source that the predicate accepts. -/
def Sequence.filtered (source : Sequence) (p : Callable) : Sequence :=
  source.withStages [.filterBy p]

/-- The filter as a link of a chain. -/
def Link.filter (p : Callable) : Link :=
  ⟨false, p, []⟩

section Filter

variable {α β : Type} {p : Callable} {step : α → Item → Eval (Verdict α β)}

lemma guard_filter (state : α) (x : Item) : (Link.filter p).guard step state x = (do
    if ← p.test x then step state x else return .more state) := by
  have htest : (p.test x : Eval Bool) = (do return (← p.call x).isTruthy) := rfl
  rw [htest]
  simp only [Link.guard, Link.filter, Link.handsOn, bind_assoc, pure_bind]
  refine congrArg _ (funext fun y => ?_)
  cases y.isTruthy <;> rfl

end Filter

/-! ### Counting and asking whether there are any -/

section Loops

variable {p : Callable} {s : Sequence} {σ τ : Session}

lemma comesTo_count_filtered {result : Except QueryError Nat} :
    Eval.ComesTo (fun budget => (s.filtered p).count none budget) σ result τ ↔
      Eval.ComesTo (fun budget => s.count (some p) budget) σ result τ := by
  have hstep : (Link.filter p).guard (fun (total : Nat) item => do
      if ← Callable.accepts none item then return Verdict.more (total + 1) else return .more total) =
        fun total item => (do
          if ← Callable.accepts (some p) item then return .more (total + 1) else return .more total :
            Eval (Verdict Nat Nat)) := by
    funext total x
    exact guard_filter total x
  refine (comesTo_reduce_link (Link.filter p)).trans ?_
  rw [hstep]
  rfl

lemma comesTo_any_filtered {result : Except QueryError Bool} :
    Eval.ComesTo (fun budget => (s.filtered p).any none budget) σ result τ ↔
      Eval.ComesTo (fun budget => s.any (some p) budget) σ result τ := by
  have hstep : (Link.filter p).guard (fun (_ : Unit) item => do
      if ← Callable.accepts none item then return Verdict.settled true else return .more ()) =
        fun _ item => (do
          if ← Callable.accepts (some p) item then return .settled true else return .more () :
            Eval (Verdict Unit Bool)) := by
    funext _ x
    exact guard_filter () x
  refine (comesTo_reduce_link (Link.filter p)).trans ?_
  rw [hstep]
  rfl

/-- Loops that come to the same make parts that do. -/
lemma comesTo_iff_of_loops {α : Type} {part part' : Part} {s s' : Sequence} (run run' : Nat → Sequence → Eval α)
    (out : α → Output) (hplan : part.plan = .ok (.eagerly fun budget s => do return out (← run budget s)))
    (hplan' : part'.plan = .ok (.eagerly fun budget s => do return out (← run' budget s)))
    (hpersists : Eval.Persists fun budget => run budget s) (hpersists' : Eval.Persists fun budget => run' budget s')
    (hruns : ∀ r, Eval.ComesTo (fun budget => run budget s) σ r τ ↔ Eval.ComesTo (fun budget => run' budget s') σ r τ)
    (result : Except QueryError Output) :
    part.ComesTo (.sequence s) σ result τ ↔ part'.ComesTo (.sequence s') σ result τ := by
  rw [comesTo_of_eagerly (source_sequence part s) hplan, comesTo_of_eagerly (source_sequence part' s') hplan',
    Eval.comesTo_map hpersists, Eval.comesTo_map hpersists']
  simp only [hruns]

lemma plan_count (arguments : List Argument) : (⟨.count, arguments⟩ : Part).plan = .ok (.eagerly fun budget s => do
    return .value (.number (.ofNat (← s.count ((⟨.count, arguments⟩ : Part).function? 0) budget)))) := by
  show Except.ok (Plan.eagerly _) = _
  simp

/-- **Counting with a predicate is counting on a filter.** -/
theorem count_predicate_iff (result : Except QueryError Output) :
    (⟨.count, [.function p]⟩ : Part).ComesTo (.sequence s) σ result τ ↔
      (⟨.count, []⟩ : Part).ComesTo (.sequence (s.filtered p)) σ result τ :=
  comesTo_iff_of_loops (fun budget s => s.count (some p) budget) (fun budget s => s.count none budget)
    (fun n => .value (.number (.ofNat n))) (plan_count [.function p]) (plan_count []) (reduce_persists _ _ _ _)
    (reduce_persists _ _ _ _) (fun _ => comesTo_count_filtered.symm) result

/-- **Asking whether any items are accepted is asking whether there are any on the filter.** -/
theorem any_predicate_iff (result : Except QueryError Output) :
    (⟨.any, [.function p]⟩ : Part).ComesTo (.sequence s) σ result τ ↔
      (⟨.any, []⟩ : Part).ComesTo (.sequence (s.filtered p)) σ result τ :=
  comesTo_iff_of_loops (fun budget s => s.any (some p) budget) (fun budget s => s.any none budget)
    (fun b => .value (.bool b)) rfl rfl (reduce_persists _ _ _ _) (reduce_persists _ _ _ _)
    (fun _ => comesTo_any_filtered.symm) result

end Loops

/-! ### Asking whether it is all -/

/-- The predicate that accepts what `p` rejects. -/
def Callable.negated (p : Callable) : Callable :=
  .predicate fun x => return !(← p.test x)

section All

variable {p : Callable} {s : Sequence} {σ τ : Session}

lemma test_negated (x : Item) : p.negated.test x = (do return !(← p.test x)) := by
  simp only [Callable.negated, Callable.predicate, Callable.test, Callable.call, bind_assoc, pure_bind]
  rfl

/-- The scan for a verdict: the first item of which it is that settles the scan. -/
def verdictScan (p : Callable) (wanted : Bool) : Scan Bool Bool where
  work := p.test
  settles _ _ verdict := if verdict = wanted then some wanted else none
  otherwise _ := !wanted

lemma any_comesTo {result : Except QueryError Bool} : Eval.ComesTo (fun budget => s.any (some p) budget) σ result τ ↔
    (verdictScan p true).Gives [] σ s result τ := by
  have himplements : (verdictScan p true).Implements (fun _ => ()) .ok
      (fun _ item => do if ← Callable.accepts (some p) item then return .settled true else return .more ())
      fun _ => .ok false := by
    refine ⟨fun visits x => congrArg _ (funext fun verdict => ?_), fun _ => rfl⟩
    cases verdict <;> rfl
  exact himplements.comesTo_gives_iff []

lemma all_comesTo {result : Except QueryError Bool} : Eval.ComesTo (fun budget => s.all p budget) σ result τ ↔
    (verdictScan p false).Gives [] σ s result τ := by
  have himplements : (verdictScan p false).Implements (fun _ => ()) .ok
      (fun _ item => do if ← p.test item then return .more () else return .settled false) fun _ => .ok true := by
    refine ⟨fun visits x => congrArg _ (funext fun verdict => ?_), fun _ => rfl⟩
    cases verdict <;> rfl
  exact himplements.comesTo_gives_iff []

lemma any_negated_comesTo {result : Except QueryError Bool} :
    Eval.ComesTo (fun budget => s.any (some p.negated) budget) σ result τ ↔
      ∃ answer, (verdictScan p false).Gives [] σ s answer τ ∧ result = answer.map (!·) := by
  have himplements : (verdictScan p false).Implements (fun _ => ()) (fun answer => .ok !answer)
      (fun _ item => do
        if ← Callable.accepts (some p.negated) item then return .settled true else return .more ())
      fun _ => .ok false := by
    refine ⟨fun visits x => ?_, fun _ => rfl⟩
    have htest : (Callable.accepts (some p.negated) x : Eval Bool) = (do return !(← p.test x)) :=
      congrArg _ (test_negated x)
    rw [htest, bind_assoc]
    refine congrArg _ (funext fun verdict => ?_)
    cases verdict <;> rfl
  exact himplements.comesTo_map_iff []

/-- **Asking whether all items are accepted is asking whether any are rejected.** -/
theorem all_predicate_iff (result : Except QueryError Output) :
    (⟨.all, [.function p]⟩ : Part).ComesTo (.sequence s) σ result τ ↔
      ∃ answer : Except QueryError Bool,
        (⟨.any, [.function p.negated]⟩ : Part).ComesTo (.sequence s) σ (answer.map fun b => .value (.bool b)) τ ∧
        result = answer.map fun b => .value (.bool !b) := by
  have hall : (⟨.all, [.function p]⟩ : Part).plan =
      .ok (.eagerly fun budget s => do return .value (.bool (← s.all p budget))) := rfl
  have hany : (⟨.any, [.function p.negated]⟩ : Part).plan =
      .ok (.eagerly fun budget s => do return .value (.bool (← s.any (some p.negated) budget))) := rfl
  have hpersists : Eval.Persists fun budget => s.all p budget := reduce_persists _ _ _ _
  have hpersists' : Eval.Persists fun budget => s.any (some p.negated) budget := reduce_persists _ _ _ _
  simp only [comesTo_of_eagerly (source_sequence _ s) hall, comesTo_of_eagerly (source_sequence _ s) hany,
    Eval.comesTo_map hpersists, Eval.comesTo_map hpersists', all_comesTo, any_negated_comesTo]
  constructor
  · rintro ⟨answer, hgives, rfl⟩
    refine ⟨answer.map (!·), ⟨_, ⟨answer, hgives, rfl⟩, rfl⟩, ?_⟩
    cases answer <;> simp [Except.map]
  · rintro ⟨answer', ⟨_, ⟨answer, hgives, rfl⟩, hanswer⟩, rfl⟩
    refine ⟨answer, hgives, ?_⟩
    cases answer <;> cases answer' <;> cases hanswer
    · rfl
    · simp [Except.map]

end All

/-! ### What it comes to -/

section Counting

variable {p : Callable} {s : Sequence} {σ τ : Session} {wanted : Bool} {visits : List (Item × Bool)}

/-- The scan that counts the accepted items.  It takes all items. -/
def countScan (predicate : Option Callable) : Scan Bool Nat where
  work := Callable.accepts predicate
  settles _ _ _ := none
  otherwise visits := visits.countP (·.2)

lemma count_comesTo {predicate : Option Callable} {result : Except QueryError Nat} :
    Eval.ComesTo (fun budget => s.count predicate budget) σ result τ ↔
      ∃ visits ending, FeedsAll (Callable.accepts predicate) σ s visits ending τ ∧
        result = ending.result (visits.countP (·.2)) := by
  have himplements : (countScan predicate).Implements (fun visits => visits.countP (·.2)) .ok
      (fun total item => do
        if ← Callable.accepts predicate item then return .more (total + 1) else return .more total) .ok := by
    refine ⟨fun visits x => congrArg _ (funext fun verdict => ?_), fun _ => rfl⟩
    cases verdict <;> simp [countScan]
  exact (himplements.comesTo_gives_iff []).trans (Scan.gives_iff_of_never fun _ _ _ => rfl)

/-- What the loop of a part comes to, made to the part's output. -/
lemma comesTo_iff_of_eagerly {α : Type} {part : Part} {run : Nat → Sequence → Eval α} {out : α → Output}
    {result : Except QueryError Output} (hplan : part.plan = .ok (.eagerly fun budget s => do return out (← run budget s)))
    (hpersists : Eval.Persists fun budget => run budget s) : part.ComesTo (.sequence s) σ result τ ↔
      ∃ r, Eval.ComesTo (fun budget => run budget s) σ r τ ∧ result = r.map out := by
  rw [comesTo_of_eagerly (source_sequence part s) hplan, Eval.comesTo_map hpersists]

lemma Ending.map_result {α β : Type} (f : α → β) (a : α) (ending : Ending) :
    (ending.result a).map f = ending.result (f a) := by
  cases ending <;> rfl

/-- **Counting takes all items**, and comes to how many are accepted, or to the error of the source. -/
theorem count_iff {result : Except QueryError Output} :
    (⟨.count, [.function p]⟩ : Part).ComesTo (.sequence s) σ result τ ↔
      ∃ visits ending, FeedsAll p.test σ s visits ending τ ∧
        result = ending.result (.value (.number (.ofNat (visits.countP (·.2))))) := by
  rw [comesTo_iff_of_eagerly (plan_count [.function p]) (reduce_persists _ _ _ _)]
  constructor
  · rintro ⟨r, hr, rfl⟩
    obtain ⟨visits, ending, hfed, rfl⟩ := count_comesTo.mp hr
    exact ⟨visits, ending, hfed, Ending.map_result _ _ _⟩
  · rintro ⟨visits, ending, hfed, rfl⟩
    exact ⟨_, count_comesTo.mpr ⟨visits, ending, hfed, rfl⟩, by rw [Ending.map_result]⟩

lemma unsettled_verdict_iff {before : List (Item × Bool)} :
    (verdictScan p wanted).Unsettled before visits ↔ ∀ visit ∈ visits, visit.2 = !wanted := by
  induction visits generalizing before with
  | nil => simp [Scan.Unsettled]
  | cons visit visits ih =>
    obtain ⟨x, verdict⟩ := visit
    rw [Scan.Unsettled, ih, List.forall_mem_cons]
    cases verdict <;> cases wanted <;> simp [verdictScan]

/-- What looking for a verdict comes to: it stops at the first item of which it is, and otherwise goes on to the ending. -/
lemma gives_verdict_iff {result : Except QueryError Bool} : (verdictScan p wanted).Gives [] σ s result τ ↔
    (∃ visits ending, FeedsAll p.test σ s visits ending τ ∧ (∀ visit ∈ visits, visit.2 = !wanted) ∧
      result = ending.result !wanted) ∨
    ∃ visits x t, Feeds p.test σ s (visits ++ [(x, wanted)]) t τ ∧ (∀ visit ∈ visits, visit.2 = !wanted) ∧
      result = .ok wanted := by
  constructor
  · intro h
    refine h.exists_feedsAll_or.imp ?_ ?_
    · rintro ⟨visits, ending, hfed, hunsettled, rfl⟩
      exact ⟨visits, ending, hfed, unsettled_verdict_iff.mp hunsettled, rfl⟩
    · rintro ⟨visits, x, verdict, k, t, hfed, hunsettled, hsettles, rfl⟩
      obtain ⟨rfl, hk⟩ := Option.ite_none_right_eq_some.mp hsettles
      exact ⟨visits, x, t, hfed, unsettled_verdict_iff.mp hunsettled, congrArg _ (Option.some.inj hk).symm⟩
  · rintro (⟨visits, ending, hfed, hvisits, rfl⟩ | ⟨visits, x, t, hfed, hvisits, rfl⟩)
    · exact .of_feedsAll hfed (unsettled_verdict_iff.mpr hvisits)
    · exact .of_feeds hfed (unsettled_verdict_iff.mpr hvisits) (if_pos rfl)

/-- **Quantifiers stop at the first item of the verdict that they look for**, and otherwise come to the other answer, or to the
error of the source. -/
theorem quantifier_iff {operator : Operator} (h : (operator, wanted) ∈ [(Operator.any, true), (.all, false)])
    {result : Except QueryError Output} : (⟨operator, [.function p]⟩ : Part).ComesTo (.sequence s) σ result τ ↔
      (∃ visits ending, FeedsAll p.test σ s visits ending τ ∧ (∀ visit ∈ visits, visit.2 = !wanted) ∧
        result = ending.result (.value (.bool !wanted))) ∨
      ∃ visits x t, Feeds p.test σ s (visits ++ [(x, wanted)]) t τ ∧ (∀ visit ∈ visits, visit.2 = !wanted) ∧
        result = .ok (.value (.bool wanted)) := by
  have hgives : (⟨operator, [.function p]⟩ : Part).ComesTo (.sequence s) σ result τ ↔
      ∃ r, (verdictScan p wanted).Gives [] σ s r τ ∧ result = r.map fun b => .value (.bool b) := by
    obtain ⟨rfl, rfl⟩ | ⟨rfl, rfl⟩ : operator = .any ∧ wanted = true ∨ operator = .all ∧ wanted = false := by simpa using h
    · have hplan : (⟨.any, [.function p]⟩ : Part).plan =
          .ok (.eagerly fun budget s => do return .value (.bool (← s.any (some p) budget))) := rfl
      simp only [comesTo_iff_of_eagerly hplan (reduce_persists _ _ _ _), any_comesTo]
    · have hplan : (⟨.all, [.function p]⟩ : Part).plan =
          .ok (.eagerly fun budget s => do return .value (.bool (← s.all p budget))) := rfl
      simp only [comesTo_iff_of_eagerly hplan (reduce_persists _ _ _ _), all_comesTo]
  rw [hgives]
  simp only [gives_verdict_iff]
  constructor
  · rintro ⟨r, ⟨visits, ending, hfed, hvisits, rfl⟩ | ⟨visits, x, t, hfed, hvisits, rfl⟩, rfl⟩
    · exact .inl ⟨visits, ending, hfed, hvisits, Ending.map_result _ _ _⟩
    · exact .inr ⟨visits, x, t, hfed, hvisits, rfl⟩
  · rintro (⟨visits, ending, hfed, hvisits, rfl⟩ | ⟨visits, x, t, hfed, hvisits, rfl⟩)
    · exact ⟨_, .inl ⟨visits, ending, hfed, hvisits, rfl⟩, by rw [Ending.map_result]⟩
    · exact ⟨_, .inr ⟨visits, x, t, hfed, hvisits, rfl⟩, rfl⟩

end Counting

/-! ### Looking for one item -/

/-- What is found where rejected items are not noticed. -/
def Found.sifted : Found → Found
  | .unmatched => .empty
  | found => found

namespace Element

section Filtered

variable {element : Element} {p : Callable} {s : Sequence} {σ τ : Session} {outcome : Except QueryError Found}

/-- What the operator alone has seen of its source through the filter, in a scan that is not settled. -/
def accepted (element : Element) (visits : List (Item × Bool)) : List (Item × Bool) :=
  match element with
  | .first => []
  | _ => visits.filter (·.2)

lemma missing_accepted (visits : List (Item × Bool)) (h : visits.find? (·.2) = none) :
    Found.missing (visits.filter (·.2)) = (Found.missing visits).sifted := by
  have hnil : visits.filter (·.2) = [] := by
    rw [List.filter_eq_nil_iff]
    exact List.find?_eq_none.mp h
  rw [hnil]
  cases visits <;> rfl

/-- **The operator alone, on the filter, scans as it does with the predicate**, but has not noticed what was rejected. -/
theorem implements_filtered (helement : element ≠ .elementAt) :
    (element.scan (some p) 0).Implements element.accepted (fun found => .ok found.sifted)
      ((Link.filter p).guard (element.scan none 0).step) fun visits => .ok ((element.scan none 0).otherwise visits) := by
  have hrejected (visits : List (Item × Bool)) (x : Item) :
      (visits ++ [(x, false)]).filter (·.2) = visits.filter (·.2) := by simp
  have hnext (visits : List (Item × Bool)) (x : Item) :
      (visits ++ [(x, true)]).filter (·.2) = visits.filter (·.2) ++ [(x, true)] := by simp
  refine ⟨fun visits x => ?_, fun visits => ?_⟩
  · rw [guard_filter]
    refine congrArg _ (funext fun verdict => ?_)
    cases element with
    | first => cases verdict <;> rfl
    | last =>
      cases verdict with
      | false =>
        simp only [scan, accepted, hrejected]
        rfl
      | true =>
        simp only [scan, accepted, hnext]
        rfl
    | single =>
      have hany : (visits.filter (·.2)).any (·.2) = visits.any (·.2) := by simp
      cases verdict with
      | false =>
        simp only [scan, accepted, hrejected]
        rfl
      | true =>
        simp only [scan, accepted, hnext, Scan.step, hany]
        cases visits.any (·.2) <;> rfl
    | elementAt => exact absurd rfl helement
  · cases element with
    | first => cases visits <;> rfl
    | last =>
      have hfind : (visits.filter (·.2)).reverse.find? (·.2) = visits.reverse.find? (·.2) := by
        rw [← List.filter_reverse, List.find?_filter]
        simp
      simp only [scan, accepted, hfind]
      cases hvisit : visits.reverse.find? (·.2) with
      | some visit => rfl
      | none => exact congrArg Except.ok (missing_accepted visits (by simpa using hvisit))
    | single =>
      have hfind : (visits.filter (·.2)).find? (·.2) = visits.find? (·.2) := by
        rw [List.find?_filter]
        simp
      simp only [scan, accepted, hfind]
      cases hvisit : visits.find? (·.2) with
      | some visit => rfl
      | none => exact congrArg Except.ok (missing_accepted visits hvisit)
    | elementAt => exact absurd rfl helement

/-- **What is found among the accepted items** is found in the source with the predicate. -/
theorem gives_filtered_iff (helement : element ≠ .elementAt) :
    (element.scan none 0).Gives [] σ (s.filtered p) outcome τ ↔
      ∃ found, (element.scan (some p) 0).Gives [] σ s found τ ∧ outcome = found.map Found.sifted := by
  have hnil : element.accepted [] = [] := by cases element <;> rfl
  rw [← Scan.comesTo_step_iff]
  refine (comesTo_reduce_link (Link.filter p)).trans ?_
  rw [← hnil, (implements_filtered helement).comesTo_map_iff [], hnil]

end Filtered

/-! #### No items, or none that is accepted -/

section Missing

variable {element : Element} {predicate : Option Callable} {s : Sequence} {visits : List (Item × Bool)} {σ τ : Session}
  {position : Nat}

lemma nil_of_otherwise_empty (h : (element.scan predicate position).otherwise visits = .empty) : visits = [] := by
  cases visits with
  | nil => rfl
  | cons visit visits =>
    cases element with
    | first | elementAt => cases h
    | last | single =>
      simp only [scan] at h
      split at h <;> cases h

lemma settles_ne_missing {x : Item} {verdict : Bool} {found : Found} (hfound : found = .empty ∨ found = .unmatched) :
    (element.scan predicate position).settles visits x verdict ≠ some found := by
  cases element <;> rcases hfound with rfl | rfl <;> simp [scan]

lemma nil_of_gives_empty (h : (element.scan predicate position).Gives visits σ s (.ok .empty) τ) : visits = [] := by
  generalize houtcome : Except.ok Found.empty = outcome at h
  induction h with
  | finished => exact nil_of_otherwise_empty (Except.ok.inj houtcome).symm
  | failed => cases houtcome
  | settled _ _ hsettles =>
    rw [← Except.ok.inj houtcome] at hsettles
    exact absurd hsettles (settles_ne_missing (.inl rfl))
  | goesOn _ _ _ _ ih => simpa using ih houtcome

/-- **Where the operator with a predicate finds no items at all, the source has none.** -/
theorem not_pulls_of_gives_empty (h : (element.scan predicate position).Gives [] σ s (.ok .empty) τ) (x : Item)
    (t : Sequence) (υ : Session) : ¬ Pulls σ s (.item x) t υ := by
  intro hpull
  generalize houtcome : Except.ok Found.empty = outcome at h
  cases h with
  | finished pull => cases (hpull.unique pull).1
  | failed => cases houtcome
  | settled _ _ hsettles =>
    rw [← Except.ok.inj houtcome] at hsettles
    exact settles_ne_missing (.inl rfl) hsettles
  | goesOn _ _ _ rest =>
    rw [← houtcome] at rest
    simpa using nil_of_gives_empty rest

/-- **Where it finds none that is accepted, there is one.** -/
theorem exists_pulls_of_gives_unmatched (h : (element.scan predicate position).Gives [] σ s (.ok .unmatched) τ) :
    ∃ x t υ, Pulls σ s (.item x) t υ := by
  generalize houtcome : Except.ok Found.unmatched = outcome at h
  cases h with
  | finished => cases element <;> cases houtcome
  | failed => cases houtcome
  | settled pull => exact ⟨_, _, _, pull⟩
  | goesOn pull => exact ⟨_, _, _, pull⟩

end Missing

/-! #### The two forms of asking -/

section Forms

variable {element : Element} {p : Callable} {source : Sequence} {σ τ : Session} {whenAbsent : WhenAbsent}
  {result : Except QueryError Output}

/-- What the operator with the predicate comes to, and what it comes to alone on the filter. -/
lemma comesTo_predicate (helement : element ≠ .elementAt) :
    (element.part [.function p] whenAbsent).ComesTo (.sequence source) σ result τ ↔
      ∃ outcome, (element.scan (some p) 0).Gives [] σ source outcome τ ∧
        result = outcome >>= Found.result (element.operator whenAbsent).name whenAbsent :=
  comesTo_of_scan rfl fun h => absurd h helement

lemma comesTo_filtered (helement : element ≠ .elementAt) :
    (element.part [] whenAbsent).ComesTo (.sequence (source.filtered p)) σ result τ ↔
      ∃ outcome, (element.scan (some p) 0).Gives [] σ source outcome τ ∧
        result = outcome.map Found.sifted >>= Found.result (element.operator whenAbsent).name whenAbsent := by
  have h : (element.part [] whenAbsent).ComesTo (.sequence (source.filtered p)) σ result τ ↔
      ∃ outcome, (element.scan none 0).Gives [] σ (source.filtered p) outcome τ ∧
        result = outcome >>= Found.result (element.operator whenAbsent).name whenAbsent :=
    comesTo_of_scan rfl fun h => absurd h helement
  rw [h]
  constructor
  · rintro ⟨outcome, hgives, rfl⟩
    obtain ⟨found, hfound, rfl⟩ := (gives_filtered_iff helement).mp hgives
    exact ⟨found, hfound, rfl⟩
  · rintro ⟨found, hfound, rfl⟩
    exact ⟨_, (gives_filtered_iff helement).mpr ⟨found, hfound, rfl⟩, rfl⟩

lemma handed_filtered (helement : element ≠ .elementAt) {e : QueryError} :
    element.Handed [] (.sequence (source.filtered p)) σ e τ ↔ (element.scan (some p) 0).Gives [] σ source (.error e) τ := by
  have hfinds : element.Finds [] (.sequence (source.filtered p)) σ _ :=
    finds_of_scan 0 rfl fun h => absurd h helement
  refine hfinds.handed_iff.trans ((gives_filtered_iff helement).trans ?_)
  constructor
  · rintro ⟨found, hfound, houtcome⟩
    cases found with
    | error e' =>
      cases houtcome
      exact hfound
    | ok found => cases houtcome
  · exact fun h => ⟨_, h, rfl⟩

/-- **Alone on the filter, the operator raises that there are no items** where in the source none is found that is accepted. -/
theorem raises_filtered_iff (helement : element ≠ .elementAt) :
    element.Raises [] whenAbsent (.sequence (source.filtered p)) σ (.emptySequence (element.operator whenAbsent).name) τ ↔
      whenAbsent = .fails ∧ ∃ found, (found = .empty ∨ found = .unmatched) ∧
        (element.scan (some p) 0).Gives [] σ source (.ok found) τ := by
  constructor
  · rintro ⟨hcomes, hhanded⟩
    obtain ⟨outcome, hgives, hresult⟩ := (comesTo_filtered helement).mp hcomes
    cases outcome with
    | error e =>
      cases hresult
      exact absurd ((handed_filtered helement).mpr hgives) hhanded
    | ok found =>
      have hfails : found = .empty ∨ found = .unmatched := by
        cases found with
        | empty => exact .inl rfl
        | unmatched => exact .inr rfl
        | beyond => cases whenAbsent <;> cases hresult
        | _ => cases hresult
      refine ⟨?_, found, hfails, hgives⟩
      cases whenAbsent with
      | fails => rfl
      | noValue => rcases hfails with rfl | rfl <;> cases hresult
  · rintro ⟨rfl, found, hfound, hgives⟩
    refine ⟨(comesTo_filtered helement).mpr ⟨_, hgives, ?_⟩, fun hhanded => ?_⟩
    · rcases hfound with rfl | rfl <;> rfl
    · obtain ⟨⟨⟩, -⟩ := hgives.unique ((handed_filtered helement).mp hhanded)

/-- Otherwise the two come to the same. -/
theorem comesTo_predicate_iff (helement : element ≠ .elementAt)
    (hraises : whenAbsent = .noValue ∨ ¬ element.Raises [] whenAbsent (.sequence (source.filtered p)) σ
      (.emptySequence (element.operator whenAbsent).name) τ) :
    (element.part [.function p] whenAbsent).ComesTo (.sequence source) σ result τ ↔
      (element.part [] whenAbsent).ComesTo (.sequence (source.filtered p)) σ result τ := by
  have hsifted {outcome : Except QueryError Found} (hgives : (element.scan (some p) 0).Gives [] σ source outcome τ) :
      outcome.map Found.sifted >>= Found.result (element.operator whenAbsent).name whenAbsent =
        outcome >>= Found.result (element.operator whenAbsent).name whenAbsent := by
    cases outcome with
    | error e => rfl
    | ok found =>
      cases found with
      -- the only answer that the filter hides
      | unmatched =>
        cases whenAbsent with
        | noValue => rfl
        | fails =>
          rcases hraises with ⟨⟨⟩⟩ | hraises
          exact absurd ((raises_filtered_iff helement).mpr ⟨rfl, .unmatched, .inr rfl, hgives⟩) hraises
      | _ => rfl
  rw [comesTo_predicate helement, comesTo_filtered helement]
  constructor
  · rintro ⟨outcome, hgives, rfl⟩
    exact ⟨outcome, hgives, (hsifted hgives).symm⟩
  · rintro ⟨outcome, hgives, rfl⟩
    exact ⟨outcome, hgives, hsifted hgives⟩

/-- Where none is found that is accepted, the operator with the predicate raises what the name of that is. -/
lemma raises_predicate {found : Found} {e : QueryError} (helement : element ≠ .elementAt)
    (hgives : (element.scan (some p) 0).Gives [] σ source (.ok found) τ)
    (he : found.result (element.operator whenAbsent).name whenAbsent = .error e) :
    element.Raises [.function p] whenAbsent (.sequence source) σ e τ := by
  have hfinds : element.Finds [.function p] (.sequence source) σ _ :=
    finds_of_scan 0 rfl fun h => absurd h helement
  refine ⟨hfinds.comesTo_iff.mpr ⟨_, hgives, he.symm⟩, fun hhanded => ?_⟩
  obtain ⟨⟨⟩, -⟩ := hgives.unique (hfinds.handed_iff.mp hhanded)

end Forms

end Element

/-- **Operators with a predicate are operators on a filter.**  For any source, also an endless one or one that fails, and any
predicate, which may be at work in the session:

* what `where` hands on are the items that the predicate accepts;
* counting them, and asking whether there are any, comes to the same with the predicate as alone on the filter;
* a count with a predicate takes all items, and comes to how many are accepted, or to the error of the source;
* whether all items are accepted is asked by asking whether any are rejected;
* `any` and `all` with a predicate stop at the first item that is accepted or rejected, and otherwise come to the other answer,
  or to the error of the source;
* `first`, `last` and `single`, in either form, come to the same with the predicate as alone on the filter, be it an item, no
  value or an error, unless the operator alone raises that there are no items;
* where it raises that, the operator with the predicate raises that there is no match if the source has an item, and that
  there are no items if it has none. -/
theorem predicates_filter_first (p : Callable) (source : Sequence) (σ τ : Session) :
    (∀ budget, apply budget (.sequence source) ⟨.filter, [.function p]⟩ = pure (.sequence (source.filtered p))) ∧
    (∀ operator ∈ [Operator.count, .any], ∀ result,
      (⟨operator, [.function p]⟩ : Part).ComesTo (.sequence source) σ result τ ↔
        (⟨operator, []⟩ : Part).ComesTo (.sequence (source.filtered p)) σ result τ) ∧
    (∀ result, (⟨.all, [.function p]⟩ : Part).ComesTo (.sequence source) σ result τ ↔
      ∃ answer : Except QueryError Bool,
        (⟨.any, [.function p.negated]⟩ : Part).ComesTo (.sequence source) σ (answer.map fun b => .value (.bool b)) τ ∧
        result = answer.map fun b => .value (.bool !b)) ∧
    (∀ result, (⟨.count, [.function p]⟩ : Part).ComesTo (.sequence source) σ result τ ↔
      ∃ visits ending, FeedsAll p.test σ source visits ending τ ∧
        result = ending.result (.value (.number (.ofNat (visits.countP (·.2)))))) ∧
    (∀ operator wanted, (operator, wanted) ∈ [(Operator.any, true), (.all, false)] → ∀ result,
      (⟨operator, [.function p]⟩ : Part).ComesTo (.sequence source) σ result τ ↔
        (∃ visits ending, FeedsAll p.test σ source visits ending τ ∧ (∀ visit ∈ visits, visit.2 = !wanted) ∧
          result = ending.result (.value (.bool !wanted))) ∨
        ∃ visits x t, Feeds p.test σ source (visits ++ [(x, wanted)]) t τ ∧ (∀ visit ∈ visits, visit.2 = !wanted) ∧
          result = .ok (.value (.bool wanted))) ∧
    ∀ (element : Element) (whenAbsent : WhenAbsent), element ≠ .elementAt →
      (whenAbsent = .noValue ∨ ¬ element.Raises [] whenAbsent (.sequence (source.filtered p)) σ
          (.emptySequence (element.operator whenAbsent).name) τ →
        ∀ result, (element.part [.function p] whenAbsent).ComesTo (.sequence source) σ result τ ↔
          (element.part [] whenAbsent).ComesTo (.sequence (source.filtered p)) σ result τ) ∧
      (element.Raises [] whenAbsent (.sequence (source.filtered p)) σ
          (.emptySequence (element.operator whenAbsent).name) τ →
        ((∃ x t υ, Pulls σ source (.item x) t υ) → element.Raises [.function p] whenAbsent (.sequence source) σ
          (.noMatch (element.operator whenAbsent).name) τ) ∧
        ((∀ x t υ, ¬ Pulls σ source (.item x) t υ) → element.Raises [.function p] whenAbsent (.sequence source) σ
          (.emptySequence (element.operator whenAbsent).name) τ)) := by
  refine ⟨fun budget => rfl, fun operator hoperator result => ?_, fun result => all_predicate_iff result,
    fun result => count_iff, fun operator wanted hoperator result => quantifier_iff hoperator,
    fun element whenAbsent helement => ⟨?_, ?_⟩⟩
  · obtain rfl | rfl : operator = .count ∨ operator = .any := by simpa using hoperator
    · exact count_predicate_iff result
    · exact any_predicate_iff result
  · exact fun hraises result => Element.comesTo_predicate_iff helement hraises
  · intro hraises
    obtain ⟨rfl, found, hfound, hgives⟩ := (Element.raises_filtered_iff helement).mp hraises
    refine ⟨?_, fun hnone => ?_⟩
    · rintro ⟨x, t, υ, hpull⟩
      rcases hfound with rfl | rfl
      · exact absurd hpull (Element.not_pulls_of_gives_empty hgives x t υ)
      · exact Element.raises_predicate helement hgives rfl
    · rcases hfound with rfl | rfl
      · exact Element.raises_predicate helement hgives rfl
      · obtain ⟨x, t, υ, hpull⟩ := Element.exists_pulls_of_gives_unmatched hgives
        exact absurd hpull (hnone x t υ)

/-- Null is no match for the predicate that takes items as they are; without it there would be no items, or no value. -/
theorem predicates_filter_first_unmatched :
    Element.first.Raises [.function (.unary pure)] .fails (.sequence (.ofItems [.null])) {} (.noMatch "first") {} ∧
    Element.first.Raises [.function (.unary pure)] .fails (.sequence (.ofItems [])) {} (.emptySequence "first") {} ∧
    ((Element.first.part [.function (.unary pure)] .noValue).ComesTo (.sequence (.ofItems [.null])) {} (.ok .absent) {} ↔
      (Element.first.part [] .noValue).ComesTo (.sequence ((Sequence.ofItems [.null]).filtered (.unary pure))) {}
        (.ok .absent) {}) := by
  have hunmatched : (Element.first.scan (some (.unary pure)) 0).Gives [] {} (.ofItems [.null]) (.ok .unmatched) {} :=
    .goesOn (.reply rfl) rfl rfl (.finished (.reply rfl))
  have hempty : (Element.first.scan (some (.unary pure)) 0).Gives [] {} (.ofItems []) (.ok .empty) {} := .finished (.reply rfl)
  obtain ⟨-, -, -, -, -, hnull⟩ := predicates_filter_first (.unary pure) (.ofItems [.null]) {} {}
  obtain ⟨-, -, -, -, -, hnone⟩ := predicates_filter_first (.unary pure) (.ofItems []) {} {}
  refine ⟨?_, ?_, (hnull .first .noValue (by decide)).1 (.inl rfl) _⟩
  · have hraises := (Element.raises_filtered_iff (by decide)).mpr ⟨rfl, .unmatched, .inr rfl, hunmatched⟩
    exact ((hnull .first .fails (by decide)).2 hraises).1 ⟨_, _, _, .reply rfl⟩
  · have hraises := (Element.raises_filtered_iff (by decide)).mpr ⟨rfl, .empty, .inl rfl, hempty⟩
    exact ((hnone .first .fails (by decide)).2 hraises).2 (Element.not_pulls_of_gives_empty hempty)

end LazyQuery
