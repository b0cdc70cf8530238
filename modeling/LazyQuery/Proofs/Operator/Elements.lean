import LazyQuery.Proofs.Engine.Shape
import LazyQuery.Proofs.Operator.ShortCircuit
import LazyQuery.Proofs.Sequence.Scan

/-!
# The two forms of the element operators

Each operator that looks for one item has a form that fails where the item is not there and a form that comes to no value
then (`Element`).  The loops of both are loops for one scan, `Element.scan`, which tells what is found (`Found`); the forms
differ only in what they make of it (`Found.answer`).  `Element.Finds` is what there is to know of the two forms together:
what they come to, and the errors that a pull of the source hands over to them.

The main statement is `only_own_absence_becomes_no_value`.
-/

namespace LazyQuery

open Sequence

/-! ### What a part comes to -/

/-- Applied to the input in the session `σ`, the part comes to the result, and leaves the session `τ`. -/
def Part.ComesTo (part : Part) (input : Output) (σ : Session) (result : Except QueryError Output) (τ : Session) : Prop :=
  Eval.ComesTo (fun budget => apply budget input part) σ result τ

section Parts

variable {part : Part} {input : Output} {s : Sequence} {σ τ : Session} {result : Except QueryError Output} {e : QueryError}
  {run : Nat → Sequence → Eval Output}

lemma comesTo_of_eagerly (hsource : part.source input = .ok s) (hplan : part.plan = .ok (.eagerly run)) :
    part.ComesTo input σ result τ ↔ Eval.ComesTo (fun budget => run budget s) σ result τ := by
  have happly : (fun budget => apply budget input part) = fun budget => run budget s := by
    funext budget
    rw [apply, hsource, hplan]
    rfl
  rw [Part.ComesTo, happly]

lemma comesTo_of_source_error (hsource : part.source input = .error e) :
    part.ComesTo input σ result τ ↔ result = .error e ∧ τ = σ := by
  have happly : (fun budget => apply budget input part) = fun _ => Eval.ofExcept (.error e) := by
    funext budget
    rw [apply, hsource]
    rfl
  rw [Part.ComesTo, happly, Eval.comesTo_ofExcept]

lemma comesTo_of_plan_error (hsource : part.source input = .ok s) (hplan : part.plan = .error e) :
    part.ComesTo input σ result τ ↔ result = .error e ∧ τ = σ := by
  have happly : (fun budget => apply budget input part) = fun _ => Eval.ofExcept (.error e) := by
    funext budget
    rw [apply, hsource, hplan]
    rfl
  rw [Part.ComesTo, happly, Eval.comesTo_ofExcept]

end Parts

/-! ### Element operators -/

/-- The operators that look for one item. -/
inductive Element where
  | first
  | last
  | single
  | elementAt
  deriving DecidableEq

namespace Element

def operator : Element → WhenAbsent → Operator
  | .first => .first
  | .last => .last
  | .single => .single
  | .elementAt => .elementAt

/-- The operator with its arguments, in one of its forms. -/
def part (element : Element) (arguments : List Argument) (whenAbsent : WhenAbsent) : Part :=
  ⟨element.operator whenAbsent, arguments⟩

/-- The predicate, if there is one. -/
def predicate? (arguments : List Argument) : Option Callable :=
  (Element.first.part arguments .fails).function? 0

/-- The index for `elementAt`, if there is one. -/
def index? (arguments : List Argument) : Option Int :=
  ((Element.elementAt.part arguments .fails).literal? 0).bind Item.integer?

/-- After the given visits, each an item and whether it was accepted, the operator goes on to ask for an item. -/
def AsksOn (element : Element) (arguments : List Argument) (visits : List (Item × Bool)) : Prop :=
  match element with
  | .first => visits.countP (·.2) = 0
  | .last => True
  | .single => visits.countP (·.2) ≤ 1
  | .elementAt => ∃ i, index? arguments = some i ∧ (visits.length : Int) ≤ i

/-- From the session `σ` on, the error comes with a pull of the source that the operator makes. -/
def Handed (element : Element) (arguments : List Argument) (input : Output) (σ : Session) (e : QueryError)
    (τ : Session) : Prop :=
  ∃ s visits, input.toSequence = .ok s ∧ FeedsAll (Callable.accepts (predicate? arguments)) σ s visits (.failed e) τ ∧
    element.AsksOn arguments visits

/-- The operator comes to an error that no pull of its source has handed over. -/
def Raises (element : Element) (arguments : List Argument) (whenAbsent : WhenAbsent) (input : Output) (σ : Session)
    (e : QueryError) (τ : Session) : Prop :=
  (element.part arguments whenAbsent).ComesTo input σ (.error e) τ ∧ ¬ element.Handed arguments input σ e τ

end Element

/-! ### What is found -/

/-- What an element operator finds, in either form. -/
inductive Found where
  | item (x : Item)
  | several
  | empty
  | unmatched
  | beyond (index : Int) (length : Nat)
  | noSource (reason : String)
  | refused (reason : String)

namespace Found

/-- Nothing: there were no items, or none that was accepted. -/
def missing (visits : List (Item × Bool)) : Found :=
  if visits.isEmpty then .empty else .unmatched

/-- What the operator of this name makes of it. -/
def answer (name : String) (whenAbsent : WhenAbsent) : Found → Except QueryError (Option Item)
  | .item x => .ok (some x)
  | .several => .error (.multipleMatches name)
  | .empty => absence name whenAbsent false
  | .unmatched => absence name whenAbsent true
  | .beyond index length => outOfRange whenAbsent index length
  | .noSource reason => .error (.invalidSource reason)
  | .refused reason => .error (.invalidArgument name reason)

def result (name : String) (whenAbsent : WhenAbsent) (found : Found) : Except QueryError Output :=
  (found.answer name whenAbsent).map .ofOption

lemma answer_missing (name : String) (whenAbsent : WhenAbsent) (visits : List (Item × Bool)) :
    (missing visits).answer name whenAbsent = absence name whenAbsent (!visits.isEmpty) := by
  cases visits <;> rfl

end Found

namespace Element

/-- The scan of an element operator that is given an index of at least zero. -/
def scan (element : Element) (predicate : Option Callable) (position : Nat) : Scan Bool Found where
  work := Callable.accepts predicate
  settles before x verdict :=
    match element with
    | .first => if verdict then some (.item x) else none
    | .last => none
    | .single => if verdict && before.any (·.2) then some .several else none
    | .elementAt => if before.length = position then some (.item x) else none
  otherwise visits :=
    match element with
    | .first => .missing visits
    | .last =>
      match visits.reverse.find? (·.2) with
      | some visit => .item visit.1
      | none => .missing visits
    | .single =>
      match visits.find? (·.2) with
      | some visit => .item visit.1
      | none => .missing visits
    | .elementAt => .beyond position visits.length

section Loops

variable (name : String) (whenAbsent : WhenAbsent) (predicate : Option Callable) (position : Nat) (s : Sequence)
  {σ τ : Session} {result : Except QueryError (Option Item)}

lemma first_comesTo : Eval.ComesTo (fun budget => Sequence.first name whenAbsent predicate budget s) σ result τ ↔
    ∃ outcome, (Element.first.scan predicate position).Gives [] σ s outcome τ ∧
      result = outcome >>= Found.answer name whenAbsent := by
  have himplements : (Element.first.scan predicate position).Implements (fun visits => !visits.isEmpty)
      (Found.answer name whenAbsent)
      (fun _ item => do
        if ← Callable.accepts predicate item then return .settled (some item) else return .more true)
      (absence name whenAbsent) := by
    refine ⟨fun visits x => congrArg _ (funext fun verdict => ?_), fun visits => (Found.answer_missing ..).symm⟩
    rw [seen_append]
    cases verdict <;> rfl
  exact himplements.comesTo_iff []

/-- What `last` remembers: whether there was an item, and the last that was accepted. -/
def lastFindings (visits : List (Item × Bool)) : Finding :=
  ⟨!visits.isEmpty, (visits.reverse.find? (·.2)).map Prod.fst⟩

lemma last_comesTo : Eval.ComesTo (fun budget => Sequence.last name whenAbsent predicate budget s) σ result τ ↔
    ∃ outcome, (Element.last.scan predicate position).Gives [] σ s outcome τ ∧
      result = outcome >>= Found.answer name whenAbsent := by
  have himplements : (Element.last.scan predicate position).Implements lastFindings (Found.answer name whenAbsent)
      (fun finding item => do
        if ← Callable.accepts predicate item then return .more ⟨true, some item⟩
        else return .more ⟨true, finding.found⟩)
      (Finding.result name whenAbsent) := by
    refine ⟨fun visits x => congrArg _ (funext fun verdict => ?_), fun visits => ?_⟩
    · have hnext : lastFindings (visits ++ [(x, verdict)]) =
          ⟨true, ((if verdict then some (x, verdict) else none).or (visits.reverse.find? (·.2))).map Prod.fst⟩ := by
        rw [lastFindings, seen_append, List.reverse_append, List.find?_append, List.reverse_singleton, List.find?_singleton]
      rw [hnext]
      cases verdict <;> rfl
    · simp only [Finding.result, lastFindings, scan]
      cases visits.reverse.find? (·.2) with
      | none => exact (Found.answer_missing ..).symm
      | some visit => rfl
  exact himplements.comesTo_iff []

lemma single_comesTo : Eval.ComesTo (fun budget => Sequence.single name whenAbsent predicate budget s) σ result τ ↔
    ∃ outcome, (Element.single.scan predicate position).Gives [] σ s outcome τ ∧
      result = outcome >>= Found.answer name whenAbsent := by
  have himplements : (Element.single.scan predicate position).Implements findings (Found.answer name whenAbsent)
      (fun finding item => do
        if ← Callable.accepts predicate item then
          if finding.found.isSome then throw (.multipleMatches name)
          else return .more ⟨true, some item⟩
        else return .more ⟨true, finding.found⟩)
      (Finding.result name whenAbsent) := by
    refine ⟨fun visits x => congrArg _ (funext fun verdict => ?_), fun visits => ?_⟩
    · have hnext : findings (visits ++ [(x, verdict)]) =
          ⟨true, ((visits.find? (·.2)).or (if verdict then some (x, verdict) else none)).map Prod.fst⟩ := by
        rw [findings, seen_append, List.find?_append, List.find?_singleton]
      have hany : visits.any (·.2) = (visits.find? (·.2)).isSome := by
        rw [Bool.eq_iff_iff, List.find?_isSome, List.any_eq_true]
      simp only [scan, hany]
      rw [hnext, findings]
      cases visits.find? (·.2) <;> cases verdict <;> rfl
    · simp only [Finding.result, findings, scan]
      cases visits.find? (·.2) with
      | none => exact (Found.answer_missing ..).symm
      | some visit => rfl
  exact himplements.comesTo_iff []

lemma elementAt_comesTo : Eval.ComesTo (fun budget => Sequence.elementAt whenAbsent position budget s) σ result τ ↔
    ∃ outcome, (Element.elementAt.scan none position).Gives [] σ s outcome τ ∧
      result = outcome >>= Found.answer name whenAbsent := by
  have himplements : (Element.elementAt.scan none position).Implements List.length (Found.answer name whenAbsent)
      (fun passed item => do
        if (passed : Int) = position then return .settled (some item) else return .more (passed + 1))
      (outOfRange whenAbsent position) := by
    refine ⟨fun visits x => ?_, fun visits => rfl⟩
    by_cases hlength : visits.length = position
    · simp [scan, hlength]
      rfl
    · simp [scan, hlength]
      rfl
  simp only [Sequence.elementAt, if_neg (Int.natCast_nonneg position).not_gt]
  exact himplements.comesTo_iff []

end Loops

/-! ### Arguments -/

section Arguments

variable {element : Element} {arguments : List Argument} {position : Nat} {i : Int} (whenAbsent : WhenAbsent)

lemma plan_elementAt : (Element.elementAt.part arguments whenAbsent).plan = (do
    let i ← (Element.elementAt.part arguments whenAbsent).requireInteger 0 "index"
    return .finding (Sequence.elementAt whenAbsent i)) :=
  rfl

lemma plan_of_index? (h : index? arguments = some i) :
    (Element.elementAt.part arguments whenAbsent).plan = .ok (.finding (Sequence.elementAt whenAbsent i)) := by
  obtain ⟨item, hitem, hinteger⟩ := Option.bind_eq_some_iff.mp h
  have hliteral : (Element.elementAt.part arguments whenAbsent).literal? 0 = some item := hitem
  rw [plan_elementAt, requireInteger_of_literal? hliteral hinteger "index"]
  rfl

/-- Without an index both forms are refused, and for the same reason. -/
lemma exists_plan_error (h : index? arguments = none) : ∃ reason, ∀ whenAbsent,
    (Element.elementAt.part arguments whenAbsent).plan =
      .error (.invalidArgument (Operator.elementAt whenAbsent).name reason) := by
  have hliteral (whenAbsent : WhenAbsent) : (Element.elementAt.part arguments whenAbsent).literal? 0 =
      (Element.elementAt.part arguments .fails).literal? 0 := rfl
  cases hitem : (Element.elementAt.part arguments .fails).literal? 0 with
  | none =>
    refine ⟨"missing index", fun whenAbsent => ?_⟩
    rw [plan_elementAt, Part.requireInteger, Part.requireLiteral, hliteral whenAbsent, hitem]
    rfl
  | some item =>
    rw [index?, hitem, Option.bind_some] at h
    refine ⟨"index must be an integer", fun whenAbsent => ?_⟩
    rw [plan_elementAt, Part.requireInteger, Part.requireLiteral, hliteral whenAbsent, hitem]
    simp only [bind, Except.bind, h]
    rfl

lemma predicate?_of_index? (h : index? arguments = some i) : predicate? arguments = none := by
  obtain ⟨item, hitem, -⟩ := Option.bind_eq_some_iff.mp h
  unfold Part.literal? at hitem
  split at hitem
  · next hargument =>
    unfold predicate? Part.function?
    rw [show (Element.first.part arguments .fails).arguments[0]? = _ from hargument]
  · cases hitem

end Arguments

/-! ### The two forms -/

/-- What there is to know of the two forms: they come to what they make of what is found, which is one thing; and an error is
handed over to them by a pull of the source exactly if this is what comes in its place. -/
structure Finds (element : Element) (arguments : List Argument) (input : Output) (σ : Session)
    (found : Except QueryError Found → Session → Prop) : Prop where
  unique : ∀ {outcome outcome' τ τ'}, found outcome τ → found outcome' τ' → outcome = outcome' ∧ τ = τ'
  comesTo_iff : ∀ {whenAbsent result τ}, (element.part arguments whenAbsent).ComesTo input σ result τ ↔
    ∃ outcome, found outcome τ ∧ result = outcome >>= Found.result (element.operator whenAbsent).name whenAbsent
  handed_iff : ∀ {e τ}, element.Handed arguments input σ e τ ↔ found (.error e) τ

section Finds

variable {element : Element} {arguments : List Argument} {input : Output} {s : Sequence} {σ τ : Session} {position : Nat}
  {predicate : Option Callable} {whenAbsent : WhenAbsent} {result : Except QueryError Output} {e : QueryError}

lemma source_part : (element.part arguments whenAbsent).source input = input.toSequence := by
  refine source_of_ne_defaultIfEmpty ?_
  cases element <;> simp [part, operator]

/-- One thing is found without a pull of the source. -/
lemma finds_of_immediate (found : Found)
    (hresult : ∀ {whenAbsent result τ}, (element.part arguments whenAbsent).ComesTo input σ result τ ↔
      result = found.result (element.operator whenAbsent).name whenAbsent ∧ τ = σ)
    (hhanded : ∀ e τ, ¬ element.Handed arguments input σ e τ) :
    element.Finds arguments input σ fun outcome τ => outcome = .ok found ∧ τ = σ where
  unique h h' := ⟨h.1.trans h'.1.symm, h.2.trans h'.2.symm⟩
  comesTo_iff := by
    intro whenAbsent result τ
    rw [hresult]
    constructor
    · rintro ⟨rfl, rfl⟩
      exact ⟨_, ⟨rfl, rfl⟩, rfl⟩
    · rintro ⟨_, ⟨rfl, rfl⟩, rfl⟩
      exact ⟨rfl, rfl⟩
  handed_iff := by
    intro e τ
    constructor
    · exact fun h => absurd h (hhanded e τ)
    · rintro ⟨⟨⟩, -⟩

lemma comesTo_of_finding {run : Nat → Sequence → Eval (Option Item)} {scan : Scan Bool Found}
    (hsource : input.toSequence = .ok s) (hplan : (element.part arguments whenAbsent).plan = .ok (.finding run))
    (hpersists : Eval.Persists fun budget => run budget s)
    (hrun : ∀ {r}, Eval.ComesTo (fun budget => run budget s) σ r τ ↔ ∃ outcome, scan.Gives [] σ s outcome τ ∧
      r = outcome >>= Found.answer (element.operator whenAbsent).name whenAbsent) :
    (element.part arguments whenAbsent).ComesTo input σ result τ ↔ ∃ outcome, scan.Gives [] σ s outcome τ ∧
      result = outcome >>= Found.result (element.operator whenAbsent).name whenAbsent := by
  have hresult (outcome : Except QueryError Found) :
      (outcome >>= Found.answer (element.operator whenAbsent).name whenAbsent).map Output.ofOption =
        outcome >>= Found.result (element.operator whenAbsent).name whenAbsent := by
    cases outcome <;> rfl
  rw [comesTo_of_eagerly (source_part.trans hsource) hplan, Eval.comesTo_map hpersists]
  constructor
  · rintro ⟨r, hr, rfl⟩
    obtain ⟨outcome, hgives, rfl⟩ := hrun.mp hr
    exact ⟨outcome, hgives, hresult outcome⟩
  · rintro ⟨outcome, hgives, rfl⟩
    exact ⟨_, hrun.mpr ⟨outcome, hgives, rfl⟩, (hresult outcome).symm⟩

/-- **Both forms consume their source in the one scan.** -/
theorem comesTo_of_scan (hsource : input.toSequence = .ok s)
    (hindex : element = .elementAt → index? arguments = some (position : Int)) :
    (element.part arguments whenAbsent).ComesTo input σ result τ ↔
      ∃ outcome, (element.scan (predicate? arguments) position).Gives [] σ s outcome τ ∧
        result = outcome >>= Found.result (element.operator whenAbsent).name whenAbsent := by
  cases element with
  | first => exact comesTo_of_finding hsource rfl (reduce_persists _ _ _ _) (first_comesTo _ _ _ _ _)
  | last => exact comesTo_of_finding hsource rfl (reduce_persists _ _ _ _) (last_comesTo _ _ _ _ _)
  | single => exact comesTo_of_finding hsource rfl (reduce_persists _ _ _ _) (single_comesTo _ _ _ _ _)
  | elementAt =>
    have hplan := plan_of_index? whenAbsent (hindex rfl)
    have hpersists : Eval.Persists fun budget => Sequence.elementAt whenAbsent position budget s := by
      simp only [Sequence.elementAt, if_neg (Int.natCast_nonneg position).not_gt]
      exact reduce_persists _ _ _ _
    rw [predicate?_of_index? (hindex rfl)]
    exact comesTo_of_finding hsource hplan hpersists (elementAt_comesTo _ _ _ _)

lemma unsettled_first (before visits : List (Item × Bool)) :
    (Element.first.scan predicate position).Unsettled before visits ↔ visits.countP (·.2) = 0 := by
  induction visits generalizing before with
  | nil => simp [Scan.Unsettled]
  | cons visit visits ih =>
    obtain ⟨x, verdict⟩ := visit
    rw [Scan.Unsettled, ih]
    cases verdict <;> simp [scan]

lemma unsettled_single (before visits : List (Item × Bool)) :
    (Element.single.scan predicate position).Unsettled before visits ↔
      visits.countP (·.2) = 0 ∨ before.countP (·.2) + visits.countP (·.2) ≤ 1 := by
  induction visits generalizing before with
  | nil => simp [Scan.Unsettled]
  | cons visit visits ih =>
    obtain ⟨x, verdict⟩ := visit
    rw [Scan.Unsettled, ih]
    cases verdict with
    | false => simp [scan]
    | true =>
      have hsettles : (Element.single.scan predicate position).settles before x true = none ↔ before.countP (·.2) = 0 := by
        simp [scan]
      have hbefore : (before ++ [(x, true)]).countP (·.2) = before.countP (·.2) + 1 := by simp
      have hvisits : ((x, true) :: visits).countP (·.2) = visits.countP (·.2) + 1 := List.countP_cons_of_pos rfl
      rw [hsettles, hbefore, hvisits]
      omega

lemma unsettled_elementAt (before visits : List (Item × Bool)) (hbefore : before.length ≤ position) :
    (Element.elementAt.scan predicate position).Unsettled before visits ↔ before.length + visits.length ≤ position := by
  induction visits generalizing before with
  | nil => simp [Scan.Unsettled, hbefore]
  | cons visit visits ih =>
    obtain ⟨x, verdict⟩ := visit
    have hsettles : (Element.elementAt.scan predicate position).settles before x verdict = none ↔
        before.length ≠ position := by
      simp [scan]
    rw [Scan.Unsettled, hsettles, List.length_cons]
    constructor
    · rintro ⟨hne, hrest⟩
      have hlt : (before ++ [(x, verdict)]).length ≤ position := by simp; omega
      have hle := (ih _ hlt).mp hrest
      simp at hle
      omega
    · intro hle
      refine ⟨by omega, (ih _ ?_).mpr ?_⟩
      · simp
        omega
      · simp
        omega

/-- The operator asks on as long as nothing has settled its scan. -/
lemma unsettled_iff (hindex : element = .elementAt → index? arguments = some (position : Int)) {visits : List (Item × Bool)} :
    (element.scan (predicate? arguments) position).Unsettled [] visits ↔ element.AsksOn arguments visits := by
  cases element with
  | first => exact unsettled_first [] visits
  | last =>
    have hlast (before : List (Item × Bool)) : (Element.last.scan (predicate? arguments) position).Unsettled before visits := by
      induction visits generalizing before with
      | nil => trivial
      | cons visit visits ih => exact ⟨rfl, ih _⟩
    exact iff_of_true (hlast []) trivial
  | single =>
    rw [unsettled_single, AsksOn, List.countP_nil]
    omega
  | elementAt =>
    rw [unsettled_elementAt [] visits (Nat.zero_le _), AsksOn, hindex rfl]
    simp

theorem finds_of_scan (position : Nat) (hsource : input.toSequence = .ok s)
    (hindex : element = .elementAt → index? arguments = some (position : Int)) :
    element.Finds arguments input σ fun outcome τ =>
      (element.scan (predicate? arguments) position).Gives [] σ s outcome τ where
  unique := Scan.Gives.unique
  comesTo_iff := comesTo_of_scan hsource hindex
  handed_iff := by
    intro e τ
    rw [Scan.gives_error_iff]
    constructor
    · rintro ⟨s', visits, hsource', hfeeds, hasks⟩
      rw [hsource] at hsource'
      cases hsource'
      exact ⟨visits, hfeeds, (unsettled_iff hindex).mpr hasks⟩
    · rintro ⟨visits, hfeeds, hunsettled⟩
      exact ⟨s, visits, hsource, hfeeds, (unsettled_iff hindex).mp hunsettled⟩

/-- No item is asked for without an index. -/
lemma exists_finds_refused (hsource : input.toSequence = .ok s) (hindex : index? arguments = none) :
    ∃ reason, Element.elementAt.Finds arguments input σ fun outcome τ => outcome = .ok (.refused reason) ∧ τ = σ := by
  obtain ⟨reason, hplan⟩ := exists_plan_error hindex
  refine ⟨reason, finds_of_immediate _ ?_ ?_⟩
  · intro whenAbsent result τ
    exact comesTo_of_plan_error (source_part.trans hsource) (hplan whenAbsent)
  · rintro e τ ⟨_, _, -, -, i, hi, -⟩
    rw [hindex] at hi
    cases hi

/-- Nor is one at a negative index. -/
lemma finds_beyond {i : Int} (hsource : input.toSequence = .ok s) (hindex : index? arguments = some i) (hi : i < 0) :
    Element.elementAt.Finds arguments input σ fun outcome τ => outcome = .ok (.beyond i 0) ∧ τ = σ := by
  refine finds_of_immediate _ ?_ ?_
  · intro whenAbsent result τ
    have hrun : (fun budget => (do return Output.ofOption (← Sequence.elementAt whenAbsent i budget s) : Eval Output)) =
        fun _ => Eval.ofExcept ((Found.beyond i 0).result (Operator.elementAt whenAbsent).name whenAbsent) := by
      funext budget
      rw [Sequence.elementAt, if_pos hi]
      cases whenAbsent <;> rfl
    rw [comesTo_of_eagerly (source_part.trans hsource) (plan_of_index? whenAbsent hindex), hrun]
    exact Eval.comesTo_ofExcept
  · rintro e τ ⟨_, _, -, -, i', hi', hle⟩
    rw [hindex] at hi'
    cases hi'
    omega

/-- **In each case something is found, or an error is handed over.** -/
theorem exists_finds (element : Element) (arguments : List Argument) (input : Output) (σ : Session) :
    ∃ found, element.Finds arguments input σ found := by
  cases hsource : input.toSequence with
  | error e =>
    obtain ⟨reason, hreason⟩ : ∃ reason, input.toSequence = .error (.invalidSource reason) := toSequence_eq_error fun h => by
      obtain ⟨s, rfl⟩ | ⟨ref, elements, rfl⟩ := h <;> cases hsource
    refine ⟨_, finds_of_immediate (.noSource reason) (comesTo_of_source_error (source_part.trans hreason)) ?_⟩
    rintro e' τ ⟨s, visits, hs, -, -⟩
    rw [hsource] at hs
    cases hs
  | ok s =>
    by_cases helement : element = .elementAt
    · subst helement
      cases hindex : index? arguments with
      | none =>
        obtain ⟨reason, hfinds⟩ := exists_finds_refused (σ := σ) hsource hindex
        exact ⟨_, hfinds⟩
      | some i =>
        rcases lt_or_ge i 0 with hi | hi
        · exact ⟨_, finds_beyond hsource hindex hi⟩
        · obtain ⟨position, rfl⟩ := Int.eq_ofNat_of_zero_le hi
          exact ⟨_, finds_of_scan position hsource fun _ => hindex⟩
    · exact ⟨_, finds_of_scan 0 hsource fun h => absurd h helement⟩

end Finds

end Element

/-! ### Errors and absence -/

/-- The same error as the operator of the given name would raise it.  An error that does not tell of an operator stays. -/
def QueryError.named (name : String) : QueryError → QueryError
  | .invalidArgument _ reason => .invalidArgument name reason
  | .emptySequence _ => .emptySequence name
  | .noMatch _ => .noMatch name
  | .multipleMatches _ => .multipleMatches name
  | e => e

/-- The same result, up to the name of the operator in an error. -/
def Alike {α : Type} : Except QueryError α → Except QueryError α → Prop
  | .ok a, .ok b => a = b
  | .error e, .error e' => ∀ name, e.named name = e'.named name
  | _, _ => False

lemma Alike.refl {α : Type} (result : Except QueryError α) : Alike result result := by
  cases result with
  | ok a => exact rfl
  | error e => exact fun _ => rfl

namespace Found

/-- **What is found is absence in both forms, or in none**, and then the forms make the same of it. -/
theorem absent_or_alike (found : Found) (plain lenient : String) :
    (found.result lenient .noValue = .ok .absent ∧ ∃ e, e.isAbsence = true ∧ found.result plain .fails = .error e) ∨
      found.result lenient .noValue ≠ .ok .absent ∧
        (∀ e, found.result plain .fails = .error e → e.isAbsence = false) ∧
        Alike (found.result plain .fails) (found.result lenient .noValue) := by
  cases found with
  | empty | unmatched | beyond => exact .inl ⟨rfl, _, rfl, rfl⟩
  | item x => exact .inr ⟨by rintro ⟨⟩, by rintro e ⟨⟩, rfl⟩
  | several | noSource | refused => exact .inr ⟨by rintro ⟨⟩, by rintro e ⟨⟩; rfl, fun _ => rfl⟩

end Found

/-- **Only absence, and only an operator's own, becomes "no value".**  An element operator is applied to any input, with any
arguments, in the form that fails and in the form that comes to no value:

* the one comes to no value exactly if the other raises an error that tells of absence, one that no pull of the source has
  handed over;
* in all other cases the two come to the same value, or to the same error up to the name of the operator in it, and if one
  of them comes to no result then neither does the other;
* an error that a pull of the source hands over is what both come to, as it is, whatever it tells of. -/
theorem only_own_absence_becomes_no_value (element : Element) (arguments : List Argument) (input : Output) (σ τ : Session) :
    ((element.part arguments .noValue).ComesTo input σ (.ok .absent) τ ↔
      ∃ e, e.isAbsence = true ∧ element.Raises arguments .fails input σ e τ) ∧
    (∀ result, (element.part arguments .fails).ComesTo input σ result τ →
      (∃ e, e.isAbsence = true ∧ element.Raises arguments .fails input σ e τ ∧ result = .error e) ∨
        ∃ result', (element.part arguments .noValue).ComesTo input σ result' τ ∧ Alike result result') ∧
    (∀ result', (element.part arguments .noValue).ComesTo input σ result' τ → result' ≠ .ok .absent →
      ∃ result, (element.part arguments .fails).ComesTo input σ result τ ∧ Alike result result') ∧
    ∀ e, element.Handed arguments input σ e τ → ∀ whenAbsent,
      (element.part arguments whenAbsent).ComesTo input σ (.error e) τ := by
  obtain ⟨found, hfinds⟩ := element.exists_finds arguments input σ
  have hraises {f : Found} {e : QueryError} (hf : found (.ok f) τ)
      (he : f.result (element.operator .fails).name .fails = .error e) : element.Raises arguments .fails input σ e τ := by
    refine ⟨hfinds.comesTo_iff.mpr ⟨_, hf, he.symm⟩, fun hhanded => ?_⟩
    obtain ⟨⟨⟩, -⟩ := hfinds.unique hf (hfinds.handed_iff.mp hhanded)
  have hcases (f : Found) := f.absent_or_alike (element.operator .fails).name (element.operator .noValue).name
  refine ⟨⟨fun h => ?_, ?_⟩, fun result h => ?_, fun result' h hpresent => ?_, fun e h whenAbsent => ?_⟩
  · obtain ⟨outcome, houtcome, hresult⟩ := hfinds.comesTo_iff.mp h
    cases outcome with
    | error e => cases hresult
    | ok f =>
      obtain ⟨-, e, habsence, he⟩ | ⟨hne, -⟩ := hcases f
      · exact ⟨e, habsence, hraises houtcome he⟩
      · exact absurd hresult.symm hne
  · rintro ⟨e, habsence, hcomes, hhanded⟩
    obtain ⟨outcome, houtcome, hresult⟩ := hfinds.comesTo_iff.mp hcomes
    cases outcome with
    | error e' =>
      cases hresult
      exact absurd (hfinds.handed_iff.mpr houtcome) hhanded
    | ok f =>
      obtain ⟨habsent, -⟩ | ⟨-, hpresent, -⟩ := hcases f
      · exact hfinds.comesTo_iff.mpr ⟨_, houtcome, habsent.symm⟩
      · have hnot := hpresent e hresult.symm
        rw [habsence] at hnot
        cases hnot
  · obtain ⟨outcome, houtcome, rfl⟩ := hfinds.comesTo_iff.mp h
    cases outcome with
    | error e => exact .inr ⟨.error e, hfinds.comesTo_iff.mpr ⟨_, houtcome, rfl⟩, .refl _⟩
    | ok f =>
      obtain ⟨-, e, habsence, he⟩ | ⟨-, -, halike⟩ := hcases f
      · exact .inl ⟨e, habsence, hraises houtcome he, he⟩
      · exact .inr ⟨_, hfinds.comesTo_iff.mpr ⟨_, houtcome, rfl⟩, halike⟩
  · obtain ⟨outcome, houtcome, rfl⟩ := hfinds.comesTo_iff.mp h
    cases outcome with
    | error e => exact ⟨.error e, hfinds.comesTo_iff.mpr ⟨_, houtcome, rfl⟩, .refl _⟩
    | ok f =>
      obtain ⟨habsent, -⟩ | ⟨-, -, halike⟩ := hcases f
      · exact absurd habsent hpresent
      · exact ⟨_, hfinds.comesTo_iff.mpr ⟨_, houtcome, rfl⟩, halike⟩
  · exact hfinds.comesTo_iff.mpr ⟨_, hfinds.handed_iff.mp h, rfl⟩

/-- The empty sequence has no first item; but a source that fails with an error that only looks like that is no matter of the
operator, in either form. -/
theorem only_own_absence_becomes_no_value_handed :
    (Element.first.part [] .noValue).ComesTo (.sequence .empty) {} (.ok .absent) {} ∧
    Element.first.Handed [] (.sequence (failing [] (.emptySequence "first") 0)) {} (.emptySequence "first") {} ∧
    (Element.first.part [] .noValue).ComesTo (.sequence (failing [] (.emptySequence "first") 0)) {}
      (.error (.emptySequence "first")) {} := by
  obtain ⟨habsent, -⟩ := only_own_absence_becomes_no_value .first [] (.sequence .empty) {} {}
  obtain ⟨-, -, -, hupstream⟩ :=
    only_own_absence_becomes_no_value .first [] (.sequence (failing [] (.emptySequence "first") 0)) {} {}
  have hhanded : Element.first.Handed [] (.sequence (failing [] (.emptySequence "first") 0)) {} (.emptySequence "first") {} :=
    ⟨_, [], rfl, ⟨{}, _, _, _, .start, failing_pulls_failure rfl, rfl⟩, rfl⟩
  refine ⟨habsent.mpr ⟨.emptySequence "first", rfl, ⟨1, fun budget hbudget => ?_⟩, ?_⟩, hhanded, hupstream _ hhanded _⟩
  · obtain ⟨rest, rfl⟩ := Nat.exists_eq_add_of_le' hbudget
    rfl
  · rintro ⟨s, visits, ⟨⟩, ⟨υ, t, r, u, hfeeds, hlast, hending⟩, -⟩
    have hempty : Pulls {} .empty .finished .exhausted {} := .reply rfl
    cases hfeeds with
    | start =>
      obtain ⟨rfl, -⟩ := hlast.unique hempty
      cases hending
    | item pull => cases (pull.unique hempty).1

end LazyQuery
