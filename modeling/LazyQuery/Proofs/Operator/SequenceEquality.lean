import LazyQuery.Proofs.Item.Agreement
import LazyQuery.Proofs.Operator.Conservation
import LazyQuery.Proofs.Operator.Predicates
import LazyQuery.Proofs.Operator.Prefixes
import LazyQuery.Proofs.Operator.Rows

/-!
# Sequence equality

`sequenceEqual` goes through its source and the given array in step (`equalScan`).  It goes on as long as the items are loosely
equal to the first of the array (`Item.Begins`), hands over an error that comes before they are not, and is true if all of
them are equal to all of the array (`Item.Matches`).  It is what counting and a comparison of all pairs of a `zip` come to.

The main statement is `Engine.sequence_equality_goes_item_by_item`.
-/

namespace LazyQuery

open Sequence

/-! ### Lists that are equal item by item -/

namespace Item

/-- There are as many items as others, and they are loosely equal one by one. -/
def Matches (xs others : List Item) : Prop :=
  List.Forall₂ (fun x other => x.looselyEqual other = true) xs others

/-- The items are loosely equal, one by one, to the first of the others. -/
def Begins (xs others : List Item) : Prop :=
  Matches xs (others.take xs.length)

section Lists

variable {xs others : List Item} {x : Item}

lemma begins_nil (others : List Item) : Begins [] others := by
  rw [Begins, List.length_nil, List.take_zero]
  exact .nil

lemma begins_cons_iff : Begins (x :: xs) others ↔ ∃ other rest, others = other :: rest ∧ x.looselyEqual other = true ∧
    Begins xs rest := by
  cases others with
  | nil => simp [Begins, Matches]
  | cons other rest => simp [Begins, Matches]

lemma Begins.length_le (h : Begins xs others) : xs.length ≤ others.length := by
  have hlength := List.Forall₂.length_eq h
  rw [List.length_take] at hlength
  omega

lemma matches_iff : Matches xs others ↔ Begins xs others ∧ others.length ≤ xs.length := by
  constructor
  · intro h
    have hlength := List.Forall₂.length_eq h
    refine ⟨?_, hlength.ge⟩
    rwa [Begins, List.take_of_length_le hlength.ge]
  · rintro ⟨h, hlength⟩
    rwa [Begins, List.take_of_length_le hlength] at h

lemma matches_comm : Matches xs others ↔ Matches others xs := by
  have hflip {xs others : List Item} (h : Matches xs others) : Matches others xs :=
    h.flip.imp fun _ _ hequal => looselyEqual_symm hequal
  exact ⟨hflip, hflip⟩

/-- The items match if there are as many of them, and all pairs are equal. -/
lemma matches_iff_zip : Matches xs others ↔
    xs.length = others.length ∧ ((xs.zip others).all fun pair => pair.1.looselyEqual pair.2) = true := by
  rw [Matches, List.forall₂_iff_zip, List.all_eq_true]
  simp only [Prod.forall]

end Lists

end Item

open Item

/-! ### The scan -/

/-- An item that is not equal to the one at its position settles it, and so does one for which there is none. -/
def equalScan (others : List Item) : Scan Unit Bool where
  work _ := return ()
  settles before x _ :=
    match others[before.length]? with
    | some other => if x.looselyEqual other then none else some false
    | none => some false
  otherwise visits := (others.drop visits.length).isEmpty

section Scan

variable {others xs : List Item} {before fed : List (Item × Unit)} {x : Item} {c : Unit} {σ τ : Session} {s t : Sequence}
  {e : QueryError} {b : Bool}

/-- The loop of `sequenceEqual` is a loop for the scan; its state is what is left of the array. -/
lemma equalTo_comesTo {result : Except QueryError Bool} :
    Eval.ComesTo (fun budget => s.equalTo others budget) σ result τ ↔ (equalScan others).Gives [] σ s result τ := by
  unfold Sequence.equalTo
  refine (?implements : (equalScan others).Implements (fun visits => others.drop visits.length) .ok _ _).comesTo_gives_iff []
  refine ⟨fun visits x => ?_, fun _ => rfl⟩
  cases hother : others[visits.length]? with
  | none =>
    rw [List.drop_eq_nil_of_le (List.getElem?_eq_none_iff.mp hother)]
    simp only [equalScan, hother]
    rfl
  | some other =>
    obtain ⟨hlt, rfl⟩ := List.getElem?_eq_some_iff.mp hother
    rw [List.drop_eq_getElem_cons hlt]
    simp only [equalScan, hother, List.length_append, List.length_singleton]
    cases x.looselyEqual others[visits.length] <;> rfl

/-- An item that does not settle it is equal to the first that is left of the array. -/
lemma settles_equal_iff : (equalScan others).settles before x c = none ↔
    ∃ other rest, others.drop before.length = other :: rest ∧ x.looselyEqual other = true := by
  cases hother : others[before.length]? with
  | none => simp [equalScan, List.drop_eq_nil_of_le (List.getElem?_eq_none_iff.mp hother), hother]
  | some other =>
    obtain ⟨hlt, rfl⟩ := List.getElem?_eq_some_iff.mp hother
    have hdrop := List.drop_eq_getElem_cons hlt
    constructor
    · intro h
      simp only [equalScan, hother] at h
      split at h
      · next hequal => exact ⟨_, _, hdrop, hequal⟩
      · cases h
    · rintro ⟨_, _, hleft, hequal⟩
      rw [hdrop] at hleft
      cases hleft
      simp only [equalScan, hother, hequal, if_true]

/-- An item can only settle that the sequences are not equal. -/
lemma settles_equal_false (h : (equalScan others).settles before x c = some b) : b = false := by
  dsimp only [equalScan] at h
  split at h
  · split at h <;> cases h
    rfl
  · cases h
    rfl

lemma drop_visited {other : Item} {rest : List Item} (h : others.drop before.length = other :: rest) :
    others.drop (before ++ [(x, c)]).length = rest := by
  rw [List.length_append, List.length_singleton, ← List.drop_drop, h]
  rfl

lemma unsettled_equal_iff : (equalScan others).Unsettled before fed ↔
    Begins (fed.map Prod.fst) (others.drop before.length) := by
  induction fed generalizing before with
  | nil => exact ⟨fun _ => begins_nil _, fun _ => trivial⟩
  | cons visit fed ih =>
    obtain ⟨x, c⟩ := visit
    rw [List.map_cons, begins_cons_iff, Scan.Unsettled, settles_equal_iff, ih]
    constructor
    · rintro ⟨⟨other, rest, hdrop, hequal⟩, hbegins⟩
      rw [drop_visited hdrop] at hbegins
      exact ⟨other, rest, hdrop, hequal, hbegins⟩
    · rintro ⟨other, rest, hdrop, hequal, hbegins⟩
      rw [drop_visited hdrop]
      exact ⟨⟨other, rest, hdrop, hequal⟩, hbegins⟩

/-- What the scan has seen of the items. -/
def visitsOf (xs : List Item) : List (Item × Unit) :=
  xs.map fun x => (x, ())

lemma feedsAll_equal_iff {fed : List (Item × Unit)} {ending : Ending} : FeedsAll (equalScan others).work σ s fed ending τ ↔
    ∃ xs, Drains σ s xs ending τ ∧ fed = visitsOf xs :=
  feedsAll_iff_drains fun _ _ => rfl

/-- **The scan goes on over items that are equal to the first of the array.** -/
theorem unsettled_visitsOf_iff : (equalScan others).Unsettled [] (visitsOf xs) ↔ Begins xs others := by
  have hitems : (visitsOf xs).map Prod.fst = xs := by simp [visitsOf, Function.comp_def]
  rw [unsettled_equal_iff, hitems]
  rfl

lemma otherwise_visitsOf : (equalScan others).otherwise (visitsOf xs) = decide (others.length ≤ xs.length) := by
  show (others.drop (visitsOf xs).length).isEmpty = _
  rw [Bool.eq_iff_iff]
  simp [visitsOf]

/-- **An error is handed over by a source whose items are equal to the first of the array up to it**, and only then. -/
theorem gives_equal_error_iff : (equalScan others).Gives [] σ s (.error e) τ ↔
    ∃ xs, Drains σ s xs (.failed e) τ ∧ Begins xs others := by
  rw [Scan.gives_error_iff]
  constructor
  · rintro ⟨fed, hfeeds, hfed⟩
    obtain ⟨xs, hdrains, rfl⟩ := feedsAll_equal_iff.mp hfeeds
    exact ⟨xs, hdrains, unsettled_visitsOf_iff.mp hfed⟩
  · rintro ⟨xs, hdrains, hbegins⟩
    exact ⟨_, feedsAll_equal_iff.mpr ⟨xs, hdrains, rfl⟩, unsettled_visitsOf_iff.mpr hbegins⟩

/-- The answer after all items tells whether there are as many as in the array. -/
lemma gives_equal_of_begins (h : Drains σ s xs .finished τ) (hbegins : Begins xs others) :
    (equalScan others).Gives [] σ s (.ok (decide (others.length ≤ xs.length))) τ := by
  rw [← otherwise_visitsOf]
  exact .of_feedsAll (feedsAll_equal_iff.mpr ⟨xs, h, rfl⟩) (unsettled_visitsOf_iff.mpr hbegins)

/-- **The answer is true if all items match the array**, and only then. -/
theorem gives_equal_true_iff : (equalScan others).Gives [] σ s (.ok true) τ ↔
    ∃ xs, Drains σ s xs .finished τ ∧ Matches xs others := by
  constructor
  · intro h
    obtain ⟨fed, ending, hfeeds, hfed, houtcome⟩ | ⟨fed, x, c, b, t, -, -, hsettles, houtcome⟩ := h.exists_feedsAll_or
    · obtain ⟨xs, hdrains, rfl⟩ := feedsAll_equal_iff.mp hfeeds
      have hbegins := unsettled_visitsOf_iff.mp hfed
      cases ending with
      | failed e => cases houtcome
      | finished =>
        rw [List.nil_append, otherwise_visitsOf] at houtcome
        exact ⟨xs, hdrains, matches_iff.mpr ⟨hbegins, of_decide_eq_true (Except.ok.inj houtcome).symm⟩⟩
    · cases houtcome
      cases settles_equal_false hsettles
  · rintro ⟨xs, hdrains, hmatches⟩
    obtain ⟨hbegins, hlength⟩ := matches_iff.mp hmatches
    simpa only [hlength, decide_true] using gives_equal_of_begins hdrains hbegins

/-- **An item that is not equal to the one at its position makes it false**, wherever the source goes on to. -/
theorem exists_gives_equal_false (h : Hands σ s xs t τ) (hbegins : ¬ Begins xs (others.drop before.length)) :
    ∃ ω, (equalScan others).Gives before σ s (.ok false) ω := by
  induction h generalizing before with
  | start => exact absurd (begins_nil _) hbegins
  | work step _ ih =>
    obtain ⟨ω, hgives⟩ := ih hbegins
    exact ⟨ω, hgives.of_work step⟩
  | @item σ υ _ _ _ _ x xs step _ ih =>
    cases hsettles : (equalScan others).settles before x () with
    | some b =>
      obtain rfl := settles_equal_false hsettles
      exact ⟨υ, .settled (.reply step) rfl hsettles⟩
    | none =>
      obtain ⟨other, rest, hdrop, hequal⟩ := settles_equal_iff.mp hsettles
      have hrest : ¬ Begins xs (others.drop (before ++ [(x, ())]).length) := by
        rw [drop_visited hdrop]
        exact fun hbegin => hbegins (begins_cons_iff.mpr ⟨other, rest, hdrop, hequal, hbegin⟩)
      obtain ⟨ω, hgives⟩ := ih hrest
      exact ⟨ω, .goesOn (.reply step) rfl hsettles hgives⟩

/-- A source with items that do not match the array makes it false. -/
lemma exists_gives_equal_of_not_matches (h : Drains σ s xs .finished τ) (hmatches : ¬ Matches xs others) :
    ∃ ω, (equalScan others).Gives [] σ s (.ok false) ω := by
  by_cases hbegins : Begins xs others
  · have hlength : ¬ others.length ≤ xs.length := fun hlength => hmatches (matches_iff.mpr ⟨hbegins, hlength⟩)
    exact ⟨τ, by simpa only [hlength, decide_false] using gives_equal_of_begins h hbegins⟩
  · obtain ⟨t, υ, r, u, hhands, -, -⟩ := h.hands
    exact exists_gives_equal_false hhands hbegins

/-- **Without an error there is an answer**, and it tells whether the items match the array. -/
theorem exists_gives_equal (h : Drains σ s xs .finished τ) (others : List Item) :
    ∃ b ω, (equalScan others).Gives [] σ s (.ok b) ω ∧ (b = true ↔ Matches xs others) := by
  by_cases hmatches : Matches xs others
  · exact ⟨true, τ, gives_equal_true_iff.mpr ⟨xs, h, hmatches⟩, by simp [hmatches]⟩
  · obtain ⟨ω, hgives⟩ := exists_gives_equal_of_not_matches h hmatches
    exact ⟨false, ω, hgives, by simp [hmatches]⟩

end Scan

/-! ### Comparing the pairs -/

/-- What `zip` makes of two items. -/
def pairOf (result : Option Callable) (left right : Item) : Eff Item :=
  match result with
  | some f => f.call2 left right
  | none => newArray [left, right]

/-- The predicate says of what `zip` makes of two items whether they are loosely equal. -/
def Callable.TellsEqual (p : Callable) (result : Option Callable) : Prop :=
  ∀ left right pair verdict, (pairOf result left right).Answers pair → (p.test pair).Answers verdict →
    verdict = left.looselyEqual right

/-- The items are what `zip` makes of the others and those of the array, as long as there are both. -/
def Zips (combine : Item → Item → Eff Item) (xs others ys : List Item) : Prop :=
  List.Forall₂ (fun pair y => (combine pair.1 pair.2).Answers y) (xs.zip others) ys

/-- The relation of what `zip` makes of a delivery without an error. -/
def ZipsDelivery : Stage → List Item → Ending → List Item → Ending → Prop
  | .zip combine others, xs, ending, ys, ending' => ending = .finished → Zips combine xs others ys ∧ ending' = .finished
  | _, _, _, _, _ => True

section Pairs

variable {combine : Item → Item → Eff Item} {p : Callable} {xs others ys : List Item} {σ τ : Session} {s : Sequence}
  {fed : List (Item × Bool)} {result : Option Callable}

lemma respects_zipsDelivery : Stage.Respects ZipsDelivery where
  emit {stage next y xs ending ys ending'} hdemand _ := by
    cases stage with
    | zip combine others => cases others <;> cases hdemand
    | _ => trivial
  full {stage xs ending} hdemand := by
    cases stage with
    | zip combine others =>
      cases others with
      | nil => exact fun _ => ⟨by rw [Zips, List.zip_nil_right]; exact .nil, rfl⟩
      | cons => cases hdemand
    | _ => trivial
  failure {stage e} _ := by
    cases stage with
    | zip => rintro ⟨⟩
    | _ => trivial
  close {stage cells ys} _ hclose hcells := by
    cases stage with
    | zip =>
      cases hclose.of_pure
      cases hcells
      exact fun _ => ⟨.nil, rfl⟩
    | _ => trivial
  yield _ hreceive hrest := by
    cases Stage.takes_of_receive hreceive with
    | paired hrow => exact fun hending => ⟨.cons hrow (hrest hending).1, (hrest hending).2⟩
    | _ => trivial
  drop _ hreceive _ := by
    cases Stage.takes_of_receive hreceive with
    | _ => trivial
  stop _ hreceive := by
    cases Stage.takes_of_receive hreceive with
    | unpaired => exact fun _ => ⟨.nil, rfl⟩
    | _ => trivial
  fail _ hreceive := by
    cases Stage.takes_of_receive hreceive with
    | _ => trivial

/-- Of a source whose items do not depend on what is done in the session, all pairs are tested, up to the end of the shorter
sequence. -/
lemma Sequence.Delivers.feedsAll_zip (h : s.Delivers fun ys ending => ys = xs ∧ ending = .finished)
    (combine : Item → Item → Eff Item) (others : List Item) (work : Item → Eff Bool) (σ : Session) :
    ∃ fed τ, FeedsAll work σ (.through (.zip combine others) s) fed .finished τ ∧
      Zips combine xs others (fed.map Prod.fst) := by
  have hzip : (Sequence.through (.zip combine others) s).Delivers fun ys ending' =>
      Zips combine xs others ys ∧ ending' = .finished := by
    refine (h.through respects_zipsDelivery (.zip combine others)).mono ?_
    rintro ys ending' ⟨_, _, ⟨rfl, rfl⟩, hzips⟩
    exact hzips rfl
  obtain ⟨fed, ending, τ, hfeeds, hzips, rfl⟩ := hzip.feedsAll work σ
  exact ⟨fed, τ, hfeeds, hzips⟩

lemma Sequence.FeedsAll.of_no_others {work : Item → Eff Bool} :
    FeedsAll work σ (.through (.zip combine []) s) [] .finished σ :=
  ⟨_, _, _, _, .start, .reply (ThroughStep.advance (.stop rfl)), rfl⟩

/-- So they are of any source if nothing is done in the session. -/
lemma Sequence.Drains.feedsAll_zip {work : Item → Eff Bool} (h : Drains σ s xs .finished τ)
    (hcombine : ∀ x other σ, (combine x other σ).2 = σ) (hwork : ∀ y σ, (work y σ).2 = σ) (others : List Item) :
    ∃ fed τ, FeedsAll work σ (.through (.zip combine others) s) fed .finished τ ∧
      Zips combine xs others (fed.map Prod.fst) := by
  generalize hending : Ending.finished = ending at h
  induction h generalizing others with
  | work step _ ih =>
    cases others with
    | nil =>
      subst hending
      exact ⟨[], _, .of_no_others, by rw [Zips, List.zip_nil_right]; exact .nil⟩
    | cons other others =>
      obtain ⟨fed, τ, hfeeds, hzips⟩ := ih (other :: others) hending
      exact ⟨fed, τ, hfeeds.of_work (ThroughStep.advance (.work rfl step)), hzips⟩
  | @item _ υ _ _ _ x _ _ step _ ih =>
    cases others with
    | nil =>
      subst hending
      exact ⟨[], _, .of_no_others, .nil⟩
    | cons other others =>
      rcases hrow : combine x other υ with ⟨y, ω⟩
      rcases hverdict : work y ω with ⟨verdict, κ⟩
      obtain rfl : ω = υ := by rw [← hcombine x other υ, hrow]
      obtain rfl : κ = ω := by rw [← hwork y ω, hverdict]
      have hreceive : (Stage.zip combine (other :: others)).receive x κ = (.yield y (.zip combine others), κ) :=
        Eff.bind_run hrow
      obtain ⟨fed, τ, ⟨_, _, _, _, hfeeds, hlast, hreply⟩, hzips⟩ := ih others hending
      have hpull := Pulls.reply (ThroughStep.advance (.item rfl step hreceive))
      exact ⟨(y, verdict) :: fed, τ, ⟨_, _, _, _, .item hpull hverdict hfeeds, hlast, hreply⟩, .cons ⟨_, _, hrow⟩ hzips⟩
  | ends step reply =>
    subst hending
    cases others with
    | nil => exact ⟨[], _, .of_no_others, .nil⟩
    | cons other others =>
      have hsome := Option.isSome_of_eq_some reply
      exact ⟨[], _, ⟨_, _, _, _, .start, (Pulls.reply step).through_ending hsome rfl rfl, reply⟩, .nil⟩

/-- `all` finds whether all tests have come out true. -/
lemma exists_gives_all {before : List (Item × Bool)} (h : FeedsAll p.test σ s fed .finished τ) :
    ∃ ω, (verdictScan p false).Gives before σ s (.ok (fed.all (·.2))) ω := by
  obtain ⟨υ, t, r, u, hfeeds, hlast, hending⟩ := h
  induction hfeeds generalizing before with
  | start =>
    rcases r with _ | _ | _ <;> cases hending
    exact ⟨τ, .finished hlast⟩
  | item pull answer _ ih =>
    rename_i verdict fed _
    cases verdict with
    | true =>
      obtain ⟨ω, hgives⟩ := ih hlast
      exact ⟨ω, .goesOn pull answer rfl hgives⟩
    | false => exact ⟨_, .settled pull answer rfl⟩

/-- The tests come out true if all pairs are loosely equal. -/
lemma all_tests (hp : p.TellsEqual result) (hzips : Zips (pairOf result) xs others (fed.map Prod.fst))
    (htests : ∀ visit ∈ fed, (p.test visit.1).Answers visit.2) :
    fed.all (·.2) = (xs.zip others).all fun pair => pair.1.looselyEqual pair.2 := by
  unfold Zips at hzips
  generalize xs.zip others = pairs at hzips ⊢
  induction fed generalizing pairs with
  | nil =>
    cases hzips
    rfl
  | cons visit fed ih =>
    cases hzips with
    | cons hpair hrest =>
      obtain ⟨hfirst, hothers⟩ := List.forall_mem_cons.mp htests
      rw [List.all_cons, List.all_cons, hp _ _ _ _ hpair hfirst, ih hothers _ hrest]

lemma comesTo_count (h : Drains σ s xs .finished τ) :
    Eval.ComesTo (fun budget => s.count none budget) σ (.ok xs.length) τ := by
  refine count_comesTo.mpr ⟨_, .finished, (feedsAll_iff_drains fun _ _ => rfl).mpr ⟨xs, h, rfl⟩, congrArg Except.ok ?_⟩
  rw [List.countP_map]
  exact (List.countP_eq_length.mpr fun _ _ => rfl).symm

end Pairs

/-! ### The operators -/

section Parts

variable {part zip : Part} {input : Output} {others : List Item} {p : Callable} {s : Sequence} {σ τ : Session}

/-- An answer is told by the Boolean that it is handed on as. -/
lemma comesTo_of_answering {run : Nat → Sequence → Eval Bool} {G : Except QueryError Bool → Prop}
    (hsource : part.source input = .ok s) (hplan : part.plan = .ok (.answering run))
    (hpersists : Eval.Persists fun budget => run budget s)
    (hrun : ∀ answer, Eval.ComesTo (fun budget => run budget s) σ answer τ ↔ G answer) (answer : Except QueryError Bool) :
    part.ComesTo input σ (answer.map fun b => .value (.bool b)) τ ↔ G answer := by
  rw [comesTo_of_eagerly hsource hplan, Eval.comesTo_map hpersists]
  constructor
  · rintro ⟨answer', hanswer, hequal⟩
    obtain rfl : answer = answer' := by
      rcases answer with _ | _ <;> rcases answer' with _ | _ <;> cases hequal <;> rfl
    exact (hrun _).mp hanswer
  · exact fun hanswer => ⟨answer, (hrun _).mpr hanswer, rfl⟩

/-- What `sequenceEqual` comes to is the answer of the scan. -/
lemma comesTo_sequenceEqual (hpart : part.operator = .sequenceEqual)
    (hothers : part.requireElements 0 "other sequence" = .ok others) (hsource : input.toSequence = .ok s)
    (answer : Except QueryError Bool) :
    part.ComesTo input σ (answer.map fun b => .value (.bool b)) τ ↔ (equalScan others).Gives [] σ s answer τ := by
  obtain ⟨operator, arguments⟩ := part
  cases hpart
  have hplan : (⟨.sequenceEqual, arguments⟩ : Part).plan = .ok (.answering (equalTo others)) := by
    unfold Part.plan
    rw [hothers]
    rfl
  have hinput : (⟨.sequenceEqual, arguments⟩ : Part).source input = .ok s := hsource
  exact comesTo_of_answering hinput hplan (reduce_persists _ _ _ _) (fun _ => equalTo_comesTo) answer

lemma comesTo_all (hpart : part.operator = .all) (hp : part.function? 0 = some p) (answer : Except QueryError Bool) :
    part.ComesTo (.sequence s) σ (answer.map fun b => .value (.bool b)) τ ↔ (verdictScan p false).Gives [] σ s answer τ := by
  obtain ⟨operator, arguments⟩ := part
  cases hpart
  have hplan : (⟨.all, arguments⟩ : Part).plan = .ok (.answering (all p)) := by
    unfold Part.plan
    simp only [requireFunction_of_function? hp]
    rfl
  exact comesTo_of_answering (source_sequence _ s) hplan (reduce_persists _ _ _ _) (fun _ => all_comesTo) answer

lemma plan_of_zip (hzip : zip.operator = .zip) (hothers : zip.requireElements 0 "other sequence" = .ok others) :
    zip.plan = .ok (.lazily [.zip (pairOf (zip.function? 1)) others]) := by
  obtain ⟨operator, arguments⟩ := zip
  cases hzip
  unfold Part.plan
  rw [hothers]
  rfl

end Parts

namespace Engine

section Comparison

variable (engine : Engine) {zip all : Part} {xs others : List Item} {p : Callable} {source : Sequence} {σ τ : Session}

lemma comesTo_counted (h : Drains σ source xs .finished τ) :
    engine.ComesTo source [⟨.count, []⟩] σ (.ok (.value (.number (.ofNat xs.length)))) τ := by
  have hpersists : Eval.Persists fun budget => source.count none budget := reduce_persists _ _ _ _
  rw [comesTo_single engine rfl, comesTo_of_eagerly (source_sequence _ source) (plan_count [])]
  exact (Eval.comesTo_map hpersists).mpr ⟨.ok xs.length, comesTo_count h, rfl⟩

/-- A `zip` and an `all` that are fed come to whether all pairs are loosely equal. -/
lemma exists_comesTo_pairs (hzip : zip.operator = .zip) (hothers : zip.requireElements 0 "other sequence" = .ok others)
    (hall : all.operator = .all) (hp : all.function? 0 = some p) (htells : p.TellsEqual (zip.function? 1))
    {fed : List (Item × Bool)}
    (hfeeds : FeedsAll p.test σ (.through (.zip (pairOf (zip.function? 1)) others) source) fed .finished τ)
    (hzips : Zips (pairOf (zip.function? 1)) xs others (fed.map Prod.fst)) :
    ∃ ω, engine.ComesTo source [zip, all] σ
      (.ok (.value (.bool ((xs.zip others).all fun pair => pair.1.looselyEqual pair.2)))) ω := by
  obtain ⟨ω, hpairs⟩ := @exists_gives_all _ _ _ _ _ [] hfeeds
  rw [all_tests htells hzips hfeeds.answers] at hpairs
  refine ⟨ω, ?_⟩
  rw [engine.comesTo_cons (congrArg Operator.isOrdering hzip) (plan_of_zip hzip hothers)]
  exact (comesTo_single engine (congrArg Operator.isOrdering hall)).mpr ((comesTo_all hall hp (.ok _)).mpr hpairs)

end Comparison

variable (engine : Engine)

/-- **Sequence equality goes item by item.**  Let `part` be a `sequenceEqual` with an array of the items `others`.  On any
source:

* it comes to true if the source hands out items that match the others, as many and loosely equal one by one, and ends
  without an error; and only then;
* it fails if the source fails, with that error, after items that are loosely equal to the first of the others, of which
  there are at least as many then; and only then;
* if the source ends after items that do not match, or hands out items that are not equal to the first of the others, be it
  before an error or without an end, it comes to false;
* on a source that ends without an error, it comes to what counting the items and asking whether all pairs of a `zip` are
  equal come to together.  For this, the functions of the `zip` and the `all` tell whether two items are loosely equal; and
  they do nothing in the session, or the items of the source do not depend on that;
* of two arrays, each is equal to the other one or neither is. -/
theorem sequence_equality_goes_item_by_item {part : Part} {others : List Item} (hpart : part.operator = .sequenceEqual)
    (hothers : part.requireElements 0 "other sequence" = .ok others) (source : Sequence) (σ : Session) :
    (∀ τ, engine.ComesTo source [part] σ (.ok (.value (.bool true))) τ ↔
      ∃ xs, Drains σ source xs .finished τ ∧ Matches xs others) ∧
    (∀ e τ, engine.ComesTo source [part] σ (.error e) τ ↔
      ∃ xs, Drains σ source xs (.failed e) τ ∧ Begins xs others ∧ xs.length ≤ others.length) ∧
    (∀ xs τ, Drains σ source xs .finished τ → ¬ Matches xs others →
      ∃ ω, engine.ComesTo source [part] σ (.ok (.value (.bool false))) ω) ∧
    (∀ xs t τ, Hands σ source xs t τ → ¬ Begins xs others →
      ∃ ω, engine.ComesTo source [part] σ (.ok (.value (.bool false))) ω) ∧
    (∀ zip all : Part, zip.operator = .zip → zip.requireElements 0 "other sequence" = .ok others → all.operator = .all →
      ∀ p, all.function? 0 = some p → p.TellsEqual (zip.function? 1) → ∀ xs,
        ((∃ τ, Drains σ source xs .finished τ) ∧ (∃ f, zip.function? 1 = some f) ∧ zip.Quiet ∧ all.Quiet ∨
          source.Delivers fun ys ending => ys = xs ∧ ending = .finished) →
        ∃ equal pairs ω₁ ω₂ ω₃, engine.ComesTo source [part] σ (.ok (.value (.bool equal))) ω₁ ∧
          engine.ComesTo source [⟨.count, []⟩] σ (.ok (.value (.number (.ofNat xs.length)))) ω₂ ∧
          engine.ComesTo source [zip, all] σ (.ok (.value (.bool pairs))) ω₃ ∧
          equal = (xs.length == others.length && pairs)) ∧
    ∀ (flipped : Part) (xs : List Item) ref ref', flipped.operator = .sequenceEqual →
      flipped.requireElements 0 "other sequence" = .ok xs → ∃ equal ω₁ ω₂,
        part.ComesTo (.value (.array ref xs)) σ (.ok (.value (.bool equal))) ω₁ ∧
        flipped.ComesTo (.value (.array ref' others)) σ (.ok (.value (.bool equal))) ω₂ := by
  have hcomes {τ : Session} (answer : Except QueryError Bool) :
      engine.ComesTo source [part] σ (answer.map fun b => .value (.bool b)) τ ↔
        (equalScan others).Gives [] σ source answer τ :=
    (comesTo_single engine (congrArg Operator.isOrdering hpart)).trans (comesTo_sequenceEqual hpart hothers rfl answer)
  refine ⟨fun τ => (hcomes (.ok true)).trans gives_equal_true_iff, fun e τ => ?_, fun xs τ hdrains hmatches => ?_,
    fun xs t τ hhands hbegins => ?_, ?_, ?_⟩
  · refine (hcomes (.error e)).trans (gives_equal_error_iff.trans ?_)
    exact exists_congr fun xs => and_congr_right fun _ => ⟨fun h => ⟨h, h.length_le⟩, And.left⟩
  · obtain ⟨ω, hgives⟩ := exists_gives_equal_of_not_matches hdrains hmatches
    exact ⟨ω, (hcomes (.ok false)).mpr hgives⟩
  · obtain ⟨ω, hgives⟩ : ∃ ω, (equalScan others).Gives [] σ source (.ok false) ω := exists_gives_equal_false hhands hbegins
    exact ⟨ω, (hcomes (.ok false)).mpr hgives⟩
  · intro zip all hzip hzipOthers hall p hp htells xs hsource
    obtain ⟨τ, hdrains⟩ : ∃ τ, Drains σ source xs .finished τ := by
      obtain ⟨hdrains, -⟩ | hdelivers := hsource
      · exact hdrains
      · obtain ⟨_, _, τ, hdrains, rfl, rfl⟩ := hdelivers.drains σ
        exact ⟨τ, hdrains⟩
    obtain ⟨fed, κ, hfeeds, hzips⟩ : ∃ fed κ, FeedsAll p.test σ (.through (.zip (pairOf (zip.function? 1)) others) source) fed
        .finished κ ∧ Zips (pairOf (zip.function? 1)) xs others (fed.map Prod.fst) := by
      obtain ⟨-, ⟨f, hf⟩, hzipQuiet, hallQuiet⟩ | hdelivers := hsource
      · rw [hf]
        exact hdrains.feedsAll_zip (hzipQuiet.function? hf).2 (hallQuiet.function? hp).1 others
      · exact hdelivers.feedsAll_zip _ others p.test σ
    obtain ⟨equal, ω₁, hgives, hequal⟩ := exists_gives_equal hdrains others
    obtain ⟨ω₃, hpairs⟩ := exists_comesTo_pairs engine hzip hzipOthers hall hp htells hfeeds hzips
    refine ⟨equal, _, ω₁, τ, ω₃, (hcomes (.ok equal)).mpr hgives, engine.comesTo_counted hdrains, hpairs, ?_⟩
    rw [Bool.eq_iff_iff, hequal, matches_iff_zip, Bool.and_eq_true, beq_iff_eq]
  · intro flipped xs ref ref' hflipped hxs
    obtain ⟨equal, ω₁, hgives, hequal⟩ := exists_gives_equal (drains_queue xs σ) others
    obtain ⟨equal', ω₂, hgives', hequal'⟩ := exists_gives_equal (drains_queue others σ) xs
    obtain rfl : equal = equal' := by rw [Bool.eq_iff_iff, hequal, hequal', matches_comm]
    exact ⟨equal, ω₁, ω₂, (comesTo_sequenceEqual hpart hothers rfl (.ok equal)).mpr hgives,
      (comesTo_sequenceEqual hflipped hxs rfl (.ok equal)).mpr hgives'⟩

lemma delivers_ofItems (xs : List Item) : (Sequence.ofItems xs).Delivers fun ys ending => ys = xs ∧ ending = .finished :=
  (Delivers.queue _).mono fun _ _ h => ⟨Stage.answers_map_pure h.1, h.2⟩

/-- The predicate that an item is a pair of items that are loosely equal. -/
def areAlike : Callable :=
  .unary fun pair => return .bool (match pair.elements? with
    | some [left, right] => left.looselyEqual right
    | _ => false)

lemma tellsEqual_areAlike : areAlike.TellsEqual none := by
  rintro left right pair verdict ⟨σ, τ, hpair⟩ ⟨υ, ω, hverdict⟩
  cases hpair
  cases hverdict
  rfl

/-- Null and a Boolean match an array of the same, also by their pairs; and a source that fails behind null fails the query. -/
theorem sequence_equality_goes_item_by_item_null :
    ComesTo ⟨{}, "q", 0⟩ (.ofItems [.null, .bool true])
      [⟨.sequenceEqual, [.literal (.array 0 [.null, .bool true])]⟩] {} (.ok (.value (.bool true))) {} ∧
    (∃ ω, ComesTo ⟨{}, "q", 0⟩ (.ofItems [.null, .bool true])
      [⟨.zip, [.literal (.array 0 [.null, .bool true])]⟩, ⟨.all, [.function areAlike]⟩] {} (.ok (.value (.bool true))) ω) ∧
    ComesTo ⟨{}, "q", 0⟩ (failing [.null] (.negativeCount (-1)) 0)
      [⟨.sequenceEqual, [.literal (.array 0 [.null, .bool true])]⟩] {} (.error (.negativeCount (-1))) {} := by
  have hequality := @sequence_equality_goes_item_by_item ⟨{}, "q", 0⟩
    ⟨.sequenceEqual, [.literal (.array 0 [.null, .bool true])]⟩ [.null, .bool true] rfl rfl
  have hmatches : Matches [.null, .bool true] [.null, .bool true] := .cons rfl (.cons rfl .nil)
  have hitems : (Sequence.ofItems [.null, .bool true]).Delivers fun ys ending => ys = [.null, .bool true] ∧ ending = .finished :=
    delivers_ofItems _
  have hfails : Drains {} (failing [.null] (.negativeCount (-1)) 0) [.null] (.failed (.negativeCount (-1))) {} :=
    .pull (failing_pulls_item rfl) (.last (failing_pulls_failure rfl) rfl)
  obtain ⟨htrue, -, -, -, hpairs, -⟩ := hequality (.ofItems [.null, .bool true]) {}
  obtain ⟨-, herror, -⟩ := hequality (failing [.null] (.negativeCount (-1)) 0) {}
  have hequal := (htrue {}).mpr ⟨_, drains_queue [.null, .bool true] {}, hmatches⟩
  obtain ⟨equal, pairs, _, _, ω, hfirst, -, hlast, hboth⟩ := hpairs ⟨.zip, [.literal (.array 0 [.null, .bool true])]⟩
    ⟨.all, [.function areAlike]⟩ rfl rfl rfl areAlike rfl tellsEqual_areAlike _ (.inr hitems)
  obtain ⟨hanswer, -⟩ := hfirst.unique hequal
  cases hanswer
  obtain rfl : pairs = true := by simpa using hboth.symm
  exact ⟨hequal, ⟨ω, hlast⟩, (herror _ {}).mpr ⟨[.null], hfails, .cons rfl .nil, by decide⟩⟩

end Engine

end LazyQuery
