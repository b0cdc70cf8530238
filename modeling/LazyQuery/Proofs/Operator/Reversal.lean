import LazyQuery.Proofs.Sequence.Feeding
import LazyQuery.Proofs.Sequence.Sifting
import LazyQuery.Proofs.Sorting.Duality
import LazyQuery.Proofs.Sorting.Extremes

/-!
# Reversing

`reverse` takes all items of its source before it hands out the last of them; if the source fails, it hands out none.  So
what it hands out is known from how its source is gone through.

`last` goes on to the end of its source as well, but calls its predicate on the way, and on all items; `first` on the reversed
source calls it only then, and stops at the first item that is accepted.  Both find the same (`lastAccepted`) as long as the
predicate always says the same of an item.

The main statement is `Engine.reverse_turns_sequences_around`.
-/

namespace LazyQuery

open Sequence

/-! ### What is found from behind -/

/-- The last of the items that is accepted. -/
def lastAccepted (accepts : Item → Bool) (xs : List Item) : Found :=
  match xs.reverse.find? accepts with
  | some x => .item x
  | none => if xs.isEmpty then .empty else .unmatched

namespace Found

variable {name name' : String} {whenAbsent : WhenAbsent}

/-- What is found comes to the same result, up to the name of the operator in an error. -/
lemma alike_result (found : Found) : Alike (found.result name whenAbsent) (found.result name' whenAbsent) := by
  cases found with
  | item x => exact rfl
  | several | noSource | refused => exact fun _ => rfl
  | empty | unmatched | beyond => cases whenAbsent <;> first | exact rfl | exact fun _ => rfl

lemma alike_results (outcome : Except QueryError Found) :
    Alike (outcome >>= Found.result name whenAbsent) (outcome >>= Found.result name' whenAbsent) := by
  cases outcome with
  | error e => exact Alike.refl (.error e)
  | ok found => exact found.alike_result

end Found

namespace Element

section Searches

variable {predicate : Option Callable} {accepts : Item → Bool} {position : Nat} {s : Sequence} {xs ys : List Item}
  {ending : Ending} {σ τ : Session} {visits : List (Item × Bool)} {outcome : Except QueryError Found}

lemma otherwise_last (xs : List Item) :
    (Element.last.scan predicate position).otherwise (xs.map fun x => (x, accepts x)) = lastAccepted accepts xs := by
  have hfind : (xs.map fun x => (x, accepts x)).reverse.find? (·.2) =
      (xs.reverse.find? accepts).map fun x => (x, accepts x) := by
    rw [← List.map_reverse, List.find?_map]
    rfl
  simp only [scan, hfind, lastAccepted, Found.missing, List.isEmpty_map]
  cases xs.reverse.find? accepts <;> rfl

/-- **`last` finds the last accepted item of a run to the ending.** -/
theorem gives_last_of_feedsAll (h : FeedsAll (Callable.accepts predicate) σ s (xs.map fun x => (x, accepts x)) ending τ) :
    (Element.last.scan predicate position).Gives [] σ s ((ending.outcome xs).map (lastAccepted accepts)) τ := by
  have hgives : (Element.last.scan predicate position).Gives [] σ s
      (ending.result ((Element.last.scan predicate position).otherwise ([] ++ xs.map fun x => (x, accepts x)))) τ :=
    (Scan.gives_iff_of_never fun _ _ _ => rfl).mpr ⟨_, ending, h, rfl⟩
  rw [List.nil_append, otherwise_last] at hgives
  cases ending <;> exact hgives

lemma answer_of_items (xs : List Item) : (match xs.reverse.find? accepts with
    | some y => Found.item y
    | none => .missing ([] ++ xs.reverse.map fun y => (y, accepts y))) = lastAccepted accepts xs := by
  have hempty : ([] ++ xs.reverse.map fun y => (y, accepts y)).isEmpty = xs.isEmpty := by
    cases xs <;> simp
  rw [lastAccepted, Found.missing, hempty]

/-- `first` on items that are there: it calls the predicate on each up to the first that is accepted. -/
lemma gives_first_of_items (haccepts : ∀ x σ, (Callable.accepts predicate x σ).1 = accepts x) (ys : List Item)
    (visits : List (Item × Bool)) (σ : Session) : ∃ τ, (Element.first.scan predicate position).Gives visits σ (.ofItems ys)
      (.ok (match ys.find? accepts with
        | some y => .item y
        | none => .missing (visits ++ ys.map fun y => (y, accepts y)))) τ ∧
      ((∀ x σ, (Callable.accepts predicate x σ).2 = σ) → τ = σ) := by
  induction ys generalizing visits σ with
  | nil =>
    rw [List.map_nil, List.append_nil]
    exact ⟨σ, .finished (.reply rfl), fun _ => rfl⟩
  | cons y ys ih =>
    rcases hrun : Callable.accepts predicate y σ with ⟨verdict, υ⟩
    have hverdict : verdict = accepts y := by rw [← haccepts y σ, hrun]
    subst hverdict
    cases hy : accepts y with
    | true =>
      rw [hy] at hrun
      rw [List.find?_cons_of_pos hy]
      exact ⟨υ, .settled (.reply rfl) hrun rfl, fun hquiet => by rw [← hquiet y σ, hrun]⟩
    | false =>
      obtain ⟨τ, hgives, hsession⟩ := ih (visits ++ [(y, false)]) υ
      rw [hy] at hrun
      rw [List.find?_cons_of_neg (by simp [hy]), List.map_cons, hy, List.append_cons]
      refine ⟨τ, .goesOn (.reply rfl) hrun rfl hgives, fun hquiet => ?_⟩
      rw [hsession hquiet, ← hquiet y σ, hrun]

/-- **`first` finds the last accepted item of a reversed source.** -/
theorem gives_first_of_drains_reversed (haccepts : ∀ x σ, (Callable.accepts predicate x σ).1 = accepts x)
    (h : Drains σ s xs ending τ) : ∃ υ, (Element.first.scan predicate position).Gives [] σ s.reversed
      ((ending.outcome xs).map (lastAccepted accepts)) υ ∧ ((∀ x σ, (Callable.accepts predicate x σ).2 = σ) → υ = τ) := by
  cases ending with
  | failed e => exact ⟨τ, .failed (pulls_gather_of_failed h), fun _ => rfl⟩
  | finished =>
    obtain ⟨υ, hgives, hsession⟩ := @gives_first_of_items predicate accepts position haccepts xs.reverse [] τ
    rw [answer_of_items] at hgives
    exact ⟨υ, .of_works (works_gather_of_finished h rfl) hgives, hsession⟩

section Quiet

variable (hquiet : ∀ x σ, Callable.accepts predicate x σ = (accepts x, σ))

include hquiet

/-- With a predicate that leaves the session as it is, `last` goes through its source as it is gone through without one. -/
theorem gives_last_iff : (Element.last.scan predicate position).Gives [] σ s outcome τ ↔
    ∃ xs ending, Drains σ s xs ending τ ∧ outcome = (ending.outcome xs).map (lastAccepted accepts) := by
  constructor
  · intro h
    obtain ⟨fed, ending, hfeeds, -⟩ := (Scan.gives_iff_of_never fun _ _ _ => rfl).mp h
    obtain ⟨xs, hdrains, rfl⟩ := (feedsAll_iff_drains hquiet).mp hfeeds
    obtain ⟨rfl, -⟩ := h.unique (gives_last_of_feedsAll hfeeds)
    exact ⟨xs, ending, hdrains, rfl⟩
  · rintro ⟨xs, ending, hdrains, rfl⟩
    exact gives_last_of_feedsAll ((feedsAll_iff_drains hquiet).mpr ⟨xs, hdrains, rfl⟩)

/-- And so does `first` on the reversed source. -/
theorem gives_first_reversed_iff : (Element.first.scan predicate position).Gives [] σ s.reversed outcome τ ↔
    ∃ xs ending, Drains σ s xs ending τ ∧ outcome = (ending.outcome xs).map (lastAccepted accepts) := by
  have haccepts (x : Item) (σ : Session) : (Callable.accepts predicate x σ).1 = accepts x := by rw [hquiet]
  have hsession (x : Item) (σ : Session) : (Callable.accepts predicate x σ).2 = σ := by rw [hquiet]
  constructor
  · intro h
    obtain ⟨r, t, υ, hpull⟩ := h.exists_pulls
    obtain ⟨xs, ending, ω, hdrains⟩ := exists_drains_of_pulls_gather hpull
    obtain ⟨κ, hgives, hκ⟩ := gives_first_of_drains_reversed haccepts hdrains
    cases hκ hsession
    obtain ⟨rfl, rfl⟩ := h.unique hgives
    exact ⟨xs, ending, hdrains, rfl⟩
  · rintro ⟨xs, ending, hdrains, rfl⟩
    obtain ⟨κ, hgives, hκ⟩ := gives_first_of_drains_reversed haccepts hdrains
    cases hκ hsession
    exact hgives

/-- **Both find the same.** -/
theorem gives_last_iff_first_reversed : (Element.last.scan predicate position).Gives [] σ s outcome τ ↔
    (Element.first.scan predicate position).Gives [] σ s.reversed outcome τ :=
  (gives_last_iff hquiet).trans (gives_first_reversed_iff hquiet).symm

end Quiet

end Searches

end Element

/-! ### Reversed sequences -/

lemma plan_of_reverse {part : Part} (hoperator : part.operator = .reverse) : part.plan = .ok (.lazily [.reverse]) := by
  obtain ⟨operator, arguments⟩ := part
  cases hoperator
  rfl

namespace Sequence

lemma drains_reversed {σ τ : Session} {s : Sequence} {xs : List Item} (h : Drains σ s xs .finished τ) :
    Drains σ s.reversed xs.reverse .finished τ :=
  drains_gather_of_finished h rfl

/-- What is fed is known from the items, where the work always comes to the same for them. -/
lemma FeedsAll.eq_map {β : Type} {work : Item → Eff β} {answer : Item → β} {σ τ : Session} {s : Sequence}
    {fed : List (Item × β)} {ending : Ending} (hanswer : ∀ x σ, (work x σ).1 = answer x)
    (h : FeedsAll work σ s fed ending τ) : fed = (fed.map Prod.fst).map fun x => (x, answer x) := by
  have hpairs : ∀ pair ∈ fed, (pair.1, answer pair.1) = pair := by
    intro pair hpair
    obtain ⟨ω, υ, hrun⟩ := h.answers pair hpair
    rw [← hanswer pair.1 ω, hrun]
  rw [List.map_map]
  exact ((List.map_congr_left hpairs).trans (List.map_id fed)).symm

end Sequence

namespace Engine

variable (engine : Engine)

/-- **Reversing turns a sequence around.**  For every source, also one that fails or does not end, and in every session:

* a `reverse` part makes of it the reversed sequence;
* if the source ends without an error, the reversed one hands out its items from the last to the first, and reversed again
  it hands out the items as they were; with the elements of an array behind the source, the reversed sequence hands out those
  of the reversed array, and then those of the reversed source;
* if the source fails, the reversed sequence hands out nothing but that error;
* with any predicate that says of each item the same in all sessions and does nothing there, or with none, `last` comes to a
  result exactly if `first` on the reversed source comes to the same, up to the name of the operator in an error; and so do
  the forms that come to no value;
* a predicate that always says the same but does something in the session finds the same with both, where the source hands
  out the same items and ends alike whatever else is done in the session. -/
theorem reverse_turns_sequences_around (source : Sequence) :
    (∀ budget input part, input.toSequence = .ok source → part.operator = .reverse →
      apply budget input part = pure (.sequence source.reversed)) ∧
    (∀ σ xs τ, Drains σ source xs .finished τ →
      Drains σ source.reversed xs.reverse .finished τ ∧ Drains σ source.reversed.reversed xs .finished τ ∧
      ∀ concat others, concat.operator = .concatWith → concat.requireElements 0 "other sequence" = .ok others →
        ∃ joined, (∀ budget, apply budget (.sequence source) concat = pure (.sequence joined)) ∧
          ∃ ys, (∀ ω, Drains ω (Sequence.ofItems others).reversed ys .finished ω) ∧
            Drains σ joined.reversed (ys ++ xs.reverse) .finished τ) ∧
    (∀ σ xs e τ, Drains σ source xs (.failed e) τ → Drains σ source.reversed [] (.failed e) τ) ∧
    (∀ arguments (accepts : Item → Bool), (∀ x σ, Callable.accepts (Element.predicate? arguments) x σ = (accepts x, σ)) →
      ∀ whenAbsent σ τ,
        (∀ result, engine.ComesTo source [Element.last.part arguments whenAbsent] σ result τ → ∃ result',
          engine.ComesTo source [.reverse, Element.first.part arguments whenAbsent] σ result' τ ∧ Alike result result') ∧
        ∀ result', engine.ComesTo source [.reverse, Element.first.part arguments whenAbsent] σ result' τ → ∃ result,
          engine.ComesTo source [Element.last.part arguments whenAbsent] σ result τ ∧ Alike result result') ∧
    ∀ arguments (accepts : Item → Bool), (∀ x σ, (Callable.accepts (Element.predicate? arguments) x σ).1 = accepts x) →
      ∀ xs ending, (source.Delivers fun ys ending' => ys = xs ∧ ending' = ending) → ∀ whenAbsent σ,
        ∃ result result' τ τ', engine.ComesTo source [Element.last.part arguments whenAbsent] σ result τ ∧
          engine.ComesTo source [.reverse, Element.first.part arguments whenAbsent] σ result' τ' ∧ Alike result result' := by
  have hlast {arguments : List Argument} {whenAbsent : WhenAbsent} {σ τ : Session} {result : Except QueryError Output} :
      engine.ComesTo source [Element.last.part arguments whenAbsent] σ result τ ↔
        ∃ outcome, (Element.last.scan (Element.predicate? arguments) 0).Gives [] σ source outcome τ ∧
          result = outcome >>= Found.result (Element.last.operator whenAbsent).name whenAbsent :=
    (engine.comesTo_single rfl).trans (Element.comesTo_of_scan rfl (by rintro ⟨⟩))
  have hfirst {arguments : List Argument} {whenAbsent : WhenAbsent} {σ τ : Session} {result : Except QueryError Output} :
      engine.ComesTo source [.reverse, Element.first.part arguments whenAbsent] σ result τ ↔
        ∃ outcome, (Element.first.scan (Element.predicate? arguments) 0).Gives [] σ source.reversed outcome τ ∧
          result = outcome >>= Found.result (Element.first.operator whenAbsent).name whenAbsent :=
    (engine.comesTo_cons rfl rfl).trans ((engine.comesTo_single rfl).trans (Element.comesTo_of_scan rfl (by rintro ⟨⟩)))
  refine ⟨?_, ?_, fun σ xs e τ h => drains_gather_of_failed h, ?_, ?_⟩
  · intro budget input part hsource hoperator
    rw [apply, source_of_ne_defaultIfEmpty (by rw [hoperator]; simp), hsource, plan_of_reverse hoperator]
    rfl
  · intro σ xs τ h
    refine ⟨drains_reversed h, ?_, fun concat others hconcat hothers => ?_⟩
    · have htwice := drains_reversed (drains_reversed h)
      rwa [List.reverse_reverse] at htwice
    · refine ⟨source.withStages [.append others], fun budget => apply_of_stages budget (plan_of_concatWith hconcat hothers),
        others.reverse, fun ω => drains_reversed (drains_queue others ω), ?_⟩
      have hjoined : Drains σ (source.withStages [.append others]) (xs ++ others) .finished τ :=
        h.sift (Stage.sifts_append others xs) rfl
      have hreversed := drains_reversed hjoined
      rwa [List.reverse_append] at hreversed
  · intro arguments accepts hquiet whenAbsent σ τ
    refine ⟨fun result h => ?_, fun result' h => ?_⟩
    · obtain ⟨outcome, hgives, rfl⟩ := hlast.mp h
      exact ⟨_, hfirst.mpr ⟨outcome, (Element.gives_last_iff_first_reversed hquiet).mp hgives, rfl⟩,
        Found.alike_results outcome⟩
    · obtain ⟨outcome, hgives, rfl⟩ := hfirst.mp h
      exact ⟨_, hlast.mpr ⟨outcome, (Element.gives_last_iff_first_reversed hquiet).mpr hgives, rfl⟩,
        Found.alike_results outcome⟩
  · rintro arguments accepts haccepts xs ending hdelivers whenAbsent σ
    obtain ⟨fed, ending', τ, hfeeds, rfl, rfl⟩ := hdelivers.feedsAll (Callable.accepts (Element.predicate? arguments)) σ
    obtain ⟨xs, ending, ω, hdrains, rfl, rfl⟩ := hdelivers.drains σ
    rw [hfeeds.eq_map haccepts] at hfeeds
    obtain ⟨τ', hgives, -⟩ := Element.gives_first_of_drains_reversed haccepts hdrains
    exact ⟨_, _, τ, τ', hlast.mpr ⟨_, Element.gives_last_of_feedsAll hfeeds, rfl⟩, hfirst.mpr ⟨_, hgives, rfl⟩,
      Found.alike_results _⟩

/-- A predicate that accepts the Booleans. -/
def isBoolean : Callable :=
  .unary fun item => return .bool (item.typeTag == .boolean)

/-- The last of two Booleans comes first, behind null; and a source that fails after both hands on its error alone. -/
theorem reverse_turns_sequences_around_booleans :
    Drains {} (Sequence.ofItems [.bool true, .bool false, .null]).reversed [.null, .bool false, .bool true] .finished {} ∧
    ComesTo ⟨{}, "q", 0⟩ (.ofItems [.bool true, .bool false, .null]) [Element.last.part [.function isBoolean] .fails] {}
      (.ok (.value (.bool false))) {} ∧
    ComesTo ⟨{}, "q", 0⟩ (.ofItems [.bool true, .bool false, .null])
      [.reverse, Element.first.part [.function isBoolean] .fails] {} (.ok (.value (.bool false))) {} ∧
    Drains {} (failing [.bool true, .bool false] (.negativeCount 0) 0).reversed [] (.failed (.negativeCount 0)) {} := by
  obtain ⟨-, hfinished, -, hsearch, -⟩ := reverse_turns_sequences_around ⟨{}, "q", 0⟩ (.ofItems [.bool true, .bool false, .null])
  obtain ⟨-, -, hfailed, -⟩ := reverse_turns_sequences_around ⟨{}, "q", 0⟩ (failing [.bool true, .bool false] (.negativeCount 0) 0)
  have hlast : ComesTo ⟨{}, "q", 0⟩ (.ofItems [.bool true, .bool false, .null])
      [Element.last.part [.function isBoolean] .fails] {} (.ok (.value (.bool false))) {} := by
    refine (comesTo_single _ rfl).mpr ⟨4, fun budget hbudget => ?_⟩
    obtain ⟨rest, rfl⟩ := Nat.exists_eq_add_of_le' hbudget
    rfl
  have hfails : Drains {} (failing [.bool true, .bool false] (.negativeCount 0) 0) [.bool true, .bool false]
      (.failed (.negativeCount 0)) {} :=
    .pull (failing_pulls_item rfl) (.pull (failing_pulls_item rfl) (.last (failing_pulls_failure rfl) rfl))
  obtain ⟨hsame, -⟩ := hsearch [.function isBoolean] (fun x => x.typeTag == .boolean) (fun _ _ => rfl) .fails {} {}
  obtain ⟨_ | output, hfirst, halike⟩ := hsame _ hlast
  · cases halike
  · cases halike
    exact ⟨(hfinished {} _ {} (drains_queue _ {})).1, hlast, hfirst, hfailed {} _ _ {} hfails⟩

end Engine

end LazyQuery
