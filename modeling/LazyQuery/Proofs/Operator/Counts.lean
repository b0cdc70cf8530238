import LazyQuery.Proofs.Number.Carried
import LazyQuery.Proofs.Operator.Positions
import LazyQuery.Proofs.Sequence.Histories
import LazyQuery.Query

/-!
# Counts and indices in a query

A query that is built with a count or an index holds it as a number (`Part.numbered`), and its operator reads an integer from
that, `Number.carried`.  For arrays of fewer than `2 ^ 53` items this one is as good as the integer itself
(`counts_arrive_as_numbers`): either it is the same, or both are negative, or both are behind all the items
(`Sequence.SameFor`).

A count that the items do not use up can be exchanged for another (`Stage.CountsDown.sameHistories`), and on an array it is
plain what `elementAt` comes to (`Sequence.itemAt`).
-/

namespace LazyQuery

open Sequence

/-! ### Counting down -/

/-- A stage that counts the items of its source down, and until it has come to zero hands them all on or drops them all. -/
structure Stage.CountsDown (stage : Nat → Stage) (keeps : Bool) : Prop where
  demand (k : Nat) : (stage (k + 1)).demand = .ask
  receive (k : Nat) (x : Item) :
    (stage (k + 1)).receive x = pure (if keeps then .yield x (stage k) else .drop (stage k))
  close (k : Nat) : (stage (k + 1)).close = pure []

lemma Stage.countsDown_take : CountsDown .take true :=
  ⟨fun _ => rfl, fun _ _ => rfl, fun _ => rfl⟩

lemma Stage.countsDown_skip : CountsDown .skip false :=
  ⟨fun _ => rfl, fun _ _ => rfl, fun _ => rfl⟩

section CountsDown

variable {stage : Nat → Stage} {keeps : Bool} {a b : Nat} {cells : List (Eff Item)} {σ τ : Session} {x : Item}
  {cell : Eff Item}

namespace Stage.CountsDown

variable (h : CountsDown stage keeps)

include h

lemma advance_nil (a : Nat) (σ : Session) :
    (Sequence.through (stage (a + 1)) (.queue [])).advance σ = ((none, .queue []), σ) :=
  ThroughStep.advance (.finished (h.demand a) rfl (congrFun (h.close a) σ))

lemma advance_cons (a : Nat) (hcell : cell σ = (x, τ)) :
    (Sequence.through (stage (a + 1)) (.queue (cell :: cells))).advance σ =
      ((if keeps then some (.item x) else none, .through (stage a) (.queue cells)), τ) := by
  have hstep : (Sequence.queue (cell :: cells)).advance σ = ((some (.item x), .queue cells), τ) := Eff.bind_run hcell
  have hreceive := congrFun (h.receive a x) τ
  rw [ThroughStep.advance (.item (h.demand a) hstep hreceive)]
  cases keeps <;> rfl

/-- Counts that the items do not use up make no difference. -/
lemma simulates : Simulates fun s t => ∃ a b cells, cells.length < a ∧ cells.length < b ∧
    s = .through (stage a) (.queue cells) ∧ t = .through (stage b) (.queue cells) := by
  refine simulates_of_lockstep ?_
  rintro _ _ ⟨a, b, cells, ha, hb, rfl, rfl⟩ σ
  obtain ⟨a, rfl⟩ := Nat.exists_eq_add_one_of_ne_zero (Nat.ne_zero_of_lt ha)
  obtain ⟨b, rfl⟩ := Nat.exists_eq_add_one_of_ne_zero (Nat.ne_zero_of_lt hb)
  cases cells with
  | nil => exact ⟨none, _, _, σ, h.advance_nil a σ, h.advance_nil b σ, .inr rfl⟩
  | cons cell cells =>
    rcases hcell : cell σ with ⟨x, τ⟩
    have hnext : cells.length < a ∧ cells.length < b := ⟨Nat.lt_of_succ_lt_succ ha, Nat.lt_of_succ_lt_succ hb⟩
    exact ⟨_, _, _, τ, h.advance_cons a hcell, h.advance_cons b hcell, .inl ⟨a, b, cells, hnext.1, hnext.2, rfl, rfl⟩⟩

end Stage.CountsDown

/-- **A count that the items do not use up can be exchanged for another.** -/
theorem Stage.CountsDown.sameHistories (h : Stage.CountsDown stage keeps) (ha : cells.length < a) (hb : cells.length < b) :
    (Sequence.through (stage a) (.queue cells)).SameHistories (.through (stage b) (.queue cells)) :=
  h.simulates.sameHistories ⟨a, b, cells, ha, hb, rfl, rfl⟩

end CountsDown

/-! ### Arrays -/

namespace Sequence

section Arrays

variable {xs : List Item} {n n' i : Int} {position : Nat} {whenAbsent : WhenAbsent} {σ τ : Session}
  {r : Except QueryError (Option Item)}

/-- Counts that are the same, or negative, or not used up. -/
def SameFor (length : Nat) (n n' : Int) : Prop :=
  n' = n ∨ n < 0 ∧ n' < 0 ∨ (length : Int) < n ∧ (length : Int) < n'

/-- Such counts make the same of an array of this length. -/
lemma countsDown_sameHistories {stage : Nat → Stage} {keeps : Bool} (h : Stage.CountsDown stage keeps)
    (hsame : SameFor xs.length n n') :
    ((ofItems xs).withStages [stage n'.toNat]).SameHistories ((ofItems xs).withStages [stage n.toNat]) := by
  rcases hsame with rfl | ⟨hneg, hneg'⟩ | ⟨hlarge, hlarge'⟩
  · rfl
  · rw [Int.toNat_of_nonpos hneg.le, Int.toNat_of_nonpos hneg'.le]
  · refine h.sameHistories ?_ ?_ <;> rw [List.length_map] <;> omega

/-- What `elementAt` comes to on an array. -/
def itemAt (whenAbsent : WhenAbsent) (i : Int) (xs : List Item) : Except QueryError (Option Item) :=
  if i < 0 then outOfRange whenAbsent i 0
  else
    match xs[i.toNat]? with
    | some x => .ok (some x)
    | none => outOfRange whenAbsent i xs.length

/-- What is found in the items that are left, after the visits so far. -/
lemma gives_elementAt_ofItems (xs : List Item) (visits : List (Item × Bool)) (hvisits : visits.length ≤ position)
    (σ : Session) : (Element.elementAt.scan none position).Gives visits σ (ofItems xs)
      (.ok (match xs[position - visits.length]? with
        | some x => .item x
        | none => .beyond position (visits.length + xs.length))) σ := by
  induction xs generalizing visits with
  | nil => exact .finished (.reply rfl)
  | cons x xs ih =>
    have hpull : Pulls σ (ofItems (x :: xs)) (.item x) (ofItems xs) σ := .reply rfl
    by_cases hreached : visits.length = position
    · have hsettles : (Element.elementAt.scan none position).settles visits x true = some (.item x) := if_pos hreached
      rw [hreached, Nat.sub_self]
      exact .settled hpull rfl hsettles
    · have hsettles : (Element.elementAt.scan none position).settles visits x true = none := if_neg hreached
      have hnext : position - visits.length = position - (visits ++ [(x, true)]).length + 1 := by
        rw [List.length_append, List.length_singleton]
        omega
      have hlength : visits.length + (x :: xs).length = (visits ++ [(x, true)]).length + xs.length := by
        simp only [List.length_append, List.length_cons, List.length_nil]
        omega
      rw [hnext, List.getElem?_cons_succ, hlength]
      exact .goesOn hpull rfl hsettles (ih _ (by rw [List.length_append, List.length_singleton]; omega))

lemma comesTo_elementAt_ofItems :
    Eval.ComesTo (fun budget => (ofItems xs).elementAt whenAbsent i budget) σ r τ ↔
      r = itemAt whenAbsent i xs ∧ τ = σ := by
  rcases lt_or_ge i 0 with hi | hi
  · simp only [Sequence.elementAt, itemAt, if_pos hi]
    exact Eval.comesTo_ofExcept
  · obtain ⟨position, rfl⟩ := Int.eq_ofNat_of_zero_le hi
    have hgives := gives_elementAt_ofItems xs [] (Nat.zero_le position) σ
    have hcomes : Eval.ComesTo (fun budget => (ofItems xs).elementAt whenAbsent position budget) σ
        (itemAt whenAbsent position xs) σ := by
      refine (Element.elementAt_comesTo "elementAt" _ _ _).mpr ⟨_, hgives, ?_⟩
      rw [itemAt, if_neg (Int.not_lt.mpr hi), Int.toNat_natCast, List.length_nil, Nat.sub_zero, Nat.zero_add]
      cases xs[position]? <;> rfl
    constructor
    · exact fun h => h.unique hcomes
    · rintro ⟨rfl, rfl⟩
      exact hcomes

end Arrays

end Sequence

/-- The error with another index in it, if it has one. -/
def QueryError.atIndex (index : Int) : QueryError → QueryError
  | .indexOutOfRange _ length => .indexOutOfRange index length
  | e => e

section Arrays

variable {xs : List Item} {n n' : Int} {part : Part} {input : Output} {σ τ : Session} {result : Except QueryError Output}

lemma mapError_outOfRange (whenAbsent : WhenAbsent) (length : Nat) :
    (outOfRange whenAbsent n length).mapError (.atIndex n') = outOfRange whenAbsent n' length := by
  cases whenAbsent <;> rfl

/-- But for the index in the error, indices that are the same, or negative, or behind the items come to the same. -/
lemma itemAt_sameFor (whenAbsent : WhenAbsent) (hsame : SameFor xs.length n n') :
    itemAt whenAbsent n' xs = (itemAt whenAbsent n xs).mapError (.atIndex n') := by
  unfold itemAt
  rcases hsame with rfl | ⟨hneg, hneg'⟩ | ⟨hlarge, hlarge'⟩
  · split_ifs
    · rw [mapError_outOfRange]
    · cases xs[n'.toNat]? with
      | some x => rfl
      | none => rw [mapError_outOfRange]
  · rw [if_pos hneg, if_pos hneg', mapError_outOfRange]
  · rw [if_neg (by omega), if_neg (by omega), List.getElem?_eq_none (by omega), List.getElem?_eq_none (by omega)]
    exact (mapError_outOfRange whenAbsent _).symm

/-- The input is the array of these items, or the sequence of them. -/
def Output.IsArray (input : Output) (xs : List Item) : Prop :=
  input = .sequence (.ofItems xs) ∨ ∃ ref, input = .value (.array ref xs)

lemma source_of_isArray (h : input.IsArray xs) (part : Part) : part.source input = .ok (.ofItems xs) := by
  obtain ⟨operator, arguments⟩ := part
  rcases h with rfl | ⟨ref, rfl⟩ <;> cases operator <;> rfl

lemma apply_of_isArray (h : input.IsArray xs) (budget : Nat) (part : Part) :
    apply budget input part = apply budget (.sequence (.ofItems xs)) part := by
  rw [apply, apply, source_of_isArray h, source_of_isArray (.inl rfl)]

lemma comesTo_of_isArray (h : input.IsArray xs) :
    part.ComesTo input σ result τ ↔ part.ComesTo (.sequence (.ofItems xs)) σ result τ := by
  unfold Part.ComesTo
  simp only [apply_of_isArray h]

end Arrays

/-- The part that is added to a query with an integer. -/
def Part.numbered (operator : Operator) (n : Int) : Part :=
  ⟨operator, [.literal (.number (.ofInt n))]⟩

section Numbered

variable {n : Int} {xs : List Item} {input : Output}

lemma requireInteger_numbered (hmin : Number.minInteger ≤ n) (hmax : n ≤ Number.maxInteger) (operator : Operator)
    (what : String) : (Part.numbered operator n).requireInteger 0 what = .ok (Number.carried n) := by
  have hinteger : (Item.number (.ofInt n)).integer? = some (Number.carried n) := Number.toInteger?_ofInt hmin hmax
  exact requireInteger_of_literal? rfl hinteger what

/-- For fewer than `2 ^ 53` items the integer that arrives is as good as the one that was given. -/
lemma sameFor_carried (hmin : Number.minInteger ≤ n) (hmax : n ≤ Number.maxInteger) (hlength : xs.length < 2 ^ 53) :
    SameFor xs.length n (Number.carried n) := by
  rcases Number.carried_cases hmin hmax with hequal | hneg | ⟨hlarge, hlarge'⟩
  · exact .inl hequal
  · exact .inr (.inl hneg)
  · exact .inr (.inr (by omega))

end Numbered

/-- **A count or an index arrives as a number, and still does its work.**  For every integer of 64 bits:

* `take`, `skip`, `elementAt` and `elementAtOrDefault` add a part to the query that has the integer as a number.  The operator
  reads an integer from that in any case.
* This one is the value of the nearest number, where a tie goes to the even significand, or the greatest integer of 64 bits
  if that is less.
* It is the integer itself up to `2 ^ 53`, and never more than 512 away.  It has the same sign.  A greater integer does not
  arrive as a lesser one, and what has arrived would arrive unchanged.
* So on arrays of fewer than `2 ^ 53` items `take` and `skip` make the same histories as with the integer itself, and
  `elementAt` and `elementAtOrDefault` come to the same value, absence or error, but for the index in the error. -/
theorem counts_arrive_as_numbers (n : Int) (hmin : Number.minInteger ≤ n) (hmax : n ≤ Number.maxInteger) :
    (∀ query : Query, (query.take n).parts = query.parts ++ [.numbered .take n] ∧
      (query.skip n).parts = query.parts ++ [.numbered .skip n] ∧
      (query.elementAt n).parts = query.parts ++ [.numbered (.elementAt .fails) n] ∧
      (query.elementAtOrDefault n).parts = query.parts ++ [.numbered (.elementAt .noValue) n]) ∧
    (∀ operator what, (Part.numbered operator n).requireInteger 0 what = .ok (Number.carried n)) ∧
    (∃ v : Int, (Number.ofInt n).IsNearest n v ∧ Number.carried n = min v Number.maxInteger) ∧
    (|n| ≤ 2 ^ 53 → Number.carried n = n) ∧ |Number.carried n - n| ≤ 512 ∧ (Number.carried n).sign = n.sign ∧
    (∀ n', n ≤ n' → n' ≤ Number.maxInteger → Number.carried n ≤ Number.carried n') ∧
    Number.carried (Number.carried n) = Number.carried n ∧
    ∀ (xs : List Item) (input : Output), xs.length < 2 ^ 53 → input.IsArray xs →
      (∀ budget, apply budget input (.numbered .take n) = pure (.sequence ((ofItems xs).taken (Number.carried n)))) ∧
      ((ofItems xs).taken (Number.carried n)).SameHistories ((ofItems xs).taken n) ∧
      (∀ budget, apply budget input (.numbered .skip n) = pure (.sequence ((ofItems xs).skipped (Number.carried n)))) ∧
      ((ofItems xs).skipped (Number.carried n)).SameHistories ((ofItems xs).skipped n) ∧
      ∀ whenAbsent σ, ∃ r, Eval.ComesTo (fun budget => (ofItems xs).elementAt whenAbsent n budget) σ r σ ∧
        ∀ result τ, (Part.numbered (.elementAt whenAbsent) n).ComesTo input σ result τ ↔
          result = (r.mapError (.atIndex (Number.carried n))).map .ofOption ∧ τ = σ := by
  have hrequired := requireInteger_numbered hmin hmax
  refine ⟨fun query => ⟨rfl, rfl, rfl, rfl⟩, hrequired, Number.exists_carried hmin hmax, Number.carried_of_small,
    Number.abs_carried_sub_le hmin hmax, Number.sign_carried hmin hmax, fun n' => Number.carried_mono hmin,
    Number.carried_carried hmin hmax, fun xs input hlength hinput => ?_⟩
  have hsame := sameFor_carried hmin hmax hlength
  refine ⟨fun budget => ?_, countsDown_sameHistories Stage.countsDown_take hsame, fun budget => ?_,
    countsDown_sameHistories Stage.countsDown_skip hsame, fun whenAbsent σ => ?_⟩
  · rw [apply_of_isArray hinput]
    exact Part.putsOn_take rfl (hrequired .take "count") budget
  · rw [apply_of_isArray hinput]
    exact Part.putsOn_skip rfl (hrequired .skip "count") budget
  · refine ⟨itemAt whenAbsent n xs, comesTo_elementAt_ofItems.mpr ⟨rfl, rfl⟩, fun result τ => ?_⟩
    have hlooks : (Part.numbered (.elementAt whenAbsent) n).LooksAt whenAbsent (Number.carried n) :=
      Part.looksAt_of_requireInteger rfl (hrequired _ "index")
    rw [comesTo_of_isArray hinput, hlooks, ← itemAt_sameFor whenAbsent hsame]
    simp only [comesTo_elementAt_ofItems]
    constructor
    · rintro ⟨r, ⟨rfl, rfl⟩, rfl⟩
      exact ⟨rfl, rfl⟩
    · rintro ⟨rfl, rfl⟩
      exact ⟨_, ⟨rfl, rfl⟩, rfl⟩

/-- The integer after `2 ^ 53` is halfway between two numbers, and arrives as `2 ^ 53`.  For an array of one item that makes
no difference but for the index in the error. -/
theorem counts_arrive_as_numbers_tie :
    (Part.numbered .take (2 ^ 53 + 1)).requireInteger 0 "count" = .ok (2 ^ 53) ∧
    ((ofItems [.null]).taken (2 ^ 53)).SameHistories ((ofItems [.null]).taken (2 ^ 53 + 1)) ∧
    (Part.numbered (.elementAt .fails) (2 ^ 53 + 1)).ComesTo (.value (.array 0 [.null])) {}
      (.error (.indexOutOfRange (2 ^ 53) 1)) {} := by
  obtain ⟨-, hrequired, -, -, -, -, -, -, harrays⟩ := counts_arrive_as_numbers (2 ^ 53 + 1) (by decide) (by decide)
  have hcarried : Number.carried (2 ^ 53 + 1) = 2 ^ 53 := by decide +kernel
  rw [hcarried] at hrequired harrays
  obtain ⟨-, htaken, -, -, helementAt⟩ := harrays [.null] (.value (.array 0 [.null])) (by decide) (.inr ⟨0, rfl⟩)
  obtain ⟨r, hr, hcomes⟩ := helementAt .fails {}
  obtain ⟨rfl, -⟩ := comesTo_elementAt_ofItems.mp hr
  exact ⟨hrequired .take "count", htaken, (hcomes _ {}).mpr ⟨rfl, rfl⟩⟩

end LazyQuery
