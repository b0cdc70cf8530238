import LazyQuery.Proofs.Number.Integer
import LazyQuery.Proofs.Operator.Prefixes

/-!
# Counts and positions

`take`, `skip` and `elementAt` want an integer.  A number that is one is taken as the nearest integer of 64 bits, and every
other item is refused with an error that says so (`integers_are_required`).

At a position counted from zero `elementAt` finds the item, or it has counted the items when there is none.  For a negative
position there is nothing to count, and the error speaks of no items whatever the source has
(`elementAt_counts_from_zero`).
-/

namespace LazyQuery

open Sequence

/-! ### Integers -/

section Integers

variable {part : Part} {item : Item} {n : Number} {i k : Int} {what : String}

lemma Item.integer?_eq_some_iff : item.integer? = some k ↔
    ∃ n i, item = .number n ∧ n.value? = some ((i : Int) : ℚ) ∧ k = Number.clampInteger i := by
  cases item with
  | number n => simp [integer?, Number.toInteger?_eq_some_iff]
  | _ => simp [integer?]

/-- The integer of a number is its value unless that is an integer beyond 64 bits. -/
lemma Item.integer?_exact_iff : (∀ k : Int, (Item.number n).integer? = some k → n.value? = some (k : ℚ)) ↔
    ∀ i : Int, n.value? = some (i : ℚ) → Number.minInteger ≤ i ∧ i ≤ Number.maxInteger := by
  constructor
  · intro hexact i hvalue
    have hclamped := hexact _ (integer?_eq_some_iff.mpr ⟨n, i, rfl, hvalue, rfl⟩)
    have hself : Number.clampInteger i = i := Int.cast_injective (Option.some.inj (hclamped.symm.trans hvalue))
    exact Number.clampInteger_eq_self_iff.mp hself
  · intro hwithin k hinteger
    obtain ⟨_, i, hnumber, hvalue, rfl⟩ := integer?_eq_some_iff.mp hinteger
    cases hnumber
    rwa [Number.clampInteger_eq_self_iff.mpr (hwithin i hvalue)]

/-- The operators that want an integer, and what they call it. -/
def Operator.Wants (operator : Operator) (what : String) : Prop :=
  (operator = .take ∨ operator = .skip) ∧ what = "count" ∨ (∃ whenAbsent, operator = .elementAt whenAbsent) ∧ what = "index"

namespace Part

/-- The part comes to what `elementAt` with this position does. -/
def LooksAt (part : Part) (whenAbsent : WhenAbsent) (i : Int) : Prop :=
  ∀ source σ result τ, part.ComesTo (.sequence source) σ result τ ↔
    ∃ r, Eval.ComesTo (fun budget => source.elementAt whenAbsent i budget) σ r τ ∧ result = r.map .ofOption

lemma requireInteger_of_not (hliteral : part.literal? 0 = some item) (hinteger : item.integer? = none) :
    part.requireInteger 0 what = .error (part.refused (what ++ " must be an integer")) := by
  unfold requireInteger
  rw [requireLiteral_of_literal? hliteral]
  dsimp only [bind, Except.bind]
  rw [hinteger]
  rfl

lemma elementAt_persists (whenAbsent : WhenAbsent) (i : Int) (source : Sequence) :
    Eval.Persists fun budget => source.elementAt whenAbsent i budget := by
  unfold Sequence.elementAt
  split
  · exact fun _ h => h
  · exact reduce_persists _ _ _ _

/-- Without an integer there is no plan. -/
lemma plan_of_wants (hwants : part.operator.Wants what) {e : QueryError} (h : part.requireInteger 0 what = .error e) :
    part.plan = .error e := by
  unfold plan
  obtain ⟨hoperator | hoperator, rfl⟩ | ⟨⟨whenAbsent, hoperator⟩, rfl⟩ := hwants <;> rw [hoperator] <;> simp only [h] <;> rfl

lemma looksAt_of_requireInteger {whenAbsent : WhenAbsent} (hpart : part.operator = .elementAt whenAbsent)
    (hindex : part.requireInteger 0 "index" = .ok i) : part.LooksAt whenAbsent i := by
  have hplan : part.plan = .ok (.finding (Sequence.elementAt whenAbsent i)) := by
    unfold plan
    rw [hpart]
    simp only [hindex]
    rfl
  intro source σ result τ
  rw [comesTo_of_eagerly (source_sequence part source) hplan, Eval.comesTo_map (elementAt_persists whenAbsent i source)]

end Part

/-- **Integers are required, and taken as integers of 64 bits.**  For any item:

* Its integer is there if the item is a number whose exact value is an integer, and it is the one of 64 bits that is nearest
  to the value.
* It is the value itself for every number but the integers beyond 64 bits.
* Without an integer the item is refused by `take`, `skip` and `elementAt` before any work on items, with an error that
  names the operator and says that the count or the index must be an integer.
* With a number that is an integer they work with the one of 64 bits. -/
theorem integers_are_required (item : Item) :
    (∀ k : Int, item.integer? = some k ↔
      ∃ n i, item = .number n ∧ n.value? = some ((i : Int) : ℚ) ∧ k = Number.clampInteger i) ∧
    (∀ n : Number, item = .number n → ((∀ k : Int, item.integer? = some k → n.value? = some (k : ℚ)) ↔
      ∀ i : Int, n.value? = some (i : ℚ) → Number.minInteger ≤ i ∧ i ≤ Number.maxInteger)) ∧
    ∀ (part : Part) (what : String), part.operator.Wants what → part.literal? 0 = some item →
      (item.integer? = none → ∀ source σ result τ, part.ComesTo (.sequence source) σ result τ ↔
        result = .error (.invalidArgument part.operator.name (what ++ " must be an integer")) ∧ τ = σ) ∧
      ∀ (n : Number) (i : Int), item = .number n → n.value? = some (i : ℚ) →
        (part.operator = .take → ∀ source, part.PutsOn source (source.taken (Number.clampInteger i))) ∧
        (part.operator = .skip → ∀ source, part.PutsOn source (source.skipped (Number.clampInteger i))) ∧
        ∀ whenAbsent, part.operator = .elementAt whenAbsent → part.LooksAt whenAbsent (Number.clampInteger i) := by
  refine ⟨fun k => Item.integer?_eq_some_iff, fun n hitem => hitem ▸ Item.integer?_exact_iff, ?_⟩
  intro part what hwants hliteral
  refine ⟨fun hinteger source σ result τ => ?_, fun n i hitem hvalue => ?_⟩
  · have hplan := Part.plan_of_wants hwants (Part.requireInteger_of_not hliteral hinteger)
    exact comesTo_of_plan_error (source_sequence part source) hplan
  · have hinteger (what : String) : part.requireInteger 0 what = .ok (Number.clampInteger i) :=
      requireInteger_of_literal? hliteral (Item.integer?_eq_some_iff.mpr ⟨n, i, hitem, hvalue, rfl⟩) what
    exact ⟨fun htake source => Part.putsOn_take htake (hinteger "count"),
      fun hskip source => Part.putsOn_skip hskip (hinteger "count"),
      fun whenAbsent helementAt => Part.looksAt_of_requireInteger helementAt (hinteger "index")⟩

/-- `take` with the text `1` is refused, and with the number 2 it takes two items. -/
theorem integers_are_required_two :
    (Part.mk .take [.literal (.string "1")]).ComesTo (.sequence (.ofItems [.null])) {}
      (.error (.invalidArgument "take" "count must be an integer")) {} ∧
    (Part.mk .take [.literal (.number (.ofInt 2))]).PutsOn (.ofItems [.null]) ((Sequence.ofItems [.null]).taken 2) := by
  obtain ⟨-, -, htext⟩ := integers_are_required (.string "1")
  obtain ⟨hrefused, -⟩ := htext ⟨.take, [.literal (.string "1")]⟩ "count" (.inl ⟨.inl rfl, rfl⟩) rfl
  obtain ⟨-, -, hnumber⟩ := integers_are_required (.number (.ofInt 2))
  obtain ⟨-, htaken⟩ := hnumber ⟨.take, [.literal (.number (.ofInt 2))]⟩ "count" (.inl ⟨.inl rfl, rfl⟩) rfl
  have hvalue : (Number.ofInt 2).value? = some ((2 : Int) : ℚ) := Number.whole?_eq_some_iff.mp (by decide +kernel)
  exact ⟨(hrefused rfl (.ofItems [.null]) {} _ {}).mpr ⟨rfl, rfl⟩, (htaken _ 2 rfl hvalue).1 rfl (.ofItems [.null])⟩

/-- The number `2 ^ 63` is an integer, but not one of 64 bits, and yet `take` counts with it: with the greatest of 64 bits
instead. -/
theorem integer_of_two_pow_63 :
    ∃ n : Number, n.value? = some (2 ^ 63) ∧ (Item.number n).integer? = some (2 ^ 63 - 1) ∧
      (Part.mk .take [.literal (.number n)]).PutsOn (.ofItems [.null]) ((Sequence.ofItems [.null]).taken (2 ^ 63 - 1)) ∧
      ¬ ∀ (n : Number) (k : Int), (Item.number n).integer? = some k → n.value? = some (k : ℚ) := by
  have hvalue : (Number.ofInt (2 ^ 63)).value? = some ((2 ^ 63 : Int) : ℚ) := Number.whole?_eq_some_iff.mp (by decide +kernel)
  have hinteger : (Item.number (.ofInt (2 ^ 63))).integer? = some (2 ^ 63 - 1) :=
    Item.integer?_eq_some_iff.mpr ⟨_, _, rfl, hvalue, by decide⟩
  refine ⟨.ofInt (2 ^ 63), by rw [hvalue]; norm_num, hinteger, Part.putsOn_take rfl ?_, fun hexact => ?_⟩
  · exact requireInteger_of_literal? rfl hinteger "count"
  · have hsame := hvalue.symm.trans (hexact _ _ hinteger)
    norm_num at hsame

end Integers

/-! ### Positions -/

section Positions

variable {source t : Sequence} {i : Int} {position : Nat} {σ τ : Session} {x : Item} {xs : List Item}
  {r : Except QueryError (Option Item)}

/-- A negative position is refused without a pull of the source. -/
lemma comesTo_elementAt_of_neg (hi : i < 0) :
    Eval.ComesTo (fun budget => source.elementAt .fails i budget) σ r τ ↔ r = .error (.indexOutOfRange i 0) ∧ τ = σ := by
  simp only [Sequence.elementAt, if_pos hi]
  exact Eval.comesTo_ofExcept

/-- What is handed out first can be pulled. -/
lemma exists_pulls_of_hands (h : Hands σ source (x :: xs) t τ) : ∃ u υ, Pulls σ source (.item x) u υ := by
  generalize hitems : x :: xs = items at h
  induction h with
  | start => cases hitems
  | work step _ ih =>
    obtain ⟨u, υ, hpull⟩ := ih hitems
    exact ⟨u, υ, .work step hpull⟩
  | item step =>
    cases hitems
    exact ⟨_, _, .reply step⟩

/-- The item at a position is the first behind so many, and so it is found. -/
lemma exists_gives_elementAt (h : Hands σ source xs t τ) (hx : xs[position]? = some x) :
    ∃ ω, (Element.elementAt.scan none position).Gives [] σ source (.ok (.item x)) ω := by
  obtain ⟨hlt, rfl⟩ := List.getElem?_eq_some_iff.mp hx
  have hskipped := h.sift (Stage.sifts_skip position xs)
  rw [List.drop_eq_getElem_cons hlt] at hskipped
  obtain ⟨_, ω, hpull⟩ := exists_pulls_of_hands hskipped
  obtain ⟨_, hgives⟩ := Element.exists_gives_of_pulls hpull
  exact ⟨ω, hgives⟩

/-- Where there is no item at the position, all of them have been counted. -/
lemma gives_elementAt_of_drains (h : Drains σ source xs .finished τ) (hlength : xs.length ≤ position) :
    (Element.elementAt.scan none position).Gives [] σ source (.ok (.beyond position xs.length)) τ := by
  have hfeeds : FeedsAll (Element.elementAt.scan none position).work σ source (xs.map fun x => (x, true)) .finished τ :=
    (feedsAll_iff_drains fun _ _ => rfl).mpr ⟨xs, h, rfl⟩
  have hunsettled : (Element.elementAt.scan none position).Unsettled [] (xs.map fun x => (x, true)) := by
    rw [Element.unsettled_elementAt [] _ (Nat.zero_le _)]
    simpa using hlength
  have hgives := Scan.Gives.of_feedsAll hfeeds hunsettled
  simpa [Ending.result, Element.scan] using hgives

/-- The item at a position that the source has come past is found. -/
lemma exists_comesTo_elementAt (h : Hands σ source xs t τ) (hi : 0 ≤ i) (hx : xs[i.toNat]? = some x) :
    ∃ ω, Eval.ComesTo (fun budget => source.elementAt .fails i budget) σ (.ok (some x)) ω := by
  obtain ⟨position, rfl⟩ := Int.eq_ofNat_of_zero_le hi
  obtain ⟨ω, hgives⟩ := exists_gives_elementAt h hx
  exact ⟨ω, (Element.elementAt_comesTo "elementAt" _ _ _).mpr ⟨_, hgives, rfl⟩⟩

lemma comesTo_elementAt_of_length_le (h : Drains σ source xs .finished τ) (hlength : xs.length ≤ i) :
    Eval.ComesTo (fun budget => source.elementAt .fails i budget) σ (.error (.indexOutOfRange i xs.length)) τ := by
  obtain ⟨position, rfl⟩ := Int.eq_ofNat_of_zero_le (le_trans (Int.natCast_nonneg _) hlength)
  have hgives := gives_elementAt_of_drains h (Int.ofNat_le.mp hlength)
  exact (Element.elementAt_comesTo "elementAt" _ _ _).mpr ⟨_, hgives, rfl⟩

end Positions

/-- **`elementAt` counts from zero.**  For any source and any position:

* a part with this index comes to what is found here;
* at a position of at least zero the item there is found, as soon as the source has handed it out;
* if the source ends without an error before that, the error has the position and the number of the items;
* a negative position is refused without a look at the source, with an error that has the position and no items;
* so the error has the number of the items just for positions behind them, and for all positions if there are none. -/
theorem elementAt_counts_from_zero (source : Sequence) (σ : Session) (i : Int) :
    (∀ part : Part, part.operator = .elementAt .fails → part.requireInteger 0 "index" = .ok i → part.LooksAt .fails i) ∧
    (∀ xs t τ x, Hands σ source xs t τ → 0 ≤ i → xs[i.toNat]? = some x →
      ∃ ω, Eval.ComesTo (fun budget => source.elementAt .fails i budget) σ (.ok (some x)) ω) ∧
    (∀ xs τ, Drains σ source xs .finished τ → xs.length ≤ i →
      Eval.ComesTo (fun budget => source.elementAt .fails i budget) σ (.error (.indexOutOfRange i xs.length)) τ) ∧
    (i < 0 → ∀ r τ, Eval.ComesTo (fun budget => source.elementAt .fails i budget) σ r τ ↔
      r = .error (.indexOutOfRange i 0) ∧ τ = σ) ∧
    ∀ xs τ, Drains σ source xs .finished τ →
      ((∃ ω, Eval.ComesTo (fun budget => source.elementAt .fails i budget) σ (.error (.indexOutOfRange i xs.length)) ω) ↔
        xs.length ≤ i ∨ xs = []) := by
  refine ⟨fun part => Part.looksAt_of_requireInteger, fun xs t τ x hhands hi hx => exists_comesTo_elementAt hhands hi hx,
    fun xs τ => comesTo_elementAt_of_length_le, fun hi r τ => comesTo_elementAt_of_neg hi, fun xs τ hdrains => ?_⟩
  rcases lt_or_ge i 0 with hi | hi
  · have hbefore : ¬ (xs.length : Int) ≤ i := by omega
    simp [comesTo_elementAt_of_neg hi, hbefore]
  · constructor
    · rintro ⟨ω, hcomes⟩
      by_contra hwithin
      have hposition : i.toNat < xs.length := by omega
      obtain ⟨_, _, _, _, hhands, -⟩ := hdrains.hands
      obtain ⟨_, hfound⟩ := exists_comesTo_elementAt hhands hi (List.getElem?_eq_getElem hposition)
      cases (hcomes.unique hfound).1
    · rintro (hlength | rfl)
      · exact ⟨τ, comesTo_elementAt_of_length_le hdrains hlength⟩
      · exact ⟨τ, comesTo_elementAt_of_length_le hdrains hi⟩

/-- Of three items the second is found at the position 1.  At the position 3 the error speaks of three items, and at the
position -1 of none. -/
theorem elementAt_counts_from_zero_null :
    (∃ ω, Eval.ComesTo (fun budget => (Sequence.ofItems [.null, .bool true, .null]).elementAt .fails 1 budget) {}
      (.ok (some (.bool true))) ω) ∧
    Eval.ComesTo (fun budget => (Sequence.ofItems [.null, .bool true, .null]).elementAt .fails 3 budget) {}
      (.error (.indexOutOfRange 3 3)) {} ∧
    Eval.ComesTo (fun budget => (Sequence.ofItems [.null, .bool true, .null]).elementAt .fails (-1) budget) {}
      (.error (.indexOutOfRange (-1) 0)) {} ∧
    (Part.mk (.elementAt .fails) [.literal (.number (.ofInt 1))]).LooksAt .fails 1 := by
  have hdrains := drains_queue [.null, .bool true, .null] {}
  obtain ⟨t, _, _, _, hhands, -⟩ := hdrains.hands
  obtain ⟨hpart, hfinds, -⟩ := elementAt_counts_from_zero (.ofItems [.null, .bool true, .null]) {} 1
  obtain ⟨-, -, hcounts, -⟩ := elementAt_counts_from_zero (.ofItems [.null, .bool true, .null]) {} 3
  obtain ⟨-, -, -, hrefused, -⟩ := elementAt_counts_from_zero (.ofItems [.null, .bool true, .null]) {} (-1)
  have hindex : (Item.number (.ofInt 1)).integer? = some 1 := by decide +kernel
  exact ⟨hfinds _ t _ _ hhands (by decide) rfl, hcounts _ _ hdrains (by decide), (hrefused (by decide) _ {}).mpr ⟨rfl, rfl⟩,
    hpart _ rfl (requireInteger_of_literal? rfl hindex "index")⟩

/-- At a negative position the error does not have the number of the items. -/
theorem elementAt_before_zero :
    ¬ ∀ (source : Sequence) (xs : List Item) (σ τ : Session) (i : Int), Drains σ source xs .finished τ → i < 0 →
      ∃ ω, Eval.ComesTo (fun budget => source.elementAt .fails i budget) σ (.error (.indexOutOfRange i xs.length)) ω := by
  intro hcounts
  obtain ⟨ω, hcomes⟩ := hcounts _ _ {} {} (-1) (drains_queue [.null, .bool true, .null] {}) (by decide)
  obtain ⟨herror, -⟩ := (comesTo_elementAt_of_neg (by decide)).mp hcomes
  cases herror

end LazyQuery
