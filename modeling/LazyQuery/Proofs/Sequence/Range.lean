import LazyQuery.Proofs.Item.Agreement
import LazyQuery.Proofs.Number.Nearest
import LazyQuery.Proofs.Sequence.Histories
import LazyQuery.Proofs.Sequence.SinglePass

/-!
# Ranges

A sequence that counts off cannot be told from the queue of its items (`Sequence.counted_sameHistories`).

A range of which the last integer is one of 64 bits can be worked out in words of 64 bits: none of its sums wraps around
(`rangeInWords_eq_range`).  Its integers are rounded to the nearest numbers, and this keeps them in order.  No two become one
as long as they are not beyond `2 ^ 53` (`ranges_keep_to_64_bits`).
-/

namespace LazyQuery

/-! ### Words of 64 bits -/

section Words

variable {start count word word' : Int64} {k : Nat}

lemma toInt_bounds (word : Int64) : Number.minInteger ≤ word.toInt ∧ word.toInt ≤ Number.maxInteger :=
  ⟨word.le_toInt, Int.le_sub_one_of_lt word.toInt_lt⟩

/-- A sum of words that is a word does not wrap around. -/
lemma toInt_add_of_within (h : Number.minInteger ≤ word.toInt + word'.toInt)
    (h' : word.toInt + word'.toInt ≤ Number.maxInteger) : (word + word').toInt = word.toInt + word'.toInt := by
  unfold Number.minInteger at h
  unfold Number.maxInteger at h'
  rw [Int64.toInt_add]
  exact Int.bmod_eq_of_le (by omega) (by omega)

lemma toInt_sub_one (h : 0 < count.toInt) : (count - 1).toInt = count.toInt - 1 := by
  have hlt := count.toInt_lt
  rw [Int64.toInt_sub]
  exact Int.bmod_eq_of_le (by simp; omega) (by simp; omega)

lemma saddOverflow_iff (h : 0 < count.toInt) : BitVec.saddOverflow start.toBitVec (count - 1).toBitVec = true ↔
    Number.maxInteger < start.toInt + (count.toInt - 1) := by
  have hge := start.le_toInt
  have hmax : Number.maxInteger = 2 ^ 63 - 1 := rfl
  rw [BitVec.saddOverflow, Int64.toInt_toBitVec, Int64.toInt_toBitVec, toInt_sub_one h, Bool.or_eq_true,
    decide_eq_true_iff, decide_eq_true_iff, hmax]
  omega

/-- The integers of a range lie between its start and the last of them, and so the sums do not wrap around. -/
lemma toInt_add_ofNat (hk : (k : Int) ≤ Number.maxInteger) (h : start.toInt + k ≤ Number.maxInteger) :
    (start + Int64.ofNat k).toInt = start.toInt + k := by
  have hstart := toInt_bounds start
  have hoffset : (Int64.ofNat k).toInt = k := Int64.toInt_ofNat_of_lt (by unfold Number.maxInteger at hk; omega)
  rw [toInt_add_of_within (by omega) (by omega), hoffset]

end Words

namespace Sequence

/-! ### Counting off -/

section Counted

variable {count k : Nat} {item item' : Nat → Item} {σ : Session}

/-- The `k`th answer of a sequence that counts off, and the count after it. -/
def countOff (count : Nat) (item : Nat → Item) (k : Nat) : Eff (Reply × Nat) :=
  return (if k < count then .item (item k) else .finished, k + 1)

lemma countOff_of_lt (hk : k < count) : countOff count item k σ = ((.item (item k), k + 1), σ) := by
  rw [countOff, if_pos hk]
  rfl

lemma countOff_of_le (hk : count ≤ k) : countOff count item k σ = ((.finished, k + 1), σ) := by
  rw [countOff, if_neg (Nat.not_lt.mpr hk)]
  rfl

/-- At each count the items that are left are in the queue. -/
lemma simulates_counted (count : Nat) (item : Nat → Item) : Simulates fun s t => ∃ k left, k + left = count ∧
    s = .producer (countOff count item) k ∧ t = .queue ((List.range' k left).map fun k => pure (item k)) := by
  refine simulates_of_lockstep ?_
  rintro _ _ ⟨k, left, hcount, rfl, rfl⟩ σ
  cases left with
  | zero => exact ⟨_, _, _, σ, advance_producer (countOff_of_le (by omega)), rfl, .inr rfl⟩
  | succ left =>
    exact ⟨_, _, _, σ, advance_producer (countOff_of_lt (by omega)), rfl, .inl ⟨k + 1, left, by omega, rfl, rfl⟩⟩

/-- **What is counted off cannot be told from a queue.** -/
theorem counted_sameHistories (count : Nat) (item : Nat → Item) :
    (counted count item).SameHistories (.ofItems ((List.range count).map item)) := by
  refine (simulates_counted count item).sameHistories ⟨0, count, Nat.zero_add count, rfl, ?_⟩
  rw [ofItems, List.map_map, List.range_eq_range']
  rfl

lemma counted_congr (h : ∀ k < count, item k = item' k) : counted count item = counted count item' := by
  unfold counted
  congr 1
  funext k
  split_ifs with hk
  · rw [h k hk]
  · rfl

end Counted

/-! ### Ranges -/

/-- A range worked out in words of 64 bits, whose sums and differences wrap around. -/
def rangeInWords (start count : Int64) : Except QueryError Sequence :=
  if count < 0 then .error (.negativeCount count.toInt)
  else if 0 < count ∧ BitVec.saddOverflow start.toBitVec (count - 1).toBitVec = true then
    .error (.invalidArgument "range" (toString count.toInt ++ " values from " ++ toString start.toInt ++ " overflow"))
  else .ok (counted count.toInt.toNat fun k => .number (.ofInt (start + Int64.ofNat k).toInt))

/-- **A range worked out in words of 64 bits is the same**, with the same errors. -/
theorem rangeInWords_eq_range (start count : Int64) : rangeInWords start count = range start.toInt count.toInt := by
  have hcount := toInt_bounds count
  have hnegative : count < 0 ↔ count.toInt < 0 := Int64.lt_iff_toInt_lt
  have hover : 0 < count ∧ BitVec.saddOverflow start.toBitVec (count - 1).toBitVec = true ↔
      0 < count.toInt ∧ Number.maxInteger < start.toInt + (count.toInt - 1) := by
    rw [Int64.lt_iff_toInt_lt]
    exact and_congr_right saddOverflow_iff
  unfold rangeInWords range
  simp only [hnegative, hover]
  split_ifs with hneg hlast
  · rfl
  · rfl
  · refine congrArg Except.ok (counted_congr fun k hk => ?_)
    rw [toInt_add_ofNat (by omega) (by omega)]

section Range

variable {start count : Int} {n : Nat} {e : QueryError}

lemma range_of_neg (h : count < 0) : range start count = .error (.negativeCount count) := by
  rw [range, if_pos h]

lemma range_of_past (hcount : 0 < count) (hlast : Number.maxInteger < start + count - 1) : range start count =
    .error (.invalidArgument "range" (toString count ++ " values from " ++ toString start ++ " overflow")) := by
  rw [range, if_neg (by omega), if_pos ⟨hcount, by omega⟩]

lemma range_of_within (hcount : 0 ≤ count) (hlast : 0 < count → start + count - 1 ≤ Number.maxInteger) :
    range start count = .ok (counted count.toNat fun k => .number (.ofInt (start + k))) := by
  rw [range, if_neg (by omega), if_neg (by omega)]

lemma range_eq_error_iff : range start count = .error e ↔ count < 0 ∧ e = .negativeCount count ∨
    0 < count ∧ Number.maxInteger < start + count - 1 ∧
      e = .invalidArgument "range" (toString count ++ " values from " ++ toString start ++ " overflow") := by
  by_cases hneg : count < 0
  · rw [range_of_neg hneg, Except.error.injEq, @eq_comm _ _ e]
    simp [hneg, hneg.le]
  · by_cases hpast : 0 < count ∧ Number.maxInteger < start + count - 1
    · rw [range_of_past hpast.1 hpast.2, Except.error.injEq, @eq_comm _ _ e]
      simp [hneg, hpast.1, hpast.2]
    · rw [range_of_within (by omega) (by omega)]
      simp only [reduceCtorEq, hneg, false_and, false_or, false_iff, ← and_assoc]
      exact fun h => hpast h.1

/-- The items of a range. -/
def consecutive (start : Int) (n : Nat) : List Item :=
  (List.range n).map fun k : Nat => .number (.ofInt (start + k))

lemma pairwise_isLE_consecutive (hstart : Number.minInteger ≤ start) (hlast : start + n - 1 ≤ Number.maxInteger) :
    (consecutive start n).Pairwise fun a b => (a.order b).isLE := by
  unfold Number.minInteger at hstart
  unfold Number.maxInteger at hlast
  refine List.pairwise_map.mpr (List.pairwise_lt_range.imp_of_mem fun {a b} ha hb hlt => ?_)
  have hb := List.mem_range.mp hb
  exact Number.isLE_order_ofInt (abs_le.mpr (by omega)) (abs_le.mpr (by omega)) (by omega)

lemma pairwise_not_identical_consecutive (hstart : -2 ^ 53 ≤ start) (hlast : start + n - 1 ≤ 2 ^ 53) :
    (consecutive start n).Pairwise fun a b => a.identical b = false := by
  refine List.pairwise_map.mpr (List.pairwise_lt_range.imp_of_mem fun {a b} ha hb hlt => ?_)
  have hb := List.mem_range.mp hb
  refine Bool.eq_false_iff.mpr fun hsame => ?_
  have horder := Item.order_eq_of_identical (.of_primitive (fun h => by cases h)) hsame
  have hcompare := Number.order_ofInt (i := start + a) (j := start + b) (abs_le.mpr (by omega)) (abs_le.mpr (by omega))
  have hequal := compare_eq_iff_eq.mp (hcompare.symm.trans horder)
  omega

end Range

end Sequence

open Sequence

/-- **Ranges keep to integers of 64 bits, and are in order.**  For any start and any count of 64 bits:

* With a negative count there is no range, and the error has the count.
* With a positive count and a last integer past the greatest of 64 bits there is none either, and the error names the count
  and the start.  There are no other errors.
* Otherwise the range hands out as many items as the count says: the numbers nearest to the integers from the start on.
* These integers are of 64 bits, and so is the count less one.  The same range comes out of words of 64 bits.
* The items are in order, and no two of them are identical if the first and the last integer lie between `-2 ^ 53` and
  `2 ^ 53`. -/
theorem ranges_keep_to_64_bits (start count : Int64) :
    (∀ e, range start.toInt count.toInt = .error e ↔ count.toInt < 0 ∧ e = .negativeCount count.toInt ∨
      0 < count.toInt ∧ Number.maxInteger < start.toInt + count.toInt - 1 ∧
        e = .invalidArgument "range" (toString count.toInt ++ " values from " ++ toString start.toInt ++ " overflow")) ∧
    (0 ≤ count.toInt → (0 < count.toInt → start.toInt + count.toInt - 1 ≤ Number.maxInteger) →
      ∃ s items, range start.toInt count.toInt = .ok s ∧ s.SameHistories (.ofItems items) ∧
        (items.length : Int) = count.toInt ∧
        (∀ k : Nat, k < count.toInt → Number.minInteger ≤ start.toInt + k ∧ start.toInt + k ≤ Number.maxInteger ∧
          items[k]? = some (.number (.ofInt (start.toInt + k))) ∧
          ∃ v, (Number.ofInt (start.toInt + k)).IsNearest ((start.toInt + k : Int) : ℚ) v) ∧
        (items.Pairwise fun a b => (a.order b).isLE) ∧
        (-2 ^ 53 ≤ start.toInt → start.toInt ≤ 2 ^ 53 → -2 ^ 53 ≤ start.toInt + count.toInt - 1 →
          start.toInt + count.toInt - 1 ≤ 2 ^ 53 → items.Pairwise fun a b => a.identical b = false)) ∧
    (0 < count.toInt → Number.minInteger ≤ count.toInt - 1 ∧ count.toInt - 1 ≤ Number.maxInteger) ∧
    rangeInWords start count = range start.toInt count.toInt := by
  obtain ⟨hstart, hstart'⟩ := toInt_bounds start
  obtain ⟨-, hcount'⟩ := toInt_bounds count
  have hmin : Number.minInteger = -2 ^ 63 := rfl
  refine ⟨fun e => range_eq_error_iff, fun hcount hlast => ?_, fun hcount => by omega, rangeInWords_eq_range start count⟩
  refine ⟨_, consecutive start.toInt count.toInt.toNat, range_of_within hcount hlast, counted_sameHistories _ _, ?_,
    fun k hk => ?_, ?_, fun hlow _ _ hhigh => ?_⟩
  · rw [consecutive, List.length_map, List.length_range]
    exact Int.toNat_of_nonneg hcount
  · refine ⟨by omega, by omega, ?_, ?_⟩
    · rw [consecutive, List.getElem?_map, List.getElem?_range (by omega)]
      rfl
    · have hmax : Number.maxInteger = 2 ^ 63 - 1 := rfl
      obtain ⟨m, hm⟩ := Number.exists_isNearest_ofInt (i := start.toInt + k) (abs_le.mpr (by omega))
      exact ⟨m, hm⟩
  · exact pairwise_isLE_consecutive hstart (by omega)
  · exact pairwise_not_identical_consecutive hlow (by omega)

/-- The greatest integer of 64 bits is a range of one, but there is no range of two from there. -/
theorem ranges_keep_to_64_bits_max :
    (∃ s, range (2 ^ 63 - 1) 1 = .ok s ∧ s.SameHistories (.ofItems [.number (.ofInt (2 ^ 63 - 1))])) ∧
    range (2 ^ 63 - 1) 2 = .error (.invalidArgument "range" "2 values from 9223372036854775807 overflow") ∧
    range 0 (-2) = .error (.negativeCount (-2)) := by
  obtain ⟨-, hrange, -⟩ := ranges_keep_to_64_bits Int64.maxValue 1
  obtain ⟨hpast, -⟩ := ranges_keep_to_64_bits Int64.maxValue 2
  obtain ⟨hnegative, -⟩ := ranges_keep_to_64_bits 0 (-2)
  obtain ⟨s, items, hs, hsame, hlength, hitems, -⟩ := hrange (by decide) (by decide)
  obtain ⟨item, rfl⟩ := List.length_eq_one_iff.mp (Int.ofNat_inj.mp hlength)
  obtain ⟨-, -, hitem, -⟩ := hitems 0 (by decide)
  cases hitem
  exact ⟨⟨s, hs, hsame⟩, (hpast _).mpr (.inr ⟨by decide, by decide, rfl⟩),
    (hnegative _).mpr (.inl ⟨by decide, rfl⟩)⟩

end LazyQuery
