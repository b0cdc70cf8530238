import Mathlib.Data.List.FinRange
import Mathlib.Data.List.Sort
import Mathlib.Tactic.Lemma

/-!
# Stable sorting

A stable sort leaves equal items as they came (`pairwise_stableSort`).  Everything else follows from this:

* there is one way to arrange the positions of the items stably, and it is what the sort does
  (`isStableOrder_iff`, `map_get_stableOrder`);
* sorting by one comparison and then by another is sorting once, by the second with ties broken by the first
  (`stableSort_stableSort`);
* sorting the reversed items and reversing the result is sorting by the opposite comparison (`reverse_stableSort_reverse`);

The argument gives each item its place in the list.  The two sides of an equation then have the same items, and any two of
them stand in the order of the comparison or of their places (`InOrder`); no two items stand so both ways round, so the two
sides are one (`eq_of_inOrder`).  What holds of items with places holds of all, for these are those at the positions of the
list.
-/

namespace LazyQuery

open List

variable {α β : Type}

/-- The items in the order of a comparison, equal ones as they came. -/
def stableSort (cmp : α → α → Ordering) (items : List α) : List α :=
  items.mergeSort fun a b => (cmp a b).isLE

/-- Two items may stand in a row: the comparison allows it, and if it has them equal then `tied` does. -/
def InOrder (cmp : α → α → Ordering) (tied : α → α → Prop) (a b : α) : Prop :=
  (cmp a b).isLE ∧ (cmp a b = .eq → tied a b)

/-! ### One sort -/

section Comparison

variable (cmp : α → α → Ordering)

lemma stableSort_perm (items : List α) : stableSort cmp items ~ items :=
  mergeSort_perm _ _

/-- Sorting by what a comparison sees of the items. -/
lemma map_stableSort (cmp' : β → β → Ordering) (f : α → β) {items : List α}
    (h : ∀ a ∈ items, ∀ b ∈ items, cmp a b = cmp' (f a) (f b)) :
    (stableSort cmp items).map f = stableSort cmp' (items.map f) :=
  map_mergeSort fun a ha b hb => by rw [h a ha b hb]

/-- Two and more items are sorted by halves. -/
lemma stableSort_halves (a b : α) (items : List α) :
    stableSort cmp (a :: b :: items) =
      (stableSort cmp ((a :: b :: items).take ((items.length + 3) / 2))).merge
        (stableSort cmp ((a :: b :: items).drop ((items.length + 3) / 2))) fun a b => (cmp a b).isLE := by
  rw [stableSort, mergeSort, MergeSort.Internal.splitInTwo_fst, MergeSort.Internal.splitInTwo_snd]
  rfl

variable [Std.TransCmp cmp]

lemma cmp_swap (a b : α) : cmp b a = (cmp a b).swap :=
  Std.OrientedCmp.eq_swap

lemma isLE_trans (a b c : α) (hab : (cmp a b).isLE) (hbc : (cmp b c).isLE) : (cmp a c).isLE :=
  Std.TransCmp.isLE_trans hab hbc

lemma isLE_total (a b : α) : ((cmp a b).isLE || (cmp b a).isLE) = true := by
  rw [cmp_swap cmp a b]
  cases cmp a b <;> rfl

/-- **A sort keeps what holds of any two items in a row, as long as they are equal.** -/
theorem pairwise_stableSort {R : α → α → Prop} {items : List α} (h : items.Pairwise R) :
    (stableSort cmp items).Pairwise (InOrder cmp R) := by
  induction items with
  | nil => simp [stableSort]
  | cons a items ih =>
    rw [pairwise_cons] at h
    obtain ⟨before, after, hsort, hsplit, hbefore⟩ := mergeSort_cons (isLE_trans cmp) (isLE_total cmp) a items
    have hrest : (before ++ after).Pairwise (InOrder cmp R) := by
      rw [← hsplit]
      exact ih h.2
    have hordered : (before ++ a :: after).Pairwise fun a b => (cmp a b).isLE := by
      rw [← hsort]
      exact pairwise_mergeSort (isLE_trans cmp) (isLE_total cmp) (a :: items)
    have hmem : ∀ b ∈ after, b ∈ items := by
      intro b hb
      rw [← (mergeSort_perm items fun a b => (cmp a b).isLE).mem_iff, hsplit]
      exact mem_append_right before hb
    rw [stableSort, hsort]
    rw [pairwise_append, pairwise_cons] at hordered ⊢
    rw [pairwise_append] at hrest
    refine ⟨hrest.1, ⟨fun b hb => ?_, hrest.2.1⟩, fun b hb c hc => ?_⟩
    · exact ⟨hordered.2.1.1 b hb, fun _ => h.1 b (hmem b hb)⟩
    · rcases mem_cons.mp hc with rfl | hc
      · -- the first item came before `b` and yet stands behind it, so the two are not equal
        refine ⟨hordered.2.2 b hb c mem_cons_self, fun htie => ?_⟩
        have hgt := hbefore b hb
        rw [cmp_swap cmp b c, htie] at hgt
        cases hgt
      · exact hrest.2.2 b hb c hc

end Comparison

/-! ### Places -/

section Places

variable (cmp : α → α → Ordering) [Std.TransCmp cmp] (place : α → Nat)

/-- Where places break the ties, no two items stand both ways round. -/
lemma not_inOrder_swap {a b : α} (hab : InOrder cmp (fun a b => place a < place b) a b) :
    ¬ InOrder cmp (fun a b => place a < place b) b a := by
  rintro ⟨hle, htie⟩
  obtain ⟨hle', htie'⟩ := hab
  rw [cmp_swap cmp a b] at hle htie
  cases h : cmp a b with
  | lt =>
    rw [h] at hle
    cases hle
  | eq =>
    have hlt := htie' h
    have hgt := htie (by rw [h]; rfl)
    omega
  | gt =>
    rw [h] at hle'
    cases hle'

/-- **There is one way to have items in order**, where places break the ties. -/
theorem eq_of_inOrder {xs ys : List α} (hperm : xs ~ ys) (hxs : xs.Pairwise (InOrder cmp fun a b => place a < place b))
    (hys : ys.Pairwise (InOrder cmp fun a b => place a < place b)) : xs = ys := by
  refine hperm.eq_of_pairwise ?_ hxs hys
  intro a b _ _ hab hba
  exact absurd hba (not_inOrder_swap cmp place hab)

end Places

/-! ### Positions -/

section Positions

variable (cmp : α → α → Ordering) (items : List α)

/-- Compares two positions by the items there. -/
def compareAt (i j : Fin items.length) : Ordering :=
  cmp (items.get i) (items.get j)

/-- All positions, each of them once, so that the items there are in order and equal ones stand as they came. -/
def IsStableOrder (positions : List (Fin items.length)) : Prop :=
  positions ~ finRange items.length ∧ positions.Pairwise (InOrder (compareAt cmp items) (· < ·))

/-- The positions of the items in the order of the sort. -/
def stableOrder : List (Fin items.length) :=
  stableSort (compareAt cmp items) (finRange items.length)

/-- To sort items is to sort their positions. -/
lemma map_get_stableOrder : (stableOrder cmp items).map items.get = stableSort cmp items := by
  rw [stableOrder, map_stableSort (compareAt cmp items) cmp items.get fun _ _ _ _ => rfl, map_get_finRange]

variable [Std.TransCmp cmp]

instance : Std.TransCmp (compareAt cmp items) where
  eq_swap := cmp_swap cmp _ _
  isLE_trans := isLE_trans cmp _ _ _

/-- **The positions have one stable order**, that of the sort. -/
theorem isStableOrder_iff {positions : List (Fin items.length)} :
    IsStableOrder cmp items positions ↔ positions = stableOrder cmp items := by
  have hperm : stableOrder cmp items ~ finRange items.length := stableSort_perm _ _
  have hpairwise : (stableOrder cmp items).Pairwise (InOrder (compareAt cmp items) (· < ·)) :=
    pairwise_stableSort _ (pairwise_lt_finRange items.length)
  constructor
  · rintro ⟨hperm', hpairwise'⟩
    exact eq_of_inOrder (compareAt cmp items) Fin.val (hperm'.trans hperm.symm) hpairwise' hpairwise
  · rintro rfl
    exact ⟨hperm, hpairwise⟩

end Positions

/-! ### Two sorts -/

section TwoComparisons

variable {first second : α → α → Ordering}

/-- In the order of the second comparison, where ties are in the order of the first. -/
lemma inOrder_compareLex {tied : α → α → Prop} {a b : α} (h : InOrder second (InOrder first tied) a b) :
    InOrder (compareLex second first) tied a b := by
  obtain ⟨hle, hties⟩ := h
  unfold InOrder compareLex
  cases hsecond : second a b with
  | lt => exact ⟨rfl, fun h => by cases h⟩
  | eq => exact hties hsecond
  | gt =>
    rw [hsecond] at hle
    cases hle

variable (first second) [Std.TransCmp first] [Std.TransCmp second]

/-- Two sorts in a row, where places tell all items apart. -/
lemma stableSort_stableSort_of_places {place : α → Nat} {items : List α}
    (h : items.Pairwise fun a b => place a < place b) :
    stableSort second (stableSort first items) = stableSort (compareLex second first) items := by
  have htwice : (stableSort second (stableSort first items)).Pairwise
      (InOrder (compareLex second first) fun a b => place a < place b) :=
    (pairwise_stableSort second (pairwise_stableSort first h)).imp inOrder_compareLex
  have honce := pairwise_stableSort (compareLex second first) h
  have hperm := (stableSort_perm second (stableSort first items)).trans (stableSort_perm first items)
  exact eq_of_inOrder _ place (hperm.trans (stableSort_perm _ items).symm) htwice honce

/-- **Two stable sorts in a row are one**, by the later comparison first. -/
theorem stableSort_stableSort (items : List α) :
    stableSort second (stableSort first items) = stableSort (compareLex second first) items := by
  let first' := compareAt first items
  let second' := compareAt second items
  calc stableSort second (stableSort first items)
      = (stableSort second' (stableSort first' (finRange items.length))).map items.get := by
        rw [map_stableSort second' second items.get fun _ _ _ _ => rfl,
          map_stableSort first' first items.get fun _ _ _ _ => rfl, map_get_finRange]
    _ = (stableSort (compareLex second' first') (finRange items.length)).map items.get := by
        rw [stableSort_stableSort_of_places first' second' (pairwise_lt_finRange items.length)]
    _ = stableSort (compareLex second first) items := by
        rw [map_stableSort (compareLex second' first') (compareLex second first) items.get fun _ _ _ _ => rfl,
          map_get_finRange]

end TwoComparisons

/-! ### Reversing -/

section Reversing

variable (cmp : α → α → Ordering) [Std.TransCmp cmp]

/-- The order of the opposite comparison, seen from behind. -/
lemma reverse_stableSort_reverse_of_places {place : α → Nat} {items : List α}
    (h : items.Pairwise fun a b => place a < place b) :
    (stableSort cmp items.reverse).reverse = stableSort (fun a b => cmp b a) items := by
  have hreversed : items.reverse.Pairwise fun a b => place b < place a := pairwise_reverse.mpr h
  have htwice : (stableSort cmp items.reverse).reverse.Pairwise
      (InOrder (fun a b => cmp b a) fun a b => place a < place b) :=
    pairwise_reverse.mpr (pairwise_stableSort cmp hreversed)
  have honce := pairwise_stableSort (fun a b => cmp b a) h
  have hperm : (stableSort cmp items.reverse).reverse ~ items :=
    (reverse_perm _).trans ((stableSort_perm cmp items.reverse).trans (reverse_perm items))
  exact eq_of_inOrder _ place (hperm.trans (stableSort_perm _ items).symm) htwice honce

/-- **Reversing before and after a stable sort is sorting by the opposite comparison.**  Equal items stay as they came. -/
theorem reverse_stableSort_reverse (items : List α) :
    (stableSort cmp items.reverse).reverse = stableSort (fun a b => cmp b a) items := by
  let cmp' := compareAt cmp items
  calc (stableSort cmp items.reverse).reverse
      = ((stableSort cmp' (finRange items.length).reverse).reverse).map items.get := by
        rw [map_reverse, map_stableSort cmp' cmp items.get fun _ _ _ _ => rfl, map_reverse, map_get_finRange]
    _ = (stableSort (fun i j => cmp' j i) (finRange items.length)).map items.get := by
        rw [reverse_stableSort_reverse_of_places cmp' (pairwise_lt_finRange items.length)]
    _ = stableSort (fun a b => cmp b a) items := by
        rw [map_stableSort (fun i j => cmp' j i) (fun a b => cmp b a) items.get fun _ _ _ _ => rfl, map_get_finRange]

end Reversing

end LazyQuery
