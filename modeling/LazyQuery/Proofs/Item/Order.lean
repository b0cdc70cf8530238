import LazyQuery.Item.Order
import Mathlib.Tactic.ByContra
import Mathlib.Tactic.Lemma

/-!
# The order of items is a total preorder

Swapping two items swaps their order (`Item.order_swap`), and "not greater" is transitive (`Item.isLE_order_trans`), at
every depth and across types.  Items of different types are told apart by the rank of the type alone; within arrays the
order goes by the first elements that differ.

The order looks at the contents of items only: `Item.contents` forgets every reference, and `Item.order_contents` says
that this changes nothing.
-/

namespace LazyQuery

/-! ### Numbers -/

namespace Number

/-- Numbers are compared by their signed ranks, `nan` by having none. -/
lemma order_eq_compare (x y : Number) : x.order y = compare x.key? y.key? := by
  unfold order
  rcases x.key? with _ | i <;> rcases y.key? with _ | j <;> rfl

lemma order_swap (x y : Number) : y.order x = (x.order y).swap := by
  rw [order_eq_compare, order_eq_compare]
  exact Std.OrientedOrd.eq_swap

lemma isLE_order_trans {x y z : Number} (hxy : (x.order y).isLE) (hyz : (y.order z).isLE) : (x.order z).isLE := by
  rw [order_eq_compare] at *
  exact Std.TransOrd.isLE_trans hxy hyz

end Number

namespace Item

/-! ### Items of different types -/

def rank (item : Item) : Nat :=
  item.typeTag.rank

lemma order_of_rank_lt {a b : Item} (h : a.rank < b.rank) : a.order b = .lt := by
  cases a <;> cases b <;> first | rfl | (simp [rank, typeTag, TypeTag.rank] at h)

lemma order_of_rank_gt {a b : Item} (h : b.rank < a.rank) : a.order b = .gt := by
  cases a <;> cases b <;> first | rfl | (simp [rank, typeTag, TypeTag.rank] at h)

lemma rank_le_of_isLE {a b : Item} (h : (a.order b).isLE) : a.rank ≤ b.rank := by
  by_contra hrank
  rw [order_of_rank_gt (Nat.lt_of_not_le hrank)] at h
  cases h

/-! ### The order swaps -/

mutual

theorem order_swap (a b : Item) : b.order a = (a.order b).swap := by
  rcases Nat.lt_trichotomy a.rank b.rank with h | h | h
  · rw [order_of_rank_lt h, order_of_rank_gt h]; rfl
  · match a, b with
    | .null, .null => rfl
    | .bool x, .bool y => exact Std.OrientedOrd.eq_swap
    | .number x, .number y => exact x.order_swap y
    | .string x, .string y => exact Std.OrientedOrd.eq_swap
    | .array _ xs, .array _ ys => exact elementsOrder_swap xs ys
    | .object _ _, .object _ _ => rfl
  · rw [order_of_rank_lt h, order_of_rank_gt h]; rfl

theorem elementsOrder_swap (xs ys : List Item) : elementsOrder ys xs = (elementsOrder xs ys).swap := by
  match xs, ys with
  | [], [] => rfl
  | [], _ :: _ => rfl
  | _ :: _, [] => rfl
  | x :: xs, y :: ys =>
    simp only [elementsOrder]
    rw [order_swap x y, elementsOrder_swap xs ys, Ordering.swap_then]

end

/-! ### The order is transitive -/

lemma lt_iff_not_isLE (a b : Item) : a.order b = .lt ↔ ¬ (b.order a).isLE := by
  rw [order_swap a b]
  cases a.order b <;> decide

mutual

theorem isLE_order_trans (a b c : Item) (hab : (a.order b).isLE) (hbc : (b.order c).isLE) : (a.order c).isLE := by
  have hrank : a.rank ≤ b.rank := rank_le_of_isLE hab
  have hrank' : b.rank ≤ c.rank := rank_le_of_isLE hbc
  by_cases h : a.rank < c.rank
  · rw [order_of_rank_lt h]; rfl
  · have h1 : a.rank = b.rank := by omega
    have h2 : b.rank = c.rank := by omega
    match a, b, c with
    | .null, .null, .null => rfl
    | .bool _, .bool _, .bool _ => exact Std.TransOrd.isLE_trans (α := Bool) hab hbc
    | .number _, .number _, .number _ => exact Number.isLE_order_trans hab hbc
    | .string _, .string _, .string _ => exact Std.TransOrd.isLE_trans (α := String) hab hbc
    | .array _ xs, .array _ ys, .array _ zs => exact isLE_elementsOrder_trans xs ys zs hab hbc
    | .object _ _, .object _ _, .object _ _ => rfl
termination_by sizeOf a + sizeOf b + sizeOf c

theorem isLE_elementsOrder_trans (xs ys zs : List Item) (hxy : (elementsOrder xs ys).isLE)
    (hyz : (elementsOrder ys zs).isLE) : (elementsOrder xs zs).isLE := by
  match xs, ys, zs with
  | [], _, [] => rfl
  | [], _, _ :: _ => rfl
  | _ :: _, [], _ => cases hxy
  | _ :: _, _ :: _, [] => cases hyz
  | x :: xs, y :: ys, z :: zs =>
    simp only [elementsOrder, Ordering.isLE_then_iff_and] at *
    obtain ⟨hx, hx'⟩ := hxy
    obtain ⟨hy, hy'⟩ := hyz
    refine ⟨isLE_order_trans x y z hx hy, ?_⟩
    rcases hx' with hlt | htail
    · -- the first heads differ: a cycle back from `z` would undo that
      left
      rw [lt_iff_not_isLE] at *
      exact fun hz => hlt (isLE_order_trans y z x hy hz)
    · rcases hy' with hlt | htail'
      · left
        rw [lt_iff_not_isLE] at *
        exact fun hz => hlt (isLE_order_trans z x y hz hx)
      · exact Or.inr (isLE_elementsOrder_trans xs ys zs htail htail')
termination_by sizeOf xs + sizeOf ys + sizeOf zs

end

instance : Std.TransCmp order where
  eq_swap {a b} := order_swap b a
  isLE_trans := isLE_order_trans _ _ _

/-! ### The order looks at contents -/

mutual

/-- The item with every reference forgotten. -/
def contents : Item → Item
  | .null => .null
  | .bool value => .bool value
  | .number value => .number value
  | .string text => .string text
  | .array _ elements => .array 0 (elementsContents elements)
  | .object _ fields => .object 0 (fieldsContents fields)

def elementsContents : List Item → List Item
  | [] => []
  | element :: rest => contents element :: elementsContents rest

def fieldsContents : List (String × Item) → List (String × Item)
  | [] => []
  | (key, value) :: rest => (key, contents value) :: fieldsContents rest

end

mutual

theorem order_contents (a b : Item) : a.contents.order b.contents = a.order b := by
  match a, b with
  | .array _ xs, .array _ ys => exact elementsOrder_contents xs ys
  | .null, b => cases b <;> rfl
  | .bool _, b => cases b <;> rfl
  | .number _, b => cases b <;> rfl
  | .string _, b => cases b <;> rfl
  | .object _ _, b => cases b <;> rfl
  | .array _ _, .null => rfl
  | .array _ _, .bool _ => rfl
  | .array _ _, .number _ => rfl
  | .array _ _, .string _ => rfl
  | .array _ _, .object _ _ => rfl

theorem elementsOrder_contents (xs ys : List Item) :
    elementsOrder (elementsContents xs) (elementsContents ys) = elementsOrder xs ys := by
  match xs, ys with
  | [], [] => rfl
  | [], _ :: _ => rfl
  | _ :: _, [] => rfl
  | x :: xs, y :: ys =>
    simp only [elementsContents, elementsOrder]
    rw [order_contents x y, elementsOrder_contents xs ys]

end

end Item

end LazyQuery
