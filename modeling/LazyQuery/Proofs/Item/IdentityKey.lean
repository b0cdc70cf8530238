import LazyQuery.Proofs.Item.Identity
import LazyQuery.Proofs.Number.Exact

/-!
# Keys by identity

What it is to be identical is told case by case by `Item.Same`: primitives go by type and value, composites by reference.  A
hasher is fed the same of two keys in just these cases, and of numbers that are given by their bits it is fed
`Number.canonicalBits` (`Number.keyBits_ofBits`), whichever pattern of `nan` or of zero they have.

So a hash set of keys answers any requests to insert, to look up and to remove items (`SetRequest`) as a list does that is
searched from the front.  The set has what the list has, and the list has nothing twice (`IdentitySet.Stands`): this is kept by
each request (`IdentitySet.Stands.answer`), and so by any number of them (`IdentitySet.Stands.answers_eq`).

The main statement is `identity_keys_make_lawful_sets`.
-/

namespace LazyQuery

/-! ### Bits -/

namespace Number

lemma toBits_ofBits (bits : UInt64) : (ofBits bits).toBits = bits := by
  have hsize : bits.toNat < 0x10000000000000000 := bits.toNat_lt
  rw [ofBits]
  split
  · rfl
  · next hfinite =>
    have hrank : min (bits.toNat % 0x8000000000000000) infiniteRank = bits.toNat % 0x8000000000000000 := by omega
    have hsign : bits.toNat / 0x8000000000000000 = 0 ∨ bits.toNat / 0x8000000000000000 = 1 := by omega
    rw [← UInt64.toNat_inj, ofRank, toNat_toBits_real]
    simp only [hrank, beq_iff_eq]
    split <;> omega

/-- **Every number is one pattern of 64 bits**, and every pattern one number. -/
theorem ofBits_toBits (x : Number) : ofBits x.toBits = x := by
  rcases x with ⟨bits, hbits⟩ | ⟨negative, rank, hrank⟩
  · exact dif_pos hbits
  · have hinfinite : infiniteRank = 0x7FF0000000000000 := rfl
    have hbits : (real negative ⟨rank, hrank⟩).toBits.toNat = rank + if negative then 0x8000000000000000 else 0 :=
      toNat_toBits_real negative ⟨rank, hrank⟩
    have hmagnitude : (real negative ⟨rank, hrank⟩).toBits.toNat % 0x8000000000000000 = rank := by
      rw [hbits]
      split <;> omega
    have hsign : ((real negative ⟨rank, hrank⟩).toBits.toNat / 0x8000000000000000 == 1) = negative := by
      rw [hbits]
      cases negative with
      | false => exact beq_eq_false_iff_ne.mpr (by rw [if_neg Bool.false_ne_true]; omega)
      | true => exact beq_iff_eq.mpr (by rw [if_pos rfl]; omega)
    unfold ofBits
    simp only [hmagnitude, hsign, ofRank]
    rw [dif_neg (by omega)]
    simp only [Nat.min_eq_left (Nat.le_of_lt_succ hrank)]

/-- The pattern that stands for a pattern of 64 bits: all that is not a number has the quiet one, and both zeros the positive
one. -/
def canonicalBits (bits : UInt64) : UInt64 :=
  let magnitude := bits.toNat % 0x8000000000000000
  if infiniteRank < magnitude then 0x7FF8000000000000 else if magnitude = 0 then 0 else bits

/-- **Numbers that are given by their bits** are fed to a hasher by the patterns that stand for these. -/
theorem keyBits_ofBits (bits : UInt64) : (ofBits bits).keyBits = canonicalBits bits := by
  simp only [ofBits, canonicalBits]
  split
  · rfl
  · next hfinite =>
    by_cases hzero : bits.toNat % 0x8000000000000000 = 0
    · rw [hzero, if_pos rfl]
      cases bits.toNat / 0x8000000000000000 == 1 <;> rfl
    · have hsize : bits.toNat < 0x10000000000000000 := bits.toNat_lt
      have hrank : min (bits.toNat % 0x8000000000000000) infiniteRank = bits.toNat % 0x8000000000000000 := by omega
      have hsign : bits.toNat / 0x8000000000000000 = 0 ∨ bits.toNat / 0x8000000000000000 = 1 := by omega
      rw [if_neg hzero, ← UInt64.toNat_inj, toNat_keyBits]
      simp only [ofRank, hrank]
      rcases hsign with hsign | hsign
      · have hpositive : ¬ ((bits.toNat % 0x8000000000000000 : Nat) : Int) < 0 := by omega
        simp only [hsign, key?, Nat.reduceBEq, if_neg hpositive]
        omega
      · have hnegative : -((bits.toNat % 0x8000000000000000 : Nat) : Int) < 0 := by omega
        simp only [hsign, key?, beq_self_eq_true, if_pos hnegative]
        omega

end Number

/-! ### Being identical, case by case -/

namespace Item

/-- Primitives of one type and value, the two zeros being one value and all that is not a number another, and composites of one
kind and reference. -/
inductive Same : Item → Item → Prop
  | null : Same .null .null
  | bool (value) : Same (.bool value) (.bool value)
  | nan (bits bits') : Same (.number (.nan bits)) (.number (.nan bits'))
  | number {x y} (equal : x.equals y = true) : Same (.number x) (.number y)
  | string (text) : Same (.string text) (.string text)
  | array (ref xs ys) : Same (.array ref xs) (.array ref ys)
  | object (ref fs gs) : Same (.object ref fs) (.object ref gs)

lemma same_number_iff {x y : Number} : Same (.number x) (.number y) ↔ x.key? = y.key? := by
  constructor
  · intro h
    cases h with
    | nan => rfl
    | number equal =>
      obtain ⟨k, hx, hy⟩ := Number.equals_iff_key.mp equal
      rw [hx, hy]
  · intro h
    cases hx : x.key? with
    | none =>
      have hy : y.key? = none := h.symm.trans hx
      rcases x with bits | ⟨_ | _, _⟩ <;> try cases hx
      rcases y with bits' | ⟨_ | _, _⟩ <;> try cases hy
      exact .nan bits bits'
    | some k => exact .number (Number.equals_iff_key.mpr ⟨k, hx, h.symm.trans hx⟩)

/-- **Items are identical in the cases of `Same`**, and in no others. -/
theorem identical_iff_same {a b : Item} : a.identical b = true ↔ a.Same b := by
  rw [identical_iff]
  constructor
  · intro h
    have hdigest := digest_eq_iff.mpr h
    cases a with
    | number x =>
      cases b with
      | number y => exact same_number_iff.mpr (identity_number_eq_iff.mp h)
      | _ => cases congrArg Prod.fst hdigest
    | _ =>
      cases b with
      | number y => cases congrArg Prod.fst hdigest
      | _ => cases hdigest <;> constructor
  · intro h
    cases h with
    | number equal => exact identity_number_eq_iff.mpr (same_number_iff.mp (.number equal))
    | _ => rfl

end Item

/-! ### Requests to a set -/

/-- What a set of items is asked for. -/
inductive SetRequest where
  | insert (item : Item)
  | contains (item : Item)
  | remove (item : Item)

namespace SetRequest

/-- The answer of a hash set, and the set after it: whether the item is new, or is there, or was there. -/
def askSet (request : SetRequest) (set : IdentitySet) : Bool × IdentitySet :=
  match request with
  | .insert item => set.add item
  | .contains item => (set.has item, set)
  | .remove item => (set.has item, set.erase ⟨item⟩)

/-- The same of a list that is searched from the front. -/
def askList (request : SetRequest) (items : List Item) : Bool × List Item :=
  match request with
  | .insert item => if items.any (·.identical item) then (false, items) else (true, items ++ [item])
  | .contains item => (items.any (·.identical item), items)
  | .remove item => (items.any (·.identical item), items.eraseP (·.identical item))

/-- The answers to requests that are made one after the other. -/
def answers {σ : Type} (ask : SetRequest → σ → Bool × σ) : σ → List SetRequest → List Bool
  | _, [] => []
  | held, request :: rest => (ask request held).1 :: answers ask (ask request held).2 rest

end SetRequest

/-- The set has the items that are identical to one in the list, and no two in the list are identical. -/
structure IdentitySet.Stands (set : IdentitySet) (items : List Item) : Prop where
  has_eq (item : Item) : set.has item = items.any (·.identical item)
  distinct : items.Pairwise fun x y => x.identical y = false

section Requests

variable {set : IdentitySet} {items : List Item}

/-- Where no two items are identical, taking one out leaves none that is identical to it. -/
lemma any_eraseP_identical (hdistinct : items.Pairwise fun x y => x.identical y = false) (item other : Item) :
    (items.eraseP (·.identical item)).any (·.identical other) =
      (!item.identical other && items.any (·.identical other)) := by
  induction items with
  | nil => simp
  | cons x items ih =>
    obtain ⟨hx, hitems⟩ := List.pairwise_cons.mp hdistinct
    cases hitem : x.identical item with
    | true =>
      have herase : (x :: items).eraseP (·.identical item) = items := by simp [hitem]
      rw [herase, List.any_cons, ← Item.identical_congr hitem other]
      cases hother : x.identical other with
      | false => rfl
      | true =>
        -- the items behind `x` are not identical to it, and so not to the other item
        refine List.any_eq_false.mpr fun y hy hyother => ?_
        have hxy : x.identical y = true := by
          rw [Item.identical_congr hother y, Item.identical_comm, hyother]
        rw [hx y hy] at hxy
        cases hxy
    | false =>
      have herase : (x :: items).eraseP (·.identical item) = x :: items.eraseP (·.identical item) := by simp [hitem]
      rw [herase, List.any_cons, ih hitems, List.any_cons]
      cases hother : x.identical other with
      | false => rfl
      | true =>
        have hne : item.identical other = false := by
          rw [Item.identical_comm, ← Item.identical_congr hother, hitem]
        rw [hne]
        rfl

/-- An item that is identical to one of the list adds nothing to it. -/
lemma identical_or_any {item : Item} (hknown : items.any (·.identical item) = true) (other : Item) :
    (item.identical other || items.any (·.identical other)) = items.any (·.identical other) := by
  cases hother : item.identical other with
  | false => rfl
  | true =>
    obtain ⟨x, hx, hitem⟩ := List.any_eq_true.mp hknown
    exact (List.any_eq_true.mpr ⟨x, hx, (Item.identical_congr hitem other).trans hother⟩).symm

/-- **A request is answered alike**, and the list stands for the set after it. -/
theorem IdentitySet.Stands.answer (h : set.Stands items) (request : SetRequest) :
    (request.askSet set).1 = (request.askList items).1 ∧ (request.askSet set).2.Stands (request.askList items).2 := by
  cases request with
  | insert item =>
    have hnew : (set.add item).1 = !items.any (·.identical item) := by rw [set.fst_add, h.has_eq]
    have hhas (other : Item) : (set.add item).2.has other = (item.identical other || items.any (·.identical other)) := by
      rw [set.has_add, h.has_eq]
    simp only [SetRequest.askSet, SetRequest.askList]
    cases hany : items.any (·.identical item) with
    | true =>
      rw [hany] at hnew
      exact ⟨hnew, fun other => (hhas other).trans (identical_or_any hany other), h.distinct⟩
    | false =>
      rw [hany] at hnew
      have hlast (x : Item) (hx : x ∈ items) : x.identical item = false := by
        simpa using List.any_eq_false.mp hany x hx
      have hdistinct : (items ++ [item]).Pairwise fun x y => x.identical y = false := by
        rw [List.pairwise_append]
        exact ⟨h.distinct, List.pairwise_singleton _ _, fun x hx y hy => List.mem_singleton.mp hy ▸ hlast x hx⟩
      refine ⟨hnew, fun other => ?_, hdistinct⟩
      rw [hhas]
      simp [Bool.or_comm]
  | contains item => exact ⟨h.has_eq item, h⟩
  | remove item =>
    refine ⟨h.has_eq item, fun other => ?_, h.distinct.sublist List.eraseP_sublist⟩
    have herase : IdentitySet.has (set.erase ⟨item⟩) other = (!item.identical other && set.has other) :=
      Std.HashSet.contains_erase
    rw [h.has_eq] at herase
    exact herase.trans (any_eraseP_identical h.distinct item other).symm

/-- **Requests are answered alike**, one after the other. -/
theorem IdentitySet.Stands.answers_eq (h : set.Stands items) (requests : List SetRequest) :
    SetRequest.answers (·.askSet) set requests = SetRequest.answers (·.askList) items requests := by
  induction requests generalizing set items with
  | nil => rfl
  | cons request requests ih =>
    obtain ⟨hanswer, hstands⟩ := h.answer request
    rw [SetRequest.answers, SetRequest.answers, hanswer, ih hstands]

end Requests

/-- **Keys by identity make lawful sets.**  Being one key is an equivalence, that of `Item.Same`, and a hasher is fed the same of
keys exactly if they are one, of a number the pattern that stands for its bits: numbers and patterns of 64 bits are the same, so
this is for each of them.  A hash set that starts empty answers any requests as a list does that is searched by identity. -/
theorem identity_keys_make_lawful_sets :
    Equivalence (fun a b : IdentityKey => (a == b) = true) ∧
    (∀ a b : IdentityKey, (a == b) = true ↔ a.item.Same b.item) ∧
    (∀ a b : IdentityKey, (a == b) = true ↔ a.item.digest = b.item.digest) ∧
    (∀ a : IdentityKey, hash a = hash a.item.digest) ∧
    (∀ bits, (Item.number (.ofBits bits)).digest = (.number, .bits (Number.canonicalBits bits))) ∧
    (∀ bits, (Number.ofBits bits).toBits = bits) ∧
    (∀ x : Number, .ofBits x.toBits = x) ∧
    (∀ requests, SetRequest.answers (·.askSet) (∅ : IdentitySet) requests = SetRequest.answers (·.askList) [] requests) := by
  refine ⟨⟨fun _ => BEq.rfl, BEq.symm, BEq.trans⟩, fun a b => Item.identical_iff_same, fun a b => ?_, fun a => rfl,
    fun bits => ?_, Number.toBits_ofBits, Number.ofBits_toBits, fun requests => ?_⟩
  · exact Item.identical_iff.trans Item.digest_eq_iff.symm
  · rw [← Number.keyBits_ofBits]
    rfl
  · have hempty : IdentitySet.Stands ∅ [] := ⟨fun item => IdentitySet.has_empty item, .nil⟩
    exact hempty.answers_eq requests

/-- Two numbers that are patterns of `nan` are one key, and so are both zeros; of two arrays with the same contents the one taken out is gone. -/
theorem identity_keys_of_two_nans_and_two_arrays :
    Number.ofBits 0x7FF8000000000000 ≠ .ofBits 0xFFF0000000000001 ∧
    (Item.number (.ofBits 0x7FF8000000000000)).digest = (Item.number (.ofBits 0xFFF0000000000001)).digest ∧
    SetRequest.answers (·.askSet) (∅ : IdentitySet)
        [.insert (.number .nan), .insert (.number (.ofBits 0)), .contains (.number (.ofBits 0x8000000000000000)),
          .insert (.array 1 []), .insert (.array 2 []), .insert (.array 1 []), .remove (.array 1 []), .contains (.array 1 []),
          .contains (.array 2 []), .insert (.number .nan)] =
      [true, true, true, true, true, false, true, false, true, false] := by
  obtain ⟨-, -, -, -, hbits, hpattern, -, hanswers⟩ := identity_keys_make_lawful_sets
  refine ⟨fun h => ?_, ?_, ?_⟩
  · have hbits := congrArg Number.toBits h
    rw [hpattern, hpattern] at hbits
    cases hbits
  · rw [hbits, hbits]
    rfl
  · rw [hanswers]
    decide

end LazyQuery
