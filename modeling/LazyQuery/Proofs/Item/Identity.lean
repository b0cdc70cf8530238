import LazyQuery.Item.Identified
import LazyQuery.Proofs.Number.Exact

/-!
# Sets of items by identity

Items are identical if they have the same identity (`Item.identical_iff`), so being identical is an equivalence.  The keys of a
hash set follow it: a hasher is fed the same of items exactly if they have the same identity (`Item.digest_eq_iff`), so equal keys
have equal hashes.  An identity set therefore answers as a search through the items put into it (`IdentitySet.has_ofItems`,
`IdentitySet.has_add`).
-/

namespace LazyQuery

/-- What identity sees of an item: the value of a primitive, the two zeros being one and all that is not a number another, the
reference of a composite. -/
inductive Identity where
  | null
  | bool (value : Bool)
  | nan
  | number (key : Int)
  | string (text : String)
  | array (ref : Ref)
  | object (ref : Ref)
  deriving DecidableEq

def Item.identity : Item → Identity
  | .null => .null
  | .bool value => .bool value
  | .number value =>
    match value.key? with
    | none => .nan
    | some key => .number key
  | .string text => .string text
  | .array ref _ => .array ref
  | .object ref _ => .object ref

/-! ### What a hasher is fed -/

namespace Number

variable {x y : Number} {k : Int}

lemma isNaN_iff : x.isNaN = true ↔ x.key? = none := by
  rcases x with _ | ⟨_ | _, rank⟩ <;> simp [isNaN, key?]

lemma natAbs_le_of_key (h : x.key? = some k) : k.natAbs ≤ infiniteRank := by
  rcases x with _ | ⟨_ | _, rank⟩
  · cases h
  · cases h
    omega
  · cases h
    omega

lemma toNat_toBits_real (negative : Bool) (rank : Fin (infiniteRank + 1)) :
    (real negative rank).toBits.toNat = rank.val + if negative then 0x8000000000000000 else 0 := by
  have hrank : rank.val ≤ infiniteRank := Nat.le_of_lt_succ rank.isLt
  unfold infiniteRank at hrank
  rw [toBits, UInt64.toNat_ofNat_of_lt']
  rw [UInt64.size]
  split <;> omega

/-- The bits of a number in a digest are read off its signed rank. -/
lemma toNat_keyBits (x : Number) : x.keyBits.toNat =
    match x.key? with
    | none => 0x7FF8000000000000
    | some k => k.natAbs + if k < 0 then 0x8000000000000000 else 0 := by
  unfold keyBits isZero
  rcases x with _ | ⟨negative, rank⟩
  · rfl
  · rw [if_neg (by rw [isNaN_iff]; cases negative <;> simp [key?])]
    by_cases hzero : (real negative rank).key? = some 0
    · rw [if_pos (beq_iff_eq.mpr hzero), hzero]
      rfl
    · rw [if_neg (mt beq_iff_eq.mp hzero), toNat_toBits_real]
      cases negative with
      | false => simp [key?]
      | true =>
        have hrank : rank ≠ 0 := by
          rintro rfl
          exact hzero rfl
        simp [key?, hrank]

/-- **Numbers have the same bits in a digest if they have the same signed rank**, or none. -/
theorem keyBits_eq_iff : x.keyBits = y.keyBits ↔ x.key? = y.key? := by
  rw [← UInt64.toNat_inj, toNat_keyBits, toNat_keyBits]
  constructor
  · intro h
    -- the quiet pattern of `nan` lies above infinity and below all patterns with a sign
    have hbound {z : Number} {k : Int} (hz : z.key? = some k) : k.natAbs ≤ 0x7FF0000000000000 := natAbs_le_of_key hz
    cases hx : x.key? with
    | none =>
      cases hy : y.key? with
      | none => rfl
      | some l =>
        have hl := hbound hy
        simp only [hx, hy] at h
        split at h <;> omega
    | some k =>
      have hk := hbound hx
      cases hy : y.key? with
      | none =>
        simp only [hx, hy] at h
        split at h <;> omega
      | some l =>
        have hl := hbound hy
        simp only [hx, hy] at h
        congr 1
        split at h <;> split at h <;> omega
  · intro h
    rw [h]

end Number

namespace Item

lemma identity_number_eq_iff {x y : Number} : (Item.number x).identity = (Item.number y).identity ↔ x.key? = y.key? := by
  simp only [identity]
  cases x.key? <;> cases y.key? <;> simp

/-- **A hasher is fed the same of items that have the same identity**, and of no others. -/
theorem digest_eq_iff {a b : Item} : a.digest = b.digest ↔ a.identity = b.identity := by
  cases a with
  | number x =>
    cases b with
    | number y =>
      rw [identity_number_eq_iff, ← Number.keyBits_eq_iff]
      simp [digest, typeTag]
    | _ => cases hkey : x.key? <;> simp [digest, typeTag, identity, hkey]
  | _ =>
    cases b with
    | number y => cases hkey : y.key? <;> simp [digest, typeTag, identity, hkey]
    | _ => simp [digest, typeTag, identity]

/-! ### Being identical -/

lemma identical_number_iff {x y : Number} : (Item.number x).identical (.number y) = true ↔ x.key? = y.key? := by
  rw [identical, Bool.or_eq_true, Bool.and_eq_true, Number.equals_iff_key, Number.isNaN_iff, Number.isNaN_iff]
  cases x.key? <;> cases y.key? <;> simp [eq_comm]

/-- **Items are identical if they have the same identity**, and only then. -/
theorem identical_iff {a b : Item} : a.identical b = true ↔ a.identity = b.identity := by
  cases a with
  | number x =>
    cases b with
    | number y => rw [identical_number_iff, identity_number_eq_iff]
    | _ => cases hkey : x.key? <;> simp [identical, identity, hkey]
  | _ =>
    cases b with
    | number y => cases hkey : y.key? <;> simp [identical, identity, hkey]
    | _ => simp [identical, identity]

lemma identical_eq (a b : Item) : a.identical b = (a.identity == b.identity) := by
  rw [Bool.eq_iff_iff, identical_iff, beq_iff_eq]

@[simp] lemma identical_self (a : Item) : a.identical a = true :=
  identical_iff.mpr rfl

lemma identical_comm (a b : Item) : a.identical b = b.identical a := by
  rw [identical_eq, identical_eq, BEq.comm]

/-- Identical items are identical to the same items. -/
lemma identical_congr {a b : Item} (h : a.identical b = true) (c : Item) : a.identical c = b.identical c := by
  rw [identical_eq, identical_eq, identical_iff.mp h]

end Item

namespace IdentityKey

instance : EquivBEq IdentityKey where
  rfl {a} := a.item.identical_self
  symm {a b} h := (b.item.identical_comm a.item).trans h
  trans {_ _ c} hab hbc := (Item.identical_congr hab c.item).trans hbc

instance : LawfulHashable IdentityKey where
  hash_eq a b h := by
    show hash a.item.digest = hash b.item.digest
    rw [Item.digest_eq_iff.mpr (Item.identical_iff.mp h)]

end IdentityKey

namespace IdentitySet

variable (set : IdentitySet) (item other : Item)

@[simp] lemma has_empty : has ∅ item = false :=
  Std.HashSet.contains_empty

/-- An item is new if the set does not have it yet. -/
lemma fst_add : (set.add item).1 = !set.has item := by
  have hknown : (set.containsThenInsert ⟨item⟩).1 = set.has item := Std.HashSet.containsThenInsert_fst
  exact congrArg (!·) hknown

lemma has_insert : has (set.insert ⟨item⟩) other = (item.identical other || set.has other) :=
  Std.HashSet.contains_insert

@[simp] lemma has_add : (set.add item).2.has other = (item.identical other || set.has other) := by
  have hadd : (set.add item).2 = set.insert ⟨item⟩ := Std.HashSet.containsThenInsert_snd
  rw [hadd, has_insert]

/-- A set does not tell identical items apart. -/
lemma has_congr {item other : Item} (h : item.identical other = true) : set.has item = set.has other :=
  Std.HashSet.contains_congr (m := set) h

/-- **A set of items has the items that are identical to one of them.** -/
theorem has_ofItems (items : List Item) : (ofItems items).has item = items.any fun member => member.identical item := by
  suffices ∀ set : IdentitySet, has (items.foldl (fun set item => set.insert ⟨item⟩) set) item =
      (set.has item || items.any fun member => member.identical item) by
    rw [ofItems, this, has_empty, Bool.false_or]
  induction items with
  | nil => simp
  | cons member items ih =>
    intro set
    rw [List.foldl_cons, ih, has_insert, List.any_cons, ← Bool.or_assoc, Bool.or_comm (set.has item)]

end IdentitySet

end LazyQuery
