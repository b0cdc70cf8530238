import LazyQuery.Fields
import Mathlib.Data.List.Forall2
import Mathlib.Tactic.Lemma

/-!
# Fields in order

Fields made of a list of pairs have their keys in increasing order (`Fields.inOrder_ofList`), and pairs that are in order
already are fields as they are (`Fields.ofList_of_inOrder`).

Under each key they have the last value that the pairs have under it (`Fields.get?_ofList`).  Fields in order can be compared
one after another or key by key, which is the same (`Fields.forall₂_iff_get?`); so those that have the same under each key are the
same (`Fields.eq_of_get?_eq`).
-/

namespace LazyQuery.Fields

variable {α : Type} {key : String} {value : α} {field : String × α} {fields pairs : Fields α}

/-- The keys increase, so each of them is there once. -/
def InOrder (fields : Fields α) : Prop :=
  fields.Pairwise fun a b => compare a.1 b.1 = .lt

instance : Decidable fields.InOrder :=
  inferInstanceAs (Decidable (List.Pairwise _ _))

/-! ### Putting in one field -/

lemma mem_of_mem_insert (h : field ∈ insert key value fields) : field = (key, value) ∨ field ∈ fields := by
  induction fields with
  | nil => exact .inl (List.mem_singleton.mp h)
  | cons first rest ih =>
    rw [insert] at h
    cases hcompare : compare key first.1 with
    | lt =>
      rw [hcompare] at h
      exact List.mem_cons.mp h
    | eq =>
      rw [hcompare] at h
      exact (List.mem_cons.mp h).imp_right (List.mem_cons_of_mem _)
    | gt =>
      rw [hcompare] at h
      rcases List.mem_cons.mp h with rfl | h
      · exact .inr List.mem_cons_self
      · exact (ih h).imp_right (List.mem_cons_of_mem _)

/-- **Fields stay in order.** -/
theorem inOrder_insert (h : fields.InOrder) : (insert key value fields).InOrder := by
  induction fields with
  | nil => exact List.pairwise_singleton _ _
  | cons first rest ih =>
    obtain ⟨hfirst, hrest⟩ := List.pairwise_cons.mp h
    rw [insert]
    cases hcompare : compare key first.1 with
    | lt =>
      refine List.pairwise_cons.mpr ⟨List.forall_mem_cons.mpr ⟨hcompare, fun field hfield => ?_⟩, h⟩
      exact Std.TransCmp.lt_trans hcompare (hfirst field hfield)
    | eq =>
      refine List.pairwise_cons.mpr ⟨fun field hfield => ?_, hrest⟩
      exact Std.TransCmp.lt_of_eq_of_lt hcompare (hfirst field hfield)
    | gt =>
      refine List.pairwise_cons.mpr ⟨fun field hfield => ?_, ih hrest⟩
      rcases mem_of_mem_insert hfield with rfl | hfield
      · exact Std.OrientedCmp.lt_of_gt hcompare
      · exact hfirst field hfield

/-- A key beyond all others goes to the end. -/
lemma insert_of_last (h : ∀ field ∈ fields, compare field.1 key = .lt) :
    insert key value fields = fields ++ [(key, value)] := by
  induction fields with
  | nil => rfl
  | cons first rest ih =>
    obtain ⟨hfirst, hrest⟩ := List.forall_mem_cons.mp h
    rw [insert, Std.OrientedCmp.gt_of_lt hfirst, ih hrest]
    rfl

/-! ### Fields of pairs -/

lemma mem_of_mem_ofList (h : field ∈ ofList pairs) : field ∈ pairs := by
  suffices ∀ fields : Fields α, field ∈ pairs.foldl (fun fields pair => insert pair.1 pair.2 fields) fields →
      field ∈ fields ∨ field ∈ pairs by
    exact (this [] h).resolve_left List.not_mem_nil
  clear h
  induction pairs with
  | nil => exact fun fields h => .inl h
  | cons pair pairs ih =>
    intro fields h
    rcases ih _ h with h | h
    · rcases mem_of_mem_insert h with rfl | h
      · exact .inr List.mem_cons_self
      · exact .inl h
    · exact .inr (List.mem_cons_of_mem _ h)

theorem inOrder_ofList (pairs : List (String × α)) : (ofList pairs).InOrder := by
  suffices ∀ fields : Fields α, fields.InOrder →
      InOrder (pairs.foldl (fun fields pair => insert pair.1 pair.2 fields) fields) by
    exact this [] .nil
  induction pairs with
  | nil => exact fun fields h => h
  | cons pair pairs ih => exact fun fields h => ih _ (inOrder_insert h)

/-- **Pairs that are in order are fields as they are.** -/
theorem ofList_of_inOrder (h : pairs.InOrder) : ofList pairs = pairs := by
  suffices ∀ fields : Fields α, InOrder (fields ++ pairs) →
      pairs.foldl (fun fields pair => insert pair.1 pair.2 fields) fields = fields ++ pairs by
    exact this [] h
  clear h
  induction pairs with
  | nil => exact fun fields _ => (List.append_nil fields).symm
  | cons pair pairs ih =>
    intro fields h
    have hlast : insert pair.1 pair.2 fields = fields ++ [pair] :=
      insert_of_last fun field hfield => (List.pairwise_append.mp h).2.2 field hfield pair List.mem_cons_self
    rw [List.foldl_cons, hlast, ih _ (by rwa [List.append_assoc]), List.append_assoc, List.singleton_append]

/-! ### Looking up a key -/

section Lookup

variable {k : String} {v : α} {β : Type} {R : α → β → Prop} {xs : Fields α} {ys : Fields β}

@[simp] lemma get?_nil : get? ([] : Fields α) key = none := rfl

lemma get?_cons : get? (field :: fields) key = if field.1 = key then some field.2 else get? fields key := by
  unfold get?
  by_cases h : field.1 = key
  · simp [h]
  · simp [h]

lemma get?_insert : get? (insert k v fields) key = if k = key then some v else get? fields key := by
  induction fields with
  | nil => exact get?_cons
  | cons first rest ih =>
    rw [insert]
    cases hcompare : compare k first.1 with
    | lt => exact get?_cons
    | eq =>
      have hkey : k = first.1 := Std.LawfulEqCmp.eq_of_compare hcompare
      simp only [get?_cons, hkey]
      split <;> rfl
    | gt =>
      have hkey : first.1 ≠ k := by
        intro heq
        simp [heq] at hcompare
      simp only [get?_cons, ih]
      by_cases hfirst : first.1 = key
      · rw [if_pos hfirst, if_neg (hfirst ▸ hkey.symm), if_pos hfirst]
      · rw [if_neg hfirst, if_neg hfirst]

/-- **Under each key there is the last value of the pairs.** -/
theorem get?_ofList (pairs : List (String × α)) (key : String) : get? (ofList pairs) key = pairs.reverse.lookup key := by
  suffices ∀ fields : Fields α, get? (pairs.foldl (fun fields pair => insert pair.1 pair.2 fields) fields) key =
      (pairs.reverse.lookup key).or (get? fields key) by
    rw [ofList, this]
    simp
  induction pairs with
  | nil => simp
  | cons pair pairs ih =>
    intro fields
    obtain ⟨first, value⟩ := pair
    rw [List.foldl_cons, ih, get?_insert, List.reverse_cons, List.lookup_append, Option.or_assoc]
    congr 1
    by_cases h : first = key
    · simp [h]
    · have hne : (key == first) = false := by simpa using Ne.symm h
      simp [List.lookup_cons, h, hne]

/-- A key that is below those of all fields is not one of them. -/
lemma get?_eq_none (h : ∀ field ∈ fields, compare key field.1 = .lt) : get? fields key = none := by
  unfold get?
  rw [Option.map_eq_none_iff, List.find?_eq_none]
  intro field hfield hkey
  have hlt := h field hfield
  simp [beq_iff_eq.mp hkey] at hlt

/-- **Fields in order are the same one after another if they are so key by key.** -/
theorem forall₂_iff_get? (hxs : xs.InOrder) (hys : ys.InOrder) :
    List.Forall₂ (fun field field' => field.1 = field'.1 ∧ R field.2 field'.2) xs ys ↔
      ∀ key, Option.Rel R (get? xs key) (get? ys key) := by
  constructor
  · intro h key
    clear hxs hys
    induction h with
    | nil => exact .none
    | @cons field field' _ _ hfields _ ih =>
      obtain ⟨hkey, hR⟩ := hfields
      rw [get?_cons, get?_cons, hkey]
      split
      · exact .some hR
      · exact ih
  · intro h
    -- the least key of either side must be one of the other
    induction xs generalizing ys with
    | nil =>
      rcases ys with _ | ⟨field', ys⟩
      · exact .nil
      · have hfirst := h field'.1
        rw [get?_cons, if_pos rfl] at hfirst
        cases hfirst
    | cons field xs ih =>
      obtain ⟨hfield, hxs⟩ := List.pairwise_cons.mp hxs
      rcases ys with _ | ⟨field', ys⟩
      · have hfirst := h field.1
        rw [get?_cons, if_pos rfl] at hfirst
        cases hfirst
      obtain ⟨hfield', hys⟩ := List.pairwise_cons.mp hys
      have hkey : field.1 = field'.1 := by
        cases hcompare : compare field.1 field'.1 with
        | eq => exact Std.LawfulEqCmp.eq_of_compare hcompare
        | lt =>
          have hnone : get? (field' :: ys) field.1 = none := by
            refine get?_eq_none (List.forall_mem_cons.mpr ⟨hcompare, fun other hother => ?_⟩)
            exact Std.TransCmp.lt_trans hcompare (hfield' other hother)
          have hfirst := h field.1
          rw [hnone, get?_cons, if_pos rfl] at hfirst
          cases hfirst
        | gt =>
          have hlt : compare field'.1 field.1 = .lt := Std.OrientedCmp.lt_of_gt hcompare
          have hnone : get? (field :: xs) field'.1 = none := by
            refine get?_eq_none (List.forall_mem_cons.mpr ⟨hlt, fun other hother => ?_⟩)
            exact Std.TransCmp.lt_trans hlt (hfield other hother)
          have hfirst := h field'.1
          rw [hnone, get?_cons, if_pos rfl] at hfirst
          cases hfirst
      have hvalue : R field.2 field'.2 := by
        have hfirst := h field.1
        rw [get?_cons, get?_cons, if_pos rfl, if_pos hkey.symm] at hfirst
        cases hfirst
        assumption
      refine .cons ⟨hkey, hvalue⟩ (ih hxs hys fun key => ?_)
      by_cases hfirst : field.1 = key
      · rw [← hfirst, get?_eq_none hfield, hkey, get?_eq_none hfield']
        exact .none
      · have hrest := h key
        rwa [get?_cons, get?_cons, if_neg hfirst, if_neg (hkey ▸ hfirst)] at hrest

/-- Fields in order are told apart by what they have under some key. -/
lemma eq_of_get?_eq {ys : Fields α} (hxs : xs.InOrder) (hys : ys.InOrder) (h : ∀ key, get? xs key = get? ys key) :
    xs = ys := by
  have hrel (key : String) : Option.Rel Eq (get? xs key) (get? ys key) := by
    rw [h key]
    cases get? ys key with
    | none => exact .none
    | some value => exact .some rfl
  have hfields := ((forall₂_iff_get? hxs hys).mpr hrel).imp fun _ _ h => Prod.ext h.1 h.2
  rwa [List.forall₂_eq_eq_eq] at hfields

end Lookup

end LazyQuery.Fields
