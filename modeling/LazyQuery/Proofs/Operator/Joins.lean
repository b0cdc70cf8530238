import LazyQuery.Proofs.Operator.Failure
import LazyQuery.Proofs.Sequence.Feeding

/-!
# The two joins

Both joins work out the key of an outer item and then, for this item, the keys of all inner ones anew.  So the keys come from
sessions that differ, and so do the composites that keys are made of.  If keys depend on the items alone (`Callable.Pure`),
then their comparison is the same in all sessions (`keysEqual_run`), also where keys are made anew, where they hold `nan`,
and where they are composites of the items themselves.

Therefore the inner items that match an outer one are the same in both joins: they are those of the nested loop, with which
both agree (`joins_agree_with_the_nested_loop`).
-/

namespace LazyQuery

open Sequence

/-! ### Functions of items alone -/

/-- Work that makes no reference known again. -/
def Eff.Grows {α : Type} (work : Eff α) : Prop :=
  ∀ σ : Session, σ.nextRef ≤ (work σ).2.nextRef

lemma Eff.Grows.le {α : Type} {work : Eff α} {a : α} {σ τ : Session} (h : work.Grows) (hrun : work σ = (a, τ)) :
    σ.nextRef ≤ τ.nextRef := by
  have hle := h σ
  rwa [hrun] at hle

namespace Session

/-- The references of composites that are made in `σ`, as they are if the composites are made in the session `τ`. -/
def shift (σ τ : Session) (ref : Ref) : Ref :=
  if ref < σ.nextRef then ref else ref + (τ.nextRef - σ.nextRef)

variable {σ τ : Session} {ref : Ref}

lemma shift_of_lt (h : ref < σ.nextRef) : σ.shift τ ref = ref :=
  if_pos h

lemma shift_of_le (h : σ.nextRef ≤ ref) : σ.shift τ ref = ref + (τ.nextRef - σ.nextRef) :=
  if_neg h.not_gt

/-- What is made in the later session has references of it. -/
lemma le_shift (hστ : σ.nextRef ≤ τ.nextRef) (h : σ.nextRef ≤ ref) : τ.nextRef ≤ σ.shift τ ref := by
  rw [shift_of_le h]
  have hadd : σ.nextRef + (τ.nextRef - σ.nextRef) = τ.nextRef := Nat.add_sub_of_le hστ
  exact hadd.ge.trans (Nat.add_le_add_right h _)

lemma le_shift_self (ref : Ref) : ref ≤ σ.shift τ ref := by
  unfold shift
  split
  · exact le_rfl
  · exact Nat.le_add_right _ _

end Session

/-- What the function comes to depends on the item alone.  It comes to the same in a later session, but for the references of
composites that it makes, which are later by as much.  Other composites in the result are those of the item, or have
references below the bound. -/
structure Callable.Pure (bound : Ref) (f : Callable) : Prop where
  grows (x : Item) : (f.call x).Grows
  known (x : Item) (σ : Session) : bound ≤ σ.nextRef → x.Below σ.nextRef → (f.call x σ).1.Below (f.call x σ).2.nextRef
  same (x : Item) (σ τ : Session) : bound ≤ σ.nextRef → x.Below σ.nextRef → σ.nextRef ≤ τ.nextRef →
    (f.call x τ).1 = (f.call x σ).1.mapRefs (σ.shift τ)

/-- Is the key of an outer item equal to that of an inner one? -/
def keysEqual (outerKey innerKey : Callable) (x y : Item) : Eff Bool := do
  let key ← outerKey.call x
  return key.structurallyEqual (← innerKey.call y)

section Keys

variable {bound : Ref} {outerKey innerKey : Callable} {x y : Item} {σ τ υ ω : Session}

/-- The comparison of an outer key with an inner key from a later session does not change when the outer key is from a later
session, and the inner key from another one behind that. -/
lemma structurallyEqual_keys (houter : outerKey.Pure bound) (hinner : innerKey.Pure bound) (hx : x.Below σ.nextRef)
    (hy : y.Below bound) (hσ : bound ≤ σ.nextRef) (hστ : σ.nextRef ≤ τ.nextRef)
    (hυ : (outerKey.call x σ).2.nextRef ≤ υ.nextRef) (hω : (outerKey.call x τ).2.nextRef ≤ ω.nextRef) :
    (outerKey.call x σ).1.structurallyEqual (innerKey.call y υ).1 =
      (outerKey.call x τ).1.structurallyEqual (innerKey.call y ω).1 := by
  -- both inner keys are compared with the one from the first session in which the inner item is known
  let β : Session := ⟨bound, #[]⟩
  have houterσ : σ.nextRef ≤ (outerKey.call x σ).2.nextRef := houter.grows x σ
  have houterτ : τ.nextRef ≤ (outerKey.call x τ).2.nextRef := houter.grows x τ
  have hkeyσ := houter.known x σ hσ hx
  have hkeyτ := houter.known x τ (hσ.trans hστ) (hx.mono hστ)
  have hβυ : β.nextRef ≤ υ.nextRef := hσ.trans (houterσ.trans hυ)
  have hβω : β.nextRef ≤ ω.nextRef := (hσ.trans hστ).trans (houterτ.trans hω)
  have houterShift := houter.same x σ τ hσ hx hστ
  rw [hinner.same y β υ le_rfl hy hβυ, hinner.same y β ω le_rfl hy hβω, houterShift]
  rw [houterShift] at hkeyτ
  have hrefs : ∀ r s, (outerKey.call x σ).1.Uses r → (innerKey.call y β).1.Uses s →
      (id r = β.shift υ s ↔ σ.shift τ r = β.shift ω s) := by
    intro r s hr _
    have hrσ : r < (outerKey.call x σ).2.nextRef := hkeyσ r hr
    have hrτ : σ.shift τ r < (outerKey.call x τ).2.nextRef := hkeyτ _ hr.mapRefs
    rcases lt_or_ge s β.nextRef with hs | hs
    · -- not made with the inner key
      rw [Session.shift_of_lt hs, Session.shift_of_lt hs]
      rcases lt_or_ge r σ.nextRef with hr | hr
      · rw [Session.shift_of_lt hr]
        rfl
      · have hsr : s < r := hs.trans_le (hσ.trans hr)
        exact iff_of_false hsr.ne' (hsr.trans_le (Session.le_shift_self r)).ne'
    · -- made with the inner key, and so later than all that is in the outer one
      have hrυ : r < β.shift υ s := (hrσ.trans_le hυ).trans_le (Session.le_shift hβυ hs)
      have hrω : σ.shift τ r < β.shift ω s := (hrτ.trans_le hω).trans_le (Session.le_shift hβω hs)
      exact iff_of_false hrυ.ne hrω.ne
  have hkeys := Item.structurallyEqual_mapRefs hrefs
  have hkey : (outerKey.call x σ).1.mapRefs id = (outerKey.call x σ).1 := Item.mapRefs_eq_self fun _ _ => rfl
  rwa [hkey] at hkeys

/-- **Keys are equal in one session if they are in another**, as long as the outer item is known. -/
theorem keysEqual_run (houter : outerKey.Pure bound) (hinner : innerKey.Pure bound) (hy : y.Below bound)
    (hσ : bound ≤ σ.nextRef) (hxσ : x.Below σ.nextRef) (hτ : bound ≤ τ.nextRef) (hxτ : x.Below τ.nextRef) :
    (keysEqual outerKey innerKey x y σ).1 = (keysEqual outerKey innerKey x y τ).1 := by
  rcases le_total σ.nextRef τ.nextRef with hστ | hτσ
  · exact structurallyEqual_keys houter hinner hxσ hy hσ hστ le_rfl le_rfl
  · exact (structurallyEqual_keys houter hinner hxτ hy hτ hτσ le_rfl le_rfl).symm

/-- An outer key is compared with inner keys from later sessions as it is with those from the next. -/
lemma structurallyEqual_later (houter : outerKey.Pure bound) (hinner : innerKey.Pure bound) (hx : x.Below σ.nextRef)
    (hy : y.Below bound) (hσ : bound ≤ σ.nextRef) (hυ : (outerKey.call x σ).2.nextRef ≤ υ.nextRef) :
    (outerKey.call x σ).1.structurallyEqual (innerKey.call y υ).1 = (keysEqual outerKey innerKey x y σ).1 :=
  structurallyEqual_keys houter hinner hx hy hσ le_rfl hυ le_rfl

end Keys

/-! ### Rows -/

namespace Stage

/-- The row of an outer item with the array of its matches. -/
def groupRow (result : Option Callable) (outer : Item) (members : List Item) : Eff Item := do
  let found ← newArray members
  match result with
  | some f => f.call2 outer found
  | none => newObject [("outer", outer), ("inner", found)]

/-- The row of an outer item with one of its matches. -/
def pairRow (result : Option Callable) (outer inner : Item) : Eff Item :=
  match result with
  | some f => f.call2 outer inner
  | none => newArray [outer, inner]

section Rows

variable {inner : List Item} {outerKey innerKey : Callable} {result : Option Callable} {outer key : Item} {σ : Session}
  {p : Item → Bool}

lemma groupJoin_eq :
    groupJoin inner outerKey innerKey result = .map (.ofItems fun outer => do
      let row ← do
        let key ← outerKey.call outer
        groupRow result outer (← matching innerKey key inner)
      return .ok row) := by
  refine congrArg Stage.map (Handler.eq_ofItems fun outer => ?_)
  cases result <;> rfl

lemma joinWith_eq :
    joinWith inner outerKey innerKey result = .expand (.ofItems fun outer => do
      let rows ← do
        let key ← outerKey.call outer
        joinRows innerKey result outer key inner
      return .ok rows) [] :=
  congrArg (Stage.expand · []) (Handler.eq_ofItems fun _ => rfl)

lemma groupRow_grows (hresult : ∀ f, result = some f → ∀ x y, (f.call2 x y).Grows) (outer : Item)
    (members : List Item) : (groupRow result outer members).Grows := by
  intro σ
  cases result with
  | none => exact (Nat.le_succ _).trans (Nat.le_succ _)
  | some f =>
    let τ : Session := { σ with nextRef := σ.nextRef + 1 }
    exact (Nat.le_succ _).trans (hresult f rfl outer (.array σ.nextRef members) τ)

lemma pairRow_grows (hresult : ∀ f, result = some f → ∀ x y, (f.call2 x y).Grows) (outer inner : Item) :
    (pairRow result outer inner).Grows := by
  intro σ
  cases result with
  | none => exact Nat.le_succ _
  | some f => exact hresult f rfl _ _ _

lemma joinRows_cons (inner : Item) (rest : List Item) :
    joinRows innerKey result outer key (inner :: rest) = (do
      if key.structurallyEqual (← innerKey.call inner) then
        let row ← pairRow result outer inner
        return row :: (← joinRows innerKey result outer key rest)
      else joinRows innerKey result outer key rest) := by
  cases result <;> rfl

/-- The inner items whose key equals the outer key, as far as that does not depend on when the inner key is worked out. -/
lemma matching_run (hgrows : ∀ y, (innerKey.call y).Grows)
    (hkeys : ∀ y ∈ inner, ∀ υ : Session, σ.nextRef ≤ υ.nextRef →
      key.structurallyEqual (innerKey.call y υ).1 = p y) :
    ∃ τ : Session, matching innerKey key inner σ = (inner.filter p, τ) ∧ σ.nextRef ≤ τ.nextRef := by
  induction inner generalizing σ with
  | nil => exact ⟨σ, rfl, le_rfl⟩
  | cons y rest ih =>
    rcases hcall : innerKey.call y σ with ⟨key', υ⟩
    have hυ : σ.nextRef ≤ υ.nextRef := (hgrows y).le hcall
    have hy : key.structurallyEqual key' = p y := by
      have h := hkeys y List.mem_cons_self σ le_rfl
      rwa [hcall] at h
    obtain ⟨τ, hrest, hτ⟩ := ih (σ := υ) fun y hy ω hω => hkeys y (List.mem_cons_of_mem _ hy) ω (hυ.trans hω)
    refine ⟨τ, ?_, hυ.trans hτ⟩
    rw [matching, Eff.bind_run hcall, hy]
    cases hp : p y with
    | true =>
      rw [if_pos rfl, Eff.bind_run hrest, List.filter_cons_of_pos hp]
      rfl
    | false =>
      rw [if_neg Bool.false_ne_true, hrest, List.filter_cons_of_neg (by simp [hp])]

/-- The rows with the inner items whose key equals the outer key, in the same way. -/
lemma joinRows_run (hgrows : ∀ y, (innerKey.call y).Grows)
    (hresult : ∀ f, result = some f → ∀ x y, (f.call2 x y).Grows)
    (hkeys : ∀ y ∈ inner, ∀ υ : Session, σ.nextRef ≤ υ.nextRef →
      key.structurallyEqual (innerKey.call y υ).1 = p y) :
    ∃ (rows : List Item) (τ : Session), joinRows innerKey result outer key inner σ = (rows, τ) ∧ σ.nextRef ≤ τ.nextRef ∧
      List.Forall₂ (fun y row => (pairRow result outer y).Answers row) (inner.filter p) rows := by
  induction inner generalizing σ with
  | nil => exact ⟨[], σ, rfl, le_rfl, .nil⟩
  | cons y rest ih =>
    rcases hcall : innerKey.call y σ with ⟨key', υ⟩
    have hυ : σ.nextRef ≤ υ.nextRef := (hgrows y).le hcall
    have hy : key.structurallyEqual key' = p y := by
      have h := hkeys y List.mem_cons_self σ le_rfl
      rwa [hcall] at h
    cases hp : p y with
    | true =>
      rcases hpair : pairRow result outer y υ with ⟨row, ω⟩
      have hω : υ.nextRef ≤ ω.nextRef := (pairRow_grows hresult outer y).le hpair
      obtain ⟨rows, τ, hrest, hτ, hrows⟩ := ih (σ := ω) fun y hy κ hκ =>
        hkeys y (List.mem_cons_of_mem _ hy) κ ((hυ.trans hω).trans hκ)
      refine ⟨row :: rows, τ, ?_, (hυ.trans hω).trans hτ, ?_⟩
      · rw [joinRows_cons, Eff.bind_run hcall, hy, hp, if_pos rfl, Eff.bind_run hpair, Eff.bind_run hrest]
        rfl
      · rw [List.filter_cons_of_pos hp]
        exact .cons ⟨υ, ω, hpair⟩ hrows
    | false =>
      obtain ⟨rows, τ, hrest, hτ, hrows⟩ := ih (σ := υ) fun y hy ω hω =>
        hkeys y (List.mem_cons_of_mem _ hy) ω (hυ.trans hω)
      refine ⟨rows, τ, ?_, hυ.trans hτ, ?_⟩
      · rw [joinRows_cons, Eff.bind_run hcall, hy, hp, if_neg Bool.false_ne_true, hrest]
      · rwa [List.filter_cons_of_neg (by simp [hp])]

end Rows

end Stage

/-! ### The nested loop -/

/-- A join of the given elements, by the given keys, and with no result function or one that makes no reference known
again. -/
structure Part.Joins (operator : Operator) (inner : List Item) (outerKey innerKey : Callable) (part : Part) : Prop where
  operator : part.operator = operator
  inner : ∃ ref, part.literal? 0 = some (.array ref inner)
  outerKey : part.function? 1 = some outerKey
  innerKey : part.function? 2 = some innerKey
  result : ∀ f, part.function? 3 = some f → ∀ x y, (f.call2 x y).Grows

section NestedLoop

variable {bound : Ref} {source : Sequence} {P : List Item → Ending → Prop} {inner : List Item}
  {outerKey innerKey : Callable} {result : Option Callable} {part : Part} {x : Item} {σ : Session}

lemma plan_groupJoin (h : part.Joins .groupJoin inner outerKey innerKey) :
    part.plan = .ok (.lazily [.groupJoin inner outerKey innerKey (part.function? 3)]) := by
  obtain ⟨hoperator, ⟨ref, hinner⟩, houter, hinnerKey, -⟩ := h
  obtain ⟨operator, arguments⟩ := part
  cases hoperator
  unfold Part.plan
  rw [requireElements_of_literal? hinner, requireFunction_of_function? houter, requireFunction_of_function? hinnerKey]
  rfl

lemma plan_joinWith (h : part.Joins .joinWith inner outerKey innerKey) :
    part.plan = .ok (.lazily [.joinWith inner outerKey innerKey (part.function? 3)]) := by
  obtain ⟨hoperator, ⟨ref, hinner⟩, houter, hinnerKey, -⟩ := h
  obtain ⟨operator, arguments⟩ := part
  cases hoperator
  unfold Part.plan
  rw [requireElements_of_literal? hinner, requireFunction_of_function? houter, requireFunction_of_function? hinnerKey]
  rfl

/-- The inner items whose key, in the session, is equal to that of the outer item. -/
def innerMatches (inner : List Item) (outerKey innerKey : Callable) (σ : Session) (x : Item) : List Item :=
  inner.filter fun y => (keysEqual outerKey innerKey x y σ).1

/-- They are the same in all sessions in which the outer item is known. -/
lemma exists_innerMatches (hinner : ∀ y ∈ inner, y.Below bound) (houter : outerKey.Pure bound)
    (hinnerKey : innerKey.Pure bound) :
    ∃ found : Item → List Item, ∀ (x : Item) (σ : Session), bound ≤ σ.nextRef → x.Below σ.nextRef →
      found x = innerMatches inner outerKey innerKey σ x := by
  have hsame : ∀ x : Item, ∃ ys : List Item, ∀ σ : Session, bound ≤ σ.nextRef → x.Below σ.nextRef →
      ys = innerMatches inner outerKey innerKey σ x := by
    intro x
    by_cases hknown : ∃ σ : Session, bound ≤ σ.nextRef ∧ x.Below σ.nextRef
    · obtain ⟨σ, hσ, hxσ⟩ := hknown
      refine ⟨innerMatches inner outerKey innerKey σ x, fun τ hτ hxτ => List.filter_congr fun y hy => ?_⟩
      exact keysEqual_run houter hinnerKey (hinner y hy) hσ hxσ hτ hxτ
    · exact ⟨[], fun σ hσ hxσ => absurd ⟨σ, hσ, hxσ⟩ hknown⟩
  choose found hfound using hsame
  exact ⟨found, hfound⟩

/-- The outer key, and what its comparisons with later inner keys come to. -/
lemma outerKey_run (hinner : ∀ y ∈ inner, y.Below bound) (houter : outerKey.Pure bound) (hinnerKey : innerKey.Pure bound)
    (hσ : bound ≤ σ.nextRef) (hx : x.Below σ.nextRef) :
    ∃ (key : Item) (τ : Session), outerKey.call x σ = (key, τ) ∧ σ.nextRef ≤ τ.nextRef ∧
      ∀ y ∈ inner, ∀ υ : Session, τ.nextRef ≤ υ.nextRef →
        key.structurallyEqual (innerKey.call y υ).1 = (keysEqual outerKey innerKey x y σ).1 :=
  ⟨_, _, rfl, houter.grows x σ, fun y hy _ hυ => structurallyEqual_later houter hinnerKey hx (hinner y hy) hσ hυ⟩

/-- What `groupJoin` does with an outer item. -/
def groupWork (inner : List Item) (outerKey innerKey : Callable) (result : Option Callable) (outer : Item) : Eff Item := do
  let key ← outerKey.call outer
  Stage.groupRow result outer (← Stage.matching innerKey key inner)

/-- What `joinWith` does with an outer item. -/
def joinWork (inner : List Item) (outerKey innerKey : Callable) (result : Option Callable) (outer : Item) :
    Eff (List Item) := do
  let key ← outerKey.call outer
  Stage.joinRows innerKey result outer key inner

lemma groupWork_run (hinner : ∀ y ∈ inner, y.Below bound) (houter : outerKey.Pure bound)
    (hinnerKey : innerKey.Pure bound) (hresult : ∀ f, result = some f → ∀ x y, (f.call2 x y).Grows)
    (hσ : bound ≤ σ.nextRef) (hx : x.Below σ.nextRef) :
    (Stage.groupRow result x (innerMatches inner outerKey innerKey σ x)).Answers
        (groupWork inner outerKey innerKey result x σ).1 ∧
      σ.nextRef ≤ (groupWork inner outerKey innerKey result x σ).2.nextRef := by
  obtain ⟨key, τ, hkey, hτ, hkeys⟩ := outerKey_run hinner houter hinnerKey hσ hx
  obtain ⟨υ, hmatching, hυ⟩ := Stage.matching_run hinnerKey.grows hkeys
  rcases hrow : Stage.groupRow result x (innerMatches inner outerKey innerKey σ x) υ with ⟨row, ω⟩
  have hω : υ.nextRef ≤ ω.nextRef := (Stage.groupRow_grows hresult x _).le hrow
  have hrun : groupWork inner outerKey innerKey result x σ = (row, ω) := by
    rw [groupWork, Eff.bind_run hkey, Eff.bind_run hmatching]
    exact hrow
  rw [hrun]
  exact ⟨⟨υ, ω, hrow⟩, (hτ.trans hυ).trans hω⟩

lemma joinWork_run (hinner : ∀ y ∈ inner, y.Below bound) (houter : outerKey.Pure bound)
    (hinnerKey : innerKey.Pure bound) (hresult : ∀ f, result = some f → ∀ x y, (f.call2 x y).Grows)
    (hσ : bound ≤ σ.nextRef) (hx : x.Below σ.nextRef) :
    List.Forall₂ (fun y row => (Stage.pairRow result x y).Answers row) (innerMatches inner outerKey innerKey σ x)
        (joinWork inner outerKey innerKey result x σ).1 ∧
      σ.nextRef ≤ (joinWork inner outerKey innerKey result x σ).2.nextRef := by
  obtain ⟨key, τ, hkey, hτ, hkeys⟩ := outerKey_run hinner houter hinnerKey hσ hx
  obtain ⟨rows, υ, hjoin, hυ, hrows⟩ := Stage.joinRows_run hinnerKey.grows hresult hkeys
  have hrun : joinWork inner outerKey innerKey result x σ = (rows, υ) := by
    rw [joinWork, Eff.bind_run hkey, hjoin]
  rw [hrun]
  exact ⟨hrows, hτ.trans hυ⟩

lemma length_flatten_rows {α β γ : Type} {R : α → List γ → Prop} {S : α → List β} {xs : List α} {rows : List (List γ)}
    (h : List.Forall₂ R xs rows) (hlength : ∀ x row, R x row → row.length = (S x).length) :
    rows.flatten.length = (xs.map fun x => (S x).length).sum := by
  induction h with
  | nil => rfl
  | cons hrow _ ih => rw [List.flatten_cons, List.length_append, List.map_cons, List.sum_cons, ih, hlength _ _ hrow]

/-- **Both joins agree with the nested loop**, on a source that may fail at its end.  The matches of an outer item are the
inner items whose key is structurally equal to its key, in their order; they are the same in every session, and so in both
joins.

* `groupJoin` makes one row of each outer item and the array of its matches, in the order of the outer items;
* `joinWith` makes for each outer item, in order, one row of the item and each of its matches, in order, and so as many
  rows as there are matches in those of `groupJoin`;
* both end as the source does. -/
theorem joins_agree_with_the_nested_loop (hsource : source.Supplies bound P) (hinner : ∀ y ∈ inner, y.Below bound)
    (houter : outerKey.Pure bound) (hinnerKey : innerKey.Pure bound) :
    ∃ found : Item → List Item,
      (∀ (x : Item) (σ : Session), bound ≤ σ.nextRef → x.Below σ.nextRef →
        found x = inner.filter fun y => (keysEqual outerKey innerKey x y σ).1) ∧
      (∀ grouped : Part, grouped.Joins .groupJoin inner outerKey innerKey →
        ∃ out, (∀ budget, apply budget (.sequence source) grouped = pure (.sequence out)) ∧
          ∀ σ : Session, bound ≤ σ.nextRef → ∃ xs rows ending τ, P xs ending ∧ Drains σ out rows ending τ ∧
            List.Forall₂ (fun x row => (Stage.groupRow (grouped.function? 3) x (found x)).Answers row) xs rows) ∧
      ∀ joined : Part, joined.Joins .joinWith inner outerKey innerKey →
        ∃ out, (∀ budget, apply budget (.sequence source) joined = pure (.sequence out)) ∧
          ∀ σ : Session, bound ≤ σ.nextRef → ∃ xs rows ending τ, P xs ending ∧ Drains σ out rows.flatten ending τ ∧
            List.Forall₂ (fun x row =>
              List.Forall₂ (fun y pair => (Stage.pairRow (joined.function? 3) x y).Answers pair) (found x) row) xs rows ∧
            rows.flatten.length = (xs.map fun x => (found x).length).sum := by
  obtain ⟨found, hfound⟩ := exists_innerMatches hinner houter hinnerKey
  refine ⟨found, hfound, fun grouped hgrouped => ?_, fun joined hjoined => ?_⟩
  · refine ⟨_, fun budget => apply_of_stages budget (plan_groupJoin hgrouped), fun σ hσ => ?_⟩
    obtain ⟨fed, ending, τ, hfed, hP, hrows⟩ := hsource.feedsAll
      (groupWork inner outerKey innerKey (grouped.function? 3))
      (fun x row => (Stage.groupRow (grouped.function? 3) x (found x)).Answers row) (fun x σ hσ hx => by
        rw [hfound x σ hσ hx]
        exact groupWork_run hinner houter hinnerKey hgrouped.result hσ hx) hσ
    refine ⟨fed.map Prod.fst, fed.map Prod.snd, ending, τ, hP, ?_, ?_⟩
    · rw [Stage.groupJoin_eq]
      exact hfed.drains_map fun _ => rfl
    · rw [List.forall₂_map_left_iff, List.forall₂_map_right_iff, List.forall₂_same]
      exact hrows
  · refine ⟨_, fun budget => apply_of_stages budget (plan_joinWith hjoined), fun σ hσ => ?_⟩
    obtain ⟨fed, ending, τ, hfed, hP, hrows⟩ := hsource.feedsAll
      (joinWork inner outerKey innerKey (joined.function? 3))
      (fun x row => List.Forall₂ (fun y pair => (Stage.pairRow (joined.function? 3) x y).Answers pair) (found x) row)
      (fun x σ hσ hx => by
        rw [hfound x σ hσ hx]
        exact joinWork_run hinner houter hinnerKey hjoined.result hσ hx) hσ
    have hall : List.Forall₂ (fun x row =>
        List.Forall₂ (fun y pair => (Stage.pairRow (joined.function? 3) x y).Answers pair) (found x) row)
        (fed.map Prod.fst) (fed.map Prod.snd) := by
      rw [List.forall₂_map_left_iff, List.forall₂_map_right_iff, List.forall₂_same]
      exact hrows
    refine ⟨fed.map Prod.fst, fed.map Prod.snd, ending, τ, hP, ?_, hall, ?_⟩
    · rw [Stage.joinWith_eq]
      exact hfed.drains_expand fun _ => rfl
    · exact length_flatten_rows hall fun x row hrow => hrow.length_eq.symm

end NestedLoop

/-- A failing source supplies its items, if they are known. -/
lemma failing_supplies {bound : Ref} {xs : List Item} (hxs : ∀ x ∈ xs, x.Below bound) (e : QueryError) (k : Nat) :
    (failing xs e k).Supplies bound fun ys ending => ys = xs.drop k ∧ ending = .failed e := by
  -- on the items that are left
  generalize hleft : xs.drop k = left
  induction left generalizing k bound with
  | nil =>
    have hnone : xs[k]? = none := List.getElem?_eq_none (List.drop_eq_nil_iff.mp hleft)
    exact .of_pull fun σ _ => ⟨_, _, σ, failing_pulls_failure hnone, le_rfl, rfl, rfl⟩
  | cons x left ih =>
    have hsome : xs[k]? = some x := by rw [← List.head?_drop, hleft, List.head?_cons]
    have hrest : xs.drop (k + 1) = left := by rw [← List.tail_drop, hleft, List.tail_cons]
    refine .of_pull fun σ hσ => ⟨_, _, σ, failing_pulls_item hsome, le_rfl, ?_⟩
    have hknown : ∀ y ∈ xs, y.Below σ.nextRef := fun y hy => (hxs y hy).mono hσ
    refine ⟨hknown x (List.mem_of_getElem? hsome), ?_⟩
    have hsupplies := ih hknown (k + 1) hrest
    simpa only [List.cons.injEq, true_and] using hsupplies

/-- A function that makes an array of its item. -/
def wrapping : Callable :=
  .unary fun x => newArray [x]

lemma wrapping_pure : wrapping.Pure 0 where
  grows x σ := Nat.le_succ σ.nextRef
  known x σ _ hx := by
    refine Item.below_array.mpr ⟨Nat.lt_succ_self _, fun y hy => ?_⟩
    cases List.mem_singleton.mp hy
    exact hx.mono (Nat.le_succ _)
  same x σ τ _ hx hστ := by
    have hitem : x.mapRefs (σ.shift τ) = x := Item.mapRefs_eq_self fun ref huses => Session.shift_of_lt (hx ref huses)
    have hnew : σ.shift τ σ.nextRef = τ.nextRef := by rw [Session.shift_of_le le_rfl, Nat.add_sub_of_le hστ]
    show Item.array τ.nextRef [x] = (Item.array σ.nextRef [x]).mapRefs (σ.shift τ)
    rw [Item.mapRefs_array, hnew, List.map_singleton, hitem]

/-- A join with an array by keys that are made anew. -/
def wrappedJoin (operator : Operator) : Part :=
  ⟨operator, [.literal (.array 0 [.null, .number .nan, .null]), .function wrapping, .function wrapping]⟩

lemma wrappedJoin_joins (operator : Operator) :
    (wrappedJoin operator).Joins operator [.null, .number .nan, .null] wrapping wrapping where
  operator := rfl
  inner := ⟨0, rfl⟩
  outerKey := rfl
  innerKey := rfl
  result f hf := by cases hf

/-- Three outer items and an error behind them make three rows, and two rows with the matches, which are the first one's. -/
theorem joins_agree_with_the_nested_loop_wrapping :
    (∃ out rows τ,
      apply 0 (.sequence (failing [.null, .number .nan, .bool true] (.negativeCount (-1)) 0)) (wrappedJoin .groupJoin) =
          pure (.sequence out) ∧
        Drains {} out rows (.failed (.negativeCount (-1))) τ ∧ rows.length = 3) ∧
    ∃ out rows τ,
      apply 0 (.sequence (failing [.null, .number .nan, .bool true] (.negativeCount (-1)) 0)) (wrappedJoin .joinWith) =
          pure (.sequence out) ∧
        Drains {} out rows (.failed (.negativeCount (-1))) τ ∧ rows.length = 2 := by
  have hprimitive : ∀ x : Item, ¬ x.IsComposite → x.Below 0 := fun x hx => Item.below_primitive hx
  have houter : ∀ x ∈ [Item.null, .number .nan, .bool true], x.Below 0 := by
    intro x hx
    simp only [List.mem_cons, List.not_mem_nil, or_false] at hx
    rcases hx with rfl | rfl | rfl <;> exact hprimitive _ Bool.false_ne_true
  have hinner : ∀ y ∈ [Item.null, .number .nan, .null], y.Below 0 := by
    intro y hy
    simp only [List.mem_cons, List.not_mem_nil, or_false] at hy
    rcases hy with rfl | rfl | rfl <;> exact hprimitive _ Bool.false_ne_true
  obtain ⟨found, hfound, hgrouped, hjoined⟩ := joins_agree_with_the_nested_loop
    (failing_supplies houter (.negativeCount (-1)) 0) hinner wrapping_pure wrapping_pure
  have hnull : found .null = [.null, .null] := hfound .null {} le_rfl (hprimitive _ Bool.false_ne_true)
  have hnan : found (.number .nan) = [] := hfound (.number .nan) {} le_rfl (hprimitive _ Bool.false_ne_true)
  have hbool : found (.bool true) = [] := hfound (.bool true) {} le_rfl (hprimitive _ Bool.false_ne_true)
  constructor
  · obtain ⟨out, happly, hout⟩ := hgrouped _ (wrappedJoin_joins .groupJoin)
    obtain ⟨xs, rows, ending, τ, ⟨rfl, rfl⟩, hdrains, hrows⟩ := hout {} le_rfl
    exact ⟨out, rows, τ, happly 0, hdrains, hrows.length_eq.symm⟩
  · obtain ⟨out, happly, hout⟩ := hjoined _ (wrappedJoin_joins .joinWith)
    obtain ⟨xs, rows, ending, τ, ⟨rfl, rfl⟩, hdrains, -, hlength⟩ := hout {} le_rfl
    refine ⟨out, rows.flatten, τ, happly 0, hdrains, hlength.trans ?_⟩
    simp [hnull, hnan, hbool]

end LazyQuery
