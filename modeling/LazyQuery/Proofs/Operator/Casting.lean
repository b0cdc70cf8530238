import LazyQuery.Proofs.Item.Casting
import LazyQuery.Proofs.Operator.Prefixes

/-!
# Casting sequences

A stage that lets all items pass which the stage under it hands out might as well not be there
(`Sequence.sameHistories_of_passes`).  What `cast` hands out is of the type that it is for, so `ofType` lets it pass; and what
`ofType` hands out is of the type, so `cast` lets it pass.

The main statement is `casts_keep_types_and_numbers`.
-/

namespace LazyQuery

open Sequence

/-! ### Stages that do nothing -/

namespace Stage

/-- The stage asks its source for one item after the other, holds none back, and stays the same.  `P` holds of the items
that it hands out. -/
structure HandsOut (stage : Stage) (P : Item → Prop) : Prop where
  demand : stage.demand = .ask
  close : stage.close = pure []
  yield {x : Item} {y next} : (stage.receive x).Answers (.yield y next) → next = stage ∧ P y
  drop {x : Item} {next} : (stage.receive x).Answers (.drop next) → next = stage

/-- The stage lets the items pass of which `P` holds. -/
structure Passes (stage : Stage) (P : Item → Prop) : Prop where
  demand : stage.demand = .ask
  close : stage.close = pure []
  receive {x} : P x → stage.receive x = pure (.yield x stage)

end Stage

namespace Sequence

/-- A stage on the same sequence without it, where the sequence is a stage on some source, or what is left of that. -/
inductive Passed (outer inner : Stage) : Sequence → Sequence → Prop
  | through (source : Sequence) : Passed outer inner (.through outer (.through inner source)) (.through inner source)
  | ended : Passed outer inner (.through outer (.queue [])) (.queue [])

section Passed

variable {outer inner : Stage} {P : Item → Prop}

lemma simulates_passed (hinner : inner.HandsOut P) (houter : outer.Passes P) : Simulates (Passed outer inner) where
  reply {s t t' r σ τ} h step := by
    cases h with
    | through source =>
      generalize hp : (some r, t') = p at step
      cases throughStep_of_advance step with
      | failure demand hsource =>
        cases hp
        exact ⟨_, .reply (ThroughStep.advance (.failure houter.demand step)), .inr rfl⟩
      | @item x u υ outcome _ demand hsource hreceive =>
        cases outcome with
        | yield y next =>
          obtain ⟨rfl, hy⟩ := hinner.yield ⟨_, _, hreceive⟩
          cases hp
          have hpass : outer.receive y τ = (.yield y outer, τ) := congrFun (houter.receive hy) τ
          exact ⟨_, .reply (ThroughStep.advance (.item houter.demand step hpass)), .inl (.through u)⟩
        | drop next => cases hp
        | stop =>
          cases hp
          exact ⟨_, (Pulls.reply step).through_ending rfl houter.demand houter.close, .inr rfl⟩
        | fail e =>
          cases hp
          exact ⟨_, (Pulls.reply step).through_ending rfl houter.demand houter.close, .inr rfl⟩
      | emit demand => rw [hinner.demand] at demand; cases demand
      | stop demand => rw [hinner.demand] at demand; cases demand
      | _ => cases hp
    | ended =>
      cases step
      exact ⟨_, (Pulls.reply rfl).through_ending rfl houter.demand houter.close, .inr rfl⟩
  work {s t t' σ τ} h step := by
    cases h with
    | through source =>
      have houterStep := ThroughStep.advance (.work houter.demand step)
      generalize hp : (none, t') = p at step
      cases throughStep_of_advance step with
      | work demand hsource =>
        cases hp
        exact ⟨_, _, _, houterStep, .done, .inl (.through _)⟩
      | finished demand hsource hclose =>
        cases hp
        rw [hinner.close] at hclose
        cases hclose
        exact ⟨_, _, _, houterStep, .done, .inl .ended⟩
      | @item x u υ outcome _ demand hsource hreceive =>
        cases outcome with
        | drop next =>
          obtain rfl := hinner.drop ⟨_, _, hreceive⟩
          cases hp
          exact ⟨_, _, _, houterStep, .done, .inl (.through u)⟩
        | _ => cases hp
      | _ => cases hp
    | ended => cases step

/-- **A stage that lets all items pass might as well not be there.** -/
theorem sameHistories_of_passes (hinner : inner.HandsOut P) (houter : outer.Passes P) (source : Sequence) :
    (Sequence.through outer (.through inner source)).SameHistories (.through inner source) :=
  (simulates_passed hinner houter).sameHistories (.through source)

end Passed

section PassesAll

variable {outer : Stage}

lemma simulates_passes_all (houter : outer.Passes fun _ => True) : Simulates fun s t => s = .through outer t where
  reply {s t t' r σ τ} h step := by
    subst h
    cases r with
    | item x =>
      have hpass : outer.receive x τ = (.yield x outer, τ) := congrFun (houter.receive trivial) τ
      exact ⟨_, .reply (ThroughStep.advance (.item houter.demand step hpass)), .inl rfl⟩
    | failure | finished =>
      rw [isExhausted_of_ending step rfl]
      exact ⟨_, (Pulls.reply step).through_ending rfl houter.demand houter.close, .inr rfl⟩
  work h step := by
    subst h
    exact ⟨_, _, _, ThroughStep.advance (.work houter.demand step), .done, .inl rfl⟩

/-- The same on any source, for a stage that lets every item pass. -/
theorem sameHistories_of_passes_all (houter : outer.Passes fun _ => True) (source : Sequence) :
    (Sequence.through outer source).SameHistories source :=
  (simulates_passes_all houter).sameHistories rfl

end PassesAll

end Sequence

/-! ### Casts and types -/

namespace Stage

variable (target : TypeTag)

lemma handsOut_ofType : (ofType target).HandsOut fun x => x.typeTag = target where
  demand := rfl
  close := rfl
  yield h := by
    cases takes_of_receive h with
    | accepted haccepts => exact ⟨rfl, beq_iff_eq.mp haccepts.of_pure.symm⟩
  drop h := by
    cases takes_of_receive h with
    | rejected => rfl

lemma handsOut_cast : (cast target).HandsOut fun x => x.typeTag = target where
  demand := rfl
  close := rfl
  yield {x y next} h := by
    cases takes_of_receive h with
    | mapped hresult =>
      refine ⟨rfl, ?_⟩
      dsimp only at hresult
      cases hcast : x.castTo? target with
      | none =>
        rw [hcast] at hresult
        cases hresult.of_pure
      | some z =>
        rw [hcast] at hresult
        cases hresult.of_pure
        exact Item.typeTag_of_castTo? hcast
  drop h := by
    cases takes_of_receive h

lemma passes_ofType : (ofType target).Passes fun x => x.typeTag = target where
  demand := rfl
  close := rfl
  receive h := by simp [ofType, receive, h]

lemma passes_cast : (cast target).Passes fun x => x.typeTag = target where
  demand := rfl
  close := rfl
  receive h := by simp [cast, receive, Item.castTo?_of_typeTag h]

end Stage

namespace Sequence

def casted (source : Sequence) (target : TypeTag) : Sequence :=
  source.withStages [.cast target]

def ofType (source : Sequence) (target : TypeTag) : Sequence :=
  source.withStages [.ofType target]

section Types

variable {source s u : Sequence} {target : TypeTag} {σ τ : Session} {xs : List Item} {ending : Ending} {e : QueryError}
  {asked history : List (Session × Reply × Session)}

/-- **All items that a cast hands out have the type.** -/
theorem ofType_casted_sameHistories (source : Sequence) (target : TypeTag) :
    ((source.casted target).ofType target).SameHistories (source.casted target) :=
  sameHistories_of_passes (Stage.handsOut_cast target) (Stage.passes_ofType target) source

/-- **Items of the type stay as they are.** -/
theorem casted_ofType_sameHistories (source : Sequence) (target : TypeTag) :
    ((source.ofType target).casted target).SameHistories (source.ofType target) :=
  sameHistories_of_passes (Stage.handsOut_ofType target) (Stage.passes_cast target) source

lemma drains_ofType (h : Drains σ source xs ending τ) :
    Drains σ (source.ofType target) (xs.filter fun x => x.typeTag == target) ending τ := by
  have hsifts : (Stage.ofType target).Sifts xs (xs.filter fun x => x.typeTag == target) (Stage.ofType target) :=
    Stage.sifts_filter (fun _ => rfl) xs
  cases ending with
  | finished =>
    have hdrains : Drains σ (source.ofType target) (xs.filter (fun x => x.typeTag == target) ++ []) .finished τ :=
      h.sift hsifts rfl
    rwa [List.append_nil] at hdrains
  | failed e => exact h.sift_failed hsifts

/-- A filter fails only if its source does, and with the same error. -/
theorem Asks.failure_mem {accepts : Handler Bool fun _ => true} (h : Asks (.filter accepts) s asked history)
    (he : .failure e ∈ history.map (·.2.1)) : .failure e ∈ asked.map (·.2.1) := by
  generalize hstage : Stage.filter accepts = stage at h
  induction h with
  | start => cases he
  | emit demand =>
    subst hstage
    cases demand
  | full demand =>
    subst hstage
    cases demand
  | failure _ _ rest =>
    rcases List.mem_cons.mp he with he | he
    · exact List.mem_cons.mpr (.inl he)
    · exact absurd he rest.failure_not_mem
  | finished _ _ close rest =>
    subst hstage
    cases close
    cases rest with
    | next first rest =>
      obtain ⟨rfl, rfl, rfl⟩ := first.unique (.reply rfl)
      rcases List.mem_cons.mp he with he | he
      · cases he
      · exact absurd he rest.failure_not_mem
  | yield _ _ receive _ ih =>
    subst hstage
    cases Stage.takes_of_receive ⟨_, _, receive⟩
    rcases List.mem_cons.mp he with he | he
    · cases he
    · exact List.mem_cons_of_mem _ (ih he rfl)
  | drop _ _ receive _ ih =>
    subst hstage
    cases Stage.takes_of_receive ⟨_, _, receive⟩
    exact List.mem_cons_of_mem _ (ih he rfl)
  | cut _ _ receive reply _ =>
    subst hstage
    cases Stage.takes_of_receive ⟨_, _, receive⟩ <;> cases reply

end Types

end Sequence

/-! ### Parts -/

namespace Part

section Plans

variable {part : Part} {target : TypeTag}

lemma putsOn_cast (hpart : part.operator = .cast) (htype : part.requireType = .ok target) (s : Sequence) :
    part.PutsOn s (s.casted target) := by
  have hplan : part.plan = .ok (.lazily [.cast target]) := by
    unfold plan
    rw [hpart, htype]
    rfl
  exact fun budget => apply_of_stages budget hplan

lemma putsOn_ofType (hpart : part.operator = .ofType) (htype : part.requireType = .ok target) (s : Sequence) :
    part.PutsOn s (s.ofType target) := by
  have hplan : part.plan = .ok (.lazily [.ofType target]) := by
    unfold plan
    rw [hpart, htype]
    rfl
  exact fun budget => apply_of_stages budget hplan

end Plans

end Part

/-- **Casts keep types and numbers.**

* What an item is cast to has the type of the cast, and is kept by the same cast; an item that has the type already is kept
  as well, with its reference.
* Let `cast` and `ofType` be parts for one type.  On every source, whether it ends or not, `ofType` behind `cast` cannot be
  told from `cast` alone, nor `cast` behind `ofType` from `ofType` alone.  The latter two never fail by themselves: an error
  among their replies is one among the replies of the source, in the pulls that theirs take; and gone through, they
  hand out the items of the type and end as the source ends.
* Each number, `nan` and the infinities included, is cast to a string and from that string to a number that is identical to
  it; and the string is loosely equal to the number, unless that is `nan`. -/
theorem casts_keep_types_and_numbers :
    (∀ (x y : Item) (target : TypeTag), x.castTo? target = some y →
      y.typeTag = target ∧ y.castTo? target = some y ∧ (x.typeTag = target → y = x)) ∧
    (∀ (cast ofType : Part) (target : TypeTag), cast.operator = .cast → cast.requireType = .ok target →
      ofType.operator = .ofType → ofType.requireType = .ok target →
      (∀ s : Sequence, cast.PutsOn s (s.casted target) ∧ ofType.PutsOn s (s.ofType target)) ∧
      ∀ source : Sequence,
        ((source.casted target).ofType target).SameHistories (source.casted target) ∧
        ((source.ofType target).casted target).SameHistories (source.ofType target) ∧
        (∀ history u, Pulled ((source.ofType target).casted target) history u →
          ∃ asked, Asks (.ofType target) source asked history ∧ (∃ t, Pulled source asked t) ∧
            ∀ e, .failure e ∈ history.map (·.2.1) → .failure e ∈ asked.map (·.2.1)) ∧
        ∀ σ xs ending τ, Drains σ source xs ending τ →
          Drains σ ((source.ofType target).casted target) (xs.filter fun x => x.typeTag == target) ending τ) ∧
    ∀ n : Number, ∃ text m, (Item.number n).castTo? .string = some (.string text) ∧
      (Item.string text).castTo? .number = some (.number m) ∧ (Item.number n).identical (.number m) = true ∧
      (n.isNaN = false → (Item.string text).looselyEqual (.number n) = true) := by
  refine ⟨fun x y target h => ?_, fun cast ofType target hcast hcastType hofType hofTypeType => ⟨fun s => ?_, fun source => ?_⟩,
    Item.exists_castTo?_string_number⟩
  · have htype := Item.typeTag_of_castTo? h
    refine ⟨htype, Item.castTo?_of_typeTag htype, fun hx => ?_⟩
    rw [Item.castTo?_of_typeTag hx] at h
    exact (Option.some.inj h).symm
  · exact ⟨Part.putsOn_cast hcast hcastType s, Part.putsOn_ofType hofType hofTypeType s⟩
  · have hkept := casted_ofType_sameHistories source target
    refine ⟨ofType_casted_sameHistories source target, hkept, fun history u hpulled => ?_, fun σ xs ending τ hdrains => ?_⟩
    · obtain ⟨v, hofTypePulled⟩ := (hkept history).mp ⟨u, hpulled⟩
      obtain ⟨asked, hasks⟩ := hofTypePulled.exists_asks
      exact ⟨asked, hasks, hasks.pulled, fun e he => hasks.failure_mem he⟩
    · exact hkept.symm.drains (drains_ofType hdrains)

/-- Of null and a Boolean the Boolean is left, and is cast to itself; and infinity is read again from its string. -/
theorem casts_keep_types_and_numbers_boolean :
    ((Item.bool true).castTo? .boolean = some (.bool true) ∧ (Item.bool true).typeTag = .boolean) ∧
    (Part.mk .ofType [.literal (.string "bool")]).PutsOn (.ofItems [.null, .bool true])
      ((Sequence.ofItems [.null, .bool true]).ofType .boolean) ∧
    Drains {} (((Sequence.ofItems [.null, .bool true]).ofType .boolean).casted .boolean) [.bool true] .finished {} ∧
    (Item.string "inf").looselyEqual (.number .infinity) = true := by
  obtain ⟨hitems, hparts, hnumbers⟩ := casts_keep_types_and_numbers
  obtain ⟨hputsOn, hsources⟩ := hparts ⟨.cast, [.literal (.string "boolean")]⟩ ⟨.ofType, [.literal (.string "bool")]⟩
    .boolean rfl rfl rfl rfl
  obtain ⟨-, -, -, hdrains⟩ := hsources (.ofItems [.null, .bool true])
  refine ⟨⟨rfl, (hitems (.bool true) (.bool true) .boolean rfl).1⟩, (hputsOn _).2, ?_, ?_⟩
  · exact hdrains {} _ .finished {} (drains_queue [.null, .bool true] {})
  · obtain ⟨text, m, htext, -, -, hloose⟩ := hnumbers .infinity
    have hinfinity : Number.infinity.plainText = "inf" := by decide
    replace htext : some (Item.string Number.infinity.plainText) = some (.string text) := htext
    rw [hinfinity] at htext
    cases htext
    exact hloose rfl

end LazyQuery
