import LazyQuery.Proofs.Sequence.Asking
import LazyQuery.Proofs.Sequence.Consumption
import Mathlib.Data.List.Perm.Subperm

/-!
# Stages that keep their items

A stage of an operator that makes no items hands out the items that it has asked for and those that it held from the start
(`Stage.holds`), each at most as often as it got it (`Stage.follows_subperm`).  If it only selects, then these come in their
order (`Stage.follows_sublist`), and if it only arranges, then all of them come when the source has ended
(`Sequence.Asks.perm`).

Items are compared as they are: composites by their references, too.
-/

namespace LazyQuery

open Sequence

namespace Stage

/-! ### Stages -/

/-- The items that the stage may still hand out besides those that it asks for. -/
def holds : Stage → List Item
  | .append tail => tail
  | .orElse fallback yielded => if yielded then [] else [fallback]
  | .gather _ held => held
  | _ => []

/-- All items come out, in whatever order. -/
def Rearranges (arrange : List Item → Eff (List Item)) : Prop :=
  ∀ xs ys, (arrange xs).Answers ys → ys.Perm xs

/-- The stage hands on items as they are. -/
def Conserves : Stage → Prop
  | .filter _ | .take _ | .skip _ | .takeWhile _ | .skipWhile _ _ | .distinct _ _ | .unique _ | .append _ | .orElse _ _ => True
  | .gather arrange _ => Rearranges arrange
  | .map _ | .expand _ _ | .zip _ _ | .group _ _ _ => False

/-- The stage hands on items as they are and in their order, and has none of its own. -/
def Selects : Stage → Prop
  | .filter _ | .take _ | .skip _ | .takeWhile _ | .skipWhile _ _ | .distinct _ _ | .unique _ => True
  | _ => False

/-- The stage waits for all items and hands them on in whatever order. -/
def Arranges (stage : Stage) : Prop :=
  ∃ arrange, stage = .gather arrange [] ∧ Rearranges arrange

section Conserves

variable {stage next : Stage} {x y : Item} {xs ys : List Item} {cells : List (Eff Item)}

lemma Conserves.yield (h : stage.Conserves) (htakes : Takes x stage (.yield y next)) :
    y = x ∧ next.Conserves ∧ next.holds.Sublist stage.holds := by
  cases htakes with
  | mapped | paired => cases h
  | preferred => exact ⟨rfl, trivial, List.nil_sublist _⟩
  | _ => exact ⟨rfl, trivial, List.Sublist.refl _⟩

lemma Conserves.drop (h : stage.Conserves) (htakes : Takes x stage (.drop next)) :
    next.Conserves ∧ next.holds.Sublist (x :: stage.holds) := by
  cases htakes with
  | expanded | grouped => cases h
  | gathered => exact ⟨h, List.Sublist.refl _⟩
  | _ => exact ⟨trivial, List.nil_sublist _⟩

/-- At its end such a stage hands out nothing but what it holds. -/
lemma Conserves.close (h : stage.Conserves) (hclose : stage.close.Answers cells)
    (hcells : List.Forall₂ Eff.Answers cells xs) : xs.Subperm stage.holds := by
  cases stage with
  | append tail =>
    cases hclose.of_pure
    rw [answers_map_pure hcells]
    exact List.Subperm.refl _
  | orElse fallback yielded =>
    cases hclose.of_pure
    cases yielded with
    | true =>
      cases hcells
      exact List.Subperm.refl _
    | false =>
      have hxs : xs = [fallback] := answers_map_pure hcells
      rw [hxs]
      exact List.Subperm.refl _
  | gather arrange held =>
    obtain ⟨arranged, harranged, hpure⟩ := hclose.bind
    cases hpure.of_pure
    rw [answers_map_pure hcells]
    exact ((h _ _ harranged).trans held.reverse_perm).subperm
  | map | expand | zip | group => cases h
  | _ =>
    cases hclose.of_pure
    cases hcells
    exact List.nil_subperm

/-- **A stage that hands on items as they are has nothing but what it has asked for and held.** -/
theorem follows_subperm : Follows fun stage xs ys => stage.Conserves → ys.Subperm (xs ++ stage.holds) where
  start _ := List.nil_subperm
  emit {stage next y xs ys} hdemand _ hstage := by
    unfold demand at hdemand
    split at hdemand <;> cases hdemand
    cases hstage
  close hclose hcells hprefix hstage := hprefix.sublist.subperm.trans (hstage.close hclose hcells)
  yield {stage next x y xs ys} hreceive ih hstage := by
    obtain ⟨rfl, hnext, hholds⟩ := hstage.yield (takes_of_receive hreceive)
    exact (List.subperm_cons y).mpr ((ih hnext).trans (hholds.append_left xs).subperm)
  drop {stage next x xs ys} hreceive ih hstage := by
    obtain ⟨hnext, hholds⟩ := hstage.drop (takes_of_receive hreceive)
    have hmiddle : (xs ++ x :: stage.holds).Perm (x :: xs ++ stage.holds) := List.perm_middle
    exact (ih hnext).trans ((hholds.append_left xs).subperm.trans hmiddle.subperm)

lemma Selects.conserves (h : stage.Selects) : stage.Conserves ∧ stage.holds = [] := by
  cases stage <;> first | exact ⟨trivial, rfl⟩ | cases h

lemma Arranges.conserves (h : stage.Arranges) : stage.Conserves ∧ stage.holds = [] := by
  obtain ⟨arrange, rfl, harrange⟩ := h
  exact ⟨harrange, rfl⟩

lemma Selects.yield (h : stage.Selects) (htakes : Takes x stage (.yield y next)) : y = x ∧ next.Selects := by
  cases htakes with
  | mapped | paired | appended | preferred => cases h
  | _ => exact ⟨rfl, trivial⟩

lemma Selects.drop (h : stage.Selects) (htakes : Takes x stage (.drop next)) : next.Selects := by
  cases htakes with
  | expanded | grouped | gathered => cases h
  | _ => trivial

lemma Selects.close (h : stage.Selects) : stage.close = pure [] := by
  cases stage <;> first | rfl | cases h

/-- **A stage that selects has some of the items that it has asked for, in their order.** -/
theorem follows_sublist : Follows fun stage xs ys => stage.Selects → ys.Sublist xs where
  start _ := List.nil_sublist _
  emit {stage next y xs ys} hdemand _ hstage := by
    unfold demand at hdemand
    split at hdemand <;> cases hdemand
    cases hstage
  close hclose hcells hprefix hstage := by
    rw [hstage.close] at hclose
    cases hclose.of_pure
    cases hcells
    exact hprefix.sublist
  yield hreceive ih hstage := by
    obtain ⟨rfl, hnext⟩ := hstage.yield (takes_of_receive hreceive)
    exact (ih hnext).cons_cons _
  drop hreceive ih hstage := (ih (hstage.drop (takes_of_receive hreceive))).cons _

end Conserves

end Stage

/-! ### Stages on one another -/

namespace Sequence

section Stages

variable {stage : Stage} {stages : List Stage} {s source : Sequence} {arrange : List Item → Eff (List Item)}
  {held : List Item} {asked history : List (Session × Reply × Session)}

/-- **A stage that arranges hands out all items** that it has asked for and held, once it has finished; and so has its
source. -/
theorem Asks.perm (h : Asks stage s asked history) (hstage : stage = .gather arrange held)
    (harrange : Stage.Rearranges arrange) (hfinished : Finished history) :
    Finished asked ∧ (itemsOf history).Perm (itemsOf asked ++ held) := by
  induction h generalizing held with
  | start => cases hfinished.1
  | emit demand _ _ | full demand _ =>
    subst hstage
    cases demand
  | failure => exact absurd List.mem_cons_self (hfinished.2 _)
  | finished _ _ close rest =>
    subst hstage
    obtain ⟨items, hitems, -, hall⟩ := itemsOf_queue rest
    obtain ⟨arranged, harranged, hpure⟩ := Eff.Answers.bind ⟨_, _, close⟩
    cases hpure.of_pure
    refine ⟨⟨List.mem_cons_self, ?_⟩, ?_⟩
    · rintro e (_ | ⟨_, ⟨⟩⟩)
    · refine (List.Perm.of_eq ((hall hfinished).trans (Stage.answers_map_pure hitems))).trans ?_
      exact (harrange _ _ harranged).trans held.reverse_perm
  | yield _ _ receive | cut _ _ receive reply =>
    subst hstage
    cases receive
    try cases reply
  | drop _ _ receive _ ih =>
    subst hstage
    cases receive
    obtain ⟨hasked, hperm⟩ := ih rfl hfinished
    exact ⟨hasked.item, hperm.trans List.perm_middle⟩

theorem AsksAll.perm (h : AsksAll stages s asked history) (hstages : ∀ stage ∈ stages, stage.Arranges)
    (hfinished : Finished history) : Finished asked ∧ (itemsOf history).Perm (itemsOf asked) := by
  induction stages generalizing s asked with
  | nil =>
    cases h
    exact ⟨hfinished, List.Perm.refl _⟩
  | cons stage stages ih =>
    obtain ⟨between, hasks, hall⟩ := h
    obtain ⟨⟨arrange, hstage, harrange⟩, hrest⟩ := List.forall_mem_cons.mp hstages
    obtain ⟨hbetween, hperm⟩ := ih hall hrest
    obtain ⟨hasked, hperm'⟩ := hasks.perm hstage harrange hbetween
    rw [List.append_nil] at hperm'
    exact ⟨hasked, hperm.trans hperm'⟩

theorem AsksAll.subperm (h : AsksAll stages s asked history) (hstages : ∀ stage ∈ stages, stage.Conserves) :
    (itemsOf history).Subperm (itemsOf asked ++ stages.flatMap Stage.holds) := by
  induction stages generalizing s asked with
  | nil =>
    cases h
    exact (List.sublist_append_left _ _).subperm
  | cons stage stages ih =>
    obtain ⟨between, hasks, hall⟩ := h
    obtain ⟨hstage, hstages⟩ := List.forall_mem_cons.mp hstages
    have hfirst := hasks.follows Stage.follows_subperm hstage
    have hrest := ih hall hstages
    rw [List.flatMap_cons, ← List.append_assoc]
    exact hrest.trans ((List.subperm_append_right _).mpr hfirst)

theorem AsksAll.sublist (h : AsksAll stages s asked history) (hstages : ∀ stage ∈ stages, stage.Selects) :
    (itemsOf history).Sublist (itemsOf asked) := by
  induction stages generalizing s asked with
  | nil =>
    cases h
    exact List.Sublist.refl _
  | cons stage stages ih =>
    obtain ⟨between, hasks, hall⟩ := h
    obtain ⟨hstage, hstages⟩ := List.forall_mem_cons.mp hstages
    exact (ih hall hstages).trans (hasks.follows Stage.follows_sublist hstage)

/-- A stage that gathers ends as its source does. -/
lemma respects_gather : Stage.Respects fun stage _ ending _ ending' =>
    (∃ arrange held, stage = .gather arrange held) → ending' = ending where
  emit hdemand _ := by
    rintro ⟨arrange, held, rfl⟩
    cases hdemand
  full hdemand := by
    rintro ⟨arrange, held, rfl⟩
    cases hdemand
  failure _ _ := rfl
  close _ _ _ _ := rfl
  yield _ hreceive _ := by
    rintro ⟨arrange, held, rfl⟩
    cases hreceive.of_pure
  drop _ hreceive hrest := by
    rintro ⟨arrange, held, rfl⟩
    cases hreceive.of_pure
    exact hrest ⟨_, _, rfl⟩
  stop _ hreceive := by
    rintro ⟨arrange, held, rfl⟩
    cases hreceive.of_pure
  fail _ hreceive := by
    rintro ⟨arrange, held, rfl⟩
    cases hreceive.of_pure

/-- Over a source without an error, stages that arrange come to an end without one. -/
theorem Delivers.arranged (h : source.Delivers fun _ ending => ending = .finished)
    (hstages : ∀ stage ∈ stages, stage.Arranges) :
    (source.withStages stages).Delivers fun _ ending => ending = .finished := by
  induction stages generalizing source with
  | nil => exact h
  | cons stage stages ih =>
    obtain ⟨⟨arrange, rfl, -⟩, hrest⟩ := List.forall_mem_cons.mp hstages
    refine ih ((h.through respects_gather _).mono ?_) hrest
    rintro ys ending' ⟨xs, ending, rfl, hending⟩
    exact hending ⟨_, _, rfl⟩

end Stages

end Sequence

end LazyQuery
