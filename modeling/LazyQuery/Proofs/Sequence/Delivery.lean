import LazyQuery.Proofs.Sequence.Pull
import Mathlib.Data.List.Forall2

/-!
# What a sequence delivers

Between two pulls of a sequence there may be other work in the session: that of the stages on top of it, for one.  What a
sequence delivers (`Sequence.Delivers`) is said for all such work: it always answers, it comes to an end, and all its items
together with its ending are as described.  This is a statement about the pulls of one session in particular
(`Sequence.Delivers.drains`).

A stage makes a delivery out of one (`Sequence.Delivers.through`).  To see what becomes of it one looks at the stage alone
(`Stage.Respects`): at what it does when it is asked, with an item, and with the ending of its source.
-/

namespace LazyQuery

/-! ### Answers -/

/-- The work comes to `a` in some session. -/
def Eff.Answers {α : Type} (work : Eff α) (a : α) : Prop :=
  ∃ σ τ, work σ = (a, τ)

namespace Eff.Answers

variable {α β : Type} {work : Eff α} {next : α → Eff β} {a a' : α} {b : β}

lemma of_pure (h : (pure a : Eff α).Answers a') : a' = a := by
  obtain ⟨σ, τ, h⟩ := h
  cases h
  rfl

lemma bind (h : (work >>= next).Answers b) : ∃ a, work.Answers a ∧ (next a).Answers b := by
  obtain ⟨σ, τ, h⟩ := h
  rcases hwork : work σ with ⟨a, ω⟩
  rw [Eff.bind_run hwork] at h
  exact ⟨a, ⟨σ, ω, hwork⟩, ⟨ω, τ, h⟩⟩

end Eff.Answers

namespace Sequence

/-! ### Deliveries -/

/-- Whatever is done between the pulls, the sequence always answers and comes to an end, and its items and its ending are
as `P` says. -/
inductive Delivers : Sequence → (List Item → Ending → Prop) → Prop
  | intro {s P} (answers : ∀ σ, ∃ r t τ, Pulls σ s r t τ)
      (last : ∀ {σ r t τ ending}, Pulls σ s r t τ → r.ending? = some ending → P [] ending)
      (rest : ∀ {σ x t τ}, Pulls σ s (.item x) t τ → Delivers t fun xs ending => P (x :: xs) ending) :
      Delivers s P

/-- What is delivered with a reply and after it. -/
def Fulfils (r : Reply) (t : Sequence) (P : List Item → Ending → Prop) : Prop :=
  match r with
  | .item x => t.Delivers fun xs ending => P (x :: xs) ending
  | .failure e => P [] (.failed e)
  | .finished => P [] .finished

namespace Delivers

variable {s : Sequence} {P Q : List Item → Ending → Prop}

/-- A delivery is one in each session, and after the first pull there is the rest of it. -/
lemma pull (h : s.Delivers P) (σ : Session) : ∃ r t τ, Pulls σ s r t τ ∧ Fulfils r t P := by
  obtain ⟨answers, last, rest⟩ := h
  obtain ⟨r, t, τ, hpulls⟩ := answers σ
  refine ⟨r, t, τ, hpulls, ?_⟩
  cases r with
  | item x => exact rest hpulls
  | failure e => exact last hpulls rfl
  | finished => exact last hpulls rfl

lemma of_pull (h : ∀ σ, ∃ r t τ, Pulls σ s r t τ ∧ Fulfils r t P) : s.Delivers P := by
  refine .intro (fun σ => ?_) (fun {σ r t τ ending} hpulls hending => ?_) (fun {σ x t τ} hpulls => ?_)
  · obtain ⟨r, t, τ, hpulls, -⟩ := h σ
    exact ⟨r, t, τ, hpulls⟩
  · obtain ⟨r', t', τ', hpulls', hfulfils⟩ := h σ
    obtain ⟨rfl, rfl, rfl⟩ := hpulls.unique hpulls'
    cases r with
    | item x => cases hending
    | failure e =>
      cases hending
      exact hfulfils
    | finished =>
      cases hending
      exact hfulfils
  · obtain ⟨r', t', τ', hpulls', hfulfils⟩ := h σ
    obtain ⟨rfl, rfl, rfl⟩ := hpulls.unique hpulls'
    exact hfulfils

lemma mono (h : s.Delivers P) (hPQ : ∀ xs ending, P xs ending → Q xs ending) : s.Delivers Q := by
  induction h generalizing Q with
  | intro answers last _ ih =>
    exact .intro answers (fun hpulls hending => hPQ _ _ (last hpulls hending))
      fun hpulls => ih hpulls fun xs ending hxs => hPQ _ _ hxs

/-- **In one session, the sequence hands out what it delivers.** -/
theorem drains (h : s.Delivers P) (σ : Session) : ∃ xs ending τ, Drains σ s xs ending τ ∧ P xs ending := by
  induction h generalizing σ with
  | intro answers last _ ih =>
    obtain ⟨r, t, τ, hpulls⟩ := answers σ
    cases r with
    | item x =>
      obtain ⟨xs, ending, ω, hdrains, hxs⟩ := ih hpulls τ
      exact ⟨x :: xs, ending, ω, .pull hpulls hdrains, hxs⟩
    | failure e => exact ⟨[], .failed e, τ, .last hpulls rfl, last hpulls rfl⟩
    | finished => exact ⟨[], .finished, τ, .last hpulls rfl, last hpulls rfl⟩

lemma nonempty (h : s.Delivers P) : ∃ xs ending, P xs ending := by
  obtain ⟨xs, ending, -, -, hxs⟩ := h.drains {}
  exact ⟨xs, ending, hxs⟩

end Delivers

end Sequence

/-! ### Stages on a source -/

namespace Stage

/-- How many items a stage hands out before it asks its source. -/
def ready : Stage → Nat
  | .expand _ items => items.length
  | _ => 0

lemma ready_of_emit {stage next : Stage} {x : Item} (h : stage.demand = .emit x next) : next.ready < stage.ready := by
  unfold demand at h
  split at h
  · cases h
    exact Nat.lt_succ_self _
  all_goals cases h

/-- `R stage xs ending ys ending'` follows step by step from what the stage does: out of a source that delivers the items
`xs` and the ending `ending`, it makes the items `ys` and the ending `ending'`. -/
structure Respects (R : Stage → List Item → Ending → List Item → Ending → Prop) : Prop where
  emit {stage next y xs ending ys ending'} : stage.demand = .emit y next → R next xs ending ys ending' →
    R stage xs ending (y :: ys) ending'
  full {stage xs ending} : stage.demand = .stop → R stage xs ending [] .finished
  failure {stage e} : stage.demand = .ask → R stage [] (.failed e) [] (.failed e)
  close {stage cells ys} : stage.demand = .ask → stage.close.Answers cells → List.Forall₂ Eff.Answers cells ys →
    R stage [] .finished ys .finished
  yield {stage next x y xs ending ys ending'} : stage.demand = .ask → (stage.receive x).Answers (.yield y next) →
    R next xs ending ys ending' → R stage (x :: xs) ending (y :: ys) ending'
  drop {stage next x xs ending ys ending'} : stage.demand = .ask → (stage.receive x).Answers (.drop next) →
    R next xs ending ys ending' → R stage (x :: xs) ending ys ending'
  stop {stage x xs ending} : stage.demand = .ask → (stage.receive x).Answers .stop →
    R stage (x :: xs) ending [] .finished
  fail {stage x xs ending e} : stage.demand = .ask → (stage.receive x).Answers (.fail e) →
    R stage (x :: xs) ending [] (.failed e)

end Stage

namespace Sequence

section Through

variable {σ τ : Session} {stage : Stage} {s t : Sequence} {r : Reply}

/-- When a stage asks its source and that replies, then the stage goes on from the last step of the source. -/
lemma Pulls.through (h : Pulls σ s r t τ) (hdemand : stage.demand = .ask) :
    ∃ ω u, u.advance ω = ((some r, t), τ) ∧
      ∀ {r' v υ}, Pulls ω (.through stage u) r' v υ → Pulls σ (.through stage s) r' v υ := by
  obtain ⟨u, ω, hworks, hlast⟩ := h.works
  exact ⟨ω, u, hlast, (hworks.through hdemand).pulls⟩

/-- The items left after the end of a source come one by one, each with what it answers. -/
lemma Delivers.queue (cells : List (Eff Item)) :
    (Sequence.queue cells).Delivers fun ys ending => List.Forall₂ Eff.Answers cells ys ∧ ending = .finished := by
  induction cells with
  | nil => exact .of_pull fun σ => ⟨.finished, .exhausted, σ, .reply rfl, .nil, rfl⟩
  | cons cell cells ih =>
    refine .of_pull fun σ => ?_
    rcases hcell : cell σ with ⟨y, τ⟩
    refine ⟨.item y, .queue cells, τ, .reply (Eff.bind_run hcell), ih.mono ?_⟩
    rintro ys ending ⟨hys, hending⟩
    exact ⟨.cons ⟨σ, τ, hcell⟩ hys, hending⟩

variable {R : Stage → List Item → Ending → List Item → Ending → Prop} (hR : Stage.Respects R)
  {P : List Item → Ending → Prop}

include hR

/-- What a stage delivers once its source has ended. -/
lemma Delivers.closed (hdemand : stage.demand = .ask) (hended : P [] .finished) {cells : List (Eff Item)}
    (hclose : stage.close.Answers cells) :
    (Sequence.queue cells).Delivers fun ys ending' => ∃ xs ending, P xs ending ∧ R stage xs ending ys ending' := by
  refine (Delivers.queue cells).mono ?_
  rintro ys ending' ⟨hys, rfl⟩
  exact ⟨[], .finished, hended, hR.close hdemand hclose hys⟩

/-- What a stage delivers once its source has brought an item, if it is known for the rest of the source. -/
lemma Delivers.received {x : Item} {outcome : Outcome} (hdemand : stage.demand = .ask)
    (hreceive : (stage.receive x).Answers outcome) (hrest : t.Delivers fun xs ending => P (x :: xs) ending)
    (hthrough : ∀ next, (Sequence.through next t).Delivers fun ys ending' =>
      ∃ xs ending, P (x :: xs) ending ∧ R next xs ending ys ending')
    (hstep : s.advance σ = (outcome.reply t, τ)) :
    ∃ r u υ, Pulls σ s r u υ ∧ Fulfils r u fun ys ending' => ∃ xs ending, P xs ending ∧ R stage xs ending ys ending' := by
  cases outcome with
  | yield y next =>
    refine ⟨.item y, .through next t, τ, .reply hstep, (hthrough next).mono ?_⟩
    rintro ys ending' ⟨xs, ending, hxs, hnext⟩
    exact ⟨x :: xs, ending, hxs, hR.yield hdemand hreceive hnext⟩
  | drop next =>
    have hnext : (Sequence.through next t).Delivers fun ys ending' =>
        ∃ xs ending, P xs ending ∧ R stage xs ending ys ending' := by
      refine (hthrough next).mono ?_
      rintro ys ending' ⟨xs, ending, hxs, hnext⟩
      exact ⟨x :: xs, ending, hxs, hR.drop hdemand hreceive hnext⟩
    obtain ⟨r, u, υ, hpulls, hfulfils⟩ := hnext.pull τ
    exact ⟨r, u, υ, .work hstep hpulls, hfulfils⟩
  | stop =>
    obtain ⟨xs, ending, hxs⟩ := hrest.nonempty
    exact ⟨.finished, .exhausted, τ, .reply hstep, x :: xs, ending, hxs, hR.stop hdemand hreceive⟩
  | fail e =>
    obtain ⟨xs, ending, hxs⟩ := hrest.nonempty
    exact ⟨.failure e, .exhausted, τ, .reply hstep, x :: xs, ending, hxs, hR.fail hdemand hreceive⟩

/-- **A stage makes a delivery out of that of its source**, as any relation says that follows it step by step. -/
theorem Delivers.through (h : s.Delivers P) (stage : Stage) :
    (Sequence.through stage s).Delivers fun ys ending' => ∃ xs ending, P xs ending ∧ R stage xs ending ys ending' := by
  -- on the delivery of the source, and for each source on the items that the stage has ready
  induction h generalizing stage with
  | @intro s P answers last rest ih =>
    have hs : s.Delivers P := .intro answers last rest
    induction hready : stage.ready using Nat.strongRecOn generalizing stage with
    | ind n ihready =>
      refine .of_pull fun σ => ?_
      cases hdemand : stage.demand with
      | emit y next =>
        refine ⟨.item y, .through next s, σ, .reply (ThroughStep.emit hdemand).advance, ?_⟩
        refine (ihready next.ready (hready ▸ Stage.ready_of_emit hdemand) next rfl).mono ?_
        rintro ys ending' ⟨xs, ending, hxs, hnext⟩
        exact ⟨xs, ending, hxs, hR.emit hdemand hnext⟩
      | stop =>
        obtain ⟨xs, ending, hxs⟩ := hs.nonempty
        exact ⟨.finished, .exhausted, σ, .reply (ThroughStep.stop hdemand).advance, xs, ending, hxs, hR.full hdemand⟩
      | ask =>
        obtain ⟨r, t, τ, hpulls⟩ := answers σ
        obtain ⟨ω, u, hlast, hthrough⟩ := hpulls.through hdemand
        cases r with
        | finished =>
          rcases hclose : stage.close τ with ⟨cells, υ⟩
          have hclosed := Delivers.closed hR hdemand (last hpulls rfl) ⟨τ, υ, hclose⟩
          obtain ⟨r, v, κ, hqueue, hfulfils⟩ := hclosed.pull υ
          have hstep := ThroughStep.advance (.finished hdemand hlast hclose)
          exact ⟨r, v, κ, hthrough (.work hstep hqueue), hfulfils⟩
        | failure e =>
          have hstep := ThroughStep.advance (.failure hdemand hlast)
          exact ⟨.failure e, .exhausted, τ, hthrough (.reply hstep), [], .failed e, last hpulls rfl,
            hR.failure hdemand⟩
        | item x =>
          rcases hreceive : stage.receive x τ with ⟨outcome, υ⟩
          have hstep := ThroughStep.advance (.item hdemand hlast hreceive)
          obtain ⟨r, v, κ, hpulls', hfulfils⟩ := Delivers.received hR hdemand ⟨τ, υ, hreceive⟩ (rest hpulls)
            (ih hpulls) hstep
          exact ⟨r, v, κ, hthrough hpulls', hfulfils⟩

end Through

end Sequence

end LazyQuery
