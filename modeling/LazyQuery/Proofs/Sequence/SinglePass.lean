import LazyQuery.Proofs.Sequence.Pull
import Mathlib.Data.List.Basic

/-!
# Sequences are gone through once

A sequence that has ended or failed stays so, whatever is under it: in each history of pulls, with any other work between
them, there are items, at most one error, and then nothing more (`Sequence.Pulled.singlePass`), and the sequence is
exhausted from its first ending on (`Sequence.Pulled.isExhausted_iff`).

That a producer is not asked again after its ending is seen by letting it do something else if it were asked.  The
producer `relapsing produce again` answers as `produce` does up to its ending, and then does `again`, whatever that is.
Putting it in the place of `produce` (`Sequence.relapse`) goes along with each step (`Sequence.advance_relapse`), so
nothing of `again` ever shows: neither in a reply, nor in a session, nor in how often there is work.
-/

namespace LazyQuery

namespace Reply

def isEnding (r : Reply) : Bool :=
  r.ending?.isSome

end Reply

namespace Sequence

/-! ### Histories of pulls -/

/-- A history of pulls, each with the session that it found, the reply and the session that it left. -/
inductive Pulled : Sequence → List (Session × Reply × Session) → Sequence → Prop
  | start {s} : Pulled s [] s
  | next {σ τ s t u r history} (first : Pulls σ s r t τ) (rest : Pulled t history u) :
      Pulled s ((σ, r, τ) :: history) u

/-- Items, then at most one error, and then no more for ever. -/
def SinglePass (replies : List Reply) : Prop :=
  ∃ (items : List Item) (error : Option QueryError) (ends : Nat),
    replies = items.map .item ++ error.toList.map .failure ++ List.replicate ends .finished

/-- In each history of pulls the replies are as they are in a single pass, and the sequence is exhausted exactly when one
of them has been an ending. -/
def IsSinglePass (s : Sequence) : Prop :=
  ∀ history u, Pulled s history u →
    SinglePass (history.map (·.2.1)) ∧ (u.isExhausted ↔ ∃ pull ∈ history, pull.2.1.isEnding)

section Shape

variable {σ τ : Session} {s t u : Sequence} {r : Reply} {history : List (Session × Reply × Session)}

/-- A producer replies at once, and it is gone after an ending. -/
lemma advance_producer {produce : Nat → Eff (Reply × Nat)} {state next : Nat}
    (hproduce : produce state σ = ((r, next), τ)) : (Sequence.producer produce state).advance σ =
      ((some r, if r.isEnding then .exhausted else .producer produce next), τ) := by
  refine (Eff.bind_run hproduce).trans ?_
  cases r <;> rfl

/-- After a step with a reply, a sequence is exhausted if the reply is an ending, and only then. -/
lemma isExhausted_of_advance (step : s.advance σ = ((some r, t), τ)) : t.isExhausted = r.isEnding := by
  cases s with
  | exhausted =>
    cases step
    rfl
  | producer produce state =>
    rcases hproduce : produce state σ with ⟨⟨reply, next⟩, ω⟩
    rw [advance_producer hproduce] at step
    cases step
    cases r <;> rfl
  | queue cells =>
    rcases cells with _ | ⟨cell, cells⟩
    · cases step
      rfl
    · rcases hcell : cell σ with ⟨item, ω⟩
      rw [advance, Eff.bind_run hcell] at step
      cases step
      rfl
  | deferred materialize =>
    rcases hmaterialize : materialize σ with ⟨_ | items, ω⟩
    · rw [advance, Eff.bind_run hmaterialize] at step
      cases step
      rfl
    · rw [advance, Eff.bind_run hmaterialize] at step
      cases step
  | through stage source =>
    generalize hp : (some r, t) = p at step
    cases throughStep_of_advance step with
    | @item _ _ _ outcome _ hdemand _ _ => cases outcome <;> cases hp <;> rfl
    | _ =>
      cases hp
      try rfl

lemma Pulls.isExhausted (h : Pulls σ s r t τ) : t.isExhausted = r.isEnding := by
  induction h with
  | reply step => exact isExhausted_of_advance step
  | work _ _ ih => exact ih

lemma pulls_exhausted : Pulls σ exhausted r t τ ↔ r = .finished ∧ t = exhausted ∧ τ = σ := by
  constructor
  · intro h
    exact h.unique (.reply rfl)
  · rintro ⟨rfl, rfl, rfl⟩
    exact .reply rfl

lemma eq_exhausted (h : s.isExhausted) : s = exhausted := by
  cases s <;> first | rfl | cases h

lemma isExhausted_of_ending {r : Reply} (step : s.advance σ = ((some r, t), τ)) (hr : r.isEnding) : t = .exhausted :=
  eq_exhausted ((isExhausted_of_advance step).trans hr)

/-- An exhausted sequence has nothing more to say. -/
lemma Pulled.of_exhausted (h : Pulled exhausted history u) :
    history.map (·.2.1) = List.replicate history.length .finished ∧ u = exhausted := by
  generalize hs : exhausted = s at h
  induction h with
  | start =>
    subst hs
    exact ⟨rfl, rfl⟩
  | next first _ ih =>
    subst hs
    obtain ⟨rfl, rfl, rfl⟩ := pulls_exhausted.mp first
    obtain ⟨hreplies, hu⟩ := ih rfl
    exact ⟨by rw [List.map_cons, hreplies]; rfl, hu⟩

/-- **The replies to any number of pulls are items, then at most one error, and then no more for ever.** -/
theorem Pulled.singlePass (h : Pulled s history u) : SinglePass (history.map (·.2.1)) := by
  induction h with
  | start => exact ⟨[], none, 0, rfl⟩
  | @next σ τ s t u r history first rest ih =>
    cases r with
    | item x =>
      obtain ⟨items, error, ends, hreplies⟩ := ih
      exact ⟨x :: items, error, ends, by rw [List.map_cons, hreplies]; rfl⟩
    | failure e =>
      cases eq_exhausted first.isExhausted
      exact ⟨[], some e, history.length, by rw [List.map_cons, rest.of_exhausted.1]; rfl⟩
    | finished =>
      cases eq_exhausted first.isExhausted
      exact ⟨[], none, history.length + 1, by rw [List.map_cons, rest.of_exhausted.1]; rfl⟩

/-- **A sequence is exhausted exactly if it was before or one of the pulls has brought an ending.** -/
theorem Pulled.isExhausted_iff (h : Pulled s history u) :
    u.isExhausted ↔ s.isExhausted ∨ ∃ pull ∈ history, pull.2.1.isEnding := by
  induction h with
  | start => simp
  | @next σ τ s t u r history first rest ih =>
    rw [ih, first.isExhausted, List.exists_mem_cons_iff]
    constructor
    · rintro (hr | hrest)
      · exact .inr (.inl hr)
      · exact .inr (.inr hrest)
    · rintro (hs | hr | hrest)
      · cases eq_exhausted hs
        obtain ⟨rfl, -, -⟩ := pulls_exhausted.mp first
        exact .inl rfl
      · exact .inl hr
      · exact .inr hrest

lemma isSinglePass_of_fresh (hs : s.isExhausted = false) : s.IsSinglePass := by
  intro history u h
  refine ⟨h.singlePass, ?_⟩
  rw [h.isExhausted_iff, hs]
  simp

/-- A producer that has not ended answers each time. -/
lemma Pulled.answers {produce : Nat → Eff (Reply × Nat)} {state : Nat}
    (h : Pulled (.producer produce state) history u) (σ : Session) : ∃ r t τ, Pulls σ u r t τ := by
  generalize hs : Sequence.producer produce state = s at h
  induction h generalizing state with
  | start =>
    subst hs
    rcases hproduce : produce state σ with ⟨⟨reply, next⟩, τ⟩
    exact ⟨_, _, _, .reply (advance_producer hproduce)⟩
  | @next ω υ s t u r history first rest ih =>
    subst hs
    cases hending : r.isEnding with
    | true =>
      have hexhausted := eq_exhausted (first.isExhausted.trans hending)
      subst hexhausted
      obtain ⟨-, rfl⟩ := rest.of_exhausted
      exact ⟨.finished, .exhausted, σ, .reply rfl⟩
    | false =>
      rcases hproduce : produce state ω with ⟨⟨reply, next⟩, τ⟩
      obtain ⟨rfl, rfl, -⟩ := first.unique (.reply (advance_producer hproduce))
      rw [hending] at ih
      exact ih rfl

end Shape

/-! ### Producers that would do more -/

/-- Both can be pulled in the same ways, with the same replies and from session to session. -/
def SameHistories (s t : Sequence) : Prop :=
  ∀ history, (∃ u, Pulled s history u) ↔ ∃ u, Pulled t history u

/-- Answers as `produce` does up to an ending; asked once more after that, it does `again`.  Its state is one more than
that of `produce`, and zero after the ending. -/
def relapsing (produce : Nat → Eff (Reply × Nat)) (again : Eff (Reply × Nat)) : Nat → Eff (Reply × Nat)
  | 0 => again
  | state + 1 => do
    let (reply, next) ← produce state
    return (reply, if reply.isEnding then 0 else next + 1)

/-- The sequence over a producer that would do `again` after its ending. -/
def relapse (again : Eff (Reply × Nat)) : Sequence → Sequence
  | .exhausted => .exhausted
  | .producer produce state => .producer (relapsing produce again) (state + 1)
  | .queue cells => .queue cells
  | .deferred materialize => .deferred materialize
  | .through stage source => .through stage (relapse again source)

section Relapse

variable {again : Eff (Reply × Nat)} {σ τ : Session} {s t u : Sequence} {r : Reply} {reply : Option Reply}
  {history : List (Session × Reply × Session)}

/-- **No step gets to what a producer would do after its ending.** -/
theorem advance_relapse (step : s.advance σ = ((reply, t), τ)) :
    (s.relapse again).advance σ = ((reply, t.relapse again), τ) := by
  induction s generalizing σ τ t reply with
  | exhausted =>
    cases step
    rfl
  | producer produce state =>
    rcases hproduce : produce state σ with ⟨⟨r, next⟩, ω⟩
    rw [advance_producer hproduce] at step
    have hrelapsing : relapsing produce again (state + 1) σ = ((r, if r.isEnding then 0 else next + 1), ω) :=
      Eff.bind_run hproduce
    rw [relapse, advance_producer hrelapsing]
    cases r <;> cases step <;> rfl
  | queue cells =>
    rcases cells with _ | ⟨cell, cells⟩
    · cases step
      rfl
    · rcases hcell : cell σ with ⟨item, ω⟩
      rw [advance, Eff.bind_run hcell] at step
      rw [relapse, advance, Eff.bind_run hcell]
      cases step
      rfl
  | deferred materialize =>
    rcases hmaterialize : materialize σ with ⟨_ | items, ω⟩
    all_goals
      rw [advance, Eff.bind_run hmaterialize] at step
      rw [relapse, advance, Eff.bind_run hmaterialize]
      cases step
      rfl
  | through stage source ih =>
    rw [relapse]
    generalize hp : (reply, t) = p at step
    cases throughStep_of_advance step with
    | emit hdemand =>
      cases hp
      exact ThroughStep.advance (.emit hdemand)
    | stop hdemand =>
      cases hp
      exact ThroughStep.advance (.stop hdemand)
    | work hdemand hsource =>
      cases hp
      exact ThroughStep.advance (.work hdemand (ih hsource))
    | failure hdemand hsource =>
      cases hp
      exact ThroughStep.advance (.failure hdemand (ih hsource))
    | finished hdemand hsource hclose =>
      cases hp
      exact ThroughStep.advance (.finished hdemand (ih hsource) hclose)
    | @item _ _ _ outcome _ hdemand hsource hreceive =>
      rw [ThroughStep.advance (.item hdemand (ih hsource) hreceive)]
      cases outcome <;> cases hp <;> rfl

lemma Pulls.relapse (h : Pulls σ s r t τ) : Pulls σ (s.relapse again) r (t.relapse again) τ := by
  induction h with
  | reply step => exact .reply (advance_relapse step)
  | work step _ ih => exact .work (advance_relapse step) ih

lemma Pulls.of_relapse (h : Pulls σ (s.relapse again) r u τ) : ∃ t, Pulls σ s r t τ ∧ u = t.relapse again := by
  generalize hv : s.relapse again = v at h
  induction h generalizing s with
  | @reply σ τ v u r step =>
    subst hv
    rcases hs : s.advance σ with ⟨⟨reply, t⟩, ω⟩
    rw [advance_relapse hs] at step
    cases step
    exact ⟨t, .reply hs, rfl⟩
  | @work σ τ ω v w u r step _ ih =>
    subst hv
    rcases hs : s.advance σ with ⟨⟨reply, t⟩, ω⟩
    rw [advance_relapse hs] at step
    cases step
    obtain ⟨t', hpulls, hu⟩ := ih rfl
    exact ⟨t', .work hs hpulls, hu⟩

/-- **No history of pulls gets to what a producer would do after its ending.** -/
theorem sameHistories_relapse (again : Eff (Reply × Nat)) (s : Sequence) : s.SameHistories (s.relapse again) := by
  intro history
  constructor
  · rintro ⟨u, h⟩
    induction h with
    | start => exact ⟨_, .start⟩
    | next first _ ih =>
      obtain ⟨u, hrest⟩ := ih
      exact ⟨u, .next first.relapse hrest⟩
  · rintro ⟨u, h⟩
    generalize hv : s.relapse again = v at h
    induction h generalizing s with
    | start => exact ⟨s, .start⟩
    | next first _ ih =>
      subst hv
      obtain ⟨t, hpulls, ht⟩ := first.of_relapse
      obtain ⟨u, hrest⟩ := ih t ht.symm
      exact ⟨u, .next hpulls hrest⟩

end Relapse

end Sequence

end LazyQuery
