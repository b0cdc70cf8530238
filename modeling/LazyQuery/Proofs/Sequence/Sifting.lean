import LazyQuery.Proofs.Sequence.Consumption

/-!
# Sifting stages

A stage that does nothing in the session when it gets an item, and that hands on the item or drops it, sifts the items of
its source (`Stage.Sifts`).  What such a stage hands out is known from the items alone.

The source need not end for this: `Sequence.Hands` says what a sequence has handed out so far, and a stage that sifts goes
along with its source step by step (`Sequence.Hands.sift`).  If the source ends, the stage hands out what it still holds
and ends as well (`Sequence.Drains.sift`).  Both together are `Sequence.Makes`, and sifting stages on top of one another
make of a source what they make one after the other (`Sequence.Makes.trans`).
-/

namespace LazyQuery

/-! ### Sifting -/

namespace Stage

/-- Out of the items `xs` the stage hands on `ys` and has then become `last`.  It asks its source for each of the items, and
would ask it for another one. -/
inductive Sifts : Stage → List Item → List Item → Stage → Prop
  | start {stage} (ask : stage.demand = .ask) : Sifts stage [] [] stage
  | keep {stage next last x xs ys} (ask : stage.demand = .ask) (receive : stage.receive x = pure (.yield x next))
      (rest : Sifts next xs ys last) : Sifts stage (x :: xs) (x :: ys) last
  | drop {stage next last x xs ys} (ask : stage.demand = .ask) (receive : stage.receive x = pure (.drop next))
      (rest : Sifts next xs ys last) : Sifts stage (x :: xs) ys last

section Sifts

variable {stage last : Stage} {xs ys : List Item}

lemma Sifts.demand (h : Sifts stage xs ys last) : stage.demand = .ask := by
  cases h <;> assumption

lemma Sifts.demand_last (h : Sifts stage xs ys last) : last.demand = .ask := by
  induction h with
  | start ask => exact ask
  | keep _ _ _ ih => exact ih
  | drop _ _ _ ih => exact ih

lemma sifts_filter {accepts : Handler Bool fun _ => true} {p : Item → Bool} (haccepts : ∀ x : Item, accepts x = pure (p x))
    (xs : List Item) : Sifts (.filter accepts) xs (xs.filter p) (.filter accepts) := by
  induction xs with
  | nil => exact .start rfl
  | cons x xs ih =>
    cases hp : p x with
    | true =>
      rw [List.filter_cons_of_pos hp]
      exact .keep rfl (by simp [receive, haccepts, hp]) ih
    | false =>
      rw [List.filter_cons_of_neg (by simp [hp])]
      exact .drop rfl (by simp [receive, haccepts, hp]) ih

lemma sifts_unique (seen : IdentitySet) (xs : List Item) :
    ∃ seen', Sifts (.unique seen) xs (firsts seen xs) (.unique seen') := by
  induction xs generalizing seen with
  | nil => exact ⟨seen, .start rfl⟩
  | cons x xs ih =>
    obtain ⟨seen', hrest⟩ := ih (seen.add x).2
    refine ⟨seen', ?_⟩
    cases hadd : (seen.add x).1 with
    | true =>
      rw [firsts, if_pos hadd]
      exact .keep rfl (by simp [receive, hadd]) hrest
    | false =>
      rw [firsts, if_neg (by simp [hadd])]
      exact .drop rfl (by simp [receive, hadd]) hrest

lemma sifts_append (tail xs : List Item) : Sifts (.append tail) xs xs (.append tail) := by
  induction xs with
  | nil => exact .start rfl
  | cons x xs ih => exact .keep rfl rfl ih

end Sifts

end Stage

namespace Sequence

/-! ### Part of the way -/

/-- Gone on with from the session `σ`, the sequence `s` has handed out the items `xs` when it has become `t`, in the
session `τ`. -/
inductive Hands : Session → Sequence → List Item → Sequence → Session → Prop
  | start {σ s} : Hands σ s [] s σ
  | work {σ τ ω s t u xs} (step : s.advance σ = ((none, t), τ)) (rest : Hands τ t xs u ω) : Hands σ s xs u ω
  | item {σ τ ω s t u x xs} (step : s.advance σ = ((some (.item x), t), τ)) (rest : Hands τ t xs u ω) :
      Hands σ s (x :: xs) u ω

section Hands

variable {σ τ ω : Session} {s t u : Sequence} {stage last : Stage} {xs ys tail : List Item} {ending : Ending}

lemma Hands.drains (h : Hands σ s xs t τ) (rest : Drains τ t ys ending ω) : Drains σ s (xs ++ ys) ending ω := by
  induction h with
  | start => exact rest
  | work step _ ih => exact .work step (ih rest)
  | item step _ ih => exact .item step (ih rest)

/-- Before its ending a sequence has handed out all of its items. -/
lemma Drains.hands (h : Drains σ s xs ending ω) :
    ∃ t τ r u, Hands σ s xs t τ ∧ t.advance τ = ((some r, u), ω) ∧ r.ending? = some ending := by
  induction h with
  | work step _ ih =>
    obtain ⟨t, τ, r, u, hhands, hlast⟩ := ih
    exact ⟨t, τ, r, u, .work step hhands, hlast⟩
  | item step _ ih =>
    obtain ⟨t, τ, r, u, hhands, hlast⟩ := ih
    exact ⟨t, τ, r, u, .item step hhands, hlast⟩
  | ends step reply => exact ⟨_, _, _, _, .start, step, reply⟩

/-- **A stage that sifts goes along with its source.** -/
theorem Hands.sift (h : Hands σ s xs t τ) (hsifts : stage.Sifts xs ys last) :
    Hands σ (.through stage s) ys (.through last t) τ := by
  induction h generalizing stage ys with
  | start =>
    cases hsifts
    exact .start
  | work step _ ih => exact .work (ThroughStep.advance (.work hsifts.demand step)) (ih hsifts)
  | @item _ υ _ _ _ _ x _ step _ ih =>
    cases hsifts with
    | keep ask receive rest =>
      have hreceive : stage.receive x υ = (.yield x _, υ) := congrFun receive υ
      exact .item (ThroughStep.advance (.item ask step hreceive)) (ih rest)
    | drop ask receive rest =>
      have hreceive : stage.receive x υ = (.drop _, υ) := congrFun receive υ
      exact .work (ThroughStep.advance (.item ask step hreceive)) (ih rest)

/-- **Once its source has ended, a stage that sifts hands out what it still holds.** -/
theorem Drains.sift (h : Drains σ s xs .finished τ) (hsifts : stage.Sifts xs ys last)
    (hclose : last.close = pure (tail.map pure)) : Drains σ (.through stage s) (ys ++ tail) .finished τ := by
  obtain ⟨t, ω, r, u, hhands, hlast, hreply⟩ := h.hands
  rcases r with _ | _ | _ <;> cases hreply
  have hcells : last.close τ = (tail.map pure, τ) := congrFun hclose τ
  have hend := ThroughStep.advance (.finished hsifts.demand_last hlast hcells)
  exact (hhands.sift hsifts).drains (.work hend (drains_queue tail τ))

/-- If its source fails, a stage that sifts fails with the same error. -/
theorem Drains.sift_failed {e : QueryError} (h : Drains σ s xs (.failed e) τ) (hsifts : stage.Sifts xs ys last) :
    Drains σ (.through stage s) ys (.failed e) τ := by
  obtain ⟨t, ω, r, u, hhands, hlast, hreply⟩ := h.hands
  rcases r with _ | _ | _ <;> cases hreply
  have hfail := ThroughStep.advance (.failure hsifts.demand_last hlast)
  have hdrains := (hhands.sift hsifts).drains (.ends hfail rfl)
  rwa [List.append_nil] at hdrains

end Hands

/-- Gone through from the same session, `result` has handed out `soFar xs` when `source` has handed out `xs`; and if the
source ends after the items `xs`, then `result` ends after `atEnd xs`. -/
def Makes (source result : Sequence) (soFar atEnd : List Item → List Item) : Prop :=
  (∀ σ xs t τ, Hands σ source xs t τ → ∃ u, Hands σ result (soFar xs) u τ) ∧
    ∀ σ xs τ, Drains σ source xs .finished τ → Drains σ result (atEnd xs) .finished τ

section Makes

variable {s t u : Sequence} {soFar soFar' atEnd atEnd' : List Item → List Item}

lemma Makes.trans (h : Makes s t soFar atEnd) (h' : Makes t u soFar' atEnd') :
    Makes s u (fun xs => soFar' (soFar xs)) fun xs => atEnd' (atEnd xs) := by
  refine ⟨fun σ xs v τ hhands => ?_, fun σ xs τ hdrains => h'.2 σ _ τ (h.2 σ xs τ hdrains)⟩
  obtain ⟨w, hbetween⟩ := h.1 σ xs v τ hhands
  exact h'.1 σ _ w τ hbetween

/-- **A stage that sifts makes what it sifts**, and at the end also what it holds. -/
theorem makes_sift {stage : Stage} {f : List Item → List Item} {tail : List Item}
    (h : ∀ xs, ∃ last, stage.Sifts xs (f xs) last ∧ last.close = pure (tail.map pure)) :
    Makes s (.through stage s) f fun xs => f xs ++ tail := by
  refine ⟨fun σ xs t τ hhands => ?_, fun σ xs τ hdrains => ?_⟩
  · obtain ⟨last, hsifts, -⟩ := h xs
    exact ⟨_, hhands.sift hsifts⟩
  · obtain ⟨last, hsifts, hclose⟩ := h xs
    exact hdrains.sift hsifts hclose

/-- The same where the stage holds nothing. -/
lemma makes_sift_nil {stage : Stage} {f : List Item → List Item}
    (h : ∀ xs, ∃ last, stage.Sifts xs (f xs) last ∧ last.close = pure []) : Makes s (.through stage s) f f := by
  have hsift : Makes s (.through stage s) f fun xs => f xs ++ [] := makes_sift h
  simpa only [List.append_nil] using hsift

end Makes

end Sequence

end LazyQuery
