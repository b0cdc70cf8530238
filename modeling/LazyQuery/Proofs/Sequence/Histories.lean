import LazyQuery.Proofs.Sequence.Asking

/-!
# Sequences with the same histories

Two sequences have the same histories (`Sequence.SameHistories`) if nobody who pulls them, with any other work between the
pulls, can tell them apart: each pull finds the same reply and leaves the same session.  How many steps of work there are in
a pull does not matter, and the sequences need not end.

To see that two sequences have the same histories one step of the one is matched by steps of the other
(`Sequence.Simulates`, `Sequence.Simulates.sameHistories`).  A stage on either of them changes nothing
(`Sequence.SameHistories.through`).
-/

namespace LazyQuery.Sequence

section SameHistories

variable {s t u : Sequence} {σ τ : Session} {r : Reply} {xs : List Item} {ending : Ending}

@[refl] lemma SameHistories.refl (s : Sequence) : s.SameHistories s := fun _ => Iff.rfl

lemma SameHistories.symm (h : s.SameHistories t) : t.SameHistories s := fun history => (h history).symm

lemma SameHistories.trans (h : s.SameHistories t) (h' : t.SameHistories u) : s.SameHistories u :=
  fun history => (h history).trans (h' history)

/-- After the same pull there are the same histories. -/
lemma SameHistories.pulls {s' : Sequence} (h : s.SameHistories t) (hpull : Pulls σ s r s' τ) :
    ∃ t', Pulls σ t r t' τ ∧ s'.SameHistories t' := by
  obtain ⟨w, hfirst⟩ := (h [(σ, r, τ)]).mp ⟨s', .next hpull .start⟩
  cases hfirst with
  | @next _ _ _ t' _ _ _ hpull' _ =>
    refine ⟨t', hpull', fun history => ⟨?_, ?_⟩⟩
    · rintro ⟨u, hrest⟩
      obtain ⟨v, hpulled⟩ := (h ((σ, r, τ) :: history)).mp ⟨u, .next hpull hrest⟩
      cases hpulled with
      | next first rest =>
        obtain ⟨-, rfl, -⟩ := hpull'.unique first
        exact ⟨v, rest⟩
    · rintro ⟨u, hrest⟩
      obtain ⟨v, hpulled⟩ := (h ((σ, r, τ) :: history)).mpr ⟨u, .next hpull' hrest⟩
      cases hpulled with
      | next first rest =>
        obtain ⟨-, rfl, -⟩ := hpull.unique first
        exact ⟨v, rest⟩

/-- **Sequences with the same histories hand out the same items and end alike**, when they are gone through. -/
theorem SameHistories.drains (h : s.SameHistories t) (hdrains : Drains σ s xs ending τ) : Drains σ t xs ending τ := by
  -- on the steps of `s`, which has started its pull from `v`
  suffices hworks : ∀ {v υ}, Works υ v s σ → v.SameHistories t → Drains υ t xs ending τ from hworks .done h
  clear h
  induction hdrains generalizing t with
  | work step _ ih =>
    intro v υ hworks hsame
    exact ih (hworks.trans (.step step .done)) hsame
  | item step _ ih =>
    intro v υ hworks hsame
    obtain ⟨t', hpull, hrest⟩ := hsame.pulls (hworks.pulls (.reply step))
    exact .pull hpull (ih .done hrest)
  | ends step reply =>
    intro v υ hworks hsame
    obtain ⟨t', hpull, -⟩ := hsame.pulls (hworks.pulls (.reply step))
    exact .last hpull reply

end SameHistories

/-! ### Stages -/

section Stages

variable {stage : Stage} {s t : Sequence} {asked history : List (Session × Reply × Session)}

/-- What a stage asks for, another source may bring as well. -/
lemma Asks.of_pulled (h : Asks stage s asked history) (hasked : ∃ u, Pulled t asked u) : Asks stage t asked history := by
  induction h generalizing t with
  | start => exact .start
  | emit demand _ ih => exact .emit demand (ih hasked)
  | full demand rest => exact .full demand rest
  | failure demand _ rest =>
    obtain ⟨u, hpulled⟩ := hasked
    cases hpulled with
    | next first _ => exact .failure demand first rest
  | finished demand _ close rest =>
    obtain ⟨u, hpulled⟩ := hasked
    cases hpulled with
    | next first _ => exact .finished demand first close rest
  | yield demand _ receive _ ih =>
    obtain ⟨u, hpulled⟩ := hasked
    cases hpulled with
    | next first more => exact .yield demand first receive (ih ⟨u, more⟩)
  | drop demand _ receive _ ih =>
    obtain ⟨u, hpulled⟩ := hasked
    cases hpulled with
    | next first more => exact .drop demand first receive (ih ⟨u, more⟩)
  | @cut _ _ _ _ _ _ _ _ outcome _ _ demand _ receive reply rest =>
    obtain ⟨u, hpulled⟩ := hasked
    cases hpulled with
    | next first _ =>
      cases outcome with
      | yield | drop => cases reply
      | stop | fail =>
        cases reply
        exact .cut demand first receive rfl rest

/-- **A stage makes the same histories of the same histories.** -/
theorem SameHistories.through (h : s.SameHistories t) (stage : Stage) :
    (Sequence.through stage s).SameHistories (.through stage t) := by
  have hone {s t : Sequence} (h : s.SameHistories t) {history : List (Session × Reply × Session)}
      (hpulled : ∃ u, Pulled (.through stage s) history u) : ∃ u, Pulled (.through stage t) history u := by
    obtain ⟨u, hpulled⟩ := hpulled
    obtain ⟨asked, hasks⟩ := hpulled.exists_asks
    exact (hasks.of_pulled ((h asked).mp hasks.pulled)).pulled_through
  exact fun history => ⟨hone h, hone h.symm⟩

end Stages

/-! ### Simulations -/

/-- Where `R` holds, the steps of the second sequence are made by the first as well: a reply by a pull, and a step without a
reply by one or more of them.  What there is then is the same, or `R` holds of it. -/
structure Simulates (R : Sequence → Sequence → Prop) : Prop where
  reply {s t t' : Sequence} {r : Reply} {σ τ : Session} : R s t → t.advance σ = ((some r, t'), τ) →
    ∃ s', Pulls σ s r s' τ ∧ (R s' t' ∨ s' = t')
  work {s t t' : Sequence} {σ τ : Session} : R s t → t.advance σ = ((none, t'), τ) →
    ∃ u ω s', s.advance σ = ((none, u), ω) ∧ Works ω u s' τ ∧ (R s' t' ∨ s' = t')

/-- Where each step of the one is one of the other as well, there is a simulation. -/
lemma simulates_of_lockstep {R : Sequence → Sequence → Prop}
    (hR : ∀ {s t}, R s t → ∀ σ, ∃ p s' t' τ, s.advance σ = ((p, s'), τ) ∧ t.advance σ = ((p, t'), τ) ∧
      (R s' t' ∨ s' = t')) : Simulates R where
  reply h step := by
    obtain ⟨_, _, _, _, hs, ht, hnext⟩ := hR h _
    rw [step] at ht
    cases ht
    exact ⟨_, .reply hs, hnext⟩
  work h step := by
    obtain ⟨_, _, _, _, hs, ht, hnext⟩ := hR h _
    rw [step] at ht
    cases ht
    exact ⟨_, _, _, hs, .done, hnext⟩

section Simulates

variable {R : Sequence → Sequence → Prop} (hR : Simulates R) {s t s' t' u : Sequence} {σ τ υ : Session} {r : Reply}

include hR

lemma Simulates.of_pulls (h : R s t) (hpull : Pulls σ t r t' τ) : ∃ s', Pulls σ s r s' τ ∧ (R s' t' ∨ s' = t') := by
  induction hpull generalizing s with
  | reply step => exact hR.reply h step
  | work step rest ih =>
    obtain ⟨u, ω, v, hstep, hworks, hnext | rfl⟩ := hR.work h step
    · obtain ⟨s', hpull, hrest⟩ := ih hnext
      exact ⟨s', .work hstep (hworks.pulls hpull), hrest⟩
    · exact ⟨_, .work hstep (hworks.pulls rest), .inr rfl⟩

/-- The second sequence keeps up with each pull of the first. -/
lemma Simulates.pulls (h : R s t) (hpull : Pulls σ s r s' τ) : ∃ t', Pulls σ t r t' τ ∧ (R s' t' ∨ s' = t') := by
  -- on the steps of the pull, from any sequence on the way to one that `R` or equality holds of
  suffices hway : ∀ {v υ t}, Works σ s v υ → (R v t ∨ v = t) → ∃ t', Pulls υ t r t' τ ∧ (R s' t' ∨ s' = t') from
    hway .done (.inl h)
  clear h
  induction hpull with
  | @reply σ τ s s' r step =>
    intro v υ t hworks hnext
    cases hworks with
    | step step' _ =>
      rw [step] at step'
      cases step'
    | done =>
      obtain hnext | rfl := hnext
      · rcases hadvance : t.advance σ with ⟨⟨_ | reply, t'⟩, ω⟩
        · obtain ⟨u, κ, w, hstep, -⟩ := hR.work hnext hadvance
          rw [step] at hstep
          cases hstep
        · obtain ⟨w, hpull, hrest⟩ := hR.reply hnext hadvance
          obtain ⟨rfl, rfl, rfl⟩ := hpull.unique (.reply step)
          exact ⟨t', .reply hadvance, hrest⟩
      · exact ⟨_, .reply step, .inr rfl⟩
  | @work σ τ ω s s' u r step rest ih =>
    intro v υ t hworks hnext
    cases hworks with
    | step step' hrest =>
      rw [step] at step'
      cases step'
      exact ih hrest hnext
    | done =>
      obtain hnext | rfl := hnext
      · rcases hadvance : t.advance σ with ⟨⟨_ | reply, t'⟩, κ⟩
        · obtain ⟨u, ν, w, hstep, hworks, hrest⟩ := hR.work hnext hadvance
          rw [step] at hstep
          cases hstep
          obtain ⟨t'', hpull, hlast⟩ := ih hworks hrest
          exact ⟨t'', .work hadvance hpull, hlast⟩
        · obtain ⟨w, hpull, hrest⟩ := hR.reply hnext hadvance
          obtain ⟨rfl, rfl, rfl⟩ := hpull.unique (.work step rest)
          exact ⟨t', .reply hadvance, hrest⟩
      · exact ⟨_, .work step rest, .inr rfl⟩

/-- **A simulation relates sequences with the same histories.** -/
theorem Simulates.sameHistories (h : R s t) : s.SameHistories t := by
  intro history
  constructor
  · rintro ⟨u, hpulled⟩
    induction hpulled generalizing t with
    | start => exact ⟨t, .start⟩
    | next first rest ih =>
      obtain ⟨t', hpull, hnext | rfl⟩ := hR.pulls h first
      · obtain ⟨v, hrest⟩ := ih hnext
        exact ⟨v, .next hpull hrest⟩
      · exact ⟨_, .next hpull rest⟩
  · rintro ⟨u, hpulled⟩
    induction hpulled generalizing s with
    | start => exact ⟨s, .start⟩
    | next first rest ih =>
      obtain ⟨s', hpull, hnext | rfl⟩ := hR.of_pulls h first
      · obtain ⟨v, hrest⟩ := ih hnext
        exact ⟨v, .next hpull hrest⟩
      · exact ⟨_, .next hpull rest⟩

end Simulates

lemma simulates_queue_nil : Simulates fun s t => s = .queue [] ∧ t = .exhausted := by
  refine simulates_of_lockstep ?_
  rintro _ _ ⟨rfl, rfl⟩ σ
  exact ⟨some .finished, .exhausted, .exhausted, σ, rfl, rfl, .inr rfl⟩

/-- A queue without items cannot be told from a sequence that has ended. -/
theorem queue_nil_sameHistories : (Sequence.queue []).SameHistories .exhausted :=
  simulates_queue_nil.sameHistories ⟨rfl, rfl⟩

end LazyQuery.Sequence
