import LazyQuery.Proofs.Item.References
import LazyQuery.Proofs.Sequence.Delivery

/-!
# Pull after pull, with work on each item

Stages and consumers pull their source once for each item and then work on the item, before they pull again.
`Sequence.Feeds` is such a run up to some point, `Sequence.FeedsAll` one up to the ending of the source.  What a stage that
maps or expands its items hands out is read off the run of its source (`Sequence.FeedsAll.drains_map`,
`Sequence.FeedsAll.drains_expand`).

Some statements are about sessions in which the items are known, that is, in which they have references below the next one.
`Sequence.Supplies` is a delivery in such sessions, of items that are known from then on (`Sequence.Supplies.feedsAll`).
-/

namespace LazyQuery.Sequence

/-! ### Runs -/

/-- Pull after pull from the session `σ` on, each followed by the work on its item.  In `fed` there are the items with what
the work on them has come to. -/
inductive Feeds {β : Type} (work : Item → Eff β) : Session → Sequence → List (Item × β) → Sequence → Session → Prop
  | start {σ s} : Feeds work σ s [] s σ
  | item {σ τ υ ω s t u x b fed} (pull : Pulls σ s (.item x) t τ) (answer : work x τ = (b, υ))
      (rest : Feeds work υ t fed u ω) : Feeds work σ s ((x, b) :: fed) u ω

/-- The same with all items, up to the ending. -/
def FeedsAll {β : Type} (work : Item → Eff β) (σ : Session) (s : Sequence) (fed : List (Item × β)) (ending : Ending)
    (τ : Session) : Prop :=
  ∃ υ t r u, Feeds work σ s fed t υ ∧ Pulls υ t r u τ ∧ r.ending? = some ending

/-- What was fed is what the work has answered. -/
lemma FeedsAll.answers {β : Type} {work : Item → Eff β} {σ τ : Session} {s : Sequence} {fed : List (Item × β)}
    {ending : Ending} (h : FeedsAll work σ s fed ending τ) : ∀ pair ∈ fed, (work pair.1).Answers pair.2 := by
  obtain ⟨υ, t, r, u, hfeeds, -, -⟩ := h
  induction hfeeds with
  | start => simp
  | item _ answer _ ih => exact List.forall_mem_cons.mpr ⟨⟨_, _, answer⟩, ih⟩

/-! #### Work that does nothing in the session -/

section Quiet

variable {β : Type} {work : Item → Eff β} {answer : Item → β} {σ τ : Session} {s t : Sequence} {fed : List (Item × β)}
  {ending : Ending}

/-- Work of the source counts as part of its next pull. -/
lemma FeedsAll.of_work (step : s.advance σ = ((none, t), τ)) {ω : Session} (h : FeedsAll work τ t fed ending ω) :
    FeedsAll work σ s fed ending ω := by
  obtain ⟨υ, u, r, v, hfeeds, hlast, hending⟩ := h
  cases hfeeds with
  | start => exact ⟨_, _, _, _, .start, .work step hlast, hending⟩
  | item pull answer rest => exact ⟨_, _, _, _, .item (.work step pull) answer rest, hlast, hending⟩

/-- **With work that leaves the session as it is, the items are fed as they are handed out.** -/
theorem feedsAll_iff_drains (hwork : ∀ x σ, work x σ = (answer x, σ)) : FeedsAll work σ s fed ending τ ↔
    ∃ xs, Drains σ s xs ending τ ∧ fed = xs.map fun x => (x, answer x) := by
  constructor
  · rintro ⟨υ, t, r, u, hfeeds, hlast, hending⟩
    induction hfeeds with
    | start => exact ⟨[], .last hlast hending, rfl⟩
    | item pull run _ ih =>
      obtain ⟨xs, hdrains, rfl⟩ := ih hlast
      rw [hwork] at run
      cases run
      exact ⟨_ :: xs, .pull pull hdrains, rfl⟩
  · rintro ⟨xs, hdrains, rfl⟩
    induction hdrains with
    | work step _ ih => exact ih.of_work step
    | item step _ ih =>
      obtain ⟨υ, t, r, u, hfeeds, hlast, hending⟩ := ih
      exact ⟨υ, t, r, u, .item (.reply step) (hwork _ _) hfeeds, hlast, hending⟩
    | ends step reply => exact ⟨_, _, _, _, .start, .reply step, reply⟩

end Quiet

/-- **The run on a delivery**: whatever the work is, all items are fed. -/
theorem Delivers.feedsAll {β : Type} {s : Sequence} {P : List Item → Ending → Prop} (h : s.Delivers P) (work : Item → Eff β)
    (σ : Session) : ∃ fed ending τ, FeedsAll work σ s fed ending τ ∧ P (fed.map Prod.fst) ending := by
  induction h generalizing σ with
  | intro answers last _ ih =>
    obtain ⟨r, t, τ, hpulls⟩ := answers σ
    cases r with
    | item x =>
      rcases hwork : work x τ with ⟨b, υ⟩
      obtain ⟨fed, ending, ω, ⟨κ, u, r, v, hfeeds, hlast, hending⟩, hP⟩ := ih hpulls υ
      exact ⟨(x, b) :: fed, ending, ω, ⟨κ, u, r, v, .item hpulls hwork hfeeds, hlast, hending⟩, hP⟩
    | failure e => exact ⟨[], .failed e, τ, ⟨σ, _, _, t, .start, hpulls, rfl⟩, last hpulls rfl⟩
    | finished => exact ⟨[], .finished, τ, ⟨σ, _, _, t, .start, hpulls, rfl⟩, last hpulls rfl⟩

section Stages

variable {σ τ υ ω : Session} {s t : Sequence} {stage next : Stage} {x y : Item} {ys : List Item} {ending : Ending}

lemma Drains.yields (h : Pulls σ s (.item x) t τ) (hdemand : stage.demand = .ask)
    (hreceive : stage.receive x τ = (.yield y next, ω)) (rest : Drains ω (.through next t) ys ending υ) :
    Drains σ (.through stage s) (y :: ys) ending υ := by
  obtain ⟨u, κ, hworks, hstep⟩ := h.received hdemand hreceive
  exact hworks.drains (.item hstep rest)

lemma Drains.drops (h : Pulls σ s (.item x) t τ) (hdemand : stage.demand = .ask)
    (hreceive : stage.receive x τ = (.drop next, ω)) (rest : Drains ω (.through next t) ys ending υ) :
    Drains σ (.through stage s) ys ending υ := by
  obtain ⟨u, κ, hworks, hstep⟩ := h.received hdemand hreceive
  exact hworks.drains (.work hstep rest)

/-- A stage that has nothing left to hand out ends as its source does. -/
lemma Drains.ends_alike {r : Reply} (h : Pulls σ s r t τ) (hdemand : stage.demand = .ask) (hclose : stage.close = pure [])
    (hending : r.ending? = some ending) : Drains σ (.through stage s) [] ending τ :=
  .last (h.through_ending (Option.isSome_of_eq_some hending) hdemand hclose) hending

/-- A stage that holds items hands them out first. -/
lemma Drains.emits {f : Handler (Except QueryError (List Item)) .error} {ready : List Item}
    (rest : Drains σ (.through (.expand f []) s) ys ending τ) :
    Drains σ (.through (.expand f ready) s) (ready ++ ys) ending τ := by
  induction ready with
  | nil => exact rest
  | cons y ready ih => exact .item (ThroughStep.advance (.emit rfl)) ih

/-- **One item for each item of the source**, in order. -/
theorem FeedsAll.drains_map {work : Item → Eff Item} {fed : List (Item × Item)} (h : FeedsAll work σ s fed ending τ)
    {f : Handler (Except QueryError Item) .error} (hf : ∀ x : Item, f x = do return .ok (← work x)) :
    Drains σ (.through (.map f) s) (fed.map Prod.snd) ending τ := by
  obtain ⟨υ, t, r, u, hfeeds, hlast, hending⟩ := h
  induction hfeeds with
  | start => exact .ends_alike hlast rfl rfl hending
  | @item _ τ υ _ _ _ _ x row _ pull answer _ ih =>
    have hrow : f x τ = (.ok row, υ) := by
      rw [hf]
      exact Eff.bind_run answer
    exact .yields pull rfl (Eff.bind_run hrow) (ih hlast)

/-- **The rows made of each item of the source**, one after the other. -/
theorem FeedsAll.drains_expand {work : Item → Eff (List Item)} {fed : List (Item × List Item)}
    (h : FeedsAll work σ s fed ending τ) {f : Handler (Except QueryError (List Item)) .error}
    (hf : ∀ x : Item, f x = do return .ok (← work x)) :
    Drains σ (.through (.expand f []) s) (fed.map Prod.snd).flatten ending τ := by
  obtain ⟨υ, t, r, u, hfeeds, hlast, hending⟩ := h
  induction hfeeds with
  | start => exact .ends_alike hlast rfl rfl hending
  | @item _ τ υ _ _ _ _ x rows _ pull answer _ ih =>
    have hrows : f x τ = (.ok rows, υ) := by
      rw [hf]
      exact Eff.bind_run answer
    exact .drops pull rfl (Eff.bind_run hrows) (.emits (ih hlast))

end Stages

/-! ### Items that are known -/

/-- In sessions with references below the bound, and whatever is made between the pulls, the sequence always answers and
comes to an end; its items are known in the session of the pull, and its items and its ending are as `P` says. -/
inductive Supplies : Ref → Sequence → (List Item → Ending → Prop) → Prop
  | intro {bound s P}
      (answers : ∀ σ : Session, bound ≤ σ.nextRef → ∃ r t τ, Pulls σ s r t τ ∧ σ.nextRef ≤ τ.nextRef)
      (last : ∀ {σ r t τ ending}, bound ≤ σ.nextRef → Pulls σ s r t τ → r.ending? = some ending → P [] ending)
      (known : ∀ {σ x t τ}, bound ≤ σ.nextRef → Pulls σ s (.item x) t τ → x.Below τ.nextRef)
      (rest : ∀ {σ x t τ}, bound ≤ σ.nextRef → Pulls σ s (.item x) t τ →
        Supplies τ.nextRef t fun xs ending => P (x :: xs) ending) :
      Supplies bound s P

/-- What is supplied with a reply, in the session after it, and from then on. -/
def Furnishes (r : Reply) (t : Sequence) (τ : Session) (P : List Item → Ending → Prop) : Prop :=
  match r with
  | .item x => x.Below τ.nextRef ∧ t.Supplies τ.nextRef fun xs ending => P (x :: xs) ending
  | .failure e => P [] (.failed e)
  | .finished => P [] .finished

section Supplies

variable {bound : Ref} {s : Sequence} {P : List Item → Ending → Prop}

lemma Supplies.of_pull (h : ∀ σ : Session, bound ≤ σ.nextRef →
    ∃ r t τ, Pulls σ s r t τ ∧ σ.nextRef ≤ τ.nextRef ∧ Furnishes r t τ P) : s.Supplies bound P := by
  have hfurnishes {σ : Session} {r : Reply} {t : Sequence} {τ : Session} (hσ : bound ≤ σ.nextRef)
      (hpulls : Pulls σ s r t τ) : Furnishes r t τ P := by
    obtain ⟨r', t', τ', hpulls', -, hfurnishes⟩ := h σ hσ
    obtain ⟨rfl, rfl, rfl⟩ := hpulls.unique hpulls'
    exact hfurnishes
  refine .intro (fun σ hσ => ?_) (fun {σ r t τ ending} hσ hpulls hending => ?_) (fun hσ hpulls => ?_) fun hσ hpulls => ?_
  · obtain ⟨r, t, τ, hpulls, hle, -⟩ := h σ hσ
    exact ⟨r, t, τ, hpulls, hle⟩
  · have hlast := hfurnishes hσ hpulls
    cases r with
    | item x => cases hending
    | failure e =>
      cases hending
      exact hlast
    | finished =>
      cases hending
      exact hlast
  · exact (hfurnishes hσ hpulls).1
  · exact (hfurnishes hσ hpulls).2

/-- **The run on a supply**: where the work makes no reference known again and comes to what `Q` says, as long as its item
is known, it does so with all items. -/
theorem Supplies.feedsAll {β : Type} (h : s.Supplies bound P) (work : Item → Eff β) (Q : Item → β → Prop)
    (hwork : ∀ (x : Item) (σ : Session), bound ≤ σ.nextRef → x.Below σ.nextRef →
      Q x (work x σ).1 ∧ σ.nextRef ≤ (work x σ).2.nextRef)
    {σ : Session} (hσ : bound ≤ σ.nextRef) :
    ∃ fed ending τ, FeedsAll work σ s fed ending τ ∧ P (fed.map Prod.fst) ending ∧ ∀ pair ∈ fed, Q pair.1 pair.2 := by
  induction h generalizing σ with
  | intro answers last known _ ih =>
    obtain ⟨r, t, τ, hpulls, hle⟩ := answers σ hσ
    cases r with
    | item x =>
      have hx : x.Below τ.nextRef := known hσ hpulls
      obtain ⟨hQ, hle'⟩ := hwork x τ (hσ.trans hle) hx
      obtain ⟨fed, ending, ω, ⟨υ, u, r, v, hfeeds, hlast, hending⟩, hP, hfed⟩ := ih hσ hpulls
        (fun x σ hσ' => hwork x σ ((hσ.trans hle).trans hσ')) hle'
      refine ⟨(x, (work x τ).1) :: fed, ending, ω, ⟨υ, u, r, v, .item hpulls rfl hfeeds, hlast, hending⟩, hP, ?_⟩
      exact List.forall_mem_cons.mpr ⟨hQ, hfed⟩
    | failure e => exact ⟨[], .failed e, τ, ⟨σ, _, _, t, .start, hpulls, rfl⟩, last hσ hpulls rfl, by simp⟩
    | finished => exact ⟨[], .finished, τ, ⟨σ, _, _, t, .start, hpulls, rfl⟩, last hσ hpulls rfl, by simp⟩

end Supplies

end LazyQuery.Sequence
