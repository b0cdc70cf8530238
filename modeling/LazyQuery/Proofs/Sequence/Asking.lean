import LazyQuery.Operator.Lazy
import LazyQuery.Proofs.Sequence.Delivery
import LazyQuery.Proofs.Sequence.SinglePass

/-!
# What stages ask of their source

Pulls of a stage take pulls of its source: none, one or many of them, with the work of the stage in between, and never
more after an ending.  `Sequence.Asks` gives both histories side by side, each pull with the sessions that it really finds
and leaves; `Sequence.AsksAll` does so along stages that are put on one another.  For each history there are such pulls of
the source (`Sequence.exists_asksAll`).

What a stage hands out of the items that it has asked for is then seen by looking at the stage alone (`Stage.Follows`).
-/

namespace LazyQuery

namespace Reply

def item? : Reply → Option Item
  | .item x => some x
  | _ => none

end Reply

lemma Outcome.isEnding_of_reply {outcome : Outcome} {t : Sequence} {r : Reply}
    (h : outcome.reply t = (some r, .exhausted)) : r.isEnding := by
  cases outcome <;> cases h <;> rfl

namespace Sequence

/-! ### The items of a history -/

/-- The items that were handed out, in order. -/
def itemsOf (history : List (Session × Reply × Session)) : List Item :=
  history.filterMap fun pull => pull.2.1.item?

/-- The ending in the history, if there is one: the first, since nothing comes after it. -/
def endingOf (history : List (Session × Reply × Session)) : Option Ending :=
  history.findSome? fun pull => pull.2.1.ending?

/-- There is an ending in the history, and no error. -/
def Finished (history : List (Session × Reply × Session)) : Prop :=
  .finished ∈ history.map (·.2.1) ∧ ∀ e, .failure e ∉ history.map (·.2.1)

section Items

variable {σ τ : Session} {x : Item} {r : Reply} {s t u : Sequence} {cells : List (Eff Item)}
  {history history' : List (Session × Reply × Session)}

lemma itemsOf_item : itemsOf ((σ, .item x, τ) :: history) = x :: itemsOf history := rfl

lemma endingOf_ending {ending : Ending} (hr : r.ending? = some ending) : endingOf ((σ, r, τ) :: history) = some ending := by
  rw [endingOf, List.findSome?_cons, hr]

/-- What is gone through has a history, from the session on in which that starts. -/
lemma Drains.exists_pulled {xs : List Item} {ending : Ending} (h : Drains σ s xs ending τ) :
    ∃ r υ history u, Pulled s ((σ, r, υ) :: history) u ∧ itemsOf ((σ, r, υ) :: history) = xs ∧
      endingOf ((σ, r, υ) :: history) = some ending := by
  induction h with
  | work step _ ih =>
    obtain ⟨r, υ, history, u, hpulled, hitems, hending⟩ := ih
    cases hpulled with
    | next first rest => exact ⟨r, υ, history, u, .next (.work step first) rest, hitems, hending⟩
  | item step _ ih =>
    obtain ⟨r, υ, history, u, hpulled, hitems, hending⟩ := ih
    exact ⟨_, _, _, u, .next (.reply step) hpulled, congrArg (_ :: ·) hitems, hending⟩
  | @ends σ τ s t r ending step reply =>
    have hnone : r.item? = none := by cases r <;> first | rfl | cases reply
    refine ⟨r, τ, [], t, .next (.reply step) .start, ?_, endingOf_ending reply⟩
    rw [itemsOf, List.filterMap_cons, hnone]
    rfl

lemma Pulled.failure_not_mem {e : QueryError} (h : Pulled exhausted history u) : .failure e ∉ history.map (·.2.1) := by
  rw [h.of_exhausted.1]
  intro he
  cases List.eq_of_mem_replicate he

lemma itemsOf_exhausted (h : Pulled .exhausted history u) : itemsOf history = [] := by
  generalize hs : Sequence.exhausted = s at h
  induction h with
  | start => rfl
  | next first _ ih =>
    subst hs
    obtain ⟨rfl, rfl, rfl⟩ := pulls_exhausted.mp first
    exact ih rfl

/-- After an ending there are no items. -/
lemma itemsOf_ending (hr : r.isEnding) (rest : Pulled .exhausted history u) : itemsOf ((σ, r, τ) :: history) = [] := by
  have hnone : itemsOf ((σ, r, τ) :: history) = itemsOf history := by cases r <;> first | rfl | cases hr
  rw [hnone, itemsOf_exhausted rest]

/-- Whoever pulls a delivery gets some of its items, from the first on; and up to the ending, all of them. -/
lemma Delivers.asked {P : List Item → Ending → Prop} (h : s.Delivers P) (hpulled : Pulled s history u) :
    ∃ xs ending, P xs ending ∧ itemsOf history <+: xs ∧
      ∀ ending', endingOf history = some ending' → itemsOf history = xs ∧ ending' = ending := by
  induction hpulled generalizing P with
  | start =>
    obtain ⟨xs, ending, hP⟩ := h.nonempty
    exact ⟨xs, ending, hP, List.nil_prefix, fun ending' hending => by cases hending⟩
  | @next _ _ _ _ _ r history first rest ih =>
    obtain ⟨-, last, more⟩ := h
    cases r with
    | item x =>
      obtain ⟨xs, ending, hP, hprefix, hall⟩ := ih (more first)
      refine ⟨x :: xs, ending, hP, (List.prefix_cons_inj x).mpr hprefix, fun ending' hending => ?_⟩
      obtain ⟨hitems, rfl⟩ := hall ending' hending
      exact ⟨congrArg (x :: ·) hitems, rfl⟩
    | failure e | finished =>
      obtain rfl := eq_exhausted (first.isExhausted.trans rfl)
      refine ⟨[], _, last first rfl, List.prefix_nil.mpr (itemsOf_ending rfl rest), fun ending' hending => ?_⟩
      rw [endingOf_ending rfl] at hending
      cases hending
      exact ⟨itemsOf_ending rfl rest, rfl⟩

lemma Finished.of_item (h : Finished ((σ, .item x, τ) :: history)) : Finished history := by
  obtain ⟨hfinished, hfailure⟩ := h
  refine ⟨(List.mem_cons.mp hfinished).resolve_left (by rintro ⟨⟩), fun e he => hfailure e ?_⟩
  exact List.mem_cons_of_mem _ he

lemma Finished.item (h : Finished history) : Finished ((σ, .item x, τ) :: history) := by
  obtain ⟨hfinished, hfailure⟩ := h
  refine ⟨List.mem_cons_of_mem _ hfinished, fun e he => hfailure e ?_⟩
  exact (List.mem_cons.mp he).resolve_left (by rintro ⟨⟩)

/-- Items that are left come to their end without an error. -/
lemma endingOf_queue (h : Pulled (.queue cells) history u) :
    endingOf history = none ∨ endingOf history = some .finished ∧ Finished history := by
  induction cells generalizing history u with
  | nil =>
    cases h with
    | start => exact .inl rfl
    | next first rest =>
      obtain ⟨rfl, rfl, rfl⟩ := first.unique (.reply rfl)
      refine .inr ⟨endingOf_ending rfl, List.mem_cons_self, fun e he => ?_⟩
      rcases List.mem_cons.mp he with he | he
      · cases he
      · exact rest.failure_not_mem he
  | cons cell cells ih =>
    cases h with
    | start => exact .inl rfl
    | @next σ _ _ _ _ _ history first rest =>
      rcases hcell : cell σ with ⟨y, υ⟩
      have hstep : (queue (cell :: cells)).advance σ = ((some (.item y), .queue cells), υ) := Eff.bind_run hcell
      obtain ⟨rfl, rfl, rfl⟩ := first.unique (.reply hstep)
      exact (ih rest).imp id fun ⟨hending, hfinished⟩ => ⟨hending, hfinished.item⟩

/-- The items left after the end of a source come out in order, each as its cell answers. -/
lemma itemsOf_queue (h : Pulled (.queue cells) history u) :
    ∃ items, List.Forall₂ Eff.Answers cells items ∧ itemsOf history <+: items ∧
      (Finished history → itemsOf history = items) := by
  induction cells generalizing history u with
  | nil =>
    refine ⟨[], .nil, ?_⟩
    cases h with
    | start => exact ⟨List.prefix_rfl, fun _ => rfl⟩
    | next first rest =>
      obtain ⟨rfl, rfl, rfl⟩ := first.unique (.reply rfl)
      rw [itemsOf_ending rfl rest]
      exact ⟨List.prefix_rfl, fun _ => rfl⟩
  | cons cell cells ih =>
    cases h with
    | start =>
      obtain ⟨items, hitems, -⟩ := @ih _ [] .start
      refine ⟨_, .cons ⟨{}, _, rfl⟩ hitems, List.nil_prefix, ?_⟩
      rintro ⟨⟨⟩, -⟩
    | @next σ τ _ _ _ r history first rest =>
      rcases hcell : cell σ with ⟨y, υ⟩
      have hstep : (queue (cell :: cells)).advance σ = ((some (.item y), .queue cells), υ) := Eff.bind_run hcell
      obtain ⟨rfl, rfl, rfl⟩ := first.unique (.reply hstep)
      obtain ⟨items, hitems, hprefix, hall⟩ := ih rest
      refine ⟨y :: items, .cons ⟨σ, _, hcell⟩ hitems, (List.prefix_cons_inj y).mpr hprefix, fun hfinished => ?_⟩
      rw [itemsOf_item, hall hfinished.of_item]

end Items

/-! ### One stage -/

/-- `history` are pulls of the stage on the source `s`, and `asked` are the pulls of `s` that they take. -/
inductive Asks : Stage → Sequence → List (Session × Reply × Session) → List (Session × Reply × Session) → Prop
  | start {stage s} : Asks stage s [] []
  | emit {stage next s y σ asked history} (demand : stage.demand = .emit y next) (rest : Asks next s asked history) :
      Asks stage s asked ((σ, .item y, σ) :: history)
  | full {stage s u σ history} (demand : stage.demand = .stop) (rest : Pulled .exhausted history u) :
      Asks stage s [] ((σ, .finished, σ) :: history)
  | failure {stage s t u σ τ e history} (demand : stage.demand = .ask) (pulls : Pulls σ s (.failure e) t τ)
      (rest : Pulled .exhausted history u) : Asks stage s [(σ, .failure e, τ)] ((σ, .failure e, τ) :: history)
  | finished {stage s t u σ τ υ ω cells r history} (demand : stage.demand = .ask) (pulls : Pulls σ s .finished t τ)
      (close : stage.close τ = (cells, υ)) (rest : Pulled (.queue cells) ((υ, r, ω) :: history) u) :
      Asks stage s [(σ, .finished, τ)] ((σ, r, ω) :: history)
  | yield {stage next s t σ τ υ x y asked history} (demand : stage.demand = .ask) (pulls : Pulls σ s (.item x) t τ)
      (receive : stage.receive x τ = (.yield y next, υ)) (rest : Asks next t asked history) :
      Asks stage s ((σ, .item x, τ) :: asked) ((σ, .item y, υ) :: history)
  | drop {stage next s t σ τ υ ω x r asked history} (demand : stage.demand = .ask) (pulls : Pulls σ s (.item x) t τ)
      (receive : stage.receive x τ = (.drop next, υ)) (rest : Asks next t asked ((υ, r, ω) :: history)) :
      Asks stage s ((σ, .item x, τ) :: asked) ((σ, r, ω) :: history)
  | cut {stage s t u σ τ υ x outcome r history} (demand : stage.demand = .ask) (pulls : Pulls σ s (.item x) t τ)
      (receive : stage.receive x τ = (outcome, υ)) (reply : outcome.reply t = (some r, .exhausted))
      (rest : Pulled .exhausted history u) : Asks stage s [(σ, .item x, τ)] ((σ, r, υ) :: history)

section Asks

variable {stage : Stage} {s t u v : Sequence} {σ τ ω : Session} {r : Reply}
  {asked history : List (Session × Reply × Session)}

/-- Work of the source counts as part of its next pull. -/
lemma Asks.work (demand : stage.demand = .ask) (step : s.advance σ = ((none, t), τ))
    (h : Asks stage t asked ((τ, r, ω) :: history)) : ∃ asked, Asks stage s asked ((σ, r, ω) :: history) := by
  cases h with
  | emit hemit _ => rw [demand] at hemit; cases hemit
  | full hstop _ => rw [demand] at hstop; cases hstop
  | failure _ pulls rest => exact ⟨_, .failure demand (.work step pulls) rest⟩
  | finished _ pulls close rest => exact ⟨_, .finished demand (.work step pulls) close rest⟩
  | yield _ pulls receive rest => exact ⟨_, .yield demand (.work step pulls) receive rest⟩
  | drop _ pulls receive rest => exact ⟨_, .drop demand (.work step pulls) receive rest⟩
  | cut _ pulls receive reply rest => exact ⟨_, .cut demand (.work step pulls) receive reply rest⟩

/-- One pull of a stage, if it is known what the pulls after it ask for. -/
lemma Pulls.exists_asks (h : Pulls σ (.through stage s) r u τ) (hrest : Pulled u history v)
    (hasks : ∀ next t, u = .through next t → ∃ asked, Asks next t asked history) :
    ∃ asked, Asks stage s asked ((σ, r, τ) :: history) := by
  -- on the steps of the pull; only the last one leaves a stage on its source that the later pulls go on with
  generalize hw : Sequence.through stage s = w at h
  induction h generalizing stage s with
  | @reply σ τ w u r step =>
    subst hw
    generalize hp : (some r, u) = p at step
    cases throughStep_of_advance step with
    | emit demand =>
      cases hp
      obtain ⟨asked, hasked⟩ := hasks _ _ rfl
      exact ⟨asked, .emit demand hasked⟩
    | stop demand =>
      cases hp
      exact ⟨[], .full demand hrest⟩
    | failure demand hsource =>
      cases hp
      exact ⟨_, .failure demand (.reply hsource) hrest⟩
    | @item x t υ outcome _ demand hsource hreceive =>
      cases outcome with
      | yield y next =>
        cases hp
        obtain ⟨asked, hasked⟩ := hasks _ _ rfl
        exact ⟨_, .yield demand (.reply hsource) hreceive hasked⟩
      | drop next => cases hp
      | stop | fail =>
        cases hp
        exact ⟨_, .cut demand (.reply hsource) hreceive rfl hrest⟩
    | _ => cases hp
  | @work σ τ ω w w' u r step rest ih =>
    subst hw
    generalize hp : (none, w') = p at step
    cases throughStep_of_advance step with
    | work demand hsource =>
      cases hp
      obtain ⟨asked, hasked⟩ := ih hrest hasks rfl
      exact hasked.work demand hsource
    | finished demand hsource hclose =>
      cases hp
      exact ⟨_, .finished demand (.reply hsource) hclose (.next rest hrest)⟩
    | @item x t υ outcome _ demand hsource hreceive =>
      cases outcome with
      | drop next =>
        cases hp
        obtain ⟨asked, hasked⟩ := ih hrest hasks rfl
        exact ⟨_, .drop demand (.reply hsource) hreceive hasked⟩
      | _ => cases hp
    | _ => cases hp

/-- **The pulls of a stage take pulls of its source.** -/
theorem Pulled.exists_asks (h : Pulled (.through stage s) history u) : ∃ asked, Asks stage s asked history := by
  generalize hw : Sequence.through stage s = w at h
  induction h generalizing stage s with
  | start => exact ⟨[], .start⟩
  | next first rest ih =>
    subst hw
    exact first.exists_asks rest fun next t hu => ih hu.symm

/-- **Only such pulls are pulls of the stage.** -/
theorem Asks.pulled_through (h : Asks stage s asked history) : ∃ u, Pulled (.through stage s) history u := by
  induction h with
  | start => exact ⟨_, .start⟩
  | emit demand _ ih =>
    obtain ⟨u, hrest⟩ := ih
    exact ⟨u, .next (.reply (ThroughStep.advance (.emit demand))) hrest⟩
  | full demand rest => exact ⟨_, .next (.reply (ThroughStep.advance (.stop demand))) rest⟩
  | failure demand pulls rest =>
    obtain ⟨v, υ, hworks, hlast⟩ := pulls.works
    have hstep := ThroughStep.advance (.failure demand hlast)
    exact ⟨_, .next ((hworks.through demand).pulls (.reply hstep)) rest⟩
  | finished demand pulls close rest =>
    obtain ⟨v, υ, hworks, hlast⟩ := pulls.works
    have hstep := ThroughStep.advance (.finished demand hlast close)
    cases rest with
    | next first rest => exact ⟨_, .next ((hworks.through demand).pulls (.work hstep first)) rest⟩
  | yield demand pulls receive _ ih =>
    obtain ⟨v, υ, hworks, hlast⟩ := pulls.works
    have hstep := ThroughStep.advance (.item demand hlast receive)
    obtain ⟨u, hrest⟩ := ih
    exact ⟨u, .next ((hworks.through demand).pulls (.reply hstep)) hrest⟩
  | drop demand pulls receive _ ih =>
    obtain ⟨v, υ, hworks, hlast⟩ := pulls.works
    have hstep := ThroughStep.advance (.item demand hlast receive)
    obtain ⟨u, hrest⟩ := ih
    cases hrest with
    | next first rest => exact ⟨u, .next ((hworks.through demand).pulls (.work hstep first)) rest⟩
  | cut demand pulls receive reply rest =>
    obtain ⟨v, υ, hworks, hlast⟩ := pulls.works
    have hstep := ThroughStep.advance (.item demand hlast receive)
    rw [reply] at hstep
    exact ⟨_, .next ((hworks.through demand).pulls (.reply hstep)) rest⟩

lemma Asks.pulled (h : Asks stage s asked history) : ∃ t, Pulled s asked t := by
  induction h with
  | start | full => exact ⟨_, .start⟩
  | emit _ _ ih => exact ih
  | failure _ pulls _ | finished _ pulls _ _ | cut _ pulls _ _ _ => exact ⟨_, .next pulls .start⟩
  | yield _ pulls _ _ ih | drop _ pulls _ _ ih =>
    obtain ⟨t, hpulled⟩ := ih
    exact ⟨t, .next pulls hpulled⟩

end Asks

end Sequence

/-! ### What stages hand out -/

/-- `R stage xs ys` follows step by step from what the stage does: when it has asked for the items `xs`, it has handed out
the items `ys`. -/
structure Stage.Follows (R : Stage → List Item → List Item → Prop) : Prop where
  start {stage xs} : R stage xs []
  emit {stage next y xs ys} : stage.demand = .emit y next → R next xs ys → R stage xs (y :: ys)
  close {stage cells items ys} : stage.close.Answers cells → List.Forall₂ Eff.Answers cells items → ys <+: items →
    R stage [] ys
  yield {stage next x y xs ys} : (stage.receive x).Answers (.yield y next) → R next xs ys → R stage (x :: xs) (y :: ys)
  drop {stage next x xs ys} : (stage.receive x).Answers (.drop next) → R next xs ys → R stage (x :: xs) ys

namespace Sequence

section Follows

variable {stage : Stage} {s : Sequence} {asked history : List (Session × Reply × Session)}
  {R : Stage → List Item → List Item → Prop}

/-- **A stage hands out what follows from the items it asks for.** -/
theorem Asks.follows (hR : Stage.Follows R) (h : Asks stage s asked history) :
    R stage (itemsOf asked) (itemsOf history) := by
  induction h with
  | start => exact hR.start
  | emit demand _ ih => exact hR.emit demand ih
  | full _ rest | failure _ _ rest =>
    rw [itemsOf_ending rfl rest]
    exact hR.start
  | @finished _ _ _ _ σ _ υ ω _ r history _ _ close rest =>
    obtain ⟨items, hitems, hprefix, -⟩ := itemsOf_queue rest
    exact hR.close ⟨_, _, close⟩ hitems hprefix
  | yield _ _ receive _ ih => exact hR.yield ⟨_, _, receive⟩ ih
  | drop _ _ receive _ ih => exact hR.drop ⟨_, _, receive⟩ ih
  | @cut _ _ _ _ _ _ _ _ outcome _ _ _ _ _ reply rest =>
    rw [itemsOf_ending (Outcome.isEnding_of_reply reply) rest]
    exact hR.start

end Follows

/-! ### Stages on one another -/

/-- `history` are pulls of the stages on the source `s`, the first of them nearest to it, and `asked` are the pulls of `s`
that they take. -/
def AsksAll : List Stage → Sequence → List (Session × Reply × Session) → List (Session × Reply × Session) → Prop
  | [], _, asked, history => asked = history
  | stage :: stages, s, asked, history =>
    ∃ between, Asks stage s asked between ∧ AsksAll stages (.through stage s) between history

/-- **The pulls of stages on one another take pulls of the source.** -/
theorem exists_asksAll {stages : List Stage} {s u : Sequence} {history : List (Session × Reply × Session)}
    (h : Pulled (s.withStages stages) history u) :
    ∃ asked, AsksAll stages s asked history ∧ ∃ t, Pulled s asked t := by
  induction stages generalizing s with
  | nil => exact ⟨history, rfl, u, h⟩
  | cons stage stages ih =>
    obtain ⟨between, hall, t, hbetween⟩ := @ih (.through stage s) h
    obtain ⟨asked, hasks⟩ := hbetween.exists_asks
    exact ⟨asked, ⟨between, hasks, hall⟩, hasks.pulled⟩

/-- And pulls that take pulls of the source are pulls of the stages. -/
theorem pulled_withStages_iff {stages : List Stage} {s : Sequence} {history : List (Session × Reply × Session)} :
    (∃ u, Pulled (s.withStages stages) history u) ↔ ∃ asked, AsksAll stages s asked history ∧ ∃ t, Pulled s asked t := by
  constructor
  · rintro ⟨u, h⟩
    exact exists_asksAll h
  · rintro ⟨asked, hall, hasked⟩
    induction stages generalizing s asked with
    | nil =>
      cases hall
      exact hasked
    | cons stage stages ih =>
      obtain ⟨between, hasks, hall⟩ := hall
      exact @ih (.through stage s) between hall hasks.pulled_through

end Sequence

end LazyQuery
