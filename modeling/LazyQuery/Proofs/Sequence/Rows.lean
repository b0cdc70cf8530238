import LazyQuery.Proofs.Sequence.Consumption
import LazyQuery.Proofs.Sequence.Likeness

/-!
# Rows of items

Filters and projections make a row of items out of each item: the item itself or none, one other item, or several.  What a
chain of such stages makes of an item is its row through all of them (`rowThrough`).

* Stages that do nothing in the session (`Stage.MakesRows`) have, in a chain, the same histories as a single stage that makes
  the rows through all of them (`Sequence.sameHistories_rows`), on any source.
* Stages may also do something there, and then it is said how the rows look (`Stage.Shows`).  What a chain of them shows is
  known from what its source shows (`Sequence.Shows.withStages`); and it looks like a single stage on a source that looks
  the same whatever is done in the session (`Sequence.LooksLike.exists_rows`).
-/

namespace LazyQuery

open Sequence

/-- The row that a value becomes on its way: each function makes a row of every value in the row before. -/
def rowThrough {β : Type} : List (β → List β) → β → List β
  | [], v => [v]
  | row :: rows, v => (row v).flatMap (rowThrough rows)

lemma rowThrough_one {β : Type} (row : β → List β) : rowThrough [row] = row :=
  funext fun v => List.flatMap_singleton' (row v)

lemma rowThrough_two {β : Type} (row row' : β → List β) : rowThrough [row, row'] = fun v => (row v).flatMap row' :=
  funext fun v => congrArg (row v).flatMap (rowThrough_one row')

/-! ### Stages that do nothing in the session -/

namespace Stage

/-- Each item is replaced by its row; those in `ready` are not handed out yet. -/
def rows (row : Item → List Item) (ready : List Item) : Stage :=
  .expand (.ofItems fun x => return .ok (row x)) ready

/-- The stage makes the row of each item: at once, which it can if there is at most one item in it, or as `Stage.rows`. -/
inductive MakesRows (row : Item → List Item) : Stage → Prop
  | atOnce {stage} (demand : stage.demand = .ask) (close : stage.close = pure [])
      (receive : ∀ x : Item, (row x = [] ∧ stage.receive x = pure (.drop stage)) ∨
        ∃ y, row x = [y] ∧ stage.receive x = pure (.yield y stage)) : MakesRows row stage
  | expanding : MakesRows row (.rows row [])

end Stage

namespace Sequence

section Rows

variable {σ τ ω : Session} {s t u source : Sequence} {stage : Stage} {row row' : Item → List Item}
  {ready held : List Item}

/-- Making a row of one item out of each changes nothing. -/
lemma simulates_singletons : Simulates fun s t => s = .through (.rows (fun x => [x]) []) t where
  reply {s t t' r σ τ} h step := by
    subst h
    cases r with
    | item x =>
      have hdrop : (Sequence.through (.rows (fun x => [x]) []) t).advance σ =
          ((none, .through (.rows (fun x => [x]) [x]) t'), τ) := ThroughStep.advance (.item rfl step rfl)
      exact ⟨_, .work hdrop (.reply (ThroughStep.advance (.emit rfl))), .inl rfl⟩
    | failure e =>
      cases isExhausted_of_ending step rfl
      exact ⟨_, .reply (ThroughStep.advance (.failure rfl step)), .inr rfl⟩
    | finished =>
      cases isExhausted_of_ending step rfl
      exact ⟨_, .work (ThroughStep.advance (.finished rfl step rfl)) (.reply rfl), .inr rfl⟩
  work {s t t' σ τ} h step := by
    subst h
    exact ⟨_, _, _, ThroughStep.advance (.work rfl step), .done, .inl rfl⟩

/-- A stage that makes rows at once, and the one that expands them. -/
def MakesAtOnce (stage : Stage) (row : Item → List Item) (s t : Sequence) : Prop :=
  ∃ source, s = .through (.rows row []) source ∧ t = .through stage source

lemma simulates_atOnce (demand : stage.demand = .ask) (close : stage.close = pure [])
    (receive : ∀ x : Item, (row x = [] ∧ stage.receive x = pure (.drop stage)) ∨
      ∃ y, row x = [y] ∧ stage.receive x = pure (.yield y stage)) : Simulates (MakesAtOnce stage row) where
  reply {s t t' r σ τ} h step := by
    obtain ⟨source, rfl, rfl⟩ := h
    generalize hp : (some r, t') = p at step
    cases throughStep_of_advance step with
    | emit hdemand | stop hdemand => rw [demand] at hdemand; cases hdemand
    | work | finished => cases hp
    | failure _ hsource =>
      cases hp
      exact ⟨_, .reply (ThroughStep.advance (.failure rfl hsource)), .inr rfl⟩
    | @item x source' υ _ _ _ hsource hreceive =>
      have hdrop : (Sequence.through (.rows row []) source).advance σ =
          ((none, .through (.rows row (row x)) source'), υ) := ThroughStep.advance (.item rfl hsource rfl)
      obtain ⟨-, hreceived⟩ | ⟨y, hrow, hreceived⟩ := receive x
      · rw [hreceived] at hreceive
        cases hreceive
        cases hp
      · rw [hreceived] at hreceive
        cases hreceive
        cases hp
        rw [hrow] at hdrop
        exact ⟨_, .work hdrop (.reply (ThroughStep.advance (.emit rfl))), .inl ⟨_, rfl, rfl⟩⟩
  work {s t t' σ τ} h step := by
    obtain ⟨source, rfl, rfl⟩ := h
    generalize hp : (none, t') = p at step
    cases throughStep_of_advance step with
    | emit hdemand | stop hdemand => rw [demand] at hdemand; cases hdemand
    | failure => cases hp
    | work _ hsource =>
      cases hp
      exact ⟨_, _, _, ThroughStep.advance (.work rfl hsource), .done, .inl ⟨_, rfl, rfl⟩⟩
    | finished _ hsource hclose =>
      rw [close] at hclose
      cases hclose
      cases hp
      exact ⟨_, _, _, ThroughStep.advance (.finished rfl hsource rfl), .done, .inr rfl⟩
    | @item x source' υ _ _ _ hsource hreceive =>
      have hdrop : (Sequence.through (.rows row []) source).advance σ =
          ((none, .through (.rows row (row x)) source'), υ) := ThroughStep.advance (.item rfl hsource rfl)
      obtain ⟨hrow, hreceived⟩ | ⟨y, -, hreceived⟩ := receive x
      · rw [hreceived] at hreceive
        cases hreceive
        cases hp
        rw [hrow] at hdrop
        exact ⟨_, _, _, hdrop, .done, .inl ⟨_, rfl, rfl⟩⟩
      · rw [hreceived] at hreceive
        cases hreceive
        cases hp

/-- Rows of what is in rows; those of the items that are held have still to be made. -/
def nested (row row' : Item → List Item) (ready held : List Item) (source : Sequence) : Sequence :=
  .through (.rows row' ready) (.through (.rows row held) source)

/-- Work on the items that are held until one is ready to be handed out, or none is held any more. -/
lemma works_nested (row row' : Item → List Item) (ready held : List Item) (source : Sequence) (σ : Session) :
    ∃ ready' held', ready ++ held.flatMap row' = ready' ++ held'.flatMap row' ∧ (ready' = [] → held' = []) ∧
      Works σ (nested row row' ready held source) (nested row row' ready' held' source) σ := by
  induction held generalizing ready with
  | nil => exact ⟨ready, [], rfl, fun _ => rfl, .done⟩
  | cons z held ih =>
    cases ready with
    | cons y ready => exact ⟨y :: ready, z :: held, rfl, by simp, .done⟩
    | nil =>
      obtain ⟨ready', held', hrows, hheld, hworks⟩ := ih (row' z)
      have hinner : (Sequence.through (.rows row (z :: held)) source).advance σ =
          ((some (.item z), .through (.rows row held) source), σ) := ThroughStep.advance (.emit rfl)
      have hstep : (nested row row' [] (z :: held) source).advance σ =
          ((none, nested row row' (row' z) held source), σ) := ThroughStep.advance (.item rfl hinner rfl)
      exact ⟨ready', held', hrows, hheld, .step hstep hworks⟩

/-- Rows of rows, and the rows that they come to. -/
def MakesNested (row row' : Item → List Item) (s t : Sequence) : Prop :=
  ∃ ready held source, s = nested row row' ready held source ∧
    t = .through (.rows (fun x => (row x).flatMap row') (ready ++ held.flatMap row')) source

lemma simulates_nested (row row' : Item → List Item) : Simulates (MakesNested row row') where
  reply {s t t' r σ τ} h step := by
    obtain ⟨ready, held, source, rfl, rfl⟩ := h
    obtain ⟨ready', held', hrows, hheld, hworks⟩ := works_nested row row' ready held source σ
    rw [hrows] at step
    generalize hp : (some r, t') = p at step
    cases ready' with
    | cons y ready' =>
      cases throughStep_of_advance step with
      | emit hdemand =>
        cases hdemand
        cases hp
        exact ⟨_, hworks.pulls (.reply (ThroughStep.advance (.emit rfl))), .inl ⟨_, _, _, rfl, rfl⟩⟩
      | stop hdemand | work hdemand | failure hdemand | finished hdemand | item hdemand => cases hdemand
    | nil =>
      cases hheld rfl
      cases throughStep_of_advance step with
      | emit hdemand | stop hdemand => cases hdemand
      | work | finished => cases hp
      | failure _ hsource =>
        cases hp
        have hinner := ThroughStep.advance (.failure rfl hsource : ThroughStep (.rows row []) source σ _ _)
        exact ⟨_, hworks.pulls (.reply (ThroughStep.advance (.failure rfl hinner))), .inr rfl⟩
      | item _ _ hreceive =>
        cases hreceive
        cases hp
  work {s t t' σ τ} h step := by
    obtain ⟨ready, held, source, rfl, rfl⟩ := h
    obtain ⟨ready', held', hrows, hheld, hworks⟩ := works_nested row row' ready held source σ
    rw [hrows] at step
    generalize hp : (none, t') = p at step
    cases ready' with
    | cons y ready' =>
      cases throughStep_of_advance step with
      | emit => cases hp
      | stop hdemand | work hdemand | failure hdemand | finished hdemand | item hdemand => cases hdemand
    | nil =>
      cases hheld rfl
      cases throughStep_of_advance step with
      | emit hdemand | stop hdemand => cases hdemand
      | failure => cases hp
      | work _ hsource =>
        cases hp
        have hinner := ThroughStep.advance (.work rfl hsource : ThroughStep (.rows row []) source σ _ _)
        obtain ⟨u, ω, hstep, hrest⟩ := hworks.exists_step (ThroughStep.advance (.work rfl hinner))
        exact ⟨u, ω, _, hstep, hrest, .inl ⟨[], [], _, rfl, rfl⟩⟩
      | finished _ hsource hclose =>
        cases hclose
        cases hp
        have hinner := ThroughStep.advance (.finished rfl hsource rfl : ThroughStep (.rows row []) source σ _ _)
        obtain ⟨u, ω, hstep, hrest⟩ := hworks.exists_step (ThroughStep.advance (.work rfl hinner))
        have hlast : (Sequence.through (.rows row' []) (.queue [])).advance τ = ((none, .queue []), τ) :=
          ThroughStep.advance (.finished rfl rfl rfl)
        exact ⟨u, ω, _, hstep, hrest.trans (.step hlast .done), .inr rfl⟩
      | @item x source' _ _ _ _ hsource hreceive =>
        cases hreceive
        cases hp
        have hinner := ThroughStep.advance (.item rfl hsource rfl : ThroughStep (.rows row []) source σ _ _)
        obtain ⟨u, ω, hstep, hrest⟩ := hworks.exists_step (ThroughStep.advance (.work rfl hinner))
        exact ⟨u, ω, _, hstep, hrest, .inl ⟨[], row x, source', rfl, rfl⟩⟩

lemma sameHistories_of_makesRows (h : stage.MakesRows row) (source : Sequence) :
    (Sequence.through stage source).SameHistories (.through (.rows row []) source) := by
  cases h with
  | atOnce demand close receive =>
    exact ((simulates_atOnce demand close receive).sameHistories ⟨source, rfl, rfl⟩).symm
  | expanding => exact .refl _

/-- **A chain of stages that make rows has the histories of one stage that makes their rows through all of them.** -/
theorem sameHistories_rows {rows : List (Item → List Item)} {stages : List Stage}
    (h : List.Forall₂ Stage.MakesRows rows stages) (source : Sequence) :
    (source.withStages stages).SameHistories (.through (.rows (rowThrough rows) []) source) := by
  induction h generalizing source with
  | nil => exact (simulates_singletons.sameHistories rfl).symm
  | @cons row stage rows stages hstage _ ih =>
    have hnested : (nested row (rowThrough rows) [] [] source).SameHistories
        (.through (.rows (rowThrough (row :: rows)) []) source) :=
      (simulates_nested row (rowThrough rows)).sameHistories ⟨[], [], source, rfl, rfl⟩
    exact (ih (.through stage source)).trans (((sameHistories_of_makesRows hstage source).through _).trans hnested)

end Rows

end Sequence

/-! ### Stages whose rows look alike -/

section Views

variable {β : Type} {view : Item → β} {row : β → List β} {rows : List (β → List β)} {stages : List Stage}

namespace Stage

/-- The items that are handed out before the source is asked. -/
def waiting : Stage → List Item
  | .expand _ ready => ready
  | _ => []

/-- Seen through `view`, the stage makes `row v` of an item that is seen as `v`, whatever it does in the session. -/
def Shows (view : Item → β) (row : β → List β) : Stage → Prop
  | .filter accepts => ∀ (x : Item) b, (accepts x).Answers b → row (view x) = if b then [view x] else []
  | .map f => ∀ (x : Item) result, (f x).Answers result → ∃ y, result = .ok y ∧ row (view x) = [view y]
  | .expand f _ => ∀ (x : Item) result, (f x).Answers result → ∃ ys, result = .ok ys ∧ row (view x) = ys.map view
  | _ => False

section Shows

variable {stage : Stage} {x y : Item} {ws : List Item} {outcome : Outcome}

/-- If there are no items to be handed out, the source is asked. -/
lemma Shows.of_waiting_nil (h : stage.Shows view row) (hwaiting : stage.waiting = []) :
    stage.demand = .ask ∧ stage.close = pure [] := by
  cases stage with
  | filter | map => exact ⟨rfl, rfl⟩
  | expand f ready =>
    cases hwaiting
    exact ⟨rfl, rfl⟩
  | _ => exact h.elim

lemma Shows.of_waiting_cons (h : stage.Shows view row) (hwaiting : stage.waiting = y :: ws) :
    ∃ next, stage.demand = .emit y next ∧ next.Shows view row ∧ next.waiting = ws := by
  cases stage with
  | filter | map => cases hwaiting
  | expand f ready =>
    cases hwaiting
    exact ⟨.expand f ws, rfl, h, rfl⟩
  | _ => exact h.elim

/-- An item is replaced by its row, at once or from now on. -/
lemma Shows.of_receive (h : stage.Shows view row) (hwaiting : stage.waiting = []) (hreceive : (stage.receive x).Answers outcome) :
    (∃ y, outcome = .yield y stage ∧ row (view x) = [view y]) ∨
      ∃ next, outcome = .drop next ∧ next.Shows view row ∧ row (view x) = next.waiting.map view := by
  cases takes_of_receive hreceive with
  | accepted haccepts => exact .inl ⟨x, rfl, h _ _ haccepts⟩
  | rejected haccepts => exact .inr ⟨_, rfl, h, h _ _ haccepts⟩
  | mapped hf =>
    obtain ⟨_, ⟨⟩, hrow⟩ := h _ _ hf
    exact .inl ⟨_, rfl, hrow⟩
  | unmapped hf => obtain ⟨y, ⟨⟩, -⟩ := h _ _ hf
  | expanded hf =>
    obtain ⟨ys, ⟨⟩, hrow⟩ := h _ _ hf
    cases hwaiting
    exact .inr ⟨_, rfl, h, hrow⟩
  | unexpanded hf => obtain ⟨ys, ⟨⟩, -⟩ := h _ _ hf
  | _ => exact h.elim

lemma Shows.waiting_of_ask (h : stage.Shows view row) (hdemand : stage.demand = .ask) : stage.waiting = [] := by
  cases hwaiting : stage.waiting with
  | nil => rfl
  | cons y ws =>
    obtain ⟨next, hemit, -⟩ := h.of_waiting_cons hwaiting
    rw [hdemand] at hemit
    cases hemit

lemma Shows.of_emit {next : Stage} (h : stage.Shows view row) (hdemand : stage.demand = .emit y next) :
    next.Shows view row ∧ stage.waiting = y :: next.waiting := by
  cases hwaiting : stage.waiting with
  | nil =>
    rw [(h.of_waiting_nil hwaiting).1] at hdemand
    cases hdemand
  | cons z ws =>
    obtain ⟨last, hemit, hlast, rfl⟩ := h.of_waiting_cons hwaiting
    rw [hdemand] at hemit
    cases hemit
    exact ⟨hlast, rfl⟩

lemma Shows.demand_ne_stop (h : stage.Shows view row) : stage.demand ≠ .stop := by
  cases hwaiting : stage.waiting with
  | nil => rw [(h.of_waiting_nil hwaiting).1]; rintro ⟨⟩
  | cons y ws =>
    obtain ⟨next, hemit, -⟩ := h.of_waiting_cons hwaiting
    rw [hemit]
    rintro ⟨⟩

end Shows

/-- The stage makes rows, and there are no items to be handed out yet. -/
structure Starts (view : Item → β) (row : β → List β) (stage : Stage) : Prop where
  shows : stage.Shows view row
  waiting_eq_nil : stage.waiting = []

/-- The relation of what a stage that makes rows makes of a delivery. -/
def ShowsRows (view : Item → β) (row : β → List β) (stage : Stage) (xs : List Item) (ending : Ending) (ys : List Item)
    (ending' : Ending) : Prop :=
  stage.Shows view row → ys.map view = stage.waiting.map view ++ (xs.map view).flatMap row ∧ ending' = ending

lemma respects_showsRows (view : Item → β) (row : β → List β) : Respects (ShowsRows view row) where
  emit hdemand hrest hshows := by
    obtain ⟨hnext, hwaiting⟩ := hshows.of_emit hdemand
    obtain ⟨hys, hending⟩ := hrest hnext
    exact ⟨by rw [List.map_cons, hys, hwaiting, List.map_cons, List.cons_append], hending⟩
  full hdemand hshows := absurd hdemand hshows.demand_ne_stop
  failure hdemand hshows := by
    rw [hshows.waiting_of_ask hdemand]
    exact ⟨rfl, rfl⟩
  close hdemand hclose hcells hshows := by
    have hwaiting := hshows.waiting_of_ask hdemand
    rw [(hshows.of_waiting_nil hwaiting).2] at hclose
    cases hclose.of_pure
    cases hcells
    rw [hwaiting]
    exact ⟨rfl, rfl⟩
  yield hdemand hreceive hrest hshows := by
    have hwaiting := hshows.waiting_of_ask hdemand
    obtain ⟨y, ⟨⟩, hrow⟩ | ⟨_, ⟨⟩, -⟩ := hshows.of_receive hwaiting hreceive
    obtain ⟨hys, hending⟩ := hrest hshows
    rw [hwaiting] at hys ⊢
    exact ⟨by rw [List.map_cons, hys, List.map_cons, List.flatMap_cons, hrow]; rfl, hending⟩
  drop hdemand hreceive hrest hshows := by
    have hwaiting := hshows.waiting_of_ask hdemand
    obtain ⟨y, ⟨⟩, -⟩ | ⟨next, ⟨⟩, hnext, hrow⟩ := hshows.of_receive hwaiting hreceive
    obtain ⟨hys, hending⟩ := hrest hnext
    rw [hwaiting]
    exact ⟨by rw [hys, List.map_cons, List.flatMap_cons, hrow]; rfl, hending⟩
  stop hdemand hreceive hshows := by
    obtain ⟨y, ⟨⟩, -⟩ | ⟨_, ⟨⟩, -⟩ := hshows.of_receive (hshows.waiting_of_ask hdemand) hreceive
  fail hdemand hreceive hshows := by
    obtain ⟨y, ⟨⟩, -⟩ | ⟨_, ⟨⟩, -⟩ := hshows.of_receive (hshows.waiting_of_ask hdemand) hreceive

end Stage

/-- **What a chain of stages that make rows shows**: the rows through all of them, and the ending of the source. -/
theorem Sequence.Shows.withStages {source : Sequence} {vs : List β} {ending : Ending} (h : source.Shows view vs ending)
    (hstages : List.Forall₂ (Stage.Starts view) rows stages) :
    (source.withStages stages).Shows view (vs.flatMap (rowThrough rows)) ending := by
  induction hstages generalizing source vs with
  | nil =>
    refine h.mono ?_
    rintro xs ending' ⟨hxs, hending⟩
    exact ⟨hxs.trans (List.flatMap_singleton' vs).symm, hending⟩
  | @cons row stage rows stages hstage _ ih =>
    have hrow : (Sequence.through stage source).Shows view (vs.flatMap row) ending := by
      refine (h.through (Stage.respects_showsRows view row) stage).mono ?_
      rintro ys ending' ⟨xs, ending, ⟨rfl, rfl⟩, hshows⟩
      obtain ⟨hys, hending⟩ := hshows hstage.shows
      rw [hstage.waiting_eq_nil] at hys
      exact ⟨hys, hending⟩
    have hrest := ih hrow
    rw [List.flatMap_assoc] at hrest
    exact hrest

/-! #### On sources that need not end -/

namespace Sequence

section Mirrors

variable {R : Sequence → Sequence → Prop} {σ τ : Session} {s t u : Sequence} {stage stage' : Stage} {x : Item} {r : Reply}
  {asked history : List (Session × Reply × Session)}

/-- Stages that make the same rows on sources that `R` holds of, with alike items to be handed out. -/
def RowsOf (view : Item → β) (row : β → List β) (R : Sequence → Sequence → Prop) (s t : Sequence) : Prop :=
  (∃ stage stage' source source', s = .through stage source ∧ t = .through stage' source' ∧ stage.Shows view row ∧
    stage'.Shows view row ∧ stage.waiting.map view = stage'.waiting.map view ∧ R source source') ∨
  s = .exhausted ∧ t = .exhausted

/-- With an item of the source, a stage goes on if there is nothing in the row, and else hands out the first of it. -/
lemma Pulls.through_row (hpull : Pulls σ s (.item x) t τ) (hshows : stage.Shows view row) (hwaiting : stage.waiting = []) :
    (row (view x) = [] ∧ ∃ next υ, Works σ (.through stage s) (.through next t) υ ∧ next.Shows view row ∧ next.waiting = []) ∨
      ∃ v ws y next υ, row (view x) = v :: ws ∧ view y = v ∧ Pulls σ (.through stage s) (.item y) (.through next t) υ ∧
        next.Shows view row ∧ next.waiting.map view = ws := by
  have hdemand := (hshows.of_waiting_nil hwaiting).1
  rcases hreceive : stage.receive x τ with ⟨outcome, υ⟩
  obtain ⟨v, κ, hworks, hstep⟩ := hpull.received hdemand hreceive
  obtain ⟨y, rfl, hrow⟩ | ⟨next, rfl, hnext, hrow⟩ := hshows.of_receive hwaiting ⟨τ, υ, hreceive⟩
  · exact .inr ⟨view y, [], y, stage, υ, hrow, rfl, hworks.pulls (.reply hstep), hshows, by rw [hwaiting]; rfl⟩
  · cases hready : next.waiting with
    | nil =>
      rw [hready] at hrow
      exact .inl ⟨hrow, next, υ, hworks.trans (.step hstep .done), hnext, hready⟩
    | cons y ws =>
      rw [hready] at hrow
      obtain ⟨last, hemit, hlast, rfl⟩ := hnext.of_waiting_cons hready
      have hpulls := hworks.pulls (.work hstep (.reply (ThroughStep.advance (.emit hemit))))
      exact .inr ⟨view y, last.waiting.map view, y, last, υ, hrow, rfl, hpulls, hlast, rfl⟩

/-- The ending of a source is mirrored behind stages with nothing to be handed out. -/
lemma Pulls.exists_mirrored_ending {s' : Sequence} (hpull : Pulls σ s r s' τ) (hr : r.isEnding) (hR : Mirrors view R)
    (hst : R s t) (hshows : stage.Shows view row) (hshows' : stage'.Shows view row) (hwaiting : stage.waiting = [])
    (hwaiting' : stage'.waiting = []) (υ : Session) :
    ∃ u r' u' υ', Pulls σ (.through stage s) r u τ ∧ Pulls υ (.through stage' t) r' u' υ' ∧ r'.seen view = r.seen view ∧
      RowsOf view row R u u' := by
  obtain ⟨demand, close⟩ := hshows.of_waiting_nil hwaiting
  obtain ⟨demand', close'⟩ := hshows'.of_waiting_nil hwaiting'
  obtain ⟨r', t', υ', hpull', hseen, -⟩ := hR hst hpull υ
  have hr' : r'.isEnding := (Reply.isEnding_of_seen hseen).trans hr
  exact ⟨_, r', _, υ', hpull.through_ending hr demand close, hpull'.through_ending hr' demand' close', hseen,
    .inr ⟨rfl, rfl⟩⟩

/-- What a source brings is seen in what its mirror brings. -/
lemma Mirrors.exists_item {s' : Sequence} (hR : Mirrors view R) (hst : R s t) (hpull : Pulls σ s (.item x) s' τ) (υ : Session) :
    ∃ x' t' υ', Pulls υ t (.item x') t' υ' ∧ view x' = view x ∧ R s' t' := by
  obtain ⟨r', t', υ', hpull', hseen, hrest⟩ := hR hst hpull υ
  cases r' with
  | item x' => exact ⟨x', t', υ', hpull', Except.ok.inj (Option.some.inj hseen), hrest⟩
  | failure | finished => cases hseen

/-- What a stage replies is mirrored by one that makes the same rows. -/
lemma Asks.exists_mirrored (hR : Mirrors view R) (hasks : Asks stage s asked ((σ, r, τ) :: history)) (hst : R s t)
    (hshows : stage.Shows view row) (hshows' : stage'.Shows view row)
    (hwaiting : stage.waiting.map view = stage'.waiting.map view) (υ : Session) :
    ∃ u r' u' υ', Pulls σ (.through stage s) r u τ ∧ Pulls υ (.through stage' t) r' u' υ' ∧ r'.seen view = r.seen view ∧
      RowsOf view row R u u' := by
  -- on what the stage asks of its source before its first reply; it drops an item if there is nothing in the row
  generalize hall : (σ, r, τ) :: history = all at hasks
  induction hasks generalizing σ t stage' υ with
  | start => cases hall
  | full demand => exact absurd demand hshows.demand_ne_stop
  | emit demand =>
    cases hall
    obtain ⟨hnext, hready⟩ := hshows.of_emit demand
    rw [hready] at hwaiting
    obtain ⟨y', ws, hready', hy, hws⟩ := List.map_eq_cons_iff.mp hwaiting.symm
    obtain ⟨next', demand', hnext', rfl⟩ := hshows'.of_waiting_cons hready'
    refine ⟨_, _, _, υ, .reply (ThroughStep.advance (.emit demand)), .reply (ThroughStep.advance (.emit demand')), ?_, ?_⟩
    · exact congrArg (fun v => some (Except.ok v)) hy
    · exact .inl ⟨_, _, _, _, rfl, rfl, hnext, hnext', hws.symm, hst⟩
  | failure demand pulls =>
    cases hall
    have hnil := hshows.waiting_of_ask demand
    rw [hnil] at hwaiting
    exact pulls.exists_mirrored_ending rfl hR hst hshows hshows' hnil (List.map_eq_nil_iff.mp hwaiting.symm) υ
  | finished demand pulls close rest =>
    cases hall
    have hnil := hshows.waiting_of_ask demand
    rw [hnil] at hwaiting
    rw [(hshows.of_waiting_nil hnil).2] at close
    cases close
    cases rest with
    | next first =>
      obtain ⟨rfl, -, rfl⟩ := first.unique (.reply rfl)
      exact pulls.exists_mirrored_ending rfl hR hst hshows hshows' hnil (List.map_eq_nil_iff.mp hwaiting.symm) υ
  | yield demand pulls receive =>
    cases hall
    have hnil := hshows.waiting_of_ask demand
    rw [hnil] at hwaiting
    obtain ⟨x', t', κ, hpull', hx, hrest⟩ := hR.exists_item hst pulls υ
    obtain ⟨v, ω, hworks, hstep⟩ := pulls.received demand receive
    obtain ⟨y, ⟨⟩, hrow⟩ | ⟨_, ⟨⟩, -⟩ := hshows.of_receive hnil ⟨_, _, receive⟩
    obtain ⟨hnone, -⟩ | ⟨_, _, y', next', υ', hrow', hy, hreply, hnext', hws⟩ :=
      hpull'.through_row hshows' (List.map_eq_nil_iff.mp hwaiting.symm)
    · rw [hx, hrow] at hnone
      cases hnone
    · rw [hx, hrow] at hrow'
      cases hrow'
      refine ⟨_, _, _, υ', hworks.pulls (.reply hstep), hreply, congrArg (fun v => some (Except.ok v)) hy, ?_⟩
      exact .inl ⟨_, next', _, t', rfl, rfl, hshows, hnext', by rw [hnil, hws]; rfl, hrest⟩
  | drop demand pulls receive rest ih =>
    cases hall
    have hnil := hshows.waiting_of_ask demand
    rw [hnil] at hwaiting
    obtain ⟨x', t', κ, hpull', hx, hst'⟩ := hR.exists_item hst pulls υ
    obtain ⟨v, ω, hworks, hstep⟩ := pulls.received demand receive
    obtain ⟨_, ⟨⟩, -⟩ | ⟨_, ⟨⟩, hnext, hrow⟩ := hshows.of_receive hnil ⟨_, _, receive⟩
    obtain ⟨hnone, next', υ', hworks', hnext', hnil'⟩ | ⟨_, _, y', next', υ', hrow', hy, hreply, hnext', hws⟩ :=
      hpull'.through_row hshows' (List.map_eq_nil_iff.mp hwaiting.symm)
    · rw [hx, hrow] at hnone
      obtain ⟨u, r', u', ω', hfirst, hsecond, hseen, hboth⟩ := ih hst' hnext hnext' (by rw [hnone, hnil']; rfl) υ' rfl
      exact ⟨u, r', u', ω', hworks.pulls (.work hstep hfirst), hworks'.pulls hsecond, hseen, hboth⟩
    · rw [hx, hrow] at hrow'
      obtain ⟨y, ws, hready, rfl, rfl⟩ := List.map_eq_cons_iff.mp hrow'
      obtain ⟨last, demand', hlast, rfl⟩ := hnext.of_waiting_cons hready
      cases rest with
      | emit emits =>
        rw [demand'] at emits
        cases emits
        have hfirst := hworks.pulls (.work hstep (.reply (ThroughStep.advance (.emit demand'))))
        refine ⟨_, _, _, υ', hfirst, hreply, congrArg (fun v => some (Except.ok v)) hy, ?_⟩
        exact .inl ⟨last, next', _, t', rfl, rfl, hlast, hnext', hws.symm, hst'⟩
      | full h | failure h | finished h | yield h | drop h | cut h =>
        rw [demand'] at h
        cases h
  | cut demand pulls receive reply rest =>
    cases hall
    obtain ⟨y, rfl, -⟩ | ⟨next, rfl, -⟩ := hshows.of_receive (hshows.waiting_of_ask demand) ⟨_, _, receive⟩
    · cases reply
    · cases reply

lemma mirrors_rowsOf (hR : Mirrors view R) : Mirrors view (RowsOf view row R) := by
  rintro s t s' σ σ' r (⟨stage, stage', source, source', rfl, rfl, hshows, hshows', hwaiting, hsources⟩ | ⟨rfl, rfl⟩) hpull τ
  · obtain ⟨asked, hasks⟩ := (Pulled.next hpull .start).exists_asks
    obtain ⟨u, r', t', τ', hfirst, hsecond, hseen, hrows⟩ := hasks.exists_mirrored hR hsources hshows hshows' hwaiting τ
    obtain ⟨-, rfl, -⟩ := hpull.unique hfirst
    exact ⟨r', t', τ', hsecond, hseen, hrows⟩
  · obtain ⟨rfl, rfl, rfl⟩ := pulls_exhausted.mp hpull
    exact ⟨.finished, .exhausted, τ, .reply rfl, rfl, .inr ⟨rfl, rfl⟩⟩

lemma RowsOf.flip (h : RowsOf view row R s t) : RowsOf view row (flip R) t s := by
  obtain ⟨stage, stage', source, source', hs, ht, hshows, hshows', hwaiting, hsources⟩ | ⟨hs, ht⟩ := h
  · exact .inl ⟨stage', stage, source', source, ht, hs, hshows', hshows, hwaiting.symm, hsources⟩
  · exact .inr ⟨ht, hs⟩

/-- **Stages that make the same rows keep a likeness**, whatever each of them does in the session. -/
theorem LooksLike.through (h : s.LooksLike view t) (hshows : stage.Shows view row) (hshows' : stage'.Shows view row)
    (hwaiting : stage.waiting.map view = stage'.waiting.map view) :
    (Sequence.through stage s).LooksLike view (.through stage' t) := by
  obtain ⟨R, hR, hflip, hst⟩ := h
  refine ⟨RowsOf view row R, mirrors_rowsOf hR, ?_, .inl ⟨_, _, _, _, rfl, rfl, hshows, hshows', hwaiting, hst⟩⟩
  intro t s t' τ τ' r hrows hpull σ
  obtain ⟨r', s', σ', hpull', hseen, hrest⟩ := mirrors_rowsOf hflip (RowsOf.flip hrows) hpull σ
  exact ⟨r', s', σ', hpull', hseen, hrest.flip⟩

lemma LooksLike.withStages {stages' : List Stage} (h : s.LooksLike view t)
    (hstages : List.Forall₂ (Stage.Starts view) rows stages) (hstages' : List.Forall₂ (Stage.Starts view) rows stages') :
    (s.withStages stages).LooksLike view (t.withStages stages') := by
  induction hstages generalizing s t stages' with
  | nil =>
    cases hstages'
    exact h
  | @cons _ stage _ _ hstage _ ih =>
    cases hstages' with
    | @cons _ stage' _ _ hstage' hrest =>
      have hfirst := h.through hstage.shows hstage'.shows (by rw [hstage.waiting_eq_nil, hstage'.waiting_eq_nil])
      exact @ih (.through stage s) (.through stage' t) _ hfirst hrest

end Mirrors

end Sequence

/-! #### In the place of what is seen -/

/-- Rows of items are seen as those of the values that the items are seen as. -/
def SeenAs (view : Item → β) (row : β → List β) (row' : Item → List Item) : Prop :=
  ∀ x, (row' x).map view = row (view x)

/-- Rows that are seen as they should be are so through all of them. -/
lemma SeenAs.through {made : List (Item → List Item)} (h : List.Forall₂ (SeenAs view) rows made) :
    SeenAs view (rowThrough rows) (rowThrough made) := by
  induction h with
  | nil => exact fun x => rfl
  | @cons row row' rows made hrow _ ih =>
    intro x
    rw [rowThrough, rowThrough, List.map_flatMap, ← hrow, List.flatMap_map]
    exact congrArg (List.flatMap · (row' x)) (funext ih)

namespace Stage

lemma starts_rows {row' : Item → List Item} (h : SeenAs view row row') : (Stage.rows row' []).Starts view row :=
  ⟨fun x _ hresult => ⟨row' x, hresult.of_pure, (h x).symm⟩, rfl⟩

/-- Rows that are seen as those of a stage: what its function answers in some session. -/
lemma Shows.exists_seenAs {stage : Stage} (h : stage.Shows view row) : ∃ row', SeenAs view row row' := by
  cases stage with
  | filter accepts =>
    refine ⟨fun x => if (accepts x {}).1 then [x] else [], fun x => ?_⟩
    exact (apply_ite (List.map view) _ [x] []).trans (h x _ ⟨{}, _, rfl⟩).symm
  | map f =>
    choose result _ hrow using fun x => h x _ ⟨{}, _, rfl⟩
    exact ⟨fun x => [result x], fun x => (hrow x).symm⟩
  | expand f =>
    choose result _ hrow using fun x => h x _ ⟨{}, _, rfl⟩
    exact ⟨result, fun x => (hrow x).symm⟩
  | _ => exact h.elim

lemma exists_forall₂_seenAs (hstages : List.Forall₂ (Starts view) rows stages) :
    ∃ made, List.Forall₂ (SeenAs view) rows made := by
  induction hstages with
  | nil => exact ⟨[], .nil⟩
  | cons hstage _ ih =>
    obtain ⟨row', hrow⟩ := hstage.shows.exists_seenAs
    obtain ⟨made, hmade⟩ := ih
    exact ⟨row' :: made, .cons hrow hmade⟩

end Stage

/-- **A chain of stages that make rows looks like one stage that makes rows through all of them.** -/
theorem Sequence.LooksLike.exists_rows {source : Sequence} (h : source.LooksLike view source)
    (hstages : List.Forall₂ (Stage.Starts view) rows stages) :
    ∃ row', SeenAs view (rowThrough rows) row' ∧
      (source.withStages stages).LooksLike view (.through (.rows row' []) source) := by
  obtain ⟨made, hseen⟩ := Stage.exists_forall₂_seenAs hstages
  -- the chain of stages that expand these rows is between the two
  have hstarts : List.Forall₂ (Stage.Starts view) rows (made.map fun row' => .rows row' []) :=
    List.forall₂_map_right_iff.mpr (hseen.imp fun _ _ hrow => Stage.starts_rows hrow)
  have hmakes : List.Forall₂ Stage.MakesRows made (made.map fun row' => .rows row' []) :=
    List.forall₂_map_right_iff.mpr (List.forall₂_same.mpr fun _ _ => .expanding)
  exact ⟨rowThrough made, SeenAs.through hseen,
    (h.withStages hstages hstarts).of_sameHistories (sameHistories_rows hmakes source)⟩

/-! #### With functions that do nothing in the session -/

/-- Work that does nothing in the session and has one answer for each item. -/
lemma Eff.exists_pure {α : Type} {work : Item → Eff α} (hquiet : ∀ x σ, (work x σ).2 = σ)
    (hanswers : ∀ x a b, (work x).Answers a → (work x).Answers b → a = b) :
    ∃ answer : Item → α, (∀ x, work x = pure (answer x)) ∧ ∀ x, (work x).Answers (answer x) := by
  refine ⟨fun x => (work x {}).1, fun x => funext fun σ => ?_, fun x => ⟨{}, _, rfl⟩⟩
  exact Prod.ext (hanswers x _ _ ⟨σ, _, rfl⟩ ⟨{}, _, rfl⟩) (hquiet x σ)

namespace Stage

/-- The stage is a filter or a projection, and its function does nothing in the session. -/
def Quiet : Stage → Prop
  | .filter accepts => ∀ (x : Item) σ, (accepts x σ).2 = σ
  | .map f => ∀ (x : Item) σ, (f x σ).2 = σ
  | .expand f _ => ∀ (x : Item) σ, (f x σ).2 = σ
  | _ => False

/-- If different items are seen to be different, then what is seen says what the stage does. -/
lemma exists_makesRows {stage : Stage} (hview : Function.Injective view) (hstage : stage.Starts view row)
    (hquiet : stage.Quiet) : ∃ row', stage.MakesRows row' ∧ SeenAs view row row' := by
  obtain ⟨hshows, hwaiting⟩ := hstage
  cases stage with
  | filter accepts =>
    obtain ⟨verdict, hpure, hverdict⟩ := Eff.exists_pure hquiet fun x a b ha hb => by
      have hrow := (hshows x a ha).symm.trans (hshows x b hb)
      cases a <;> cases b <;> first | rfl | cases hrow
    refine ⟨fun x => if verdict x then [x] else [], .atOnce rfl rfl fun x => ?_, fun x => ?_⟩
    · cases hx : verdict x with
      | false => exact .inl ⟨rfl, by simp [receive, hpure, hx]⟩
      | true => exact .inr ⟨x, rfl, by simp [receive, hpure, hx]⟩
    · exact (apply_ite (List.map view) _ [x] []).trans (hshows x _ (hverdict x)).symm
  | map f =>
    obtain ⟨answer, hpure, hanswer⟩ := Eff.exists_pure hquiet fun x a b ha hb => by
      obtain ⟨y, rfl, hy⟩ := hshows x a ha
      obtain ⟨z, rfl, hz⟩ := hshows x b hb
      rw [hview (List.singleton_injective (hy.symm.trans hz))]
    choose result hresult hrow using fun x => hshows x _ (hanswer x)
    exact ⟨fun x => [result x], .atOnce rfl rfl fun x => .inr ⟨result x, rfl, by simp [receive, hpure, hresult]⟩,
      fun x => (hrow x).symm⟩
  | expand f ready =>
    obtain ⟨answer, hpure, hanswer⟩ := Eff.exists_pure hquiet fun x a b ha hb => by
      obtain ⟨ys, rfl, hys⟩ := hshows x a ha
      obtain ⟨zs, rfl, hzs⟩ := hshows x b hb
      rw [List.map_injective_iff.mpr hview (hys.symm.trans hzs)]
    choose result hresult hrow using fun x => hshows x _ (hanswer x)
    cases hwaiting
    obtain rfl : f = .ofItems fun x => return .ok (result x) :=
      Handler.eq_ofItems fun x => (hpure x).trans (congrArg pure (hresult x))
    exact ⟨result, .expanding, fun x => (hrow x).symm⟩
  | _ => exact hquiet.elim

/-- A chain of them does so item by item, in rows that are seen as they should be. -/
lemma exists_forall₂_makesRows (hview : Function.Injective view) (hstages : List.Forall₂ (Starts view) rows stages)
    (hquiet : ∀ stage ∈ stages, stage.Quiet) :
    ∃ made, List.Forall₂ MakesRows made stages ∧ List.Forall₂ (SeenAs view) rows made := by
  induction hstages with
  | nil => exact ⟨[], .nil, .nil⟩
  | cons hstage _ ih =>
    obtain ⟨hfirst, hothers⟩ := List.forall_mem_cons.mp hquiet
    obtain ⟨row', hmakes, hrow⟩ := exists_makesRows hview hstage hfirst
    obtain ⟨made, hrest, hseen⟩ := ih hothers
    exact ⟨row' :: made, .cons hmakes hrest, .cons hrow hseen⟩

end Stage

end Views

end LazyQuery
