import LazyQuery.Proofs.Engine.Building
import LazyQuery.Proofs.Sequence.SinglePass

/-!
# Chains of functions

Filters and selections put on a source are a chain of functions (`Link`).  An item goes through the chain link by link,
with one call of each function that it gets to, until a filter rejects it or it is at the end (`Handles`).  A pull of the
chain takes items from the source, one at a time, until one of them gets to the end or the source has no more (`Serves`).

Each of these relations says what is done in the session, in order and with nothing in between: the session that one pull
or call leaves is the one that the next finds.  A pull of the chain does what they say (`Serves.pulls`) and nothing else
(`exists_serves_of_pulls`): the chain is taken apart link by link, from the one that is nearest to the source.
-/

namespace LazyQuery

open Sequence

/-! ### Links -/

/-- A filter or a selection. -/
structure Link where
  /-- Whether items are replaced by what the function makes of them.  If not, those are handed on that it accepts. -/
  selects : Bool
  function : Callable
  /-- Arguments behind the function, which are not looked at. -/
  more : List Argument := []

namespace Link

def part (link : Link) : Part :=
  ⟨if link.selects then .select else .filter, .function link.function :: link.more⟩

def stage (link : Link) : Stage :=
  if link.selects then .select link.function else .filterBy link.function

/-- What is handed on of the item `x` when the function has answered `y`. -/
def handsOn (link : Link) (x y : Item) : Option Item :=
  if link.selects then some y else if y.isTruthy then some x else none

section Stage

variable (link : Link)

lemma plan_part : link.part.plan = .ok (.lazily [link.stage]) := by
  obtain ⟨_ | _, function, more⟩ := link <;> rfl

lemma isOrdering_part : link.part.isOrdering = false := by
  obtain ⟨_ | _, function, more⟩ := link <;> rfl

lemma isLazy_part : link.part.IsLazy := by
  obtain ⟨_ | _, function, more⟩ := link <;> rfl

lemma demand_stage : link.stage.demand = .ask := by
  obtain ⟨_ | _, function, more⟩ := link <;> rfl

lemma close_stage : link.stage.close = pure [] := by
  obtain ⟨_ | _, function, more⟩ := link <;> rfl

variable {link} {x y z : Item} {σ τ : Session}

/-- A link calls its function once for each item. -/
lemma receive_stage (h : link.function.call x σ = (y, τ)) :
    link.stage.receive x σ =
      (match link.handsOn x y with | some z => .yield z link.stage | none => .drop link.stage, τ) := by
  obtain ⟨_ | _, function, more⟩ := link
  · have htest : function.test x σ = (y.isTruthy, τ) := Eff.bind_run h
    refine (Eff.bind_run htest).trans ?_
    cases hy : y.isTruthy <;> simp [handsOn, stage, hy] <;> rfl
  · have hselect : (do return Except.ok (← function.call x) : Eff (Except QueryError Item)) σ = (.ok y, τ) :=
      Eff.bind_run h
    exact Eff.bind_run hselect

lemma receive_of_some (h : link.function.call x σ = (y, τ)) (hhands : link.handsOn x y = some z) :
    link.stage.receive x σ = (.yield z link.stage, τ) := by
  rw [receive_stage h, hhands]

lemma receive_of_none (h : link.function.call x σ = (y, τ)) (hhands : link.handsOn x y = none) :
    link.stage.receive x σ = (.drop link.stage, τ) := by
  rw [receive_stage h, hhands]

end Stage

end Link

lemma stagesOf_links (links : List Link) : stagesOf (links.map Link.part) = .ok (links.map Link.stage) := by
  unfold stagesOf
  induction links with
  | nil =>
    rw [List.map_nil, segments]
    rfl
  | cons link links ih =>
    rw [List.map_cons, segments_cons_single link.isOrdering_part, stagesOfPieces, ih, Segment.stages, Part.stages,
      link.plan_part]
    rfl

namespace Sequence

/-- The chain of the links on a source, the first of them nearest to it. -/
def chained (source : Sequence) (links : List Link) : Sequence :=
  source.withStages (links.map Link.stage)

/-! ### Traces -/

/-- A call of a function. -/
structure Call where
  function : Callable
  argument : Item
  result : Item

/-- A pull of the source with its reply, and the calls that come after it. -/
structure Visit where
  reply : Reply
  calls : List Call

/-- From the session `σ` to the session at the end, the calls take place with the item `x` and what becomes of it on its
way through the links; at the end of them there is an item, or none if a filter has rejected it. -/
inductive Handles : List Link → Session → Item → List Call → Option Item → Session → Prop
  | passed {σ x} : Handles [] σ x [] (some x) σ
  | rejected {link links σ τ x y} (call : link.function.call x σ = (y, τ)) (rejects : link.handsOn x y = none) :
      Handles (link :: links) σ x [⟨link.function, x, y⟩] none τ
  | handed {link links σ τ ω x y z calls result} (call : link.function.call x σ = (y, τ))
      (hands : link.handsOn x y = some z) (rest : Handles links τ z calls result ω) :
      Handles (link :: links) σ x (⟨link.function, x, y⟩ :: calls) result ω

/-- From the session `σ` and the source `s` to those at the end, the visits take place: items are taken from the source and
go through the links, until one of them is there at the end, which is then the reply, or the source replies an ending. -/
inductive Serves (links : List Link) : Session → Sequence → List Visit → Reply → Sequence → Session → Prop
  | ends {σ τ s t r} (pulls : Pulls σ s r t τ) (ending : r.isEnding) : Serves links σ s [⟨r, []⟩] r t τ
  | passes {σ τ ω s t x y calls} (pulls : Pulls σ s (.item x) t τ) (handles : Handles links τ x calls (some y) ω) :
      Serves links σ s [⟨.item x, calls⟩] (.item y) t ω
  | rejects {σ τ υ ω s t u x calls visits r} (pulls : Pulls σ s (.item x) t τ) (handles : Handles links τ x calls none υ)
      (rest : Serves links υ t visits r u ω) : Serves links σ s (⟨.item x, calls⟩ :: visits) r u ω

/-! ### One link -/

section Link

variable {link : Link} {σ τ ω : Session} {s t u : Sequence} {x y z : Item} {r : Reply}

lemma Works.chained (h : Works σ s t τ) (links : List Link) : Works σ (s.chained links) (t.chained links) τ := by
  induction links generalizing s t with
  | nil => exact h
  | cons link links ih => exact ih (h.through link.demand_stage)

lemma Pulls.link_some (h : Pulls σ s (.item x) t τ) (call : link.function.call x τ = (y, ω))
    (hands : link.handsOn x y = some z) : Pulls σ (.through link.stage s) (.item z) (.through link.stage t) ω := by
  obtain ⟨v, υ, hworks, hlast⟩ := h.works
  have hstep := ThroughStep.advance (.item link.demand_stage hlast (Link.receive_of_some call hands))
  exact (hworks.through link.demand_stage).pulls (.reply hstep)

lemma Pulls.link_none (h : Pulls σ s (.item x) t τ) (call : link.function.call x τ = (y, ω))
    (rejects : link.handsOn x y = none) : Works σ (.through link.stage s) (.through link.stage t) ω := by
  obtain ⟨v, υ, hworks, hlast⟩ := h.works
  have hstep := ThroughStep.advance (.item link.demand_stage hlast (Link.receive_of_none call rejects))
  exact (hworks.through link.demand_stage).trans (.step hstep .done)

/-- Work of the source counts as part of its next pull. -/
lemma Serves.work {links : List Link} {visits : List Visit} (step : s.advance σ = ((none, t), τ))
    (h : Serves links τ t visits r u ω) : Serves links σ s visits r u ω := by
  cases h with
  | ends pulls ending => exact .ends (.work step pulls) ending
  | passes pulls handles => exact .passes (.work step pulls) handles
  | rejects pulls handles rest => exact .rejects (.work step pulls) handles rest

/-- **A pull of a single link on a source.** -/
theorem exists_serves_link (h : Pulls σ (.through link.stage s) r u τ) :
    ∃ visits t, Serves [link] σ s visits r t τ ∧ ∀ y, r = .item y → u = .through link.stage t := by
  -- on the steps of the pull: each but the last works for the source, drops an item or finds the source ended
  generalize hv : Sequence.through link.stage s = v at h
  induction h generalizing s with
  | @reply σ τ v u r step =>
    subst hv
    generalize hp : (some r, u) = p at step
    cases throughStep_of_advance step with
    | emit hdemand => rw [link.demand_stage] at hdemand; cases hdemand
    | stop hdemand => rw [link.demand_stage] at hdemand; cases hdemand
    | failure _ hsource =>
      cases hp
      refine ⟨_, _, .ends (.reply hsource) rfl, ?_⟩
      rintro y ⟨⟩
    | @item x t ω outcome _ _ hsource hreceive =>
      rcases hcall : link.function.call x ω with ⟨y, υ⟩
      cases hands : link.handsOn x y with
      | none =>
        rw [Link.receive_of_none hcall hands] at hreceive
        cases hreceive
        cases hp
      | some z =>
        rw [Link.receive_of_some hcall hands] at hreceive
        cases hreceive
        cases hp
        exact ⟨_, t, .passes (.reply hsource) (.handed hcall hands .passed), fun _ _ => rfl⟩
    | _ => cases hp
  | @work σ τ ω v w u r step rest ih =>
    subst hv
    generalize hp : (none, w) = p at step
    cases throughStep_of_advance step with
    | work _ hsource =>
      cases hp
      obtain ⟨visits, t, hserves, hu⟩ := ih rfl
      exact ⟨visits, t, hserves.work hsource, hu⟩
    | finished _ hsource hclose =>
      cases hp
      rw [link.close_stage] at hclose
      cases hclose
      obtain ⟨rfl, rfl, rfl⟩ := rest.unique (.reply rfl)
      refine ⟨_, _, .ends (.reply hsource) rfl, ?_⟩
      rintro y ⟨⟩
    | @item x t υ outcome _ _ hsource hreceive =>
      rcases hcall : link.function.call x υ with ⟨y, κ⟩
      cases hands : link.handsOn x y with
      | none =>
        rw [Link.receive_of_none hcall hands] at hreceive
        cases hreceive
        cases hp
        obtain ⟨visits, t, hserves, hu⟩ := ih rfl
        exact ⟨_, t, .rejects (.reply hsource) (.rejected hcall hands) hserves, hu⟩
      | some z =>
        rw [Link.receive_of_some hcall hands] at hreceive
        cases hreceive
        cases hp
    | _ => cases hp

end Link

/-! ### Link by link -/

section Chained

variable {links : List Link} {link : Link} {σ τ ω : Session} {s t u v : Sequence} {x y : Item} {result : Option Item}
  {r : Reply} {calls calls' : List Call} {visits : List Visit}

lemma Handles.before (h : Handles [link] σ x calls (some y) τ) (h' : Handles links τ y calls' result ω) :
    Handles (link :: links) σ x (calls ++ calls') result ω := by
  cases h with
  | handed call hands rest =>
    cases rest
    exact .handed call hands h'

lemma Handles.rejects_before (h : Handles [link] σ x calls none τ) : Handles (link :: links) σ x calls none τ := by
  cases h with
  | rejected call rejects => exact .rejected call rejects
  | handed _ _ rest => cases rest

/-- What a link rejects is gone for a chain that starts with it, so all depends on the item that passes. -/
lemma Serves.extend (h : Serves [link] σ s visits (.item y) t τ)
    (hlast : ∀ {σ s x υ calls}, Pulls σ s (.item x) t υ → Handles [link] υ x calls (some y) τ →
      ∃ visits, Serves (link :: links) σ s visits r u ω) :
    ∃ visits, Serves (link :: links) σ s visits r u ω := by
  generalize hr : Reply.item y = r' at h
  induction h with
  | ends _ ending =>
    subst hr
    cases ending
  | passes pulls handles =>
    cases hr
    exact hlast pulls handles
  | rejects pulls handles _ ih =>
    obtain ⟨visits, hserves⟩ := ih hlast hr
    exact ⟨_, .rejects pulls handles.rejects_before hserves⟩

lemma Serves.extend_ending (h : Serves [link] σ s visits r t τ) (hending : r.isEnding) :
    ∃ visits, Serves (link :: links) σ s visits r t τ := by
  induction h with
  | ends pulls ending => exact ⟨_, .ends pulls ending⟩
  | passes => cases hending
  | rejects pulls handles _ ih =>
    obtain ⟨visits, hserves⟩ := ih hending
    exact ⟨_, .rejects pulls handles.rejects_before hserves⟩

/-- **A pull of a chain on a link, taken as one of the chain with the link.** -/
theorem Serves.through (h : Serves links σ (.through link.stage s) visits r v τ) :
    ∃ visits t, Serves (link :: links) σ s visits r t τ ∧ ∀ y, r = .item y → v = .through link.stage t := by
  -- each pull that the chain takes of the link is itself one or several visits to the source
  generalize hw : Sequence.through link.stage s = w at h
  induction h generalizing s with
  | ends pulls ending =>
    subst hw
    obtain ⟨visits, t, hserves, hv⟩ := exists_serves_link pulls
    obtain ⟨visits', hserves'⟩ := hserves.extend_ending ending
    exact ⟨visits', t, hserves', hv⟩
  | passes pulls handles =>
    subst hw
    obtain ⟨visits, t, hserves, hv⟩ := exists_serves_link pulls
    obtain ⟨visits', hserves'⟩ := hserves.extend fun hlast hlink => ⟨_, .passes hlast (hlink.before handles)⟩
    exact ⟨visits', t, hserves', fun _ _ => hv _ rfl⟩
  | rejects pulls handles _ ih =>
    subst hw
    obtain ⟨visits, t, hserves, hv⟩ := exists_serves_link pulls
    obtain ⟨rest, u, hrest, hu⟩ := ih (hv _ rfl).symm
    obtain ⟨visits', hserves'⟩ := hserves.extend fun hlast hlink => ⟨_, .rejects hlast (hlink.before handles) hrest⟩
    exact ⟨visits', u, hserves', hu⟩

/-- **A pull of a chain is visits to its source.** -/
theorem exists_serves_of_pulls (h : Pulls σ (s.chained links) r u τ) :
    ∃ visits t, Serves links σ s visits r t τ ∧ ∀ y, r = .item y → u = t.chained links := by
  induction links generalizing s with
  | nil =>
    cases hr : r.isEnding with
    | true =>
      refine ⟨_, u, .ends h hr, ?_⟩
      rintro y rfl
      cases hr
    | false =>
      rcases r with x | e | _
      · exact ⟨_, u, .passes h .passed, fun _ _ => rfl⟩
      · cases hr
      · cases hr
  | cons link links ih =>
    obtain ⟨visits, v, hserves, hu⟩ := @ih (.through link.stage s) h
    obtain ⟨visits', t, hserves', hv⟩ := hserves.through
    refine ⟨visits', t, hserves', fun y hr => ?_⟩
    rw [hu y hr, hv y hr]
    rfl

/-- An item that gets through all links is the reply of the chain. -/
lemma Handles.pulls (h : Handles links τ x calls (some y) ω) (hpulls : Pulls σ s (.item x) t τ) :
    Pulls σ (s.chained links) (.item y) (t.chained links) ω := by
  generalize hresult : some y = result at h
  induction h generalizing s t with
  | passed =>
    cases hresult
    exact hpulls
  | rejected => cases hresult
  | handed call hands _ ih => exact ih (hpulls.link_some call hands) hresult

/-- An item that is rejected costs the chain some work. -/
lemma Handles.works (h : Handles links τ x calls none ω) (hpulls : Pulls σ s (.item x) t τ) :
    Works σ (s.chained links) (t.chained links) ω := by
  generalize hresult : none = result at h
  induction h generalizing s t with
  | passed => cases hresult
  | @rejected link links _ _ _ _ call rejects => exact (hpulls.link_none call rejects).chained links
  | handed call hands _ ih => exact ih (hpulls.link_some call hands) hresult

lemma Pulls.chained_ending (h : Pulls σ s r t τ) (hending : r.isEnding) (links : List Link) :
    Pulls σ (s.chained links) r .exhausted τ := by
  induction links generalizing s t with
  | nil =>
    cases eq_exhausted (h.isExhausted.trans hending)
    exact h
  | cons link links ih => exact ih (h.through_ending hending link.demand_stage link.close_stage)

/-- **Visits to the source are a pull of the chain.** -/
theorem Serves.pulls (h : Serves links σ s visits r t τ) :
    Pulls σ (s.chained links) r (if r.isEnding then .exhausted else t.chained links) τ := by
  induction h with
  | ends pulls ending =>
    rw [if_pos ending]
    exact pulls.chained_ending ending links
  | passes pulls handles => exact handles.pulls pulls
  | rejects pulls handles _ ih => exact (handles.works pulls).pulls ih

end Chained

end Sequence

end LazyQuery
