import LazyQuery.Proofs.Engine.ItemByItem
import LazyQuery.Proofs.Operator.Failure
import LazyQuery.Proofs.Sequence.Asking
import Mathlib.Data.ENat.Lattice

/-!
# How much is asked of a source

`take`, `takeWhile` and `zip` are done with their source after some number of items: the count, the items up to the first
that is not accepted, the items of the other sequence.  For each pull they ask their source at most once, and so their demand
is known exactly, however many pulls there are, and whatever is done between them (`Sequence.Asks.length_eq`).  One `take` on
another asks for what the smaller of them asks for, pull by pull (`Sequence.asksAll_take_take_iff`).

The lengths that may be infinite are in `ℕ∞`: an endless source has one, and an acceptance of all items.

The main statement is `demand_is_bounded`.
-/

namespace LazyQuery

open Sequence

/-! ### Lengths -/

namespace Sequence

/-- What was asked for are items before the position `length`, and endings from there on. -/
def Lasts (asked : List (Session × Reply × Session)) (length : ℕ∞) : Prop :=
  ∀ (i : ℕ) (pull : Session × Reply × Session), asked[i]? = some pull → (pull.2.1.isEnding ↔ length ≤ i)

/-- Of the items that were asked for, the one at the position `first` is not accepted, and those before it are. -/
def Rejects (accepts : Item → Eff Bool) (asked : List (Session × Reply × Session)) (first : ℕ∞) : Prop :=
  ∀ (i : ℕ) (σ : Session) (x : Item) (τ : Session), asked[i]? = some (σ, .item x, τ) →
    ((i : ℕ∞) < first → (accepts x τ).1 = true) ∧ ((i : ℕ∞) = first → (accepts x τ).1 = false)

section Lengths

variable {accepts : Item → Eff Bool} {asked : List (Session × Reply × Session)} {σ τ : Session} {x : Item} {r : Reply}
  {length first : ℕ∞}

lemma exists_add_one_of_ne_zero (h : length ≠ 0) : ∃ rest, length = rest + 1 :=
  ⟨length - 1, (tsub_add_cancel_of_le (Order.one_le_iff_ne_zero.mpr h)).symm⟩

lemma Lasts.item (h : Lasts ((σ, .item x, τ) :: asked) length) : ∃ rest, length = rest + 1 ∧ Lasts asked rest := by
  have hzero : length ≠ 0 := by
    rintro rfl
    have hending : (Reply.item x).isEnding := (h 0 _ rfl).mpr le_rfl
    cases hending
  obtain ⟨rest, rfl⟩ := exists_add_one_of_ne_zero hzero
  refine ⟨rest, rfl, fun i pull hpull => ?_⟩
  rw [h (i + 1) pull hpull, Nat.cast_succ]
  exact WithTop.add_le_add_iff_right ENat.one_ne_top

lemma Lasts.ending (h : Lasts ((σ, r, τ) :: asked) length) (hr : r.isEnding) : length = 0 := by
  have hle : length ≤ ((0 : ℕ) : ℕ∞) := (h 0 _ rfl).mp hr
  exact nonpos_iff_eq_zero.mp hle

lemma Rejects.accepted (h : Rejects accepts ((σ, .item x, τ) :: asked) first) (haccepts : (accepts x τ).1 = true) :
    ∃ rest, first = rest + 1 ∧ Rejects accepts asked rest := by
  have hzero : first ≠ 0 := by
    rintro rfl
    have hrejects := (h 0 σ x τ rfl).2 rfl
    rw [haccepts] at hrejects
    cases hrejects
  obtain ⟨rest, rfl⟩ := exists_add_one_of_ne_zero hzero
  refine ⟨rest, rfl, fun i υ y ω hpull => ?_⟩
  obtain ⟨hbefore, hat⟩ := h (i + 1) υ y ω hpull
  refine ⟨fun hlt => hbefore ?_, fun heq => hat ?_⟩
  · rw [Nat.cast_succ]
    exact WithTop.add_lt_add_right ENat.one_ne_top hlt
  · rw [Nat.cast_succ, heq]

lemma Rejects.rejected (h : Rejects accepts ((σ, .item x, τ) :: asked) first) (hrejects : (accepts x τ).1 = false) :
    first = 0 := by
  by_contra hne
  have haccepts := (h 0 σ x τ rfl).1 (pos_iff_ne_zero.mpr hne)
  rw [hrejects] at haccepts
  cases haccepts

/-- There is such a position, at infinity if all items are accepted. -/
lemma exists_rejects (accepts : Item → Eff Bool) (asked : List (Session × Reply × Session)) :
    ∃ first, Rejects accepts asked first := by
  induction asked with
  | nil => exact ⟨⊤, fun i σ x τ hpull => by cases hpull⟩
  | cons pull asked ih =>
    obtain ⟨rest, hrest⟩ := ih
    by_cases hrejects : ∃ σ x τ, pull = (σ, .item x, τ) ∧ (accepts x τ).1 = false
    · obtain ⟨σ, x, τ, rfl, hx⟩ := hrejects
      refine ⟨0, fun i σ' x' τ' hpull => ⟨fun hlt => absurd hlt not_lt_zero, fun hzero => ?_⟩⟩
      cases Nat.cast_eq_zero.mp hzero
      cases hpull
      exact hx
    · refine ⟨rest + 1, fun i σ x τ hpull => ?_⟩
      rcases i with _ | i
      · cases hpull
        refine ⟨fun _ => ?_, fun hzero => absurd hzero.symm (by simp)⟩
        exact Bool.eq_true_of_not_eq_false fun hx => hrejects ⟨σ, x, τ, rfl, hx⟩
      · obtain ⟨hbefore, hat⟩ := hrest i σ x τ hpull
        rw [Nat.cast_succ]
        exact ⟨fun hlt => hbefore (lt_of_add_lt_add_right hlt),
          fun heq => hat (WithTop.add_right_cancel ENat.one_ne_top heq)⟩

end Lengths

end Sequence

/-! ### Stages that are done after some items -/

namespace Stage

/-- **The stage is done with its source after `bound` items.** -/
def Bound (asked : List (Session × Reply × Session)) (bound : ℕ∞) : Stage → Prop
  | .take left => bound = left
  | .takeWhile accepts => ∃ first, Rejects accepts asked first ∧ bound = first + 1
  | .zip _ others => bound = others.length
  | _ => False

section Bound

variable {stage next : Stage} {asked : List (Session × Reply × Session)} {bound : ℕ∞} {σ τ υ : Session} {x y : Item}
  {r : Reply} {outcome : Outcome} {t : Sequence}

lemma Bound.full (h : stage.Bound asked bound) (demand : stage.demand = .stop) : bound = 0 := by
  unfold Stage.demand at demand
  split at demand
  · cases demand
  · exact h
  · exact h
  · cases demand

lemma Bound.ask (h : stage.Bound asked bound) (demand : stage.demand = .ask) : ∃ rest, bound = rest + 1 := by
  cases stage with
  | take left =>
    rcases left with _ | left
    · cases demand
    · exact ⟨left, h⟩
  | takeWhile accepts =>
    obtain ⟨first, -, hbound⟩ := h
    exact ⟨first, hbound⟩
  | zip combine others =>
    rcases others with _ | ⟨other, others⟩
    · cases demand
    · exact ⟨others.length, h⟩
  | _ => cases h

lemma Bound.not_emit (h : stage.Bound asked bound) (demand : stage.demand = .emit y next) : False := by
  unfold Stage.demand at demand
  split at demand <;> cases demand
  exact h

/-- An item takes one off the bound.  No item is dropped, and the one with which the stage stops is the last. -/
lemma Bound.received (h : stage.Bound ((σ, .item x, τ) :: asked) bound) (demand : stage.demand = .ask)
    (receive : stage.receive x τ = (outcome, υ)) :
    (outcome = .stop ∧ bound = 1) ∨ ∃ y next rest, outcome = .yield y next ∧ bound = rest + 1 ∧ next.Bound asked rest := by
  cases stage with
  | take left =>
    rcases left with _ | left
    · cases demand
    · cases receive
      exact .inr ⟨x, .take left, left, rfl, h, rfl⟩
  | takeWhile accepts =>
    obtain ⟨first, hrejects, rfl⟩ := h
    rcases hverdict : accepts x τ with ⟨verdict, ω⟩
    rw [Stage.receive, Eff.bind_run hverdict] at receive
    cases verdict <;> cases receive
    · rw [hrejects.rejected (by rw [hverdict])]
      exact .inl ⟨rfl, zero_add 1⟩
    · obtain ⟨rest, rfl, hrest⟩ := hrejects.accepted (by rw [hverdict])
      exact .inr ⟨x, .takeWhile accepts, rest + 1, rfl, rfl, rest, hrest, rfl⟩
  | zip combine others =>
    rcases others with _ | ⟨other, others⟩
    · cases demand
    · rcases hcombine : combine x other τ with ⟨row, ω⟩
      rw [Stage.receive, Eff.bind_run hcombine] at receive
      cases receive
      exact .inr ⟨row, .zip combine others, others.length, rfl, h, rfl⟩
  | _ => cases h

end Bound

/-- The stage is done with its source after some number of items, whatever they are. -/
def Limits (stage : Stage) : Prop :=
  ∀ asked, ∃ bound, stage.Bound asked bound

section Limits

variable {stage next : Stage} {σ τ υ : Session} {x y : Item} {outcome : Outcome}

lemma limits_take (left : ℕ) : (take left).Limits :=
  fun _ => ⟨left, rfl⟩

lemma limits_takeWhile (accepts : Item → Eff Bool) : (takeWhile accepts).Limits := by
  intro asked
  obtain ⟨first, hrejects⟩ := exists_rejects accepts asked
  exact ⟨first + 1, first, hrejects, rfl⟩

lemma limits_zip (combine : Item → Item → Eff Item) (others : List Item) : (zip combine others).Limits :=
  fun _ => ⟨others.length, rfl⟩

lemma Limits.demand (h : stage.Limits) : stage.demand = .stop ∨ stage.demand = .ask := by
  obtain ⟨bound, hbound⟩ := h []
  cases hdemand : stage.demand with
  | emit y next => exact (hbound.not_emit hdemand).elim
  | stop => exact .inl rfl
  | ask => exact .inr rfl

lemma Limits.close (h : stage.Limits) : stage.close = pure [] := by
  obtain ⟨bound, hbound⟩ := h []
  cases stage <;> first | rfl | cases hbound

lemma Limits.received (h : stage.Limits) (demand : stage.demand = .ask) (receive : stage.receive x τ = (outcome, υ)) :
    outcome = .stop ∨ ∃ y next, outcome = .yield y next ∧ next.Limits := by
  cases outcome with
  | stop => exact .inl rfl
  | yield y next =>
    refine .inr ⟨y, next, rfl, fun asked => ?_⟩
    obtain ⟨bound, hbound⟩ := h ((τ, .item x, τ) :: asked)
    obtain ⟨⟨⟩, -⟩ | ⟨_, _, rest, ⟨⟩, -, hrest⟩ := hbound.received demand receive
    exact ⟨rest, hrest⟩
  | drop | fail =>
    obtain ⟨bound, hbound⟩ := h [(τ, .item x, τ)]
    obtain ⟨⟨⟩, -⟩ | ⟨_, _, _, ⟨⟩, -⟩ := hbound.received demand receive

end Limits

end Stage

namespace Sequence

section Length

variable {stage : Stage} {s : Sequence} {asked history : List (Session × Reply × Session)} {bound length : ℕ∞}

/-- **The demand of a stage that is done after some items**, over any number of pulls. -/
theorem Asks.length_eq (h : Asks stage s asked history) (hbound : stage.Bound asked bound) (hlasts : Lasts asked length) :
    (asked.length : ℕ∞) = min (history.length : ℕ∞) (min bound (length + 1)) := by
  -- on the pulls; an item takes one off each of the three lengths, and behind the last pull one of the two bounds is left
  have hlast (n : ℕ) {a b : ℕ∞} (hmin : min a b = 1) : (1 : ℕ∞) = min ((n + 1 : ℕ) : ℕ∞) (min a b) := by
    rw [hmin, Nat.cast_succ, min_eq_right le_add_self]
  induction h generalizing bound length with
  | start => simp
  | emit demand _ _ => exact (hbound.not_emit demand).elim
  | full demand _ =>
    rw [hbound.full demand]
    simp
  | failure demand _ _ | finished demand _ _ _ =>
    obtain ⟨rest, rfl⟩ := hbound.ask demand
    rw [hlasts.ending rfl]
    exact hlast _ (by rw [zero_add, min_eq_right le_add_self])
  | yield demand _ receive _ ih =>
    obtain ⟨more, rfl, hmore⟩ := hlasts.item
    obtain ⟨⟨⟩, -⟩ | ⟨_, _, rest, ⟨⟩, rfl, hrest⟩ := hbound.received demand receive
    rw [List.length_cons, List.length_cons, Nat.cast_succ, Nat.cast_succ, ih hrest hmore, min_add_add_right,
      min_add_add_right]
  | drop demand _ receive _ _ => obtain ⟨⟨⟩, -⟩ | ⟨_, _, _, ⟨⟩, -⟩ := hbound.received demand receive
  | cut demand _ receive reply _ =>
    obtain ⟨more, rfl, -⟩ := hlasts.item
    obtain ⟨rfl, rfl⟩ | ⟨_, _, _, rfl, -⟩ := hbound.received demand receive
    · exact hlast _ (min_eq_left le_add_self)
    · cases reply

/-- What is behind the bound is never touched. -/
lemma Asks.not_isEnding (h : Asks stage s asked history) (hbound : stage.Bound asked bound) (hlasts : Lasts asked length)
    (hle : bound ≤ length) : ∀ pull ∈ asked, pull.2.1.isEnding = false := by
  intro pull hpull
  obtain ⟨i, hi, hget⟩ := List.mem_iff_getElem.mp hpull
  have hlt : (i : ℕ∞) < length := by
    calc (i : ℕ∞) < asked.length := by exact_mod_cast hi
      _ ≤ bound := by
        rw [h.length_eq hbound hlasts]
        exact (min_le_right _ _).trans (min_le_left _ _)
      _ ≤ length := hle
  have hending := hlasts i pull (List.getElem?_eq_some_iff.mpr ⟨hi, hget⟩)
  exact Bool.eq_false_iff.mpr fun h => hlt.not_ge (hending.mp h)

end Length

/-! ### All pulls are answered -/

/-- However often it has been asked, the sequence answers. -/
def Responsive (s : Sequence) : Prop :=
  ∀ history u, Pulled s history u → ∀ σ, ∃ r t τ, Pulls σ u r t τ

section Responsive

variable {stage : Stage} {s t : Sequence} {σ τ : Session} {r : Reply}

lemma Responsive.next (h : s.Responsive) (hpulls : Pulls σ s r t τ) : t.Responsive :=
  fun _ _ hrest => h _ _ (.next hpulls hrest)

lemma responsive_exhausted : exhausted.Responsive := by
  rintro history u hpulled σ
  obtain ⟨-, rfl⟩ := hpulled.of_exhausted
  exact ⟨_, _, _, .reply rfl⟩

/-- A stage that is done after some items answers if its source does. -/
lemma exists_pulls_of_limits (hs : s.Responsive) (hstage : stage.Limits) (σ : Session) :
    ∃ r u τ, Pulls σ (.through stage s) r u τ ∧
      (u = .exhausted ∨ ∃ next t, u = .through next t ∧ next.Limits ∧ t.Responsive) := by
  rcases hstage.demand with demand | demand
  · exact ⟨_, _, _, .reply (ThroughStep.advance (.stop demand)), .inl rfl⟩
  · obtain ⟨r, t, υ, hpulls⟩ := hs [] s .start σ
    obtain ⟨v, ω, hworks, hlast⟩ := hpulls.works
    cases r with
    | failure e =>
      have hstep := ThroughStep.advance (.failure demand hlast)
      exact ⟨_, _, _, (hworks.through demand).pulls (.reply hstep), .inl rfl⟩
    | finished =>
      have hclose : stage.close υ = ([], υ) := congrFun hstage.close υ
      have hstep := ThroughStep.advance (.finished demand hlast hclose)
      exact ⟨_, _, _, (hworks.through demand).pulls (.work hstep (.reply rfl)), .inl rfl⟩
    | item x =>
      rcases hreceive : stage.receive x υ with ⟨outcome, κ⟩
      have hstep := ThroughStep.advance (.item demand hlast hreceive)
      obtain rfl | ⟨y, next, rfl, hnext⟩ := hstage.received demand hreceive
      · exact ⟨_, _, _, (hworks.through demand).pulls (.reply hstep), .inl rfl⟩
      · exact ⟨_, _, _, (hworks.through demand).pulls (.reply hstep), .inr ⟨next, t, rfl, hnext, hs.next hpulls⟩⟩

/-- **Stages that are done after some items answer however often they are asked**, if their source does. -/
theorem responsive_through (hs : s.Responsive) (hstage : stage.Limits) : (Sequence.through stage s).Responsive := by
  intro history u hpulled
  generalize hv : Sequence.through stage s = v at hpulled
  induction hpulled generalizing s stage with
  | start =>
    subst hv
    intro σ
    obtain ⟨r, t, τ, hpulls, -⟩ := exists_pulls_of_limits hs hstage σ
    exact ⟨r, t, τ, hpulls⟩
  | @next σ τ v w u r history first rest ih =>
    subst hv
    obtain ⟨r', w', τ', hpulls, hw⟩ := exists_pulls_of_limits hs hstage σ
    obtain ⟨rfl, rfl, rfl⟩ := first.unique hpulls
    obtain rfl | ⟨next, t, rfl, hnext, ht⟩ := hw
    · exact responsive_exhausted _ _ rest
    · exact ih ht hnext rfl

end Responsive

/-! ### One count on another -/

/-- Nothing takes place any more. -/
def Idle (history : List (Session × Reply × Session)) : Prop :=
  ∀ pull ∈ history, ∃ υ, pull = (υ, .finished, υ)

section Counts

variable {s t u : Sequence} {σ τ : Session} {r : Reply} {left m n : ℕ} {asked history : List (Session × Reply × Session)}

/-- A pull of the first items is one of the source. -/
lemma Pulls.take_item (h : Pulls σ s r t τ) (hr : r.isEnding = false) :
    Pulls σ (.through (.take (left + 1)) s) r (.through (.take left) t) τ := by
  obtain ⟨v, ω, hworks, hlast⟩ := h.works
  cases r with
  | item x => exact (hworks.through rfl).pulls (.reply (ThroughStep.advance (.item rfl hlast rfl)))
  | failure | finished => cases hr

/-- **The pulls of the first items are those of the source**, as long as there are some left. -/
theorem asks_take_cons_iff :
    Asks (.take left) s asked ((σ, r, τ) :: history) ↔
      (left = 0 ∧ asked = [] ∧ Idle ((σ, r, τ) :: history)) ∨
        ∃ rest more t, left = rest + 1 ∧ asked = (σ, r, τ) :: more ∧ Pulls σ s r t τ ∧
          ((r.isEnding ∧ more = [] ∧ Idle history) ∨ (r.isEnding = false ∧ Asks (.take rest) t more history)) := by
  constructor
  · intro h
    rcases left with _ | left
    · cases h with
      | full _ rest => exact .inl ⟨rfl, rfl, List.forall_mem_cons.mpr ⟨⟨σ, rfl⟩, pulled_exhausted_iff.mp ⟨_, rest⟩⟩⟩
      | emit demand | failure demand | finished demand | yield demand | drop demand | cut demand => cases demand
    · refine .inr ⟨left, ?_⟩
      cases h with
      | full demand _ | emit demand _ => cases demand
      | failure _ pulls rest => exact ⟨[], _, rfl, rfl, pulls, .inl ⟨rfl, rfl, pulled_exhausted_iff.mp ⟨_, rest⟩⟩⟩
      | finished _ pulls close rest =>
        cases close
        cases rest with
        | next first rest =>
          obtain ⟨rfl, rfl, rfl⟩ := first.unique (.reply rfl)
          exact ⟨[], _, rfl, rfl, pulls, .inl ⟨rfl, rfl, pulled_exhausted_iff.mp ⟨_, rest⟩⟩⟩
      | yield _ pulls receive rest =>
        cases receive
        exact ⟨_, _, rfl, rfl, pulls, .inr ⟨rfl, rest⟩⟩
      | drop _ _ receive _ => cases receive
      | cut _ _ receive reply _ =>
        cases receive
        cases reply
  · rintro (⟨rfl, rfl, hidle⟩ | ⟨rest, more, t, rfl, rfl, hpulls, ⟨hending, rfl, hidle⟩ | ⟨hitem, hrest⟩⟩)
    · obtain ⟨⟨υ, hpull⟩, hhistory⟩ := List.forall_mem_cons.mp hidle
      cases hpull
      obtain ⟨u, hpulled⟩ := pulled_exhausted_iff.mpr hhistory
      exact .full rfl hpulled
    · obtain ⟨u, hpulled⟩ := pulled_exhausted_iff.mpr hidle
      cases r with
      | item x => cases hending
      | failure e => exact .failure rfl hpulls hpulled
      | finished => exact .finished rfl hpulls rfl (.next (.reply rfl) hpulled)
    · cases r with
      | item x => exact .yield rfl hpulls rfl hrest
      | failure e => cases hitem
      | finished => cases hitem

/-- Two counts ask for no more than the smaller of them does. -/
lemma Asks.take_take {between : List (Session × Reply × Session)} (houter : Asks (.take n) (.through (.take m) s) between history)
    (hinner : Asks (.take m) s asked between) : Asks (.take (min m n)) s asked history := by
  induction history generalizing m n s asked between with
  | nil =>
    cases houter
    cases hinner
    exact .start
  | cons pull history ih =>
    obtain ⟨σ, r, τ⟩ := pull
    rw [asks_take_cons_iff] at houter ⊢
    obtain ⟨rfl, rfl, hidle⟩ | ⟨n, more, t, rfl, rfl, hpulls, hmore⟩ := houter
    · cases hinner
      exact .inl ⟨min_eq_right (Nat.zero_le m), rfl, hidle⟩
    rw [asks_take_cons_iff] at hinner
    obtain ⟨rfl, rfl, hidle⟩ | ⟨m, more', t', rfl, rfl, hpulls', hmore'⟩ := hinner
    · obtain ⟨⟨υ, hpull⟩, -⟩ := List.forall_mem_cons.mp hidle
      cases hpull
      obtain ⟨-, -, hhistory⟩ | ⟨hitem, -⟩ := hmore
      · exact .inl ⟨min_eq_left (Nat.zero_le _), rfl, List.forall_mem_cons.mpr ⟨⟨σ, rfl⟩, hhistory⟩⟩
      · cases hitem
    refine .inr ⟨min m n, more', t', Nat.succ_min_succ m n, rfl, hpulls', ?_⟩
    cases hr : r.isEnding with
    | true =>
      obtain ⟨-, rfl, hhistory⟩ | ⟨hitem, -⟩ := hmore
      · obtain ⟨-, rfl, -⟩ | ⟨hitem, -⟩ := hmore'
        · exact .inl ⟨rfl, rfl, hhistory⟩
        · cases hr.symm.trans hitem
      · cases hr.symm.trans hitem
    | false =>
      obtain ⟨hending, -⟩ | ⟨-, houter⟩ := hmore
      · cases hr.symm.trans hending
      obtain ⟨hending, -⟩ | ⟨-, hinner⟩ := hmore'
      · cases hr.symm.trans hending
      obtain ⟨-, rfl, -⟩ := hpulls.unique (hpulls'.take_item hr)
      exact .inr ⟨rfl, ih houter hinner⟩

/-- And they ask for that much. -/
lemma Asks.exists_take_take (h : Asks (.take (min m n)) s asked history) :
    ∃ between, Asks (.take m) s asked between ∧ Asks (.take n) (.through (.take m) s) between history := by
  induction history generalizing m n s asked with
  | nil =>
    cases h
    exact ⟨[], .start, .start⟩
  | cons pull history ih =>
    obtain ⟨σ, r, τ⟩ := pull
    obtain ⟨hmin, rfl, hidle⟩ | ⟨rest, more, t, hmin, rfl, hpulls, hmore⟩ := asks_take_cons_iff.mp h
    · rcases n with _ | n
      · exact ⟨[], .start, asks_take_cons_iff.mpr (.inl ⟨rfl, rfl, hidle⟩)⟩
      -- the inner count is done, and the outer one learns it by a pull
      obtain rfl : m = 0 := by omega
      obtain ⟨⟨υ, hpull⟩, hhistory⟩ := List.forall_mem_cons.mp hidle
      cases hpull
      have hstop : Pulls σ (.through (.take 0) s) .finished .exhausted σ := .reply (ThroughStep.advance (.stop rfl))
      have hfirst : Idle [(σ, .finished, σ)] := List.forall_mem_singleton.mpr ⟨σ, rfl⟩
      exact ⟨_, asks_take_cons_iff.mpr (.inl ⟨rfl, rfl, hfirst⟩),
        asks_take_cons_iff.mpr (.inr ⟨n, [], _, rfl, rfl, hstop, .inl ⟨rfl, rfl, hhistory⟩⟩)⟩
    · obtain ⟨m, rfl⟩ : ∃ k, m = k + 1 := ⟨m - 1, by omega⟩
      obtain ⟨n, rfl⟩ : ∃ k, n = k + 1 := ⟨n - 1, by omega⟩
      obtain rfl : rest = min m n := by omega
      obtain ⟨hending, rfl, hhistory⟩ | ⟨hitem, hrest⟩ := hmore
      · exact ⟨_, asks_take_cons_iff.mpr (.inr ⟨m, [], t, rfl, rfl, hpulls, .inl ⟨hending, rfl, List.forall_mem_nil _⟩⟩),
          asks_take_cons_iff.mpr (.inr ⟨n, [], _, rfl, rfl, hpulls.through_ending hending rfl rfl,
            .inl ⟨hending, rfl, hhistory⟩⟩)⟩
      · obtain ⟨between, hinner, houter⟩ := ih hrest
        exact ⟨_, asks_take_cons_iff.mpr (.inr ⟨m, more, t, rfl, rfl, hpulls, .inr ⟨hitem, hinner⟩⟩),
          asks_take_cons_iff.mpr (.inr ⟨n, between, _, rfl, rfl, hpulls.take_item hitem, .inr ⟨hitem, houter⟩⟩)⟩

/-- **One count on another asks for what the smaller asks for**, and hands out the same, pull by pull. -/
theorem asksAll_take_take_iff : AsksAll [.take m, .take n] s asked history ↔ AsksAll [.take (min m n)] s asked history := by
  simp only [AsksAll, exists_eq_right]
  exact ⟨fun ⟨_, hinner, houter⟩ => houter.take_take hinner, Asks.exists_take_take⟩

end Counts

end Sequence

/-! ### Parts -/

namespace Part

/-- **The part is done with its source after `bound` items**: as many as it is to take, none if that is negative; as many as
there are others to put beside them; or the items up to the first that is not accepted. -/
def Bound (part : Part) (asked : List (Session × Reply × Session)) (bound : ℕ∞) : Prop :=
  match part.operator with
  | .take => ∃ count, part.requireInteger 0 "count" = .ok count ∧ bound = (max count 0).toNat
  | .takeWhile => ∃ predicate first, part.function? 0 = some predicate ∧ Rejects predicate.test asked first ∧
      bound = first + 1
  | .zip => ∃ others, part.requireElements 0 "other sequence" = .ok others ∧ bound = others.length
  | _ => False

end Part

section Parts

variable {part : Part}

lemma plan_of_take {count : Int} (hpart : part.operator = .take) (hcount : part.requireInteger 0 "count" = .ok count) :
    part.plan = .ok (.lazily [.take count.toNat]) := by
  unfold Part.plan
  rw [hpart, hcount]
  rfl

/-- A part that is done with its source after some items is a stage that is. -/
theorem exists_limit_of_plan {stages : List Stage} (hpart : part.operator ∈ [Operator.take, .takeWhile, .zip])
    (hplan : part.plan = .ok (.lazily stages)) :
    ∃ stage, stages = [stage] ∧ stage.Limits ∧ ∀ asked bound, part.Bound asked bound → stage.Bound asked bound := by
  obtain ⟨operator, arguments⟩ := part
  simp only [List.mem_cons, List.not_mem_nil, or_false] at hpart
  rcases hpart with rfl | rfl | rfl
  · obtain ⟨count, hcount, hstages⟩ := bind_eq_ok hplan
    cases hstages
    refine ⟨_, rfl, Stage.limits_take _, ?_⟩
    rintro asked bound ⟨count', hcount', rfl⟩
    cases hcount.symm.trans hcount'
    have htoNat : (max count 0).toNat = count.toNat := by omega
    exact congrArg Nat.cast htoNat
  · obtain ⟨predicate, hpredicate, hstages⟩ := bind_eq_ok hplan
    cases hstages
    refine ⟨_, rfl, Stage.limits_takeWhile _, ?_⟩
    rintro asked bound ⟨predicate', first, hpredicate', hrejects, rfl⟩
    cases (function?_of_requireFunction hpredicate).symm.trans hpredicate'
    exact ⟨first, hrejects, rfl⟩
  · obtain ⟨others, hothers, hstages⟩ := bind_eq_ok hplan
    cases hstages
    refine ⟨_, rfl, Stage.limits_zip _ _, ?_⟩
    rintro asked bound ⟨others', hothers', rfl⟩
    cases hothers.symm.trans hothers'
    rfl

end Parts

/-- **Demand is bounded.**  A part that takes the first items of its source, or those up to one that is not accepted, or one
for each of some others, is done with its source after some number of items.  For all pulls of what it hands on, and
whatever else is done between them:

* they are the pulls that take pulls of the source, and each further one is answered if those of the source are;
* the number of pulls of the source is the least of the number of pulls, of the bound of the part, and of the length of the
  source with its ending; so an ending at the bound or beyond is never touched.

Two counts on one another take the same pulls of the source as the smaller of them, where negative ones count as zero. -/
theorem demand_is_bounded (budget : Nat) (source : Sequence) :
    (∀ (part : Part) (stages : List Stage), part.operator ∈ [Operator.take, .takeWhile, .zip] →
      part.plan = .ok (.lazily stages) →
      apply budget (.sequence source) part = pure (.sequence (source.withStages stages)) ∧
      (source.Responsive → (source.withStages stages).Responsive) ∧
      (∀ history, (∃ u, Pulled (source.withStages stages) history u) ↔
        ∃ asked, AsksAll stages source asked history ∧ ∃ t, Pulled source asked t) ∧
      ∀ asked history bound length, AsksAll stages source asked history → part.Bound asked bound → Lasts asked length →
        (asked.length : ℕ∞) = min (history.length : ℕ∞) (min bound (length + 1)) ∧
        (bound ≤ length → ∀ pull ∈ asked, pull.2.1.isEnding = false)) ∧
    ∀ (first second both : Part) (m n : Int),
      first.operator = .take → first.requireInteger 0 "count" = .ok m →
      second.operator = .take → second.requireInteger 0 "count" = .ok n →
      both.operator = .take → both.requireInteger 0 "count" = .ok (min (max m 0) (max n 0)) →
      ∃ twice once, [first, second].foldlM (apply budget) (.sequence source) = pure (.sequence (source.withStages twice)) ∧
        apply budget (.sequence source) both = pure (.sequence (source.withStages once)) ∧
        ∀ asked history, AsksAll twice source asked history ↔ AsksAll once source asked history := by
  constructor
  · intro part stages hpart hplan
    obtain ⟨stage, rfl, hlimits, hbound⟩ := exists_limit_of_plan hpart hplan
    refine ⟨apply_of_stages budget hplan, fun hsource => responsive_through hsource hlimits,
      fun history => pulled_withStages_iff, ?_⟩
    rintro asked history bound length ⟨between, hasks, rfl⟩ hpartBound hlasts
    have hstageBound := hbound asked bound hpartBound
    exact ⟨hasks.length_eq hstageBound hlasts, hasks.not_isEnding hstageBound hlasts⟩
  · intro first second both m n hfirst hm hsecond hn hboth hmin
    have hcount : (min (max m 0) (max n 0)).toNat = min m.toNat n.toNat := by omega
    refine ⟨[.take m.toNat, .take n.toNat], [.take (min m.toNat n.toNat)], ?_, ?_, fun _ _ => asksAll_take_take_iff⟩
    · rw [List.foldlM_cons, apply_of_stages budget (plan_of_take hfirst hm), pure_bind, List.foldlM_cons,
        apply_of_stages budget (plan_of_take hsecond hn), pure_bind, List.foldlM_nil]
      rfl
    · rw [apply_of_stages budget (plan_of_take hboth hmin), hcount]

/-- A part that takes so many items. -/
def taking (count : Int) : Part :=
  ⟨.take, [.literal (.number (.ofInt count))]⟩

/-- Two pulls of the first item of a source take one pull of it, and its error is not touched; and two counts. -/
theorem demand_is_bounded_failing :
    (∃ asked, AsksAll [.take 1] (failing [.null] (.negativeCount (-1)) 0) asked
        [({}, .item .null, {}), ({}, .finished, {})] ∧
      (asked.length : ℕ∞) = 1 ∧ ∀ pull ∈ asked, pull.2.1.isEnding = false) ∧
    ∃ twice once, [taking 2, taking (-1)].foldlM (apply 0) (.sequence (failing [.null] (.negativeCount (-1)) 0)) =
        pure (.sequence ((failing [.null] (.negativeCount (-1)) 0).withStages twice)) ∧
      apply 0 (.sequence (failing [.null] (.negativeCount (-1)) 0)) (taking 0) =
        pure (.sequence ((failing [.null] (.negativeCount (-1)) 0).withStages once)) ∧
      ∀ asked history, AsksAll twice (failing [.null] (.negativeCount (-1)) 0) asked history ↔
        AsksAll once (failing [.null] (.negativeCount (-1)) 0) asked history := by
  obtain ⟨hbounded, htwice⟩ := demand_is_bounded 0 (failing [.null] (.negativeCount (-1)) 0)
  have hone : (taking 1).requireInteger 0 "count" = .ok 1 := by decide +kernel
  refine ⟨?_, htwice (taking 2) (taking (-1)) (taking 0) 2 (-1) rfl (by decide +kernel) rfl (by decide +kernel) rfl
    (by decide +kernel)⟩
  have hasks : AsksAll [.take 1] (failing [.null] (.negativeCount (-1)) 0) [({}, .item .null, {})]
      [({}, .item .null, {}), ({}, .finished, {})] :=
    ⟨_, .yield rfl (failing_pulls_item rfl) rfl (.full rfl .start), rfl⟩
  obtain ⟨-, -, -, hlength⟩ := hbounded (taking 1) [.take 1] List.mem_cons_self (plan_of_take rfl hone)
  have hlasts : Lasts [(({} : Session), Reply.item .null, ({} : Session))] 1 := by
    intro i pull hpull
    rcases i with _ | i
    · cases hpull
      simp [Reply.isEnding, Reply.ending?]
    · cases hpull
  obtain ⟨hcount, htouched⟩ := hlength _ _ 1 1 hasks ⟨1, hone, rfl⟩ hlasts
  exact ⟨_, hasks, by rw [hcount]; rfl, htouched le_rfl⟩

end LazyQuery
