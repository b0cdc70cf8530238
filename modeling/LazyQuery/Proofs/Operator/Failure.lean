import LazyQuery.Proofs.Engine.Building
import LazyQuery.Proofs.Sequence.Consumption

/-!
# Errors of the source

An error that ends a source comes out of every operator that hands on a sequence, and out of every pipeline of such
operators: as it is, and after the items that the operators make of those before it.  Only an operator that has what it
needs before the error, or that fails on an item before it, is not reached by it (`Part.StopsFirst`, `Part.FailsFirst`), and
then the source is not asked for it.

This is said of each history of pulls.  It takes pulls of the source, and the items and the ending in it are those that belong
to what the source has brought in these (`Sequence.Relayed`).  So it does not matter whether the source brings the same items
whenever it is asked.

The main statement is `upstream_failure_comes_through`.
-/

namespace LazyQuery

open Sequence

namespace Part

/-- The part hands on a sequence, and its arguments are what its operator wants. -/
def HandsOn (part : Part) : Prop :=
  part.operator.isTerminal = false ∧ ∃ plan, part.plan = .ok plan

/-- **The items that a part hands out while it consumes `xs`**, if it goes on after them.  Those of a second sequence or a
default do not come before the source has ended, and a part that arranges its items anew hands out none before. -/
def Emits (part : Part) (xs ys : List Item) : Prop :=
  match part.operator with
  | .concatWith => ys = xs
  | .defaultIfEmpty => ys = xs
  | .union => ys = Stage.firsts ∅ xs
  | .intersect => ∃ others, part.requireElements 0 "other sequence" = .ok others ∧
      ys = Stage.firsts ∅ (xs.filter fun item => (IdentitySet.ofItems others).has item)
  | .reverse => ys = []
  | .groupBy => ys = []
  | .order _ _ => ys = []
  | _ => ∃ stage, part.plan = .ok (.lazily [stage]) ∧ stage.Emits xs ys

/-- The part has what it needs with the items `xs`, and not before; it has handed out `ys` then. -/
def StopsFirst (part : Part) (xs ys : List Item) : Prop :=
  match part.operator with
  | .take => ∃ count, part.requireInteger 0 "count" = .ok count ∧ xs.length = max count 0 ∧ ys = xs
  | .takeWhile => ∃ predicate, part.function? 0 = some predicate ∧ (∀ y ∈ ys, (predicate.test y).Answers true) ∧
      ∃ x, xs = ys ++ [x] ∧ (predicate.test x).Answers false
  -- these are as many as the others, and paired with them
  | .zip => ∃ others, part.requireElements 0 "other sequence" = .ok others ∧
      (Stage.zipWith others (part.function? 1)).Stops xs ys
  | _ => False

/-- The part refuses the last of the items `xs`, after it has handed out `ys`. -/
def FailsFirst (part : Part) (xs ys : List Item) (e : QueryError) : Prop :=
  match part.operator with
  | .cast => ∃ target, part.requireType = .ok target ∧ ∃ taken x, xs = taken ++ [x] ∧ part.Emits taken ys ∧
      x.castTo? target = none ∧ e = .invalidCast x.typeTag target
  | .selectMany => ∃ selector, part.function? 0 = some selector ∧ ∃ taken x inner, xs = taken ++ [x] ∧
      part.Emits taken ys ∧ (selector.call x).Answers inner ∧ inner.elements? = none ∧
      e = .invalidArgument "selectMany" ("selector returned " ++ inner.typeTag.name ++ ", expected an array")
  | _ => False

/-- What a part hands out of the items `xs` if they are all: what its stages do, one after another. -/
def Completes (part : Part) (xs ys : List Item) : Prop :=
  ∃ stages, part.plan = .ok (.lazily stages) ∧ Stage.CompletedBy stages xs ys

def relay (part : Part) : Relay :=
  ⟨part.Emits, part.StopsFirst, part.FailsFirst, part.Completes⟩

end Part

/-- A piece of a query relays as its part does; and a run of ordering parts hands out nothing before the source has ended, and
then the items as its keys sort them. -/
def Segment.relay : Segment → Relay
  | .single part => part.relay
  | .ordering first refining => {
      Emits := fun _ ys => ys = []
      Stops := fun _ _ => False
      Fails := fun _ _ _ => False
      Completes := fun xs ys => ∃ keys, readKeys (first :: refining) = .ok keys ∧ (sortByKeys keys xs).Answers ys }

/-! ### Relays in a row -/

/-- What comes of a source behind several relays, the first of them nearest to it. -/
def RelayedBy : List Relay → List Item → Option Ending → List Item → Option Ending → Prop
  | [], xs, ending, ys, ending' => ys = xs ∧ ending' = ending
  | relay :: relays, xs, ending, ys, ending' =>
    ∃ zs between, relay.Relays xs ending zs between ∧ RelayedBy relays zs between ys ending'

/-- The items that come of `xs` behind several relays that all go on. -/
def EmittedBy : List Relay → List Item → List Item → Prop
  | [], xs, ys => ys = xs
  | relay :: relays, xs, ys => ∃ zs, relay.Emits xs zs ∧ EmittedBy relays zs ys

/-- There are the items and the ending of a source that are as `P` says; of the items some have come, from the first on, and if
there was an ending, then all of them and that ending. -/
def Brought (P : List Item → Ending → Prop) (asked : List (Session × Reply × Session)) : Prop :=
  ∃ xs ending, P xs ending ∧ itemsOf asked <+: xs ∧
    ∀ ending', endingOf asked = some ending' → itemsOf asked = xs ∧ ending' = ending

/-- **What comes of a source** is what the relays make of it. -/
structure Sequence.Relayed (source out : Sequence) (relays : List Relay) : Prop where
  /-- Pulls take pulls of the source, whatever is done in between; their items and their ending are what the relays make of
  the items and of the ending that the source has brought in these. -/
  pulled : ∃ stages, out = source.withStages stages ∧ ∀ history u, Pulled out history u →
    ∃ asked, (AsksAll stages source asked history ∧ ∃ t, Pulled source asked t) ∧
      RelayedBy relays (itemsOf asked) (endingOf asked) (itemsOf history) (endingOf history)
  /-- On a source that comes to an end, it comes to one in each session. -/
  drains : ∀ P, source.Delivers P → ∀ σ, ∃ ys ending τ, Drains σ out ys ending τ ∧
    ∃ asked, (∃ t, Pulled source asked t) ∧ Brought P asked ∧
      RelayedBy relays (itemsOf asked) (endingOf asked) ys (some ending)

section Relays

variable {relay : Relay} {relays relays' : List Relay} {xs ys zs : List Item} {ending between ending' : Option Ending}
  {e : QueryError} {stages stages' : List Stage} {source out middle : Sequence}
  {asked history history' : List (Session × Reply × Session)} {P : List Item → Ending → Prop}

lemma RelayedBy.append (h : RelayedBy relays xs ending zs between) (h' : RelayedBy relays' zs between ys ending') :
    RelayedBy (relays ++ relays') xs ending ys ending' := by
  induction relays generalizing xs ending with
  | nil =>
    obtain ⟨rfl, rfl⟩ := h
    exact h'
  | cons relay relays ih =>
    obtain ⟨us, ending'', hrelays, hrest⟩ := h
    exact ⟨us, ending'', hrelays, ih hrest⟩

lemma relayedBy_singleton : RelayedBy [relay] xs ending ys ending' ↔ relay.Relays xs ending ys ending' := by
  constructor
  · rintro ⟨zs, between, hrelays, rfl, rfl⟩
    exact hrelays
  · exact fun h => ⟨ys, ending', h, rfl, rfl⟩

/-- **An error that the source has brought is the ending**, behind all relays, and the items are those that they emit. -/
theorem relayedBy_failed_iff :
    RelayedBy relays xs (some (.failed e)) ys ending' ↔ ending' = some (.failed e) ∧ EmittedBy relays xs ys := by
  induction relays generalizing xs with
  | nil => exact and_comm
  | cons relay relays ih =>
    constructor
    · rintro ⟨zs, between, hrelays, hrest⟩
      cases hrelays with
      | failed hemits =>
        obtain ⟨hending, hemitted⟩ := ih.mp hrest
        exact ⟨hending, zs, hemits, hemitted⟩
    · rintro ⟨hending, zs, hemits, hemitted⟩
      exact ⟨zs, _, .failed hemits, ih.mpr ⟨hending, hemitted⟩⟩

lemma Sequence.AsksAll.relayedBy (h : AsksAll stages source asked history) :
    RelayedBy (stages.map Stage.relay) (itemsOf asked) (endingOf asked) (itemsOf history) (endingOf history) := by
  induction stages generalizing source asked with
  | nil =>
    cases h
    exact ⟨rfl, rfl⟩
  | cons stage stages ih =>
    obtain ⟨between, hasks, hrest⟩ := h
    exact ⟨_, _, hasks.relays, ih hrest⟩

lemma Sequence.AsksAll.append (h : AsksAll stages source asked history)
    (h' : AsksAll stages' (source.withStages stages) history history') :
    AsksAll (stages ++ stages') source asked history' := by
  induction stages generalizing source asked with
  | nil =>
    cases h
    exact h'
  | cons stage stages ih =>
    obtain ⟨between, hasks, hrest⟩ := h
    exact ⟨between, hasks, ih hrest h'⟩

lemma respects_true : Stage.Respects fun _ _ _ _ _ => True := by
  constructor <;> intros <;> trivial

/-- Stages on a source that comes to an end come to one. -/
lemma Sequence.Delivers.withStages (h : source.Delivers P) (stages : List Stage) :
    (source.withStages stages).Delivers fun _ _ => True := by
  induction stages generalizing source P with
  | nil => exact h.mono fun _ _ _ => trivial
  | cons stage stages ih => exact ih (h.through respects_true stage)

/-- What is gone through is in particular pulled. -/
lemma Sequence.relayed_of_pulled (h : ∃ stages, out = source.withStages stages ∧ ∀ history u, Pulled out history u →
    ∃ asked, (AsksAll stages source asked history ∧ ∃ t, Pulled source asked t) ∧
      RelayedBy relays (itemsOf asked) (endingOf asked) (itemsOf history) (endingOf history)) :
    source.Relayed out relays := by
  refine ⟨h, fun P hsource σ => ?_⟩
  obtain ⟨stages, rfl, hpulled⟩ := h
  obtain ⟨ys, ending, τ, hdrains, -⟩ := (hsource.withStages stages).drains σ
  obtain ⟨r, υ, history, u, hhistory, rfl, hending⟩ := hdrains.exists_pulled
  obtain ⟨asked, ⟨-, t, hasked⟩, hrelayed⟩ := hpulled _ u hhistory
  rw [hending] at hrelayed
  exact ⟨_, ending, τ, hdrains, asked, ⟨t, hasked⟩, hsource.asked hasked, hrelayed⟩

lemma Sequence.relayed_refl (source : Sequence) : source.Relayed source [] :=
  relayed_of_pulled ⟨[], rfl, fun history u h => ⟨history, ⟨rfl, u, h⟩, rfl, rfl⟩⟩

/-- What comes of it in turn. -/
lemma Sequence.Relayed.trans (h : source.Relayed middle relays) (h' : middle.Relayed out relays') :
    source.Relayed out (relays ++ relays') := by
  obtain ⟨stages, rfl, hmiddle⟩ := h.pulled
  obtain ⟨stages', rfl, hout⟩ := h'.pulled
  refine relayed_of_pulled ⟨stages ++ stages', List.foldl_append.symm, fun history u hhistory => ?_⟩
  obtain ⟨between, ⟨hasks', t, hbetween⟩, hrelayed'⟩ := hout history u hhistory
  obtain ⟨asked, ⟨hasks, hasked⟩, hrelayed⟩ := hmiddle between t hbetween
  exact ⟨asked, ⟨hasks.append hasks', hasked⟩, hrelayed.append hrelayed'⟩

/-- **What comes of a source behind stages** is what they relay. -/
theorem Sequence.relayed_withStages (source : Sequence) (stages : List Stage)
    (h : ∀ {xs ending ys ending'}, RelayedBy (stages.map Stage.relay) xs ending ys ending' → relay.Relays xs ending ys ending') :
    source.Relayed (source.withStages stages) [relay] := by
  refine relayed_of_pulled ⟨stages, rfl, fun history u hhistory => ?_⟩
  obtain ⟨asked, hasks, hasked⟩ := exists_asksAll hhistory
  exact ⟨asked, ⟨hasks, hasked⟩, relayedBy_singleton.mpr (h hasks.relayedBy)⟩

end Relays

/-! ### The stages of a part -/

section Plan

variable {part : Part} {stage : Stage} {stages : List Stage} {xs ys zs : List Item} {ending ending' : Option Ending}

lemma function?_of_requireFunction {position : Nat} {what : String} {f : Callable}
    (h : part.requireFunction position what = .ok f) : part.function? position = some f := by
  unfold Part.requireFunction at h
  split at h
  · next f' hf =>
    cases h
    exact hf
  · cases h

lemma requireFunction_of_function? {position : Nat} {f : Callable} (h : part.function? position = some f) (what : String) :
    part.requireFunction position what = .ok f := by
  rw [Part.requireFunction, h]

lemma requireLiteral_of_literal? {position : Nat} {item : Item} (h : part.literal? position = some item) (what : String) :
    part.requireLiteral position what = .ok item := by
  rw [Part.requireLiteral, h]

lemma requireInteger_of_literal? {position : Nat} {item : Item} {i : Int} (h : part.literal? position = some item)
    (hinteger : item.integer? = some i) (what : String) : part.requireInteger position what = .ok i := by
  unfold Part.requireInteger
  rw [requireLiteral_of_literal? h]
  dsimp only [bind, Except.bind]
  rw [hinteger]
  rfl

lemma requireElements_of_literal? {position : Nat} {ref : Ref} {elements : List Item}
    (h : part.literal? position = some (.array ref elements)) (what : String) :
    part.requireElements position what = .ok elements := by
  rw [Part.requireElements, requireLiteral_of_literal? h]
  rfl

lemma plan_of_select {f : Callable} (hoperator : part.operator = .select) (hselector : part.function? 0 = some f) :
    part.plan = .ok (.lazily [.select f]) := by
  obtain ⟨operator, arguments⟩ := part
  cases hoperator
  unfold Part.plan
  simp only [requireFunction_of_function? hselector]
  rfl

lemma plan_of_filter {p : Callable} (hoperator : part.operator = .filter) (hpredicate : part.function? 0 = some p) :
    part.plan = .ok (.lazily [.filterBy p]) := by
  obtain ⟨operator, arguments⟩ := part
  cases hoperator
  unfold Part.plan
  simp only [requireFunction_of_function? hpredicate]
  rfl

lemma plan_of_selectMany {f : Callable} (hoperator : part.operator = .selectMany) (hselector : part.function? 0 = some f) :
    part.plan = .ok (.lazily [.selectMany f (part.function? 1)]) := by
  obtain ⟨operator, arguments⟩ := part
  cases hoperator
  unfold Part.plan
  simp only [requireFunction_of_function? hselector]
  rfl

lemma plan_of_concatWith {others : List Item} (hoperator : part.operator = .concatWith)
    (hothers : part.requireElements 0 "other sequence" = .ok others) : part.plan = .ok (.lazily [.append others]) := by
  obtain ⟨operator, arguments⟩ := part
  cases hoperator
  unfold Part.plan
  simp only [hothers]
  rfl

/-- Filtering by what an item is. -/
lemma eq_filter_of_keeps {p : Item → Bool} (h : Stage.Keeps (fun x => return p x) xs ys) : ys = xs.filter p := by
  induction h with
  | nil => rfl
  | keep hp _ ih => rw [List.filter_cons_of_pos hp.of_pure.symm, ih]
  | leave hp _ ih => rw [List.filter_cons_of_neg (by simp [← hp.of_pure]), ih]

/-- A part with a single stage relays as that does. -/
lemma relays_of_stage (h : RelayedBy [stage.relay] xs ending ys ending') (hplan : part.plan = .ok (.lazily [stage]))
    (hemits : ∀ {xs ys}, stage.Emits xs ys → part.Emits xs ys)
    (hstops : ∀ {xs ys}, stage.Stops xs ys → part.StopsFirst xs ys)
    (hfails : ∀ {taken x ys e}, stage.Emits taken ys → stage.Refuses x e → part.FailsFirst (taken ++ [x]) ys e) :
    part.relay.Relays xs ending ys ending' := by
  have hcompletes {xs ys : List Item} (hcompletes : stage.Completes xs ys) : part.Completes xs ys :=
    ⟨[stage], hplan, ys, hcompletes, rfl⟩
  cases relayedBy_singleton.mp h with
  | underway items part => exact .underway (items.imp hemits hstops) part
  | failed items => exact .failed (hemits items)
  | stopped items => exact .stopped (hstops items)
  | refused items =>
    obtain ⟨taken, x, rfl, htaken, hrefuses⟩ := items
    exact .refused (hfails htaken hrefuses)
  | closing items part => exact .closing (hcompletes items) part
  | completed items => exact .completed (hcompletes items)

lemma prefix_firsts {seen : IdentitySet} (h : xs <+: ys) : Stage.firsts seen xs <+: Stage.firsts seen ys := by
  induction xs generalizing ys seen with
  | nil => exact List.nil_prefix
  | cons x xs ih =>
    obtain ⟨ys, rfl⟩ := h
    rw [List.cons_append, Stage.firsts, Stage.firsts]
    split
    · exact (List.prefix_cons_inj x).mpr (ih (List.prefix_append xs ys))
    · exact ih (List.prefix_append xs ys)

/-- A stage that neither stops nor fails, and of what it hands out the first of identical items. -/
lemma relays_of_unique (h : RelayedBy [stage.relay, (Stage.unique ∅).relay] xs ending ys ending')
    (hplan : part.plan = .ok (.lazily [stage, .unique ∅])) (hstops : ∀ {xs ys}, ¬ stage.Stops xs ys)
    (hrefuses : ∀ {x e}, ¬ stage.Refuses x e) (hemits : ∀ {xs zs}, stage.Emits xs zs → part.Emits xs (Stage.firsts ∅ zs)) :
    part.relay.Relays xs ending ys ending' := by
  have hcompletes {xs zs : List Item} (hcompletes : stage.Completes xs zs) : part.Completes xs (Stage.firsts ∅ zs) :=
    ⟨_, hplan, zs, hcompletes, _, ⟨_, _, rfl, rfl, (List.append_nil _).symm⟩, rfl⟩
  obtain ⟨zs, between, hfirst, hrest⟩ := h
  have hsecond := relayedBy_singleton.mp hrest
  cases hfirst with
  | underway items part =>
    obtain hstage | hstage := items
    · cases hsecond with
      | underway items part' =>
        obtain rfl | hfalse := items
        · exact .underway (.inl (hemits hstage)) (part'.trans (prefix_firsts part))
        · exact hfalse.elim
      | stopped items => exact items.elim
      | refused items =>
        obtain ⟨_, _, _, _, hfalse⟩ := items
        exact hfalse.elim
    · exact absurd hstage hstops
  | failed items =>
    cases hsecond with
    | failed items' =>
      obtain rfl := items'
      exact .failed (hemits items)
  | stopped items => exact absurd items hstops
  | refused items =>
    obtain ⟨_, _, _, _, hrefused⟩ := items
    exact absurd hrefused hrefuses
  | closing items part =>
    cases hsecond with
    | underway items' part' =>
      obtain rfl | hfalse := items'
      · exact .closing (hcompletes items) (part'.trans (prefix_firsts part))
      · exact hfalse.elim
    | stopped items => exact items.elim
    | refused items =>
      obtain ⟨_, _, _, _, hfalse⟩ := items
      exact hfalse.elim
  | completed items =>
    cases hsecond with
    | closing items' part =>
      obtain ⟨_, _, rfl, rfl, rfl⟩ := items'
      rw [List.append_nil] at part
      exact .closing (hcompletes items) part
    | completed items' =>
      obtain ⟨_, _, rfl, rfl, rfl⟩ := items'
      rw [List.append_nil]
      exact .completed (hcompletes items)

/-- **A part relays as its stages do.** -/
theorem relays_of_plan (hplan : part.plan = .ok (.lazily stages)) (h : RelayedBy (stages.map Stage.relay) xs ending ys ending') :
    part.relay.Relays xs ending ys ending' := by
  have hplan' := hplan
  obtain ⟨operator, arguments⟩ := part
  cases operator with
  | filter =>
    obtain ⟨predicate, -, hstages⟩ := bind_eq_ok hplan
    cases hstages
    exact relays_of_stage h hplan' (fun hemits => ⟨_, hplan', hemits⟩) id fun _ => id
  | ofType =>
    obtain ⟨target, -, hstages⟩ := bind_eq_ok hplan
    cases hstages
    exact relays_of_stage h hplan' (fun hemits => ⟨_, hplan', hemits⟩) id fun _ => id
  | cast =>
    obtain ⟨target, htarget, hstages⟩ := bind_eq_ok hplan
    cases hstages
    refine relays_of_stage h hplan' (fun hemits => ⟨_, hplan', hemits⟩) id
      fun {taken x _ _} htaken hf => ⟨target, htarget, taken, x, rfl, ⟨_, hplan', htaken⟩, ?_⟩
    dsimp only [Stage.Refuses, Stage.cast] at hf
    cases hcast : x.castTo? target with
    | none =>
      simp only [hcast] at hf
      cases hf.of_pure
      exact ⟨rfl, rfl⟩
    | some result =>
      simp only [hcast] at hf
      cases hf.of_pure
  | select =>
    obtain ⟨selector, -, hstages⟩ := bind_eq_ok hplan
    cases hstages
    refine relays_of_stage h hplan' (fun hemits => ⟨_, hplan', hemits⟩) id fun _ hf => ?_
    obtain ⟨y, -, hf⟩ := Eff.Answers.bind hf
    cases hf.of_pure
  | selectMany =>
    obtain ⟨selector, hselector, hstages⟩ := bind_eq_ok hplan
    cases hstages
    refine relays_of_stage h hplan' (fun hemits => ⟨_, hplan', hemits⟩) id fun {taken x _ _} htaken hf =>
      ⟨selector, function?_of_requireFunction hselector, taken, x, ?_⟩
    obtain ⟨inner, hinner, hf⟩ := Eff.Answers.bind hf
    cases helements : inner.elements? with
    | none =>
      simp only [helements] at hf
      cases hf.of_pure
      exact ⟨inner, rfl, ⟨_, hplan', htaken⟩, hinner, helements, rfl⟩
    | some elements =>
      simp only [helements] at hf
      obtain ⟨rows, -, hf⟩ := hf.bind
      cases hf.of_pure
  | joinWith =>
    obtain ⟨inner, -, hplan⟩ := bind_eq_ok hplan
    obtain ⟨outerKey, -, hplan⟩ := bind_eq_ok hplan
    obtain ⟨innerKey, -, hstages⟩ := bind_eq_ok hplan
    cases hstages
    refine relays_of_stage h hplan' (fun hemits => ⟨_, hplan', hemits⟩) id fun _ hf => ?_
    obtain ⟨key, -, hf⟩ := Eff.Answers.bind hf
    obtain ⟨rows, -, hf⟩ := hf.bind
    cases hf.of_pure
  | groupJoin =>
    obtain ⟨inner, -, hplan⟩ := bind_eq_ok hplan
    obtain ⟨outerKey, -, hplan⟩ := bind_eq_ok hplan
    obtain ⟨innerKey, -, hstages⟩ := bind_eq_ok hplan
    cases hstages
    refine relays_of_stage h hplan' (fun hemits => ⟨_, hplan', hemits⟩) id fun _ hf => ?_
    obtain ⟨key, -, hf⟩ := Eff.Answers.bind hf
    obtain ⟨found, -, hf⟩ := hf.bind
    obtain ⟨array, -, hf⟩ := hf.bind
    split at hf
    · obtain ⟨row, -, hf⟩ := hf.bind
      cases hf.of_pure
    · obtain ⟨row, -, hf⟩ := hf.bind
      cases hf.of_pure
  | take =>
    obtain ⟨count, hcount, hstages⟩ := bind_eq_ok hplan
    cases hstages
    refine relays_of_stage h hplan' (fun hemits => ⟨_, hplan', hemits⟩) (fun {xs _} hstops => ⟨count, hcount, ?_, hstops.2⟩) fun _ => id
    have hlength : xs.length = count.toNat := hstops.1
    omega
  | skip =>
    obtain ⟨count, -, hstages⟩ := bind_eq_ok hplan
    cases hstages
    exact relays_of_stage h hplan' (fun hemits => ⟨_, hplan', hemits⟩) id fun _ => id
  | takeWhile =>
    obtain ⟨predicate, hpredicate, hstages⟩ := bind_eq_ok hplan
    cases hstages
    exact relays_of_stage h hplan' (fun hemits => ⟨_, hplan', hemits⟩)
      (fun hstops => ⟨predicate, function?_of_requireFunction hpredicate, hstops⟩) fun _ => id
  | skipWhile =>
    obtain ⟨predicate, -, hstages⟩ := bind_eq_ok hplan
    cases hstages
    exact relays_of_stage h hplan' (fun hemits => ⟨_, hplan', hemits⟩) id fun _ => id
  | groupBy =>
    obtain ⟨key, -, hstages⟩ := bind_eq_ok hplan
    cases hstages
    exact relays_of_stage h hplan' id id fun _ => id
  | distinct =>
    cases hplan
    exact relays_of_stage h hplan' (fun hemits => ⟨_, hplan', hemits⟩) id fun _ => id
  | concatWith =>
    obtain ⟨others, -, hstages⟩ := bind_eq_ok hplan
    cases hstages
    exact relays_of_stage h hplan' id id fun _ => id
  | zip =>
    obtain ⟨others, hothers, hstages⟩ := bind_eq_ok hplan
    cases hstages
    exact relays_of_stage h hplan' (fun hemits => ⟨_, hplan', hemits⟩) (fun hstops => ⟨others, hothers, hstops⟩) fun _ => id
  | union =>
    obtain ⟨others, -, hstages⟩ := bind_eq_ok hplan
    cases hstages
    exact relays_of_unique h hplan' id id fun hzs => congrArg (Stage.firsts ∅) hzs
  | intersect =>
    obtain ⟨others, hothers, hstages⟩ := bind_eq_ok hplan
    cases hstages
    exact relays_of_unique h hplan' id id fun hzs =>
      ⟨others, hothers, congrArg (Stage.firsts ∅) (eq_filter_of_keeps hzs)⟩
  | except =>
    obtain ⟨others, -, hstages⟩ := bind_eq_ok hplan
    cases hstages
    exact relays_of_stage h hplan' (fun hemits => ⟨_, hplan', hemits⟩) id fun _ => id
  | defaultIfEmpty =>
    cases hplan
    cases hdefault : Part.literal? ⟨.defaultIfEmpty, arguments⟩ 0 with
    | none =>
      rw [hdefault] at h hplan'
      obtain ⟨rfl, rfl⟩ := h
      have hcompletes : Part.Completes ⟨.defaultIfEmpty, arguments⟩ ys ys := ⟨[], hplan', rfl⟩
      rcases ending' with _ | _ | e
      · exact .underway (.inl rfl) List.prefix_rfl
      · exact .completed hcompletes
      · exact .failed rfl
    | some fallback =>
      rw [hdefault] at h hplan'
      exact relays_of_stage h hplan' id id fun _ => id
  | reverse =>
    cases hplan
    exact relays_of_stage h hplan' id id fun _ => id
  | order place direction =>
    obtain ⟨key, -, hstages⟩ := bind_eq_ok hplan
    cases hstages
    exact relays_of_stage h hplan' id id fun _ => id
  | first | last | single | any | count | min | max | sum | average => cases hplan
  | elementAt | contains | sequenceEqual | all | aggregate =>
    obtain ⟨argument, -, hstages⟩ := bind_eq_ok hplan
    cases hstages

end Plan

/-! ### Applying parts -/

section Apply

variable (budget : Nat) {part : Part} {parts : List Part} {source : Sequence}

lemma exists_stages (h : part.HandsOn) : ∃ stages, part.plan = .ok (.lazily stages) := by
  obtain ⟨hoperator, plan, hplan⟩ := h
  obtain ⟨stages, rfl⟩ := exists_lazily_of_plan hoperator hplan
  exact ⟨stages, hplan⟩

lemma apply_of_stages {stages : List Stage} (hplan : part.plan = .ok (.lazily stages)) :
    apply budget (.sequence source) part = pure (.sequence (source.withStages stages)) := by
  rw [apply, source_sequence, hplan]
  rfl

/-- **What a part makes of a source.** -/
theorem exists_applied (source : Sequence) (hpart : part.HandsOn) :
    ∃ out, apply budget (.sequence source) part = pure (.sequence out) ∧ source.Relayed out [part.relay] := by
  obtain ⟨stages, hplan⟩ := exists_stages hpart
  exact ⟨source.withStages stages, apply_of_stages budget hplan, source.relayed_withStages stages (relays_of_plan hplan)⟩

/-- What parts that are applied one after another make of a source. -/
theorem exists_applied_all (source : Sequence) (hparts : ∀ part ∈ parts, part.HandsOn) :
    ∃ out, parts.foldlM (apply budget) (.sequence source) = pure (.sequence out) ∧
      source.Relayed out (parts.map Part.relay) := by
  induction parts generalizing source with
  | nil => exact ⟨source, rfl, source.relayed_refl⟩
  | cons part parts ih =>
    obtain ⟨hpart, hrest⟩ := List.forall_mem_cons.mp hparts
    obtain ⟨middle, happly, hmiddle⟩ := exists_applied budget source hpart
    obtain ⟨out, hfoldlM, hout⟩ := ih middle hrest
    exact ⟨out, by rw [List.foldlM_cons, happly, pure_bind, hfoldlM], hmiddle.trans hout⟩

end Apply

/-! ### Executing parts -/

section Execute

variable (budget : Nat) {first : Part} {refining parts : List Part} {source : Sequence}

/-- The keys of ordering parts whose arguments are what their operators want. -/
lemma exists_readKeys_of_handsOn (hordering : ∀ part ∈ parts, part.isOrdering)
    (hparts : ∀ part ∈ parts, part.HandsOn) : ∃ keys, readKeys parts = .ok keys := by
  induction parts with
  | nil => exact ⟨[], rfl⟩
  | cons part parts ih =>
    obtain ⟨rest, hrest⟩ := ih (fun part hpart => hordering part (List.mem_cons_of_mem _ hpart))
      fun part hpart => hparts part (List.mem_cons_of_mem _ hpart)
    obtain ⟨-, plan, hplan⟩ := hparts part List.mem_cons_self
    have hpart := hordering part List.mem_cons_self
    obtain ⟨operator, arguments⟩ := part
    cases operator <;> try cases hpart
    obtain ⟨key, hkey, -⟩ := bind_eq_ok hplan
    exact ⟨key :: rest, readKeys_cons_eq_ok.mpr ⟨key, rest, hkey, hrest, rfl⟩⟩

/-- A run of ordering parts relays as its one stage does. -/
lemma relays_of_sorted {keys : List SortKey} {xs ys : List Item} {ending ending' : Option Ending}
    (hkeys : readKeys (first :: refining) = .ok keys)
    (h : RelayedBy [(Stage.gather (sortByKeys keys) []).relay] xs ending ys ending') :
    (Segment.ordering first refining).relay.Relays xs ending ys ending' := by
  have hcompletes {xs ys : List Item} (hcompletes : (Stage.gather (sortByKeys keys) []).Completes xs ys) :
      (Segment.ordering first refining).relay.Completes xs ys := by
    obtain ⟨_, ws, rfl, hleaves, rfl⟩ := hcompletes
    exact ⟨keys, hkeys, hleaves⟩
  cases relayedBy_singleton.mp h with
  | underway items part => exact .underway items part
  | failed items => exact .failed items
  | stopped items => exact items.elim
  | refused items =>
    obtain ⟨_, _, _, _, hfalse⟩ := items
    exact hfalse.elim
  | closing items part => exact .closing (hcompletes items) part
  | completed items => exact .completed (hcompletes items)

/-- **What the pieces of a query make of a source.** -/
theorem exists_interpreted {pieces : List Segment} (source : Sequence)
    (hparts : ∀ part ∈ pieces.flatMap Segment.parts, part.HandsOn)
    (hruns : ∀ first refining, .ordering first refining ∈ pieces → ∀ part ∈ first :: refining, part.isOrdering) :
    ∃ out, interpret budget pieces (.sequence source) = pure (.sequence out) ∧
      source.Relayed out (pieces.map Segment.relay) := by
  induction pieces generalizing source with
  | nil => exact ⟨source, rfl, source.relayed_refl⟩
  | cons piece pieces ih =>
    rw [List.flatMap_cons] at hparts
    have hown : ∀ part ∈ piece.parts, part.HandsOn := fun part hpart => hparts part (List.mem_append_left _ hpart)
    have hpiece : ∃ middle, piece.interpret budget (.sequence source) = pure (.sequence middle) ∧
        source.Relayed middle [piece.relay] := by
      cases piece with
      | single part => exact exists_applied budget source (hown part List.mem_cons_self)
      | ordering first refining =>
        obtain ⟨keys, hkeys⟩ := exists_readKeys_of_handsOn (hruns first refining List.mem_cons_self) hown
        exact ⟨source.sorted keys, by rw [Segment.interpret, hkeys]; rfl,
          source.relayed_withStages [.gather (sortByKeys keys) []] (relays_of_sorted hkeys)⟩
    obtain ⟨middle, hinterpret, hmiddle⟩ := hpiece
    obtain ⟨out, hrest, hout⟩ := ih middle (fun part hpart => hparts part (List.mem_append_right _ hpart))
      fun first refining hmem => hruns first refining (List.mem_cons_of_mem _ hmem)
    exact ⟨out, by rw [interpret, hinterpret, pure_bind, hrest], hmiddle.trans hout⟩

end Execute

/-! ### The error of a source -/

/-- **An error of the source comes through.**  Out of any source

* a part that hands on a sequence makes one that relays as the part does;
* parts that are applied one after another make one that relays as the parts do in a row;
* and when an engine executes parts, they make one that relays as the pieces of the query do in a row.

In a row of relays, an error that the source has brought is the ending, and the items are what the relays emit, one after
another, of those that the source has brought before it.  Where the source has not been asked for its ending, a relay is still
under way, or it has stopped or failed first, with the items that belong to those that it has taken (`Relay.Relays`). -/
theorem upstream_failure_comes_through :
    (∀ (source : Sequence) (budget : Nat) (part : Part), part.HandsOn →
      ∃ out, apply budget (.sequence source) part = pure (.sequence out) ∧ source.Relayed out [part.relay]) ∧
    (∀ (source : Sequence) (budget : Nat) (parts : List Part), (∀ part ∈ parts, part.HandsOn) →
      ∃ out, parts.foldlM (apply budget) (.sequence source) = pure (.sequence out) ∧
        source.Relayed out (parts.map Part.relay)) ∧
    (∀ (source : Sequence) (engine : Engine) (parts : List Part), (∀ part ∈ parts, part.HandsOn) →
      ∃ out, (engine.executeSequence source parts).unlogged = pure (.sequence out) ∧
        source.Relayed out ((segments parts).map Segment.relay)) ∧
    ∀ (relays : List Relay) (xs ys : List Item) (e : QueryError) (ending' : Option Ending),
      RelayedBy relays xs (some (.failed e)) ys ending' ↔ ending' = some (.failed e) ∧ EmittedBy relays xs ys := by
  refine ⟨fun source budget part => exists_applied budget source, fun source budget parts => exists_applied_all budget source,
    fun source engine parts hparts => ?_, fun relays xs ys e ending' => relayedBy_failed_iff⟩
  rw [Engine.executeSequence_segments]
  exact exists_interpreted engine.budget source (by rwa [flatMap_parts_segments])
    fun first refining hmem => isOrdering_of_mem_segments hmem

/-- A source of the items from the position `k` on that fails behind them. -/
def failing (xs : List Item) (e : QueryError) (k : Nat) : Sequence :=
  .producer (fun k => return (match xs[k]? with
    | some x => .item x
    | none => .failure e, k + 1)) k

section Failing

variable {xs : List Item} {x : Item} {e : QueryError} {k : Nat} {σ : Session}

lemma failing_pulls_item (h : xs[k]? = some x) : Pulls σ (failing xs e k) (.item x) (failing xs e (k + 1)) σ := by
  refine .reply ?_
  rw [failing, advance]
  refine (Eff.bind_run rfl).trans ?_
  rw [h]
  rfl

lemma failing_pulls_failure (h : xs[k]? = none) : Pulls σ (failing xs e k) (.failure e) .exhausted σ := by
  refine .reply ?_
  rw [failing, advance]
  refine (Eff.bind_run rfl).trans ?_
  rw [h]
  rfl

end Failing

lemma failing_delivers (xs : List Item) (e : QueryError) (k : Nat) :
    (failing xs e k).Delivers fun ys ending => ys = xs.drop k ∧ ending = .failed e := by
  -- on the items that are left
  generalize hleft : xs.drop k = left
  induction left generalizing k with
  | nil =>
    have hnone : xs[k]? = none := List.getElem?_eq_none (List.drop_eq_nil_iff.mp hleft)
    exact .of_pull fun σ => ⟨.failure e, .exhausted, σ, failing_pulls_failure hnone, rfl, rfl⟩
  | cons x left ih =>
    have hsome : xs[k]? = some x := by rw [← List.head?_drop, hleft, List.head?_cons]
    have hrest : xs.drop (k + 1) = left := by rw [← List.tail_drop, hleft, List.tail_cons]
    refine .of_pull fun σ => ⟨.item x, failing xs e (k + 1), σ, failing_pulls_item hsome, (ih (k + 1) hrest).mono ?_⟩
    rintro ys ending ⟨rfl, hending⟩
    exact ⟨rfl, hending⟩

/-- Reversed, a failing source hands out nothing but its error; and a pipeline on it, also when it is executed. -/
theorem upstream_failure_comes_through_reverse :
    (∃ out, apply 0 (.sequence (failing [.null] (.negativeCount (-1)) 0)) ⟨.reverse, []⟩ = pure (.sequence out) ∧
      ∀ σ, ∃ τ, Drains σ out [] (.failed (.negativeCount (-1))) τ) ∧
    (∃ out, [⟨.distinct, []⟩, ⟨.reverse, []⟩].foldlM (apply 0) (.sequence (failing [.null] (.negativeCount (-1)) 0)) =
        pure (.sequence out) ∧
      (failing [.null] (.negativeCount (-1)) 0).Relayed out [Part.relay ⟨.distinct, []⟩, Part.relay ⟨.reverse, []⟩]) ∧
    (∃ out, (Engine.executeSequence ⟨{}, "q", 0⟩ (failing [.null] (.negativeCount (-1)) 0)
        [⟨.distinct, []⟩, ⟨.reverse, []⟩]).unlogged = pure (.sequence out) ∧
      (failing [.null] (.negativeCount (-1)) 0).Relayed out
        ((segments [⟨.distinct, []⟩, ⟨.reverse, []⟩]).map Segment.relay)) ∧
    ∀ ys ending', RelayedBy [Part.relay ⟨.distinct, []⟩, Part.relay ⟨.reverse, []⟩] [.null]
      (some (.failed (.negativeCount (-1)))) ys ending' → ending' = some (.failed (.negativeCount (-1))) ∧ ys = [] := by
  obtain ⟨happly, hfoldlM, hexecute, hfailed⟩ := upstream_failure_comes_through
  have hreverse : (⟨.reverse, []⟩ : Part).HandsOn := ⟨rfl, _, rfl⟩
  have hparts : ∀ part ∈ [(⟨.distinct, []⟩ : Part), ⟨.reverse, []⟩], part.HandsOn := by
    intro part hpart
    rcases List.mem_cons.mp hpart with rfl | hpart
    · exact ⟨rfl, _, rfl⟩
    · cases List.mem_singleton.mp hpart
      exact hreverse
  refine ⟨?_, hfoldlM _ 0 _ hparts, hexecute _ ⟨{}, "q", 0⟩ _ hparts, fun ys ending' hrelayed => ?_⟩
  · obtain ⟨out, hout, hrelayed⟩ := happly (failing [.null] (.negativeCount (-1)) 0) 0 ⟨.reverse, []⟩ hreverse
    refine ⟨out, hout, fun σ => ?_⟩
    obtain ⟨ys, ending, τ, hdrains, asked, -, ⟨_, _, ⟨rfl, rfl⟩, -, hbrought⟩, hrelays⟩ :=
      hrelayed.drains _ (failing_delivers [.null] (.negativeCount (-1)) 0) σ
    cases hasked : endingOf asked with
    | none =>
      rw [hasked] at hrelays
      cases relayedBy_singleton.mp hrelays with
      | stopped items | refused items => cases items
    | some ending' =>
      obtain ⟨-, rfl⟩ := hbrought ending' hasked
      rw [hasked] at hrelays
      obtain ⟨hending, zs, hzs, rfl⟩ := (hfailed _ _ _ _ _).mp hrelays
      cases hending
      cases hzs
      exact ⟨τ, hdrains⟩
  · obtain ⟨hending, zs, -, ws, hws, rfl⟩ := (hfailed _ _ _ _ _).mp hrelayed
    exact ⟨hending, hws⟩

end LazyQuery
