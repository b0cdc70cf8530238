import LazyQuery.Proofs.Sequence.Asking

/-!
# Stages and the ending of their source

What a stage hands out of the items that it takes from its source, and how it ends.  For each stage this is said without
looking at how it works:

* `Stage.Emits` — what it hands out of the items, if it goes on after them;
* `Stage.Stops` — the items with which it ends by itself, and what it has handed out then;
* `Stage.Fails` — the items on the last of which it fails with an error of its own, and what it has handed out then;
* `Stage.Completes` — what it hands out if its source ends after the items.

`Sequence.Asks.relays` shows that there is nothing else (`Relay.Relays`), whatever the items are that the stage finds when it
asks: an error of the source comes out as it went in, after what the stage emits, and if the stage has stopped or failed
first, then the source was not asked for its error.
-/

namespace LazyQuery

/-- Adds the items one after the other to the groups. -/
def addAll {ι : Type} (key item : ι → Item) (groups : List Group) (elements : List ι) : List Group :=
  elements.foldl (fun groups i => Group.add (key i) (item i) groups) groups

namespace Stage

/-! ### What a stage makes of an item -/

/-- The outcomes of receiving an item, by what the functions in the stage answer. -/
inductive Takes (x : Item) : Stage → Outcome → Prop
  | accepted {accepts} : (accepts x).Answers true → Takes x (.filter accepts) (.yield x (.filter accepts))
  | rejected {accepts} : (accepts x).Answers false → Takes x (.filter accepts) (.drop (.filter accepts))
  | mapped {f y} : (f x).Answers (.ok y) → Takes x (.map f) (.yield y (.map f))
  | unmapped {f e} : (f x).Answers (.error e) → Takes x (.map f) (.fail e)
  | expanded {f ready row} : (f x).Answers (.ok row) → Takes x (.expand f ready) (.drop (.expand f (ready ++ row)))
  | unexpanded {f ready e} : (f x).Answers (.error e) → Takes x (.expand f ready) (.fail e)
  | taken {left} : Takes x (.take left) (.yield x (.take (left - 1)))
  | unskipped : Takes x (.skip 0) (.yield x (.skip 0))
  | skipped {left} : Takes x (.skip (left + 1)) (.drop (.skip left))
  | going {accepts} : (accepts x).Answers true → Takes x (.takeWhile accepts) (.yield x (.takeWhile accepts))
  | ending {accepts} : (accepts x).Answers false → Takes x (.takeWhile accepts) .stop
  | started {accepts} : Takes x (.skipWhile accepts true) (.yield x (.skipWhile accepts true))
  | waiting {accepts} : (accepts x).Answers true → Takes x (.skipWhile accepts false) (.drop (.skipWhile accepts false))
  | starting {accepts} : (accepts x).Answers false →
      Takes x (.skipWhile accepts false) (.yield x (.skipWhile accepts true))
  | unlike {equality kept} : (anyEquals equality x kept).Answers false →
      Takes x (.distinct equality kept) (.yield x (.distinct equality (kept ++ [x])))
  | alike {equality kept} : (anyEquals equality x kept).Answers true →
      Takes x (.distinct equality kept) (.drop (.distinct equality kept))
  | unseen {seen} : (seen.add x).1 = true → Takes x (.unique seen) (.yield x (.unique (seen.add x).2))
  | seen {seen} : (seen.add x).1 = false → Takes x (.unique seen) (.drop (.unique (seen.add x).2))
  | appended {tail} : Takes x (.append tail) (.yield x (.append tail))
  | unpaired {combine} : Takes x (.zip combine []) .stop
  | paired {combine other others y} : (combine x other).Answers y →
      Takes x (.zip combine (other :: others)) (.yield y (.zip combine others))
  | preferred {fallback yielded} : Takes x (.orElse fallback yielded) (.yield x (.orElse fallback true))
  | gathered {arrange held} : Takes x (.gather arrange held) (.drop (.gather arrange (x :: held)))
  | grouped {key emit groups value} : (key x).Answers value →
      Takes x (.group key emit groups) (.drop (.group key emit (Group.add value x groups)))

/-- **There are no other outcomes.** -/
theorem takes_of_receive {stage : Stage} {x : Item} {outcome : Outcome} (h : (stage.receive x).Answers outcome) :
    Takes x stage outcome := by
  cases stage with
  | filter accepts =>
    obtain ⟨verdict, hverdict, h⟩ := h.bind
    cases verdict <;> cases h.of_pure
    · exact .rejected hverdict
    · exact .accepted hverdict
  | map f =>
    obtain ⟨result, hresult, h⟩ := h.bind
    cases result <;> cases h.of_pure
    · exact .unmapped hresult
    · exact .mapped hresult
  | expand f ready =>
    obtain ⟨result, hresult, h⟩ := h.bind
    cases result <;> cases h.of_pure
    · exact .unexpanded hresult
    · exact .expanded hresult
  | take left =>
    cases h.of_pure
    exact .taken
  | skip left =>
    cases left <;> cases h.of_pure
    · exact .unskipped
    · exact .skipped
  | takeWhile accepts =>
    obtain ⟨verdict, hverdict, h⟩ := h.bind
    cases verdict <;> cases h.of_pure
    · exact .ending hverdict
    · exact .going hverdict
  | skipWhile accepts started =>
    cases started with
    | true =>
      cases h.of_pure
      exact .started
    | false =>
      obtain ⟨verdict, hverdict, h⟩ := h.bind
      cases verdict <;> cases h.of_pure
      · exact .starting hverdict
      · exact .waiting hverdict
  | distinct equality kept =>
    obtain ⟨verdict, hverdict, h⟩ := h.bind
    cases verdict <;> cases h.of_pure
    · exact .unlike hverdict
    · exact .alike hverdict
  | unique seen =>
    cases hadd : (seen.add x).1 <;> simp only [receive, hadd] at h <;> cases h.of_pure
    · exact .seen hadd
    · exact .unseen hadd
  | append tail =>
    cases h.of_pure
    exact .appended
  | zip combine others =>
    rcases others with _ | ⟨other, others⟩
    · cases h.of_pure
      exact .unpaired
    · obtain ⟨row, hrow, h⟩ := h.bind
      cases h.of_pure
      exact .paired hrow
  | orElse fallback yielded =>
    cases h.of_pure
    exact .preferred
  | gather arrange held =>
    cases h.of_pure
    exact .gathered
  | group key emit groups =>
    obtain ⟨value, hvalue, h⟩ := h.bind
    cases h.of_pure
    exact .grouped hvalue

/-! ### What stages emit -/

/-- The items that are accepted. -/
inductive Keeps (accepts : Item → Eff Bool) : List Item → List Item → Prop
  | nil : Keeps accepts [] []
  | keep {x xs ys} : (accepts x).Answers true → Keeps accepts xs ys → Keeps accepts (x :: xs) (x :: ys)
  | leave {x xs ys} : (accepts x).Answers false → Keeps accepts xs ys → Keeps accepts (x :: xs) ys

/-- The items from the first that is not accepted on. -/
inductive Skips (accepts : Item → Eff Bool) : List Item → List Item → Prop
  | nil : Skips accepts [] []
  | skip {x xs ys} : (accepts x).Answers true → Skips accepts xs ys → Skips accepts (x :: xs) ys
  | start {x xs} : (accepts x).Answers false → Skips accepts (x :: xs) (x :: xs)

/-- The items that equal none that was kept before; `kept` are those kept so far. -/
inductive TellsApart (equality : Equality) : List Item → List Item → List Item → Prop
  | nil {kept} : TellsApart equality kept [] []
  | fresh {kept x xs ys} : (anyEquals equality x kept).Answers false → TellsApart equality (kept ++ [x]) xs ys →
      TellsApart equality kept (x :: xs) (x :: ys)
  | known {kept x xs ys} : (anyEquals equality x kept).Answers true → TellsApart equality kept xs ys →
      TellsApart equality kept (x :: xs) ys

/-- The items of which no identical one has been seen. -/
def firsts (seen : IdentitySet) : List Item → List Item
  | [] => []
  | x :: xs => if (seen.add x).1 then x :: firsts (seen.add x).2 xs else firsts (seen.add x).2 xs

/-- **What a stage hands out while it consumes the items `xs`**, if it goes on after them. -/
def Emits : Stage → List Item → List Item → Prop
  | .filter accepts, xs, ys => Keeps (accepts ·) xs ys
  | .map f, xs, ys => List.Forall₂ (fun x y => (f x).Answers (.ok y)) xs ys
  | .expand f ready, xs, ys =>
    ∃ rows, List.Forall₂ (fun x row => (f x).Answers (.ok row)) xs rows ∧ ys = ready ++ rows.flatten
  | .take left, xs, ys => xs.length < left ∧ ys = xs
  | .skip left, xs, ys => ys = xs.drop left
  | .takeWhile accepts, xs, ys => (∀ x ∈ xs, (accepts x).Answers true) ∧ ys = xs
  | .skipWhile accepts false, xs, ys => Skips accepts xs ys
  | .skipWhile _ true, xs, ys => ys = xs
  | .distinct equality kept, xs, ys => TellsApart equality kept xs ys
  | .unique seen, xs, ys => ys = firsts seen xs
  | .append _, xs, ys => ys = xs
  | .zip combine others, xs, ys =>
    xs.length < others.length ∧ List.Forall₂ (fun pair y => (combine pair.1 pair.2).Answers y) (xs.zip others) ys
  | .orElse _ _, xs, ys => ys = xs
  | .gather _ _, _, ys => ys = []
  | .group _ _ _, _, ys => ys = []

/-- The stage has what it needs with the items `xs`, and not before; it has handed out `ys` then. -/
def Stops : Stage → List Item → List Item → Prop
  | .take left, xs, ys => xs.length = left ∧ ys = xs
  | .takeWhile accepts, xs, ys =>
    (∀ y ∈ ys, (accepts y).Answers true) ∧ ∃ x, xs = ys ++ [x] ∧ (accepts x).Answers false
  | .zip combine others, xs, ys =>
    xs.length = others.length ∧ List.Forall₂ (fun pair y => (combine pair.1 pair.2).Answers y) (xs.zip others) ys
  | _, _, _ => False

/-- The stage makes an error of its own of the item. -/
def Refuses : Stage → Item → QueryError → Prop
  | .map f, x, e => (f x).Answers (.error e)
  | .expand f _, x, e => (f x).Answers (.error e)
  | _, _, _ => False

/-- The stage fails on the last of the items `xs`, after it has handed out `ys`. -/
def Fails (stage : Stage) (xs ys : List Item) (e : QueryError) : Prop :=
  ∃ taken x, xs = taken ++ [x] ∧ stage.Emits taken ys ∧ stage.Refuses x e

/-- What the stage hands out besides if its source has ended after the items `xs`. -/
def Leaves : Stage → List Item → List Item → Prop
  | .append tail, _, zs => zs = tail
  | .orElse fallback yielded, xs, zs => zs = if yielded || !xs.isEmpty then [] else [fallback]
  | .gather arrange held, xs, zs => (arrange (held.reverse ++ xs)).Answers zs
  | .group key emit groups, xs, zs =>
    ∃ fed : List (Item × Item), fed.map Prod.fst = xs ∧ (∀ pair ∈ fed, (key pair.1).Answers pair.2) ∧
      List.Forall₂ (fun group z => (emit group).Answers z) (addAll Prod.snd Prod.fst groups fed) zs
  | _, _, zs => zs = []

/-- **What a stage hands out of the items `xs`**, if these are all that its source has. -/
def Completes (stage : Stage) (xs ys : List Item) : Prop :=
  ∃ zs ws, stage.Emits xs zs ∧ stage.Leaves xs ws ∧ ys = zs ++ ws

/-- What stages on one another hand out, the first of them nearest to the source, if this has the items `xs` and no more. -/
def CompletedBy : List Stage → List Item → List Item → Prop
  | [], xs, ys => ys = xs
  | stage :: stages, xs, ys => ∃ zs, stage.Completes xs zs ∧ CompletedBy stages zs ys

/-! ### Step by step -/

section Steps

variable {stage next : Stage} {x y : Item} {xs ys : List Item} {e : QueryError}

lemma Emits.ready (h : stage.demand = .emit y next) (rest : next.Emits xs ys) : stage.Emits xs (y :: ys) := by
  unfold demand at h
  split at h
  · cases h
    obtain ⟨rows, hrows, rfl⟩ := rest
    exact ⟨rows, hrows, rfl⟩
  all_goals cases h

lemma Emits.nil (h : stage.demand = .ask) : stage.Emits [] [] := by
  cases stage with
  | filter => exact .nil
  | map => exact .nil
  | expand f ready =>
    rcases ready with _ | ⟨x, ready⟩
    · exact ⟨[], .nil, rfl⟩
    · cases h
  | take left =>
    rcases left with _ | left
    · cases h
    · exact ⟨Nat.succ_pos left, rfl⟩
  | skip left => exact List.drop_nil.symm
  | takeWhile => exact ⟨by simp, rfl⟩
  | skipWhile _ started =>
    cases started
    · exact .nil
    · rfl
  | distinct => exact .nil
  | zip combine others =>
    rcases others with _ | ⟨other, others⟩
    · cases h
    · exact ⟨Nat.succ_pos _, .nil⟩
  | unique | append | orElse | gather | group => rfl

lemma Emits.yield (h : Takes x stage (.yield y next)) (rest : next.Emits xs ys) : stage.Emits (x :: xs) (y :: ys) := by
  cases h with
  | accepted haccepts => exact .keep haccepts rest
  | mapped hf => exact .cons hf rest
  | taken =>
    obtain ⟨hlength, rfl⟩ := rest
    exact ⟨by rw [List.length_cons]; omega, rfl⟩
  | unskipped => exact congrArg (x :: ·) rest
  | going haccepts =>
    obtain ⟨hall, rfl⟩ := rest
    exact ⟨List.forall_mem_cons.mpr ⟨haccepts, hall⟩, rfl⟩
  | starting haccepts =>
    cases (rest : ys = xs)
    exact .start haccepts
  | unlike hequals => exact .fresh hequals rest
  | unseen hadd =>
    rw [Emits, firsts, hadd]
    exact congrArg (x :: ·) rest
  | paired hcombine => exact ⟨Nat.succ_lt_succ rest.1, .cons hcombine rest.2⟩
  | started | appended | preferred => exact congrArg (x :: ·) rest

lemma Emits.drop (h : Takes x stage (.drop next)) (rest : next.Emits xs ys) : stage.Emits (x :: xs) ys := by
  cases h with
  | rejected haccepts => exact .leave haccepts rest
  | expanded hf =>
    obtain ⟨rows, hrows, rfl⟩ := rest
    exact ⟨_ :: rows, .cons hf hrows, by rw [List.flatten_cons, List.append_assoc]⟩
  | skipped => exact rest
  | waiting haccepts => exact .skip haccepts rest
  | alike hequals => exact .known hequals rest
  | seen hadd =>
    rw [Emits, firsts, hadd]
    exact rest
  | gathered | grouped => exact rest

lemma Stops.full (h : stage.demand = .stop) : stage.Stops [] [] := by
  unfold demand at h
  split at h
  · cases h
  · exact ⟨rfl, rfl⟩
  · exact ⟨rfl, .nil⟩
  · cases h

lemma Stops.stop (hdemand : stage.demand = .ask) (h : Takes x stage .stop) : stage.Stops [x] [] := by
  cases h with
  | ending haccepts => exact ⟨by simp, x, rfl, haccepts⟩
  | unpaired => cases hdemand

lemma Stops.ready (h : stage.demand = .emit y next) (rest : next.Stops xs ys) : stage.Stops xs (y :: ys) := by
  unfold demand at h
  split at h <;> cases h
  exact rest

lemma Stops.yield (hdemand : stage.demand = .ask) (h : Takes x stage (.yield y next)) (rest : next.Stops xs ys) :
    stage.Stops (x :: xs) (y :: ys) := by
  cases h with
  | @taken left =>
    obtain ⟨hlength, rfl⟩ := rest
    cases left with
    | zero => cases hdemand
    | succ left => exact ⟨congrArg (· + 1) hlength, rfl⟩
  | going haccepts =>
    obtain ⟨hall, x', rfl, hrejects⟩ := rest
    exact ⟨List.forall_mem_cons.mpr ⟨haccepts, hall⟩, x', rfl, hrejects⟩
  | paired hcombine => exact ⟨congrArg (· + 1) rest.1, .cons hcombine rest.2⟩
  | _ => exact rest

lemma Stops.drop (h : Takes x stage (.drop next)) (rest : next.Stops xs ys) : stage.Stops (x :: xs) ys := by
  cases h <;> exact rest

lemma Fails.fail (hdemand : stage.demand = .ask) (h : Takes x stage (.fail e)) : stage.Fails [x] [] e := by
  refine ⟨[], x, rfl, .nil hdemand, ?_⟩
  cases h with
  | unmapped hf | unexpanded hf => exact hf

lemma Fails.ready (h : stage.demand = .emit y next) (rest : next.Fails xs ys e) : stage.Fails xs (y :: ys) e := by
  obtain ⟨taken, x, rfl, hemits, hrefuses⟩ := rest
  refine ⟨taken, x, rfl, hemits.ready h, ?_⟩
  unfold demand at h
  split at h <;> cases h
  exact hrefuses

lemma Fails.yield (h : Takes x stage (.yield y next)) (rest : next.Fails xs ys e) : stage.Fails (x :: xs) (y :: ys) e := by
  obtain ⟨taken, x', rfl, hemits, hrefuses⟩ := rest
  refine ⟨x :: taken, x', rfl, hemits.yield h, ?_⟩
  cases h <;> exact hrefuses

lemma Fails.drop (h : Takes x stage (.drop next)) (rest : next.Fails xs ys e) : stage.Fails (x :: xs) ys e := by
  obtain ⟨taken, x', rfl, hemits, hrefuses⟩ := rest
  refine ⟨x :: taken, x', rfl, hemits.drop h, ?_⟩
  cases h <;> exact hrefuses

lemma answers_map_pure (h : List.Forall₂ Eff.Answers (xs.map pure) ys) : ys = xs := by
  induction xs generalizing ys with
  | nil =>
    cases h
    rfl
  | cons x xs ih =>
    obtain ⟨y, ys, hy, hys, rfl⟩ := List.forall₂_cons_left_iff.mp h
    rw [hy.of_pure, ih hys]

lemma Leaves.close {cells : List (Eff Item)} (h : stage.close.Answers cells) (hys : List.Forall₂ Eff.Answers cells ys) :
    stage.Leaves [] ys := by
  cases stage with
  | append tail =>
    cases h.of_pure
    exact answers_map_pure hys
  | orElse fallback yielded =>
    cases h.of_pure
    cases yielded with
    | true =>
      cases hys
      rfl
    | false => exact answers_map_pure hys
  | gather arrange held =>
    obtain ⟨arranged, harranged, hpure⟩ := h.bind
    cases hpure.of_pure
    rw [Leaves, List.append_nil, answers_map_pure hys]
    exact harranged
  | group key emit groups =>
    cases h.of_pure
    exact ⟨[], rfl, by simp, List.forall₂_map_left_iff.mp hys⟩
  | _ =>
    cases h.of_pure
    cases hys
    rfl

lemma Leaves.ready (h : stage.demand = .emit y next) (rest : next.Leaves xs ys) : stage.Leaves xs ys := by
  unfold demand at h
  split at h <;> cases h
  exact rest

lemma Leaves.yield (h : Takes x stage (.yield y next)) (rest : next.Leaves xs ys) : stage.Leaves (x :: xs) ys := by
  cases h with
  | preferred =>
    rw [Leaves, List.isEmpty_cons, Bool.not_false, Bool.or_true]
    exact rest
  | _ => exact rest

lemma Leaves.drop (h : Takes x stage (.drop next)) (rest : next.Leaves xs ys) : stage.Leaves (x :: xs) ys := by
  cases h with
  | gathered =>
    rw [Leaves, List.reverse_cons, List.append_assoc] at rest
    exact rest
  | grouped hkey =>
    obtain ⟨fed, rfl, hfed, hrows⟩ := rest
    exact ⟨(x, _) :: fed, rfl, List.forall_mem_cons.mpr ⟨hkey, hfed⟩, hrows⟩
  | _ => exact rest

lemma Completes.ready (h : stage.demand = .emit y next) (rest : next.Completes xs ys) : stage.Completes xs (y :: ys) := by
  obtain ⟨zs, ws, hemits, hleaves, rfl⟩ := rest
  exact ⟨y :: zs, ws, hemits.ready h, hleaves.ready h, rfl⟩

lemma Completes.yield (h : Takes x stage (.yield y next)) (rest : next.Completes xs ys) :
    stage.Completes (x :: xs) (y :: ys) := by
  obtain ⟨zs, ws, hemits, hleaves, rfl⟩ := rest
  exact ⟨y :: zs, ws, hemits.yield h, hleaves.yield h, rfl⟩

lemma Completes.drop (h : Takes x stage (.drop next)) (rest : next.Completes xs ys) : stage.Completes (x :: xs) ys := by
  obtain ⟨zs, ws, hemits, hleaves, rfl⟩ := rest
  exact ⟨zs, ws, hemits.drop h, hleaves.drop h, rfl⟩

/-- Before it has asked for anything, a stage hands out what it holds. -/
lemma exists_emits_nil (stage : Stage) : ∃ ys, stage.Emits [] ys ∨ stage.Stops [] ys := by
  cases hdemand : stage.demand with
  | ask => exact ⟨[], .inl (.nil hdemand)⟩
  | stop => exact ⟨[], .inr (.full hdemand)⟩
  | emit y next =>
    unfold demand at hdemand
    split at hdemand
    · exact ⟨_, .inl ⟨[], .nil, rfl⟩⟩
    all_goals cases hdemand

end Steps

end Stage

/-! ### Relaying -/

/-- What comes of the items that are taken from a source. -/
structure Relay where
  /-- What is handed out of the items, if they are taken and more are asked for. -/
  Emits : List Item → List Item → Prop
  /-- The items that are enough, and what is handed out of them. -/
  Stops : List Item → List Item → Prop
  /-- The items the last of which is refused, what is handed out of those before, and the error. -/
  Fails : List Item → List Item → QueryError → Prop
  /-- What is handed out of the items, if they are all. -/
  Completes : List Item → List Item → Prop

/-- How the ending of a source comes out, if it has been asked for, and with which items.  Without an ending these are some
of the items, from the first on. -/
inductive Relay.Relays (relay : Relay) : List Item → Option Ending → List Item → Option Ending → Prop
  | underway {xs ys zs} (items : relay.Emits xs zs ∨ relay.Stops xs zs) (part : ys <+: zs) : Relays relay xs none ys none
  /-- The error of the source is the ending. -/
  | failed {xs ys e} (items : relay.Emits xs ys) : Relays relay xs (some (.failed e)) ys (some (.failed e))
  | stopped {xs ys} (items : relay.Stops xs ys) : Relays relay xs none ys (some .finished)
  | refused {xs ys e} (items : relay.Fails xs ys e) : Relays relay xs none ys (some (.failed e))
  | closing {xs ys zs} (items : relay.Completes xs zs) (part : ys <+: zs) : Relays relay xs (some .finished) ys none
  | completed {xs ys} (items : relay.Completes xs ys) : Relays relay xs (some .finished) ys (some .finished)

def Stage.relay (stage : Stage) : Relay :=
  ⟨stage.Emits, stage.Stops, stage.Fails, stage.Completes⟩

namespace Stage

section Relays

variable {stage next : Stage} {x y : Item} {xs ys : List Item} {ending ending' : Option Ending}

lemma relays_ready (h : stage.demand = .emit y next) (rest : next.relay.Relays xs ending ys ending') :
    stage.relay.Relays xs ending (y :: ys) ending' := by
  cases rest with
  | underway items part =>
    refine .underway (items.imp (fun hemits => ?_) fun hstops => ?_) ((List.prefix_cons_inj y).mpr part)
    · exact Emits.ready h hemits
    · exact Stops.ready h hstops
  | failed items => exact .failed (Emits.ready h items)
  | stopped items => exact .stopped (Stops.ready h items)
  | refused items => exact .refused (Fails.ready h items)
  | closing items part => exact .closing (Completes.ready h items) ((List.prefix_cons_inj y).mpr part)
  | completed items => exact .completed (Completes.ready h items)

lemma relays_yield (hdemand : stage.demand = .ask) (h : Takes x stage (.yield y next))
    (rest : next.relay.Relays xs ending ys ending') : stage.relay.Relays (x :: xs) ending (y :: ys) ending' := by
  cases rest with
  | underway items part =>
    refine .underway (items.imp (fun hemits => ?_) fun hstops => ?_) ((List.prefix_cons_inj y).mpr part)
    · exact Emits.yield h hemits
    · exact Stops.yield hdemand h hstops
  | failed items => exact .failed (Emits.yield h items)
  | stopped items => exact .stopped (Stops.yield hdemand h items)
  | refused items => exact .refused (Fails.yield h items)
  | closing items part => exact .closing (Completes.yield h items) ((List.prefix_cons_inj y).mpr part)
  | completed items => exact .completed (Completes.yield h items)

lemma relays_drop (h : Takes x stage (.drop next)) (rest : next.relay.Relays xs ending ys ending') :
    stage.relay.Relays (x :: xs) ending ys ending' := by
  cases rest with
  | underway items part =>
    refine .underway (items.imp (fun hemits => ?_) fun hstops => ?_) part
    · exact Emits.drop h hemits
    · exact Stops.drop h hstops
  | failed items => exact .failed (Emits.drop h items)
  | stopped items => exact .stopped (Stops.drop h items)
  | refused items => exact .refused (Fails.drop h items)
  | closing items part => exact .closing (Completes.drop h items) part
  | completed items => exact .completed (Completes.drop h items)

end Relays

end Stage

namespace Sequence

section Asks

variable {stage : Stage} {s : Sequence} {asked history : List (Session × Reply × Session)}

/-- **A stage relays what it asks for**: in each history its items and its ending are those that belong to the items and to
the ending that it has got from its source. -/
theorem Asks.relays (h : Asks stage s asked history) :
    stage.relay.Relays (itemsOf asked) (endingOf asked) (itemsOf history) (endingOf history) := by
  induction h with
  | @start stage _ =>
    obtain ⟨ys, hys⟩ := stage.exists_emits_nil
    exact .underway hys List.nil_prefix
  | emit demand _ ih => exact Stage.relays_ready demand ih
  | full demand rest =>
    rw [itemsOf_ending rfl rest, endingOf_ending rfl]
    exact .stopped (.full demand)
  | failure demand _ rest =>
    rw [itemsOf_ending rfl rest, endingOf_ending rfl, endingOf_ending rfl]
    exact .failed (.nil demand)
  | @finished stage _ _ _ σ τ υ ω _ r history demand _ close rest =>
    obtain ⟨items, hitems, hprefix, hall⟩ := itemsOf_queue rest
    have hcompletes : stage.Completes [] items := ⟨[], items, .nil demand, .close ⟨_, _, close⟩ hitems, rfl⟩
    show stage.relay.Relays [] (some .finished) (itemsOf ((υ, r, ω) :: history)) (endingOf ((υ, r, ω) :: history))
    rcases endingOf_queue rest with hending | ⟨hending, hfinished⟩
    · rw [hending]
      exact .closing hcompletes hprefix
    · rw [hending, hall hfinished]
      exact .completed hcompletes
  | yield demand _ receive _ ih => exact Stage.relays_yield demand (Stage.takes_of_receive ⟨_, _, receive⟩) ih
  | drop _ _ receive _ ih => exact Stage.relays_drop (Stage.takes_of_receive ⟨_, _, receive⟩) ih
  | @cut _ _ _ _ _ _ _ _ outcome _ _ demand _ receive reply rest =>
    have htakes := Stage.takes_of_receive ⟨_, _, receive⟩
    rw [itemsOf_ending (Outcome.isEnding_of_reply reply) rest]
    cases outcome with
    | yield | drop => cases reply
    | stop =>
      cases reply
      exact .stopped (.stop demand htakes)
    | fail e =>
      cases reply
      exact .refused (.fail demand htakes)

end Asks

end Sequence

end LazyQuery
