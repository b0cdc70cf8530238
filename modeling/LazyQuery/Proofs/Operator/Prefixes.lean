import LazyQuery.Proofs.Operator.Demand
import LazyQuery.Proofs.Sequence.Histories
import LazyQuery.Proofs.Sequence.Sifting
import LazyQuery.Proofs.Sorting.Extremes

/-!
# Prefixes and suffixes

`take` and `takeWhile` hand on a prefix of their source and then cut it off (`Stage.Cuts`); `skip` and `skipWhile` hand on
what is left behind it.  What each of them hands out is known from the items alone (`Stage.Trims`), on the way and at the end
(`Sequence.Passes`), so the laws between them come down to those of lists (`Sequence.Splits`, `Sequence.Concur`).

Two things go further than that.  One `skip` on another cannot be told from a single one, in no history of pulls
(`Sequence.skip_skip_sameHistories`); and `elementAt`, which counts by itself, finds what the first pull of a `skip` replies
(`Element.exists_pulls_of_gives`, `Element.gives_elementAt_of_pulls`).

The main statement is `Engine.prefixes_and_suffixes_make_up_the_source`.
-/

namespace LazyQuery

open Sequence

/-! ### Stages that cut their source off -/

namespace Stage

/-- Out of the items `xs` the stage hands on `ys`, and then it does not ask for more. -/
inductive Cuts : Stage → List Item → List Item → Prop
  | full {stage xs} (demand : stage.demand = .stop) : Cuts stage xs []
  | stop {stage x xs} (ask : stage.demand = .ask) (receive : stage.receive x = pure .stop) : Cuts stage (x :: xs) []
  | keep {stage next x xs ys} (ask : stage.demand = .ask) (receive : stage.receive x = pure (.yield x next))
      (rest : Cuts next xs ys) : Cuts stage (x :: xs) (x :: ys)

/-- Of any items the stage hands on those that `f` leaves: it goes on to ask for more, or it has cut its source off. -/
def Trims (stage : Stage) (f : List Item → List Item) : Prop :=
  ∀ xs, (∃ last, stage.Sifts xs (f xs) last ∧ last.close = pure []) ∨ stage.Cuts xs (f xs)

section Trims

variable {xs : List Item} {n : Nat} {p : Item → Bool}

lemma sifts_take (h : xs.length < n) : Sifts (.take n) xs xs (.take (n - xs.length)) := by
  induction xs generalizing n with
  | nil =>
    obtain ⟨n, rfl⟩ := Nat.exists_eq_succ_of_ne_zero h.ne'
    exact .start rfl
  | cons x xs ih =>
    obtain ⟨n, rfl⟩ := Nat.exists_eq_succ_of_ne_zero (Nat.ne_zero_of_lt h)
    rw [List.length_cons] at h ⊢
    rw [Nat.succ_sub_succ]
    exact .keep rfl rfl (ih (Nat.lt_of_succ_lt_succ h))

lemma cuts_take (h : n ≤ xs.length) : Cuts (.take n) xs (xs.take n) := by
  induction xs generalizing n with
  | nil =>
    cases Nat.le_zero.mp h
    exact .full rfl
  | cons x xs ih =>
    cases n with
    | zero => exact .full rfl
    | succ n => exact .keep rfl rfl (ih (Nat.le_of_succ_le_succ h))

lemma sifts_skip (n : Nat) (xs : List Item) : Sifts (.skip n) xs (xs.drop n) (.skip (n - xs.length)) := by
  induction xs generalizing n with
  | nil =>
    rw [List.drop_nil]
    exact .start rfl
  | cons x xs ih =>
    cases n with
    | zero =>
      have hrest := ih 0
      rw [Nat.zero_sub] at hrest ⊢
      exact .keep rfl rfl hrest
    | succ n =>
      rw [List.length_cons, Nat.succ_sub_succ]
      exact .drop rfl rfl (ih n)

lemma sifts_takeWhile (h : ∀ x ∈ xs, p x = true) :
    Sifts (.takeWhile fun x => return p x) xs xs (.takeWhile fun x => return p x) := by
  induction xs with
  | nil => exact .start rfl
  | cons x xs ih =>
    obtain ⟨hx, hxs⟩ := List.forall_mem_cons.mp h
    exact .keep rfl (by simp [receive, hx]) (ih hxs)

lemma cuts_takeWhile (h : ∃ x ∈ xs, p x = false) : Cuts (.takeWhile fun x => return p x) xs (xs.takeWhile p) := by
  induction xs with
  | nil =>
    obtain ⟨x, hx, -⟩ := h
    cases hx
  | cons x xs ih =>
    cases hp : p x with
    | true =>
      have hrest : ∃ y ∈ xs, p y = false := by simpa [hp] using h
      rw [List.takeWhile_cons_of_pos hp]
      exact .keep rfl (by simp [receive, hp]) (ih hrest)
    | false =>
      rw [List.takeWhile_cons_of_neg (by simp [hp])]
      exact .stop rfl (by simp [receive, hp])

lemma sifts_skipWhile_true (accepts : Item → Eff Bool) (xs : List Item) :
    Sifts (.skipWhile accepts true) xs xs (.skipWhile accepts true) := by
  induction xs with
  | nil => exact .start rfl
  | cons x xs ih => exact .keep rfl rfl ih

lemma exists_sifts_skipWhile (p : Item → Bool) (xs : List Item) :
    ∃ started, Sifts (.skipWhile (fun x => return p x) false) xs (xs.dropWhile p) (.skipWhile (fun x => return p x) started) := by
  induction xs with
  | nil => exact ⟨false, .start rfl⟩
  | cons x xs ih =>
    cases hp : p x with
    | true =>
      obtain ⟨started, hrest⟩ := ih
      rw [List.dropWhile_cons_of_pos hp]
      exact ⟨started, .drop rfl (by simp [receive, hp]) hrest⟩
    | false =>
      rw [List.dropWhile_cons_of_neg (by simp [hp])]
      exact ⟨true, .keep rfl (by simp [receive, hp]) (sifts_skipWhile_true _ xs)⟩

lemma trims_take (n : Nat) : Trims (.take n) (List.take n) := by
  intro xs
  rcases Nat.lt_or_ge xs.length n with h | h
  · rw [List.take_of_length_le h.le]
    exact .inl ⟨_, sifts_take h, rfl⟩
  · exact .inr (cuts_take h)

lemma trims_skip (n : Nat) : Trims (.skip n) (List.drop n) :=
  fun xs => .inl ⟨_, sifts_skip n xs, rfl⟩

lemma trims_takeWhile (p : Item → Bool) : Trims (.takeWhile fun x => return p x) (List.takeWhile p) := by
  intro xs
  by_cases h : ∃ x ∈ xs, p x = false
  · exact .inr (cuts_takeWhile h)
  · have hall : ∀ x ∈ xs, p x = true := by simpa using h
    rw [List.takeWhile_eq_self_iff.mpr hall]
    exact .inl ⟨_, sifts_takeWhile hall, rfl⟩

lemma trims_skipWhile (p : Item → Bool) : Trims (.skipWhile (fun x => return p x) false) (List.dropWhile p) := by
  intro xs
  obtain ⟨started, hsifts⟩ := exists_sifts_skipWhile p xs
  exact .inl ⟨_, hsifts, rfl⟩

end Trims

end Stage

namespace Sequence

section Cuts

variable {σ τ : Session} {s t : Sequence} {stage : Stage} {xs ys : List Item} {e : QueryError}

/-- **A stage that has cut its source off ends**, whatever there is left of the source. -/
theorem Hands.cut (h : Hands σ s xs t τ) (hcuts : stage.Cuts xs ys) :
    ∃ ω, Drains σ (.through stage s) ys .finished ω := by
  induction h generalizing stage ys with
  | start =>
    cases hcuts with
    | full demand => exact ⟨_, .ends (ThroughStep.advance (.stop demand)) rfl⟩
  | work step _ ih =>
    obtain ⟨ω, hdrains⟩ := ih hcuts
    cases hcuts with
    | full demand => exact ⟨_, .ends (ThroughStep.advance (.stop demand)) rfl⟩
    | stop ask | keep ask => exact ⟨ω, .work (ThroughStep.advance (.work ask step)) hdrains⟩
  | @item _ υ _ _ _ _ x _ step _ ih =>
    cases hcuts with
    | full demand => exact ⟨_, .ends (ThroughStep.advance (.stop demand)) rfl⟩
    | stop ask receive =>
      have hreceive : stage.receive x υ = (.stop, υ) := congrFun receive υ
      exact ⟨υ, .ends (ThroughStep.advance (.item ask step hreceive)) rfl⟩
    | keep ask receive rest =>
      have hreceive : stage.receive x υ = (.yield x _, υ) := congrFun receive υ
      obtain ⟨ω, hdrains⟩ := ih rest
      exact ⟨ω, .item (ThroughStep.advance (.item ask step hreceive)) hdrains⟩

end Cuts

/-- Of what `source` has handed out so far, `result` has handed out what `f` leaves, or has ended after that; and it ends if
`source` does. -/
structure Passes (source result : Sequence) (f : List Item → List Item) : Prop where
  partway : ∀ {σ xs t τ}, Hands σ source xs t τ →
    (∃ u ω, Hands σ result (f xs) u ω) ∨ ∃ ω, Drains σ result (f xs) .finished ω
  finished : ∀ {σ xs τ}, Drains σ source xs .finished τ → ∃ ω, Drains σ result (f xs) .finished ω

section Passes

variable {s t u : Sequence} {f g : List Item → List Item} {stage front back : Stage}

lemma Passes.hands (h : Passes s t f) {σ τ : Session} {xs : List Item} (hhands : Hands σ s xs u τ) :
    ∃ v ω, Hands σ t (f xs) v ω := by
  obtain hresult | ⟨ω, hdrains⟩ := h.partway hhands
  · exact hresult
  · obtain ⟨v, υ, -, -, hresult, -⟩ := hdrains.hands
    exact ⟨v, υ, hresult⟩

lemma Passes.trans (h : Passes s t f) (h' : Passes t u g) : Passes s u fun xs => g (f xs) := by
  refine ⟨fun hhands => ?_, fun hdrains => ?_⟩
  · obtain ⟨v, ω, hbetween⟩ | ⟨ω, hbetween⟩ := h.partway hhands
    · exact h'.partway hbetween
    · exact .inr (h'.finished hbetween)
  · obtain ⟨ω, hbetween⟩ := h.finished hdrains
    exact h'.finished hbetween

theorem passes_of_trims (h : stage.Trims f) : Passes s (.through stage s) f := by
  refine ⟨fun {σ xs t τ} hhands => ?_, fun {σ xs τ} hdrains => ?_⟩
  · obtain ⟨last, hsifts, -⟩ | hcuts := h xs
    · exact .inl ⟨_, _, hhands.sift hsifts⟩
    · exact .inr (hhands.cut hcuts)
  · obtain ⟨last, hsifts, hclose⟩ | hcuts := h xs
    · have hsifted : Drains σ (.through stage s) (f xs ++ []) .finished τ := hdrains.sift hsifts hclose
      rw [List.append_nil] at hsifted
      exact ⟨τ, hsifted⟩
    · obtain ⟨t, ω, -, -, hhands, -⟩ := hdrains.hands
      exact hhands.cut hcuts

/-- The items of `front` and then those of `back` are the items of `source`: all together, if `source` ends; and also of what
it has handed out so far, where `front` has ended if `back` has handed out anything. -/
def Splits (source front back : Sequence) : Prop :=
  ∀ σ xs,
    (∀ τ, Drains σ source xs .finished τ → ∃ ys zs, xs = ys ++ zs ∧ (∃ ω, Drains σ front ys .finished ω) ∧
      ∃ ω, Drains σ back zs .finished ω) ∧
    ∀ t τ, Hands σ source xs t τ → ∃ ys zs, xs = ys ++ zs ∧ (∃ u ω, Hands σ front ys u ω) ∧ (∃ u ω, Hands σ back zs u ω) ∧
      (zs ≠ [] → ∃ ω, Drains σ front ys .finished ω)

theorem splits_of_trims (hfront : front.Trims f) (hback : back.Trims g) (happend : ∀ xs, xs = f xs ++ g xs)
    (hcuts : ∀ xs, g xs ≠ [] → front.Cuts xs (f xs)) : Splits s (.through front s) (.through back s) := by
  intro σ xs
  have hpasses : Passes s (.through front s) f := passes_of_trims hfront
  have hpasses' : Passes s (.through back s) g := passes_of_trims hback
  refine ⟨fun τ h => ?_, fun t τ h => ?_⟩
  · exact ⟨f xs, g xs, happend xs, hpasses.finished h, hpasses'.finished h⟩
  · exact ⟨f xs, g xs, happend xs, hpasses.hands h, hpasses'.hands h, fun hne => h.cut (hcuts xs hne)⟩

/-- Both hand out the same items, the `f xs` of the items `xs` that `source` has handed out so far; and after these both end, if
`source` ends or has handed out enough. -/
def Concur (source left right : Sequence) (f : List Item → List Item) (enough : Nat) : Prop :=
  ∀ σ xs,
    (∀ t τ, Hands σ source xs t τ → (∃ u ω, Hands σ left (f xs) u ω) ∧ ∃ u ω, Hands σ right (f xs) u ω) ∧
    ((∃ τ, Drains σ source xs .finished τ) ∨ (∃ t τ, Hands σ source xs t τ ∧ enough ≤ xs.length) →
      (∃ ω, Drains σ left (f xs) .finished ω) ∧ ∃ ω, Drains σ right (f xs) .finished ω)

end Passes

/-! ### Counts -/

def taken (source : Sequence) (count : Int) : Sequence :=
  source.withStages [.take count.toNat]

def skipped (source : Sequence) (count : Int) : Sequence :=
  source.withStages [.skip count.toNat]

def takenWhile (source : Sequence) (p : Callable) : Sequence :=
  source.withStages [.takeWhile p.test]

def skippedWhile (source : Sequence) (p : Callable) : Sequence :=
  source.withStages [.skipWhile p.test false]

section Counts

variable {σ τ : Session} {s t u : Sequence} {xs : List Item} {e : QueryError} {m n : Nat}

theorem splits_take_skip (n : Nat) : Splits s (.through (.take n) s) (.through (.skip n) s) := by
  refine splits_of_trims (Stage.trims_take n) (Stage.trims_skip n) (fun xs => (List.take_append_drop n xs).symm) ?_
  intro xs hne
  rw [ne_eq, List.drop_eq_nil_iff, not_le] at hne
  exact Stage.cuts_take hne.le

theorem splits_takeWhile_skipWhile {p : Callable} {accepts : Item → Bool} (hp : ∀ x σ, p.test x σ = (accepts x, σ)) :
    Splits s (s.takenWhile p) (s.skippedWhile p) := by
  have htest : p.test = fun x => return accepts x := funext fun x => funext fun σ => hp x σ
  unfold takenWhile skippedWhile
  rw [htest]
  refine splits_of_trims (Stage.trims_takeWhile accepts) (Stage.trims_skipWhile accepts)
    (fun xs => List.takeWhile_append_dropWhile.symm) ?_
  intro xs hne
  refine Stage.cuts_takeWhile ?_
  by_contra hall
  exact hne (List.dropWhile_eq_nil_iff.mpr (by simpa using hall))

/-- Items that are to be skipped twice. -/
def SkipsTwice (s t : Sequence) : Prop :=
  ∃ m n source, s = .through (.skip n) (.through (.skip m) source) ∧ t = .through (.skip (m + n)) source

lemma simulates_skipsTwice : Simulates SkipsTwice where
  reply {s t t' r σ τ} h step := by
    obtain ⟨m, n, source, rfl, rfl⟩ := h
    generalize hp : (some r, t') = p at step
    cases throughStep_of_advance step with
    | emit hdemand | stop hdemand => cases hdemand
    | work | finished => cases hp
    | failure _ hsource =>
      cases hp
      exact ⟨_, .reply (ThroughStep.advance (.failure rfl (ThroughStep.advance (.failure rfl hsource)))), .inr rfl⟩
    | item _ hsource hreceive =>
      match m, n with
      | 0, 0 =>
        cases hreceive
        cases hp
        have hinner : (Sequence.through (.skip 0) source).advance σ = ((some (.item _), .through (.skip 0) _), τ) :=
          ThroughStep.advance (.item rfl hsource rfl)
        exact ⟨_, .reply (ThroughStep.advance (.item rfl hinner rfl)), .inl ⟨0, 0, _, rfl, rfl⟩⟩
      | 0, n + 1 =>
        rw [Nat.zero_add] at hreceive
        cases hreceive
        cases hp
      | m + 1, n =>
        rw [Nat.succ_add] at hreceive
        cases hreceive
        cases hp
  work {s t t' σ τ} h step := by
    obtain ⟨m, n, source, rfl, rfl⟩ := h
    generalize hp : (none, t') = p at step
    cases throughStep_of_advance step with
    | emit hdemand | stop hdemand => cases hdemand
    | failure => cases hp
    | work _ hsource =>
      cases hp
      have hinner : (Sequence.through (.skip m) source).advance σ = ((none, .through (.skip m) _), τ) :=
        ThroughStep.advance (.work rfl hsource)
      exact ⟨_, _, _, ThroughStep.advance (.work rfl hinner), .done, .inl ⟨m, n, _, rfl, rfl⟩⟩
    | finished _ hsource hclose =>
      cases hclose
      cases hp
      have hinner : (Sequence.through (.skip m) source).advance σ = ((none, .queue []), τ) :=
        ThroughStep.advance (.finished rfl hsource rfl)
      have hlast : (Sequence.through (.skip n) (.queue [])).advance τ = ((none, .queue []), τ) :=
        ThroughStep.advance (.finished rfl rfl rfl)
      exact ⟨_, _, _, ThroughStep.advance (.work rfl hinner), .step hlast .done, .inr rfl⟩
    | item _ hsource hreceive =>
      match m, n with
      | 0, 0 =>
        cases hreceive
        cases hp
      | 0, n + 1 =>
        rw [Nat.zero_add] at hreceive
        cases hreceive
        cases hp
        have hinner : (Sequence.through (.skip 0) source).advance σ = ((some (.item _), .through (.skip 0) _), τ) :=
          ThroughStep.advance (.item rfl hsource rfl)
        exact ⟨_, _, _, ThroughStep.advance (.item rfl hinner rfl), .done, .inl ⟨0, n, _, rfl, by rw [Nat.zero_add]⟩⟩
      | m + 1, n =>
        rw [Nat.succ_add] at hreceive
        cases hreceive
        cases hp
        have hinner : (Sequence.through (.skip (m + 1)) source).advance σ = ((none, .through (.skip m) _), τ) :=
          ThroughStep.advance (.item rfl hsource rfl)
        exact ⟨_, _, _, ThroughStep.advance (.work rfl hinner), .done, .inl ⟨m, n, _, rfl, rfl⟩⟩

theorem skip_skip_sameHistories (m n : Nat) (s : Sequence) :
    (Sequence.through (.skip n) (.through (.skip m) s)).SameHistories (.through (.skip (m + n)) s) :=
  simulates_skipsTwice.sameHistories ⟨m, n, s, rfl, rfl⟩

/-- **Skipping first, one takes what is left of what was to be skipped and taken.** -/
theorem concur_skip_take (m n : Nat) : Concur s (.through (.take n) (.through (.skip m) s))
    (.through (.skip m) (.through (.take (m + n)) s)) (fun xs => (xs.drop m).take n) (m + n) := by
  have hleft : Passes s (.through (.take n) (.through (.skip m) s)) fun xs => (xs.drop m).take n :=
    (passes_of_trims (Stage.trims_skip m)).trans (passes_of_trims (Stage.trims_take n))
  have hright : Passes s (.through (.skip m) (.through (.take (m + n)) s)) fun xs => (xs.take (m + n)).drop m :=
    (passes_of_trims (Stage.trims_take (m + n))).trans (passes_of_trims (Stage.trims_skip m))
  have hitems (xs : List Item) : (xs.take (m + n)).drop m = (xs.drop m).take n := by
    rw [List.drop_take, Nat.add_sub_cancel_left]
  simp only [hitems] at hright
  intro σ xs
  refine ⟨fun t τ h => ⟨hleft.hands h, hright.hands h⟩, ?_⟩
  rintro (⟨τ, h⟩ | ⟨t, τ, h, hlength⟩)
  · exact ⟨hleft.finished h, hright.finished h⟩
  · have hskipped := h.sift (Stage.sifts_skip m xs)
    obtain ⟨ω, htaken⟩ := h.cut (Stage.cuts_take hlength)
    have hshort : n ≤ (xs.drop m).length := by
      rw [List.length_drop]
      omega
    have hboth := (passes_of_trims (Stage.trims_skip m)).finished htaken
    rw [hitems] at hboth
    exact ⟨hskipped.cut (Stage.cuts_take hshort), hboth⟩

/-- **A source that fails** fails behind `take` only if there is more to take. -/
theorem drains_take_of_failed (h : Drains σ s xs (.failed e) τ) (n : Nat) :
    (n ≤ xs.length ∧ ∃ ω, Drains σ (.through (.take n) s) (xs.take n) .finished ω) ∨
      xs.length < n ∧ Drains σ (.through (.take n) s) xs (.failed e) τ := by
  rcases Nat.lt_or_ge xs.length n with hlt | hge
  · exact .inr ⟨hlt, h.sift_failed (Stage.sifts_take hlt)⟩
  · obtain ⟨t, ω, -, -, hhands, -⟩ := h.hands
    exact .inl ⟨hge, hhands.cut (Stage.cuts_take hge)⟩

end Counts

end Sequence

/-! ### The item at a position -/

/-- What `elementAt` finds if this is the first reply behind `skip`, and if there are `length` items. -/
def Reply.found (position length : Nat) : Reply → Except QueryError Found
  | .item x => .ok (.item x)
  | .failure e => .error e
  | .finished => .ok (.beyond position length)

namespace Element

section Positions

variable {σ τ : Session} {s u : Sequence} {r : Reply} {left position : Nat} {visits : List (Item × Bool)}
  {outcome : Except QueryError Found}

lemma settles_elementAt (visits : List (Item × Bool)) (x : Item) (hposition : visits.length + left = position) :
    (Element.elementAt.scan none position).settles visits x true = if left = 0 then some (.item x) else none := by
  have hiff : visits.length = position ↔ left = 0 := by omega
  simp only [scan, hiff]

lemma length_visited (x : Item) (hposition : visits.length + (left + 1) = position) :
    (visits ++ [(x, true)]).length + left = position := by
  rw [List.length_append, List.length_singleton, Nat.add_assoc, Nat.add_comm 1 left, hposition]

/-- While some are left to skip, the scan goes on. -/
theorem gives_elementAt_of_pulls (h : Pulls σ (.through (.skip left) s) r u τ) (hposition : visits.length + left = position) :
    ∃ length, (Element.elementAt.scan none position).Gives visits σ s (r.found position length) τ := by
  generalize hthrough : Sequence.through (.skip left) s = v at h
  induction h generalizing left s visits with
  | reply step =>
    subst hthrough
    generalize hp : (some _, _) = p at step
    cases throughStep_of_advance step with
    | emit hdemand | stop hdemand => cases hdemand
    | work | finished => cases hp
    | failure _ hsource =>
      cases hp
      exact ⟨0, .failed (.reply hsource)⟩
    | item _ hsource hreceive =>
      cases left with
      | succ left =>
        cases hreceive
        cases hp
      | zero =>
        cases hreceive
        cases hp
        exact ⟨0, .settled (.reply hsource) rfl (settles_elementAt visits _ hposition)⟩
  | work step rest ih =>
    subst hthrough
    generalize hp : (none, _) = p at step
    cases throughStep_of_advance step with
    | emit hdemand | stop hdemand => cases hdemand
    | failure => cases hp
    | work _ hsource =>
      cases hp
      obtain ⟨length, hgives⟩ := ih hposition rfl
      exact ⟨length, hgives.of_work hsource⟩
    | finished _ hsource hclose =>
      cases hclose
      cases hp
      obtain ⟨rfl, rfl, rfl⟩ := rest.unique (.reply rfl)
      exact ⟨visits.length, .finished (.reply hsource)⟩
    | @item x _ _ _ _ _ hsource hreceive =>
      cases left with
      | zero =>
        cases hreceive
        cases hp
      | succ left =>
        cases hreceive
        cases hp
        obtain ⟨length, hgives⟩ := ih (length_visited x hposition) rfl
        exact ⟨length, .goesOn (.reply hsource) rfl (settles_elementAt visits x hposition) hgives⟩

/-- There is nothing to be found without a reply behind `skip`. -/
lemma exists_pulls_of_gives_elementAt (h : (Element.elementAt.scan none position).Gives visits σ s outcome τ)
    (hposition : visits.length + left = position) : ∃ r u υ, Pulls σ (.through (.skip left) s) r u υ := by
  induction h generalizing left with
  | finished pull | failed pull => exact ⟨_, _, _, pull.through_ending rfl rfl rfl⟩
  | @settled visits _ _ x _ υ _ _ _ pull answer settles =>
    cases answer
    cases left with
    | zero =>
      have hreceive : (Stage.skip 0).receive x υ = (.yield x (.skip 0), υ) := rfl
      obtain ⟨v, ω, hworks, hstep⟩ := pull.received rfl hreceive
      exact ⟨_, _, _, hworks.pulls (.reply hstep)⟩
    | succ left =>
      rw [settles_elementAt visits x hposition] at settles
      cases settles
  | @goesOn visits _ _ x _ υ _ _ _ _ pull answer settles _ ih =>
    cases answer
    cases left with
    | zero =>
      rw [settles_elementAt visits x hposition] at settles
      cases settles
    | succ left =>
      have hreceive : (Stage.skip (left + 1)).receive x υ = (.drop (.skip left), υ) := rfl
      obtain ⟨v, ω, hworks, hstep⟩ := pull.received rfl hreceive
      obtain ⟨r, u, κ, hrest⟩ := ih (length_visited x hposition)
      exact ⟨r, u, κ, hworks.pulls (.work hstep hrest)⟩

/-- The first reply behind so many items is what is found at a position. -/
lemma exists_gives_of_pulls (h : Pulls σ (.through (.skip position) s) r u τ) :
    ∃ length, (Element.elementAt.scan none position).Gives [] σ s (r.found position length) τ :=
  gives_elementAt_of_pulls h (Nat.zero_add position)

/-- **What is found at a position is the first reply behind so many items.** -/
theorem exists_pulls_of_gives (h : (Element.elementAt.scan none position).Gives [] σ s outcome τ) :
    ∃ r u length, Pulls σ (.through (.skip position) s) r u τ ∧ outcome = r.found position length := by
  obtain ⟨r, u, υ, hpull⟩ := exists_pulls_of_gives_elementAt h (Nat.zero_add position)
  obtain ⟨length, hgives⟩ := exists_gives_of_pulls hpull
  obtain ⟨rfl, rfl⟩ := h.unique hgives
  exact ⟨r, u, length, hpull, rfl⟩

end Positions

end Element

/-! ### Predicates that do something in the session -/

/-- The relation of what a predicate's stages make of a delivery, where the predicate says `accepts` of the items. -/
def TrimsDelivery (accepts : Item → Bool) : Stage → List Item → Ending → List Item → Ending → Prop
  | .takeWhile p, xs, ending, ys, ending' => (∀ x b, (p x).Answers b → b = accepts x) →
      ys = xs.takeWhile accepts ∧ ending' = if xs.all accepts then ending else .finished
  | .skipWhile p started, xs, ending, ys, ending' => (∀ x b, (p x).Answers b → b = accepts x) →
      ys = (if started then xs else xs.dropWhile accepts) ∧ ending' = ending
  | _, _, _, _, _ => True

lemma respects_trimsDelivery (accepts : Item → Bool) : Stage.Respects (TrimsDelivery accepts) where
  emit {stage next y xs ending ys ending'} hdemand _ := by
    cases stage with
    | takeWhile | skipWhile => cases hdemand
    | _ => trivial
  full {stage xs ending} hdemand := by
    cases stage with
    | takeWhile | skipWhile => cases hdemand
    | _ => trivial
  failure {stage e} _ := by
    cases stage with
    | takeWhile | skipWhile => exact fun _ => by simp
    | _ => trivial
  close {stage cells ys} _ hclose hcells := by
    cases stage with
    | takeWhile | skipWhile =>
      cases hclose.of_pure
      cases hcells
      exact fun _ => by simp
    | _ => trivial
  yield _ hreceive hrest := by
    cases Stage.takes_of_receive hreceive with
    | @going accepts' hverdict =>
      intro haccepts
      obtain ⟨rfl, rfl⟩ := hrest haccepts
      simp [← haccepts _ _ hverdict]
    | started =>
      intro haccepts
      obtain ⟨rfl, rfl⟩ := hrest haccepts
      exact ⟨rfl, rfl⟩
    | starting hverdict =>
      intro haccepts
      obtain ⟨rfl, rfl⟩ := hrest haccepts
      simp [← haccepts _ _ hverdict]
    | _ => trivial
  drop _ hreceive hrest := by
    cases Stage.takes_of_receive hreceive with
    | waiting hverdict =>
      intro haccepts
      obtain ⟨rfl, rfl⟩ := hrest haccepts
      simp [← haccepts _ _ hverdict]
    | _ => trivial
  stop _ hreceive := by
    cases Stage.takes_of_receive hreceive with
    | ending hverdict =>
      intro haccepts
      simp [← haccepts _ _ hverdict]
    | _ => trivial
  fail _ hreceive := by
    cases Stage.takes_of_receive hreceive with
    | _ => trivial

/-- The same where the predicate does something in the session, of a source whose items do not depend on that. -/
theorem Sequence.Delivers.split {s : Sequence} {xs : List Item} {p : Callable} {accepts : Item → Bool}
    (h : s.Delivers fun ys ending => ys = xs ∧ ending = .finished) (haccepts : ∀ x σ, (p.test x σ).1 = accepts x) :
    ((s.takenWhile p).Delivers fun ys ending => ys = xs.takeWhile accepts ∧ ending = .finished) ∧
      (s.skippedWhile p).Delivers fun ys ending => ys = xs.dropWhile accepts ∧ ending = .finished := by
  have hanswers (x : Item) (b : Bool) (hb : (p.test x).Answers b) : b = accepts x := by
    obtain ⟨σ, τ, hrun⟩ := hb
    rw [← haccepts x σ, hrun]
  refine ⟨(h.through (respects_trimsDelivery accepts) _).mono ?_, (h.through (respects_trimsDelivery accepts) _).mono ?_⟩
  · rintro ys ending' ⟨_, _, ⟨rfl, rfl⟩, htrims⟩
    obtain ⟨rfl, rfl⟩ := htrims hanswers
    exact ⟨rfl, by simp⟩
  · rintro ys ending' ⟨_, _, ⟨rfl, rfl⟩, htrims⟩
    obtain ⟨rfl, rfl⟩ := htrims hanswers
    exact ⟨rfl, rfl⟩

/-! ### Parts -/

namespace Part

/-- Applied to the sequence, the part comes to the other one, with no work. -/
def PutsOn (part : Part) (source result : Sequence) : Prop :=
  ∀ budget, apply budget (.sequence source) part = pure (.sequence result)

section Plans

variable {part : Part} {s : Sequence} {count : Int} {p : Callable}

lemma putsOn_take (hpart : part.operator = .take) (hcount : part.requireInteger 0 "count" = .ok count) :
    part.PutsOn s (s.taken count) :=
  fun budget => apply_of_stages budget (plan_of_take hpart hcount)

lemma putsOn_skip (hpart : part.operator = .skip) (hcount : part.requireInteger 0 "count" = .ok count) :
    part.PutsOn s (s.skipped count) := by
  have hplan : part.plan = .ok (.lazily [.skip count.toNat]) := by
    unfold Part.plan
    rw [hpart, hcount]
    rfl
  exact fun budget => apply_of_stages budget hplan

lemma putsOn_takeWhile (hpart : part.operator = .takeWhile) (hp : part.function? 0 = some p) :
    part.PutsOn s (s.takenWhile p) := by
  have hplan : part.plan = .ok (.lazily [.takeWhile p.test]) := by
    unfold Part.plan
    rw [hpart, requireFunction_of_function? hp]
    rfl
  exact fun budget => apply_of_stages budget hplan

lemma putsOn_skipWhile (hpart : part.operator = .skipWhile) (hp : part.function? 0 = some p) :
    part.PutsOn s (s.skippedWhile p) := by
  have hplan : part.plan = .ok (.lazily [.skipWhile p.test false]) := by
    unfold Part.plan
    rw [hpart, requireFunction_of_function? hp]
    rfl
  exact fun budget => apply_of_stages budget hplan

end Plans

end Part

namespace Engine

variable (engine : Engine)

section ElementAt

variable {source : Sequence} {arguments : List Argument} {σ τ : Session} {u : Sequence}

lemma comesTo_elementAt {position : Nat} (hindex : Element.index? arguments = some (position : Int))
    {result : Except QueryError Output} :
    engine.ComesTo source [Element.elementAt.part arguments .fails] σ result τ ↔
      ∃ outcome, (Element.elementAt.scan none position).Gives [] σ source outcome τ ∧
        result = outcome >>= Found.result "elementAt" .fails := by
  rw [comesTo_single engine rfl, Element.comesTo_of_scan rfl fun _ => hindex, Element.predicate?_of_index? hindex]
  rfl

/-- **`elementAt` is the first item behind `skip`.** -/
theorem comesTo_elementAt_ok_iff {position : Nat} (hindex : Element.index? arguments = some (position : Int)) {output : Output} :
    engine.ComesTo source [Element.elementAt.part arguments .fails] σ (.ok output) τ ↔
      ∃ x u, Pulls σ (source.skipped position) (.item x) u τ ∧ output = .value x := by
  rw [engine.comesTo_elementAt hindex]
  constructor
  · rintro ⟨outcome, hgives, hresult⟩
    obtain ⟨r, u, length, hpull, rfl⟩ := Element.exists_pulls_of_gives hgives
    cases r with
    | item x =>
      cases hresult
      exact ⟨x, u, hpull, rfl⟩
    | failure e => cases hresult
    | finished => cases hresult
  · rintro ⟨x, u, hpull, rfl⟩
    obtain ⟨length, hgives⟩ := Element.exists_gives_of_pulls hpull
    exact ⟨_, hgives, rfl⟩

lemma comesTo_elementAt_of_ending {position : Nat} (hindex : Element.index? arguments = some (position : Int)) {r : Reply}
    (hpull : Pulls σ (source.skipped position) r u τ) : ∃ length,
      engine.ComesTo source [Element.elementAt.part arguments .fails] σ
        (r.found position length >>= Found.result "elementAt" .fails) τ := by
  obtain ⟨length, hgives⟩ := Element.exists_gives_of_pulls hpull
  exact ⟨length, (engine.comesTo_elementAt hindex).mpr ⟨_, hgives, rfl⟩⟩

end ElementAt

/-- **Prefixes and suffixes make up their source.**  For every source, any counts, of which the negative ones stand for zero,
and any predicate that says of each item the same in all sessions:

* `take`, `skip`, `takeWhile` and `skipWhile` put on a sequence what is spoken of here;
* the items of `take` and then those of `skip` are the items of the source; and so are those of `takeWhile` and `skipWhile`,
  if the predicate does nothing in the session, and also if it does, of a source that hands out the same items whatever is
  done there;
* a `skip` on a `skip` has the histories of the one with the sum of both counts;
* a `take` on a `skip` hands out the same items as that `skip` on a `take` of the sum, those of the source without the skipped
  ones and as many as are to be taken; and both end, on any source that ends without an error or has that many items;
* `elementAt` comes to the item that a `skip` of the same count first hands out, and to nothing else; it fails if there is
  none, with an error of its own if the source has ended, and with that of the source if it has failed;
* a source that fails after some items fails behind `take` if and only if there are fewer than were to be taken, and then
  after all of them; behind `skip` it always does, after those behind the skipped ones, as many as there were more. -/
theorem prefixes_and_suffixes_make_up_the_source (source : Sequence) :
    (∀ (s : Sequence) (part : Part) count, part.requireInteger 0 "count" = .ok count →
      (part.operator = .take → part.PutsOn s (s.taken count)) ∧ (part.operator = .skip → part.PutsOn s (s.skipped count))) ∧
    (∀ (s : Sequence) (part : Part) p, part.function? 0 = some p →
      (part.operator = .takeWhile → part.PutsOn s (s.takenWhile p)) ∧
        (part.operator = .skipWhile → part.PutsOn s (s.skippedWhile p))) ∧
    (∀ n, Splits source (source.taken n) (source.skipped n)) ∧
    (∀ (p : Callable) (accepts : Item → Bool), (∀ x σ, p.test x σ = (accepts x, σ)) →
      Splits source (source.takenWhile p) (source.skippedWhile p)) ∧
    (∀ (p : Callable) (accepts : Item → Bool), (∀ x σ, (p.test x σ).1 = accepts x) →
      ∀ xs, (source.Delivers fun ys ending => ys = xs ∧ ending = .finished) → ∃ ys zs, xs = ys ++ zs ∧
        ((source.takenWhile p).Delivers fun items ending => items = ys ∧ ending = .finished) ∧
        (source.skippedWhile p).Delivers fun items ending => items = zs ∧ ending = .finished) ∧
    (∀ m n, ((source.skipped m).skipped n).SameHistories (source.skipped (max m 0 + max n 0))) ∧
    (∀ m n, Concur source ((source.skipped m).taken n) ((source.taken (max m 0 + max n 0)).skipped m)
      (fun xs => (xs.drop m.toNat).take n.toNat) (max m 0 + max n 0).toNat) ∧
    (∀ arguments i, Element.index? arguments = some i → 0 ≤ i → ∀ σ τ,
      (∀ output, engine.ComesTo source [Element.elementAt.part arguments .fails] σ (.ok output) τ ↔
        ∃ x u, Pulls σ (source.skipped i) (.item x) u τ ∧ output = .value x) ∧
      (∀ u, Pulls σ (source.skipped i) .finished u τ → ∃ length,
        engine.ComesTo source [Element.elementAt.part arguments .fails] σ (.error (.indexOutOfRange i length)) τ) ∧
      ∀ e u, Pulls σ (source.skipped i) (.failure e) u τ →
        engine.ComesTo source [Element.elementAt.part arguments .fails] σ (.error e) τ) ∧
    ∀ σ xs e τ, Drains σ source xs (.failed e) τ → ∀ n : Int,
      ((∃ ys ω, Drains σ (source.taken n) ys (.failed e) ω) ↔ xs.length < max n 0) ∧
      (xs.length < max n 0 → Drains σ (source.taken n) xs (.failed e) τ) ∧
      (max n 0 ≤ xs.length → ∃ ω, Drains σ (source.taken n) (xs.take n.toNat) .finished ω) ∧
      Drains σ (source.skipped n) (xs.drop n.toNat) (.failed e) τ ∧
      ((xs.drop n.toNat).length : Int) = max (xs.length - max n 0) 0 := by
  refine ⟨fun s part count hcount => ⟨fun h => Part.putsOn_take h hcount, fun h => Part.putsOn_skip h hcount⟩,
    fun s part p hp => ⟨fun h => Part.putsOn_takeWhile h hp, fun h => Part.putsOn_skipWhile h hp⟩,
    fun n => splits_take_skip n.toNat, fun p accepts hp => splits_takeWhile_skipWhile hp, ?_, ?_, ?_, ?_, ?_⟩
  · intro p accepts hp xs h
    obtain ⟨htaken, hskipped⟩ := h.split hp
    exact ⟨_, _, List.takeWhile_append_dropWhile.symm, htaken, hskipped⟩
  · intro m n
    have hsum : (max m 0 + max n 0).toNat = m.toNat + n.toNat := by omega
    have hskips := skip_skip_sameHistories m.toNat n.toNat source
    rw [← hsum] at hskips
    exact hskips
  · intro m n
    have hsum : (max m 0 + max n 0).toNat = m.toNat + n.toNat := by omega
    have hconcur := @concur_skip_take source m.toNat n.toNat
    rw [← hsum] at hconcur
    exact hconcur
  · intro arguments i hindex hi σ τ
    obtain ⟨position, rfl⟩ := Int.eq_ofNat_of_zero_le hi
    refine ⟨fun output => engine.comesTo_elementAt_ok_iff hindex, fun u hpull => ?_, fun e u hpull => ?_⟩
    · exact engine.comesTo_elementAt_of_ending hindex hpull
    · obtain ⟨length, h⟩ := engine.comesTo_elementAt_of_ending hindex hpull
      exact h
  · intro σ xs e τ h n
    have hskipped : Drains σ (source.skipped n) (xs.drop n.toNat) (.failed e) τ :=
      h.sift_failed (Stage.sifts_skip n.toNat xs)
    have hlength : ((xs.drop n.toNat).length : Int) = max (xs.length - max n 0) 0 := by
      rw [List.length_drop]
      omega
    have hfails (hlt : xs.length < max n 0) : Drains σ (source.taken n) xs (.failed e) τ := by
      obtain ⟨hge, -⟩ | ⟨-, hfails⟩ := drains_take_of_failed h n.toNat
      · omega
      · exact hfails
    have hends (hle : max n 0 ≤ xs.length) : ∃ ω, Drains σ (source.taken n) (xs.take n.toNat) .finished ω := by
      obtain ⟨-, hends⟩ | ⟨hlt, -⟩ := drains_take_of_failed h n.toNat
      · exact hends
      · omega
    refine ⟨⟨?_, fun hlt => ⟨xs, τ, hfails hlt⟩⟩, hfails, hends, hskipped, hlength⟩
    rintro ⟨ys, ω, hfailed⟩
    by_contra hle
    obtain ⟨υ, hended⟩ := hends (Int.not_lt.mp hle)
    obtain ⟨-, ⟨⟩, -⟩ := hended.unique hfailed

/-- The predicate that an item is true. -/
def isTrue : Callable :=
  .unary fun item => return item

/-- Two Booleans and null, cut behind the first; the second of them; and a source that fails before there are two items. -/
theorem prefixes_and_suffixes_make_up_the_source_booleans :
    (∃ ys zs, [.bool true, .bool false, .null] = ys ++ zs ∧
      (∃ ω, Drains {} ((Sequence.ofItems [.bool true, .bool false, .null]).takenWhile isTrue) ys .finished ω) ∧
      ∃ ω, Drains {} ((Sequence.ofItems [.bool true, .bool false, .null]).skippedWhile isTrue) zs .finished ω) ∧
    ComesTo ⟨{}, "q", 0⟩ (.ofItems [.bool true, .bool false, .null])
      [Element.elementAt.part [.literal (.number (.ofInt 1))] .fails] {} (.ok (.value (.bool false))) {} ∧
    Drains {} ((failing [.null] (.negativeCount (-1)) 0).taken 2) [.null] (.failed (.negativeCount (-1))) {} := by
  obtain ⟨-, -, -, hwhile, -, -, -, helementAt, -⟩ :=
    prefixes_and_suffixes_make_up_the_source ⟨{}, "q", 0⟩ (.ofItems [.bool true, .bool false, .null])
  obtain ⟨-, -, -, -, -, -, -, -, hfailed⟩ :=
    prefixes_and_suffixes_make_up_the_source ⟨{}, "q", 0⟩ (failing [.null] (.negativeCount (-1)) 0)
  have hindex : Element.index? [.literal (.number (.ofInt 1))] = some 1 := by decide +kernel
  have hskipped : Pulls {} ((Sequence.ofItems [.bool true, .bool false, .null]).skipped 1) (.item (.bool false))
      (.through (.skip 0) (.ofItems [.null])) {} := .work rfl (.reply rfl)
  have hfails : Drains {} (failing [.null] (.negativeCount (-1)) 0) [.null] (.failed (.negativeCount (-1))) {} :=
    .pull (failing_pulls_item rfl) (.last (failing_pulls_failure rfl) rfl)
  refine ⟨?_, ?_, ?_⟩
  · exact (hwhile isTrue Item.isTruthy (fun _ _ => rfl) {} _).1 {} (drains_queue _ {})
  · exact ((helementAt _ 1 hindex (by decide) {} {}).1 _).mpr ⟨_, _, hskipped, rfl⟩
  · exact (hfailed {} _ _ {} hfails 2).2.1 (by decide)

end Engine

end LazyQuery
