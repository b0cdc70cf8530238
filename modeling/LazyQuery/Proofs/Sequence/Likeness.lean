import LazyQuery.Proofs.Sequence.Histories

/-!
# Sequences that look alike

Two sequences look alike (`Sequence.LooksLike`) if they answer pull after pull alike, whatever is done in the session before
each of the pulls, and though it need not be the same for both.  An item is looked at through a function, which need not see
all of it: not the references of new composites, for one.  The sequences need not end.

A sequence looks like itself if nothing of what is seen of its items comes from the session.  So it is with a producer that
replies alike in each session (`Sequence.looksLike_producer`), and with what shows the same in each session and then ends
(`Sequence.Shows.looksLike`).
-/

namespace LazyQuery

variable {β : Type}

/-- What is seen of a reply. -/
def Reply.seen (view : Item → β) : Reply → Option (Except QueryError β)
  | .item x => some (.ok (view x))
  | .failure e => some (.error e)
  | .finished => none

lemma Reply.isEnding_of_seen {view : Item → β} {r r' : Reply} (h : r'.seen view = r.seen view) :
    r'.isEnding = r.isEnding := by
  cases r <;> cases r' <;> first | rfl | cases h

namespace Sequence

/-- Where `R` holds, the second sequence answers the pulls of the first alike, and `R` holds of what there is then. -/
def Mirrors (view : Item → β) (R : Sequence → Sequence → Prop) : Prop :=
  ∀ {s t s' : Sequence} {σ σ' : Session} {r : Reply}, R s t → Pulls σ s r s' σ' →
    ∀ τ, ∃ r' t' τ', Pulls τ t r' t' τ' ∧ r'.seen view = r.seen view ∧ R s' t'

/-- Both sequences answer alike, pull after pull. -/
def LooksLike (s : Sequence) (view : Item → β) (t : Sequence) : Prop :=
  ∃ R, Mirrors view R ∧ Mirrors view (flip R) ∧ R s t

section LooksLike

variable {view : Item → β} {s t u : Sequence}

lemma LooksLike.symm (h : s.LooksLike view t) : t.LooksLike view s := by
  obtain ⟨R, hR, hflip, hst⟩ := h
  exact ⟨flip R, hflip, hR, hst⟩

lemma LooksLike.trans (h : s.LooksLike view t) (h' : t.LooksLike view u) : s.LooksLike view u := by
  obtain ⟨R, hR, hflip, hst⟩ := h
  obtain ⟨R', hR', hflip', htu⟩ := h'
  refine ⟨fun s u => ∃ t, R s t ∧ R' t u, ?_, ?_, t, hst, htu⟩
  · rintro s u s' σ σ' r ⟨t, hst, htu⟩ hpull υ
    obtain ⟨_, t', τ', hbetween, hseen, hst'⟩ := hR hst hpull σ
    obtain ⟨r', u', υ', hlast, hseen', htu'⟩ := hR' htu hbetween υ
    exact ⟨r', u', υ', hlast, hseen'.trans hseen, t', hst', htu'⟩
  · rintro u s u' υ υ' r ⟨t, hst, htu⟩ hpull σ
    obtain ⟨_, t', τ', hbetween, hseen, htu'⟩ := hflip' htu hpull υ
    obtain ⟨r', s', σ', hlast, hseen', hst'⟩ := hflip hst hbetween σ
    exact ⟨r', s', σ', hlast, hseen'.trans hseen, t', hst', htu'⟩

/-- What has the same histories looks alike. -/
lemma LooksLike.of_sameHistories (h : s.LooksLike view t) (hsame : t.SameHistories u) : s.LooksLike view u := by
  obtain ⟨R, hR, hflip, hst⟩ := h
  refine ⟨fun s u => ∃ t, R s t ∧ t.SameHistories u, ?_, ?_, t, hst, hsame⟩
  · rintro s u s' σ σ' r ⟨t, hst, hsame⟩ hpull τ
    obtain ⟨r', t', τ', hbetween, hseen, hst'⟩ := hR hst hpull τ
    obtain ⟨u', hlast, hsame'⟩ := hsame.pulls hbetween
    exact ⟨r', u', τ', hlast, hseen, t', hst', hsame'⟩
  · rintro u s u' τ τ' r ⟨t, hst, hsame⟩ hpull σ
    obtain ⟨t', hbetween, hsame'⟩ := hsame.symm.pulls hpull
    obtain ⟨r', s', σ', hlast, hseen, hst'⟩ := hflip hst hbetween σ
    exact ⟨r', s', σ', hlast, hseen, t', hst', hsame'.symm⟩

end LooksLike

/-! ### Producers -/

section Producers

variable {view : Item → β} {produce : Nat → Eff (Reply × Nat)}

/-- **A producer looks like itself** if what is seen of its replies, and the state that it leaves behind, do not come from
the session. -/
theorem looksLike_producer (hseen : ∀ state σ τ, (produce state τ).1.1.seen view = (produce state σ).1.1.seen view)
    (hnext : ∀ state σ τ, (produce state τ).1.2 = (produce state σ).1.2) (state : Nat) :
    (Sequence.producer produce state).LooksLike view (.producer produce state) := by
  let R (s t : Sequence) : Prop := s = t ∧ ((∃ state, s = .producer produce state) ∨ s = .exhausted)
  have hR : Mirrors view R := by
    rintro s _ s' σ σ' r ⟨rfl, ⟨state, rfl⟩ | rfl⟩ hpull τ
    · rcases hproduce : produce state σ with ⟨⟨reply, next⟩, υ⟩
      rcases hproduce' : produce state τ with ⟨⟨reply', next'⟩, υ'⟩
      have hreplies := hseen state σ τ
      have hstates := hnext state σ τ
      rw [hproduce, hproduce'] at hreplies hstates
      obtain ⟨rfl, rfl, -⟩ := hpull.unique (.reply (advance_producer hproduce))
      obtain rfl : next' = next := hstates
      have hendings := Reply.isEnding_of_seen hreplies
      refine ⟨reply', _, υ', .reply (advance_producer hproduce'), hreplies, by rw [hendings], ?_⟩
      split
      · exact .inr rfl
      · exact .inl ⟨next', rfl⟩
    · obtain ⟨rfl, rfl, rfl⟩ := pulls_exhausted.mp hpull
      exact ⟨.finished, .exhausted, τ, .reply rfl, rfl, rfl, .inr rfl⟩
  refine ⟨R, hR, ?_, rfl, .inl ⟨state, rfl⟩⟩
  rintro t _ t' τ τ' r ⟨rfl, hshape⟩ hpull σ
  obtain ⟨r', s', σ', hpull', hreplies, rfl, hrest⟩ := hR ⟨rfl, hshape⟩ hpull σ
  exact ⟨r', t', σ', hpull', hreplies, rfl, hrest⟩

end Producers

/-! ### Sequences that end -/

/-- Seen through `view`, the sequence delivers `vs` and then `ending`. -/
def Shows (s : Sequence) (view : Item → β) (vs : List β) (ending : Ending) : Prop :=
  s.Delivers fun xs ending' => xs.map view = vs ∧ ending' = ending

section Shows

variable {view : Item → β} {s t : Sequence} {vs : List β} {ending : Ending} {σ τ : Session} {r : Reply}

lemma shows_exhausted : exhausted.Shows view [] .finished :=
  .of_pull fun σ => ⟨.finished, exhausted, σ, .reply rfl, rfl, rfl⟩

/-- An item is the first of what is shown, and an ending comes when there is no more. -/
lemma Shows.of_pulls (h : s.Shows view vs ending) (hpull : Pulls σ s r t τ) :
    (∃ v ws, vs = v :: ws ∧ r.seen view = some (.ok v) ∧ t.Shows view ws ending) ∨
      vs = [] ∧ r.ending? = some ending ∧ t = exhausted := by
  obtain ⟨r', t', τ', hpull', hfulfils⟩ := Delivers.pull h σ
  obtain ⟨rfl, rfl, rfl⟩ := hpull.unique hpull'
  cases r with
  | item x =>
    have hrest : t.Delivers fun xs ending' => (x :: xs).map view = vs ∧ ending' = ending := hfulfils
    obtain ⟨xs, _, hxs, -⟩ := hrest.nonempty
    refine .inl ⟨view x, xs.map view, hxs.symm, rfl, hrest.mono ?_⟩
    rintro ys ending' ⟨hys, hending⟩
    exact ⟨List.tail_eq_of_cons_eq (hys.trans hxs.symm), hending⟩
  | failure e =>
    obtain ⟨hvs, rfl⟩ : [] = vs ∧ Ending.failed e = ending := hfulfils
    exact .inr ⟨hvs.symm, rfl, eq_exhausted hpull.isExhausted⟩
  | finished =>
    obtain ⟨hvs, rfl⟩ : [] = vs ∧ Ending.finished = ending := hfulfils
    exact .inr ⟨hvs.symm, rfl, eq_exhausted hpull.isExhausted⟩

/-- **Sequences that show the same look alike.** -/
theorem Shows.looksLike (h : s.Shows view vs ending) (h' : t.Shows view vs ending) : s.LooksLike view t := by
  let R (s t : Sequence) : Prop := ∃ vs ending, s.Shows view vs ending ∧ t.Shows view vs ending
  have hR : Mirrors view R := by
    rintro s t s' σ σ' r ⟨vs, ending, hs, ht⟩ hpull τ
    obtain ⟨r', t', τ', hpull', -⟩ := Delivers.pull ht τ
    refine ⟨r', t', τ', hpull', ?_⟩
    obtain ⟨v, ws, rfl, hseen, hs'⟩ | ⟨rfl, hr, rfl⟩ := hs.of_pulls hpull
    · obtain ⟨_, _, ⟨⟩, hseen', ht'⟩ | ⟨⟨⟩, -⟩ := ht.of_pulls hpull'
      exact ⟨hseen'.trans hseen.symm, ws, ending, hs', ht'⟩
    · obtain ⟨_, _, ⟨⟩, -⟩ | ⟨-, hr', rfl⟩ := ht.of_pulls hpull'
      refine ⟨?_, [], .finished, shows_exhausted, shows_exhausted⟩
      rcases r with _ | _ | _ <;> rcases r' with _ | _ | _ <;> cases hr <;> cases hr' <;> rfl
  refine ⟨R, hR, ?_, vs, ending, h, h'⟩
  rintro t s t' τ τ' r ⟨vs, ending, hs, ht⟩ hpull σ
  obtain ⟨r', s', σ', hpull', hseen, ws, ending', ht', hs'⟩ := hR ⟨vs, ending, ht, hs⟩ hpull σ
  exact ⟨r', s', σ', hpull', hseen, ws, ending', hs', ht'⟩

end Shows

end Sequence

end LazyQuery
