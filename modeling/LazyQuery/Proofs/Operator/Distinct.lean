import LazyQuery.Operator.Apply
import LazyQuery.Proofs.Sequence.Sifting
import Mathlib.Data.List.Sort

/-!
# Distinct items

The operator `distinct` compares each item with those it has kept, which need be no equivalence: of `1`, `"1"` and `"1.0"` the
number is equal to both strings, and they are not equal to each other.  So it depends on the order of the items which of them
are kept.

* `unmatched` — the items that are kept, each of them matched by none that is kept before it;
* `KeepsGreedily` — what may be said of the positions of these: none matches a later one, and one of them matches each of the
  others from in front of it.  Only one choice of positions is like this (`keepsGreedily_iff`), for every relation.

What is kept is kept again (`unmatched_unmatched`).  The main statement is `distinct_keeps_greedily`.
-/

namespace LazyQuery

open List (finRange)

/-! ### The items that are kept -/

section Unmatched

variable {α β : Type} {R : α → α → Bool} {kept xs : List α} {x : α}

/-- The items that no item kept before them matches, the earlier of the two being the left one. -/
def unmatched (R : α → α → Bool) (kept : List α) : List α → List α
  | [] => []
  | x :: xs => if kept.any (R · x) then unmatched R kept xs else x :: unmatched R (kept ++ [x]) xs

lemma any_eq_false_iff : kept.any (R · x) = false ↔ ∀ y ∈ kept, R y x = false := by
  simp [List.any_eq_false]

lemma unmatched_sublist (R : α → α → Bool) (kept xs : List α) : (unmatched R kept xs).Sublist xs := by
  induction xs generalizing kept with
  | nil => exact .refl []
  | cons x xs ih =>
    rw [unmatched]
    split
    · exact (ih kept).cons x
    · exact (ih _).cons_cons x

lemma unmatched_map (f : β → α) (kept xs : List β) :
    unmatched R (kept.map f) (xs.map f) = (unmatched (fun a b => R (f a) (f b)) kept xs).map f := by
  induction xs generalizing kept with
  | nil => rfl
  | cons x xs ih =>
    have hkept : (kept.map f).any (R · (f x)) = kept.any fun a => R (f a) (f x) := List.any_map
    have hnext := ih (kept ++ [x])
    rw [List.map_append, List.map_singleton] at hnext
    rw [List.map_cons, unmatched, unmatched, hkept, ih kept, hnext]
    split <;> rfl

/-- **No item that is kept matches a later one.** -/
theorem pairwise_unmatched (hkept : kept.Pairwise fun a b => R a b = false) (xs : List α) :
    (kept ++ unmatched R kept xs).Pairwise fun a b => R a b = false := by
  -- on the items; those that are kept so far grow at their end
  induction xs generalizing kept with
  | nil => simpa [unmatched] using hkept
  | cons x xs ih =>
    rw [unmatched]
    cases hx : kept.any (R · x) with
    | true => exact ih hkept
    | false =>
      have hnext : (kept ++ [x]).Pairwise fun a b => R a b = false :=
        List.pairwise_append.mpr ⟨hkept, List.pairwise_singleton _ _, fun a ha b hb =>
          List.mem_singleton.mp hb ▸ any_eq_false_iff.mp hx a ha⟩
      simpa using ih hnext

/-- Where no item matches a later one, all are kept. -/
lemma unmatched_of_pairwise (h : (kept ++ xs).Pairwise fun a b => R a b = false) : unmatched R kept xs = xs := by
  induction xs generalizing kept with
  | nil => rfl
  | cons x xs ih =>
    obtain ⟨-, -, hacross⟩ := List.pairwise_append.mp h
    have hx : kept.any (R · x) = false := any_eq_false_iff.mpr fun a ha => hacross a ha x List.mem_cons_self
    rw [List.append_cons] at h
    rw [unmatched, hx, ih h]
    rfl

/-- **What is kept is kept again.** -/
theorem unmatched_unmatched (R : α → α → Bool) (xs : List α) : unmatched R [] (unmatched R [] xs) = unmatched R [] xs :=
  unmatched_of_pairwise (pairwise_unmatched .nil xs)

/-- **An item that is not kept is matched** by one kept from the start, or by one that is kept and stands before it. -/
theorem exists_match_of_not_mem {precedes : α → α → Prop} (hxs : xs.Pairwise precedes) (hx : x ∈ xs)
    (hnot : x ∉ unmatched R kept xs) :
    (∃ y ∈ kept, R y x = true) ∨ ∃ y ∈ unmatched R kept xs, precedes y x ∧ R y x = true := by
  induction xs generalizing kept with
  | nil => cases hx
  | cons a xs ih =>
    obtain ⟨hbehind, hxs⟩ := List.pairwise_cons.mp hxs
    rw [unmatched] at hnot ⊢
    cases ha : kept.any (R · a) with
    | true =>
      rw [ha] at hnot
      rcases List.mem_cons.mp hx with rfl | hx
      · exact .inl (List.any_eq_true.mp ha)
      · exact ih hxs hx hnot
    | false =>
      rw [ha] at hnot
      have hx : x ∈ xs := (List.mem_cons.mp hx).resolve_left (List.ne_of_not_mem_cons hnot)
      -- `a` counts as kept for those behind it, and it stands before all of them
      rcases ih hxs hx (List.not_mem_of_not_mem_cons hnot) with ⟨y, hy, hmatch⟩ | ⟨y, hy, hprecedes, hmatch⟩
      · rcases List.mem_append.mp hy with hy | hy
        · exact .inl ⟨y, hy, hmatch⟩
        · cases List.mem_singleton.mp hy
          exact .inr ⟨a, List.mem_cons_self, hbehind x hx, hmatch⟩
      · exact .inr ⟨y, List.mem_cons_of_mem _ hy, hprecedes, hmatch⟩

end Unmatched

/-! ### The positions that are kept -/

/-- Of the items those at the positions `kept` are kept: none of them matches a later one, and every other item is matched by
one of them that stands before it. -/
structure KeepsGreedily (R : Item → Item → Bool) (items : List Item) (kept : List (Fin items.length)) : Prop where
  inOrder : kept.Pairwise (· < ·)
  unmatched : kept.Pairwise fun i j => R (items.get i) (items.get j) = false
  matched (j) : j ∉ kept → ∃ i ∈ kept, i < j ∧ R (items.get i) (items.get j) = true

section Positions

variable {R : Item → Item → Bool} {items : List Item} {kept kept' : List (Fin items.length)}

lemma KeepsGreedily.eq_false (h : KeepsGreedily R items kept) {i j : Fin items.length} (hi : i ∈ kept) (hj : j ∈ kept)
    (hij : i < j) : R (items.get i) (items.get j) = false := by
  obtain ⟨a, ha, rfl⟩ := List.getElem_of_mem hi
  obtain ⟨b, hb, rfl⟩ := List.getElem_of_mem hj
  rcases Nat.lt_trichotomy a b with hab | rfl | hba
  · exact List.pairwise_iff_getElem.mp h.unmatched a b ha hb hab
  · exact absurd hij (lt_irrefl _)
  · exact absurd (List.pairwise_iff_getElem.mp h.inOrder b a hb ha hba) (lt_asymm hij)

/-- Whether a position is kept is settled by those before it. -/
lemma KeepsGreedily.mem_of_mem (h : KeepsGreedily R items kept) (h' : KeepsGreedily R items kept') {j : Fin items.length}
    (hbefore : ∀ i < j, i ∈ kept' → i ∈ kept) (hj : j ∈ kept) : j ∈ kept' := by
  by_contra hnot
  obtain ⟨i, hi, hij, hmatch⟩ := h'.matched j hnot
  rw [h.eq_false (hbefore i hij hi) hj hij] at hmatch
  cases hmatch

lemma KeepsGreedily.mem_iff (h : KeepsGreedily R items kept) (h' : KeepsGreedily R items kept') (j : Fin items.length) :
    j ∈ kept ↔ j ∈ kept' := by
  induction j using WellFoundedLT.induction with
  | ind j ih => exact ⟨h.mem_of_mem h' fun i hij => (ih i hij).mpr, h'.mem_of_mem h fun i hij => (ih i hij).mp⟩

/-- The positions of the items that are kept. -/
def keptPositions (R : Item → Item → Bool) (items : List Item) : List (Fin items.length) :=
  unmatched (fun i j => R (items.get i) (items.get j)) [] (finRange items.length)

lemma unmatched_eq_map_get (R : Item → Item → Bool) (items : List Item) :
    unmatched R [] items = (keptPositions R items).map items.get := by
  rw [keptPositions, ← unmatched_map, List.map_nil, List.map_get_finRange]

lemma keepsGreedily_keptPositions (R : Item → Item → Bool) (items : List Item) :
    KeepsGreedily R items (keptPositions R items) where
  inOrder := (List.sortedLT_finRange items.length).pairwise.sublist (unmatched_sublist _ _ _)
  unmatched := pairwise_unmatched .nil _
  matched j hj := by
    rcases exists_match_of_not_mem (List.sortedLT_finRange items.length).pairwise (List.mem_finRange j) hj with
      ⟨i, hi, -⟩ | hmatch
    · cases hi
    · exact hmatch

/-- **There is one greedy choice of positions**, those of the items that are kept. -/
theorem keepsGreedily_iff : KeepsGreedily R items kept ↔ kept = keptPositions R items := by
  constructor
  · intro h
    have hkept := keepsGreedily_keptPositions R items
    exact h.inOrder.eq_of_mem_iff hkept.inOrder fun j => h.mem_iff hkept j
  · rintro rfl
    exact keepsGreedily_keptPositions R items

end Positions

/-! ### The stage -/

/-- The part compares items as `R` says, in whatever session: by the function it is given, or else loosely. -/
def Part.ComparesBy (part : Part) (R : Item → Item → Bool) : Prop :=
  match part.function? 0 with
  | none => R = Item.looselyEqual
  | some comparer => ∀ a b σ, (comparer.test2 a b σ).1 = R a b

lemma Part.ComparesBy.holds {part : Part} {R : Item → Item → Bool} (h : part.ComparesBy R) (a b : Item) (σ : Session) :
    (part.equality.holds a b σ).1 = R a b := by
  unfold Part.ComparesBy at h
  unfold Part.equality
  cases hcomparer : part.function? 0 with
  | none =>
    rw [hcomparer] at h
    rw [h]
    rfl
  | some comparer =>
    rw [hcomparer] at h
    exact h a b σ

namespace Stage

section Distinct

variable {equality : Equality} {R : Item → Item → Bool} (hR : ∀ a b σ, (equality.holds a b σ).1 = R a b)

include hR

lemma anyEquals_fst (x : Item) (kept : List Item) (σ : Session) :
    (anyEquals equality x kept σ).1 = kept.any (R · x) := by
  induction kept generalizing σ with
  | nil => rfl
  | cons earlier kept ih =>
    have hholds : equality.holds earlier x σ = (R earlier x, (equality.holds earlier x σ).2) := Prod.ext (hR _ _ _) rfl
    rw [anyEquals, Eff.bind_run hholds, List.any_cons]
    cases R earlier x with
    | true => rfl
    | false => exact ih _

lemma receive_distinct_fst (x : Item) (kept : List Item) (σ : Session) :
    (receive x (.distinct equality kept) σ).1 =
      if kept.any (R · x) then .drop (.distinct equality kept) else .yield x (.distinct equality (kept ++ [x])) := by
  have hany : anyEquals equality x kept σ = (kept.any (R · x), (anyEquals equality x kept σ).2) :=
    Prod.ext (anyEquals_fst hR x kept σ) rfl
  rw [receive, Eff.bind_run hany]
  rfl

lemma outcome_distinct {x : Item} {kept : List Item} {outcome : Outcome}
    (h : (receive x (.distinct equality kept)).Answers outcome) :
    kept.any (R · x) = true ∧ outcome = .drop (.distinct equality kept) ∨
      kept.any (R · x) = false ∧ outcome = .yield x (.distinct equality (kept ++ [x])) := by
  obtain ⟨σ, τ, hreceive⟩ := h
  have houtcome := receive_distinct_fst hR x kept σ
  rw [hreceive] at houtcome
  cases hany : kept.any (R · x) with
  | true => exact .inl ⟨rfl, by simpa [hany] using houtcome⟩
  | false => exact .inr ⟨rfl, by simpa [hany] using houtcome⟩

/-- **The stage keeps what is unmatched**, and hands on the ending of its source. -/
theorem respects_distinct : Respects fun stage xs ending ys ending' =>
    ∀ kept, stage = .distinct equality kept → ys = unmatched R kept xs ∧ ending' = ending where
  emit := by
    rintro _ _ _ _ _ _ _ hdemand _ kept rfl
    cases hdemand
  full := by
    rintro _ _ _ hdemand kept rfl
    cases hdemand
  failure := by
    rintro _ e _ kept rfl
    exact ⟨rfl, rfl⟩
  close := by
    rintro _ _ _ _ hclose hcells kept rfl
    cases hclose.of_pure
    cases hcells
    exact ⟨rfl, rfl⟩
  yield := by
    rintro _ _ x _ _ _ _ _ _ hreceive hrest kept rfl
    rcases outcome_distinct hR hreceive with ⟨-, houtcome⟩ | ⟨hany, houtcome⟩ <;> cases houtcome
    obtain ⟨rfl, rfl⟩ := hrest _ rfl
    simp [unmatched, hany]
  drop := by
    rintro _ _ x _ _ _ _ _ hreceive hrest kept rfl
    rcases outcome_distinct hR hreceive with ⟨hany, houtcome⟩ | ⟨-, houtcome⟩ <;> cases houtcome
    obtain ⟨rfl, rfl⟩ := hrest _ rfl
    simp [unmatched, hany]
  stop := by
    rintro _ x _ _ _ hreceive kept rfl
    rcases outcome_distinct hR hreceive with ⟨-, houtcome⟩ | ⟨-, houtcome⟩ <;> cases houtcome
  fail := by
    rintro _ x _ _ _ _ hreceive kept rfl
    rcases outcome_distinct hR hreceive with ⟨-, houtcome⟩ | ⟨-, houtcome⟩ <;> cases houtcome

/-- Where the comparing does nothing in the session, the stage sifts. -/
lemma sifts_distinct (hpure : ∀ a b σ, (equality.holds a b σ).2 = σ) (kept xs : List Item) :
    ∃ last, Sifts (.distinct equality kept) xs (unmatched R kept xs) (.distinct equality last) := by
  have hany (x : Item) (kept : List Item) (σ : Session) : (anyEquals equality x kept σ).2 = σ := by
    induction kept generalizing σ with
    | nil => rfl
    | cons earlier kept ih =>
      have hholds : equality.holds earlier x σ = ((equality.holds earlier x σ).1, σ) := Prod.ext rfl (hpure _ _ _)
      rw [anyEquals, Eff.bind_run hholds]
      cases (equality.holds earlier x σ).1 with
      | true => rfl
      | false => exact ih σ
  have hreceive (x : Item) (kept : List Item) : receive x (.distinct equality kept) = pure
      (if kept.any (R · x) then .drop (.distinct equality kept) else .yield x (.distinct equality (kept ++ [x]))) := by
    funext σ
    exact Prod.ext (receive_distinct_fst hR x kept σ) (hany x kept σ)
  induction xs generalizing kept with
  | nil => exact ⟨kept, .start rfl⟩
  | cons x xs ih =>
    rw [unmatched]
    cases hx : kept.any (R · x) with
    | true =>
      obtain ⟨last, hrest⟩ := ih kept
      exact ⟨last, .drop rfl (by rw [hreceive, hx]; rfl) hrest⟩
    | false =>
      obtain ⟨last, hrest⟩ := ih (kept ++ [x])
      exact ⟨last, .keep rfl (by rw [hreceive, hx]; rfl) hrest⟩

end Distinct

end Stage

namespace Sequence

variable {equality : Equality} {R : Item → Item → Bool} (hR : ∀ a b σ, (equality.holds a b σ).1 = R a b)

include hR

lemma Delivers.distinct {s : Sequence} {P : List Item → Ending → Prop} (h : s.Delivers P) :
    (Sequence.through (.distinct equality []) s).Delivers fun ys ending => ∃ xs, P xs ending ∧ ys = unmatched R [] xs := by
  refine (h.through (Stage.respects_distinct hR) (.distinct equality [])).mono ?_
  rintro ys ending' ⟨xs, ending, hxs, hkept⟩
  obtain ⟨hys, rfl⟩ := hkept [] rfl
  exact ⟨xs, hxs, hys⟩

lemma makes_distinct (hpure : ∀ a b σ, (equality.holds a b σ).2 = σ) (s : Sequence) :
    Makes s (.through (.distinct equality []) s) (unmatched R []) (unmatched R []) := by
  refine makes_sift_nil fun xs => ?_
  obtain ⟨last, hsifts⟩ := Stage.sifts_distinct hR hpure [] xs
  exact ⟨_, hsifts, rfl⟩

end Sequence

/-- **Distinct items are kept greedily.**  For every source and whatever the items are compared by, be it loose equality or any
function whose answers depend on the two items alone, the earlier of which is its first argument:

* what the operator delivers of a source, however that ends, are the items it keeps; and so it does when it is applied to these
  again;
* where the comparing does nothing else in the session, this is so as far as the source is gone through, too;
* the items it keeps are those at the positions that are kept greedily, of which there is one choice. -/
theorem distinct_keeps_greedily (source : Sequence) (arguments : List Argument) (R : Item → Item → Bool)
    (hR : (⟨.distinct, arguments⟩ : Part).ComparesBy R) :
    ∃ once twice : Sequence,
      (∀ budget, apply budget (.sequence source) ⟨.distinct, arguments⟩ = pure (.sequence once)) ∧
      (∀ budget, apply budget (.sequence once) ⟨.distinct, arguments⟩ = pure (.sequence twice)) ∧
      (∀ P, source.Delivers P →
        once.Delivers (fun ys ending => ∃ xs, P xs ending ∧ ys = unmatched R [] xs) ∧
        twice.Delivers fun ys ending => ∃ xs, P xs ending ∧ ys = unmatched R [] xs) ∧
      ((∀ a b σ, ((⟨.distinct, arguments⟩ : Part).equality.holds a b σ).2 = σ) →
        source.Makes once (unmatched R []) (unmatched R []) ∧ source.Makes twice (unmatched R []) (unmatched R [])) ∧
      ∀ items, ∃ positions : List (Fin items.length), unmatched R [] items = positions.map items.get ∧
        ∀ kept, KeepsGreedily R items kept ↔ kept = positions := by
  have hholds := hR.holds
  refine ⟨_, _, fun _ => rfl, fun _ => rfl, fun P hsource => ?_, fun hpure => ?_, fun items => ?_⟩
  · have honce := hsource.distinct hholds
    refine ⟨honce, (honce.distinct hholds).mono ?_⟩
    rintro ys ending ⟨xs, ⟨zs, hzs, rfl⟩, rfl⟩
    exact ⟨zs, hzs, unmatched_unmatched R zs⟩
  · have honce := Sequence.makes_distinct hholds hpure source
    have htwice := honce.trans (Sequence.makes_distinct hholds hpure _)
    simp only [unmatched_unmatched] at htwice
    exact ⟨honce, htwice⟩
  · exact ⟨keptPositions R items, unmatched_eq_map_get R items, fun kept => keepsGreedily_iff⟩

/-- Loosely, of `"1"`, 1 and `"1.0"` the two strings are kept; and where everything behind null is matched, nothing of it is
kept, not even null. -/
theorem distinct_keeps_greedily_null :
    (∃ once, (∀ budget, apply budget (.sequence (.ofItems [.string "1", .number (.ofNat 1), .string "1.0"])) ⟨.distinct, []⟩ =
        pure (.sequence once)) ∧
      Sequence.Drains {} once [.string "1", .string "1.0"] .finished {}) ∧
    ∃ once, (∀ budget, apply budget (.sequence (.ofItems [.bool true, .null, .bool true, .null]))
        ⟨.distinct, [.function (.binary fun a _ => return .bool a.isNull)]⟩ = pure (.sequence once)) ∧
      Sequence.Drains {} once [.bool true, .null] .finished {} := by
  constructor
  · obtain ⟨once, _, honce, -, -, hmakes, -⟩ := distinct_keeps_greedily
      (.ofItems [.string "1", .number (.ofNat 1), .string "1.0"]) [] Item.looselyEqual rfl
    exact ⟨once, honce, (hmakes fun _ _ _ => rfl).1.2 {} _ {} (Sequence.drains_queue _ {})⟩
  · obtain ⟨once, _, honce, -, -, hmakes, -⟩ := distinct_keeps_greedily (.ofItems [.bool true, .null, .bool true, .null])
      [.function (.binary fun a _ => return .bool a.isNull)] (fun a _ => a.isNull) fun _ _ _ => rfl
    exact ⟨once, honce, (hmakes fun _ _ _ => rfl).1.2 {} _ {} (Sequence.drains_queue _ {})⟩

end LazyQuery
