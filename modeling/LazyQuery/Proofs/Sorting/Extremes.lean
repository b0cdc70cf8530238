import LazyQuery.Proofs.Operator.Elements
import LazyQuery.Proofs.Sorting.Fusion

/-!
# The smallest and the largest come first in order

`min` and `max` keep one value while they go through their source, and replace it by one that is smaller, or larger.  What is
left at the end is the first of the smallest, or of the largest (`IsForemost`), and a stable sort puts just this one in front
(`head?_stableOrder_iff`, `foldl_better`).

The main statement is `Engine.extremes_come_first_in_order`.
-/

namespace LazyQuery

open Sequence

/-! ### First in the stable order -/

section Foremost

open List

variable {α β : Type} (cmp : α → α → Ordering)

/-- The item at this position stands in order before all others: none compares as less, and those that equal it come later. -/
def IsForemost (items : List α) (i : Fin items.length) : Prop :=
  ∀ j, j ≠ i → InOrder (compareAt cmp items) (· < ·) i j

/-- The better of what is kept and the next item: that one only if it compares as less. -/
def better (kept : Option α) (x : α) : Option α :=
  match kept with
  | some current => some (if cmp x current = .lt then x else current)
  | none => some x

/-- The one of two items that comes first in order, which of equal items is the former. -/
def earlier (a b : α) : α :=
  if (cmp a b).isLE then a else b

variable [Std.TransCmp cmp]

/-- **The first position in the stable order is the foremost one.** -/
theorem head?_stableOrder_iff {items : List α} {i : Fin items.length} :
    (stableOrder cmp items).head? = some i ↔ IsForemost cmp items i := by
  have horder := (isStableOrder_iff cmp items).mpr rfl
  have hforemost {i : Fin items.length} (hi : (stableOrder cmp items).head? = some i) : IsForemost cmp items i := by
    obtain ⟨rest, hrest⟩ := head?_eq_some_iff.mp hi
    obtain ⟨hperm, hpairwise⟩ := horder
    rw [hrest] at hperm hpairwise
    intro j hj
    have hmem : j ∈ i :: rest := hperm.mem_iff.mpr (mem_finRange j)
    exact (pairwise_cons.mp hpairwise).1 j ((mem_cons.mp hmem).resolve_left hj)
  refine ⟨hforemost, fun hi => ?_⟩
  cases hhead : (stableOrder cmp items).head? with
  | none =>
    have hmem : i ∈ stableOrder cmp items := horder.1.mem_iff.mpr (mem_finRange i)
    rw [head?_eq_none_iff.mp hhead] at hmem
    cases hmem
  | some i' =>
    by_contra hne
    have hne' : i' ≠ i := fun h => hne (by rw [h])
    exact not_inOrder_swap (compareAt cmp items) Fin.val (hi i' hne') (hforemost hhead i hne'.symm)

/-- An item that is put before others is first if it comes before the first of them. -/
lemma head?_stableSort_cons (a : α) (items : List α) : (stableSort cmp (a :: items)).head? =
    some (match (stableSort cmp items).head? with
      | some b => earlier cmp a b
      | none => a) := by
  obtain ⟨before, after, hsort, hsplit, hbefore⟩ := mergeSort_cons (isLE_trans cmp) (isLE_total cmp) a items
  have hordered : (before ++ a :: after).Pairwise fun a b => (cmp a b).isLE := by
    rw [← hsort]
    exact pairwise_mergeSort (isLE_trans cmp) (isLE_total cmp) (a :: items)
  rw [stableSort, hsort, stableSort, hsplit]
  cases before with
  | cons b before =>
    have hb : ¬ (cmp a b).isLE := by simpa using hbefore b mem_cons_self
    simp [earlier, hb]
  | nil =>
    cases after with
    | nil => rfl
    | cons b after =>
      have hle : (cmp a b).isLE := (pairwise_cons.mp hordered).1 b mem_cons_self
      simp [earlier, hle]

/-- The next item replaces the one that is kept only if it comes before it. -/
lemma better_some (a x : α) : better cmp (some a) x = some (earlier cmp a x) := by
  rw [better, earlier, cmp_swap cmp a x]
  cases cmp a x <;> rfl

lemma earlier_assoc (a x b : α) : earlier cmp (earlier cmp a x) b = earlier cmp a (earlier cmp x b) := by
  by_cases hax : (cmp a x).isLE
  · by_cases hxb : (cmp x b).isLE
    · have hab := isLE_trans cmp a x b hax hxb
      simp [earlier, hax, hxb, hab]
    · simp [earlier, hax, hxb]
  · have hxa : (cmp x a).isLE := by simpa [hax] using isLE_total cmp a x
    by_cases hxb : (cmp x b).isLE
    · simp [earlier, hax, hxb]
    · have hab : ¬ (cmp a b).isLE := fun h => hxb (isLE_trans cmp x a b hxa h)
      simp [earlier, hax, hxb, hab]

/-- **What is kept of the items is what a stable sort puts in front.** -/
theorem foldl_better (items : List α) : items.foldl (better cmp) none = (stableSort cmp items).head? := by
  -- on the items; the one that is kept counts as the first of them
  have hsome (a : α) (items : List α) : items.foldl (better cmp) (some a) = (stableSort cmp (a :: items)).head? := by
    induction items generalizing a with
    | nil => simp [stableSort]
    | cons x items ih =>
      rw [foldl_cons, better_some, ih, head?_stableSort_cons, head?_stableSort_cons cmp a, head?_stableSort_cons cmp x]
      cases (stableSort cmp items).head? with
      | some b => exact congrArg some (earlier_assoc cmp a x b)
      | none => rfl
  cases items with
  | nil => simp [stableSort]
  | cons a items => exact hsome a items

/-- Comparing by what is seen of the items. -/
instance transCmp_seen (f : β → α) : Std.TransCmp fun a b => cmp (f a) (f b) where
  eq_swap := cmp_swap cmp _ _
  isLE_trans := isLE_trans cmp _ _ _

/-- **What a stable sort puts in front stands at the foremost position.** -/
theorem head?_stableSort_map_iff (f : β → α) {items : List β} {a : α} :
    (stableSort cmp (items.map f)).head? = some a ↔
      ∃ i, IsForemost (fun a b => cmp (f a) (f b)) items i ∧ a = f (items.get i) := by
  rw [← map_stableSort (fun a b => cmp (f a) (f b)) cmp f fun _ _ _ _ => rfl, ← map_get_stableOrder, head?_map, head?_map]
  cases hhead : (stableOrder (fun a b => cmp (f a) (f b)) items).head? with
  | none =>
    simp only [← head?_stableOrder_iff, hhead]
    simp
  | some i =>
    simp only [← head?_stableOrder_iff, hhead]
    simp [eq_comm]

end Foremost

/-! ### All values of a source -/

/-- What `select` makes of the source, or the source itself where there is no function. -/
def Sequence.projected (source : Sequence) : Option Callable → Sequence
  | some f => .through (.select f) source
  | none => source

/-- **A loop on the values of a source** is a loop on the source, with the function called at each step. -/
theorem Sequence.comesTo_reduce_projected {α β : Type} {step : α → Item → Eval (Verdict α β)}
    {finish : α → Except QueryError β} {state : α} {selector : Option Callable} {s : Sequence} {σ τ : Session}
    {result : Except QueryError β} :
    Eval.ComesTo (fun budget => reduce step finish budget state (s.projected selector)) σ result τ ↔
      Eval.ComesTo (fun budget => reduce (fun state x => do step state (← Callable.project selector x)) finish budget state s)
        σ result τ := by
  cases selector with
  | none => exact Iff.rfl
  | some f => exact comesTo_reduce_link ⟨true, f, []⟩

/-- The scan that takes the values of all items. -/
def valuesScan (selector : Option Callable) : Scan Item (List Item) where
  work := Callable.project selector
  settles _ _ _ := none
  otherwise visits := visits.map Prod.snd

section Values

variable {selector : Option Callable} {s : Sequence} {σ τ : Session} {outcome : Except QueryError (List Item)}

lemma gives_values_iff : (valuesScan selector).Gives [] σ s outcome τ ↔
    ∃ fed ending, FeedsAll (Callable.project selector) σ s fed ending τ ∧ outcome = ending.result (fed.map Prod.snd) :=
  Scan.gives_iff_of_never fun _ _ _ => rfl

lemma comesTo_collect_projected : Eval.ComesTo (fun budget => (s.projected selector).collect budget) σ outcome τ ↔
    (valuesScan selector).Gives [] σ s outcome τ := by
  have hcollects : (valuesScan selector).Implements (fun visits => (visits.map Prod.snd).reverse) .ok
      (fun held x => do return .more ((← Callable.project selector x) :: held)) fun held => .ok held.reverse := by
    refine ⟨fun visits x => congrArg _ (funext fun c => ?_), fun visits => congrArg Except.ok (List.reverse_reverse _)⟩
    simp [valuesScan]
  exact comesTo_reduce_projected.trans (hcollects.comesTo_gives_iff [])

/-- **The values of a source are what the projected source hands out.** -/
theorem feedsAll_iff_drains_projected :
    (∃ fed ending, FeedsAll (Callable.project selector) σ s fed ending τ ∧ outcome = ending.result (fed.map Prod.snd)) ↔
      ∃ values ending, Drains σ (s.projected selector) values ending τ ∧ outcome = ending.outcome values := by
  rw [← gives_values_iff, ← comesTo_collect_projected, ← collect_iff_drains]
  exact Eval.comesTo_iff_of_persists (reduce_persists _ _ _ _)

end Values

/-! ### The first of a sorted source -/

/-- The first of the items, if there is one. -/
def Found.head (items : List Item) : Found :=
  match items.head? with
  | some x => .item x
  | none => .empty

section First

variable {arrange : List Item → Eff (List Item)} {f : List Item → List Item} {xs : List Item} {ending : Ending}
  {s : Sequence} {σ τ : Session} {outcome : Except QueryError Found}

lemma gives_first_of_drains (harrange : ∀ xs τ, arrange xs τ = (f xs, τ)) (h : Drains σ s xs ending τ) :
    (Element.first.scan none 0).Gives [] σ (.through (.gather arrange []) s)
      ((ending.outcome xs).map fun xs => Found.head (f xs)) τ := by
  cases ending with
  | failed e => exact .failed (pulls_gather_of_failed h)
  | finished =>
    have hworks : Works σ (.through (.gather arrange []) s) _ τ := works_gather_of_finished h (harrange xs τ)
    show Scan.Gives _ [] σ _ (.ok (Found.head (f xs))) τ
    cases hys : f xs with
    | nil =>
      rw [hys] at hworks
      exact .finished (hworks.pulls (.reply rfl))
    | cons y ys =>
      rw [hys] at hworks
      exact .settled (hworks.pulls (.reply rfl)) rfl rfl

/-- **The first of an arranged source is the first of its items as they are arranged.** -/
theorem gives_first_gather_iff (harrange : ∀ xs τ, arrange xs τ = (f xs, τ)) :
    (Element.first.scan none 0).Gives [] σ (.through (.gather arrange []) s) outcome τ ↔
      ∃ xs ending, Drains σ s xs ending τ ∧ outcome = (ending.outcome xs).map fun xs => Found.head (f xs) := by
  constructor
  · intro h
    obtain ⟨r, t, υ, hpull⟩ := h.exists_pulls
    obtain ⟨xs, ending, ω, hdrains⟩ := exists_drains_of_pulls_gather hpull
    obtain ⟨rfl, rfl⟩ := h.unique (gives_first_of_drains harrange hdrains)
    exact ⟨xs, ending, hdrains, rfl⟩
  · rintro ⟨xs, ending, hdrains, rfl⟩
    exact gives_first_of_drains harrange hdrains

end First

/-! ### Directions -/

namespace Direction

/-- The comparison of items in this direction. -/
def compare (direction : Direction) (a b : Item) : Ordering :=
  direction.apply (a.order b)

/-- The operator that comes to the first value in this direction. -/
def extreme : Direction → Operator
  | .ascending => .min
  | .descending => .max

/-- How a value stands to the one that is kept if it is to replace it. -/
def wanted : Direction → Ordering
  | .ascending => .lt
  | .descending => .gt

/-- The key that sorts items by themselves. -/
def key (direction : Direction) : SortKey :=
  ⟨.unary pure, direction⟩

lemma compare_key (direction : Direction) : direction.key.compare = direction.compare := by
  funext a b
  rw [SortKey.compare, compare, ← Item.order_contents a b]
  rfl

instance transCmp_compare (direction : Direction) : Std.TransCmp direction.compare := by
  rw [← compare_key]
  infer_instance

lemma compare_eq_lt_iff (direction : Direction) (a b : Item) :
    direction.compare a b = .lt ↔ a.order b = direction.wanted := by
  cases direction with
  | ascending => exact Iff.rfl
  | descending =>
    rw [compare, apply, wanted]
    cases a.order b <;> simp

end Direction

section Directions

variable (direction : Direction) {selector : Option Callable} {s : Sequence} {σ τ : Session}

/-- Sorting items by themselves is free of work. -/
lemma sortByKeys_key (items : List Item) (σ : Session) :
    sortByKeys [direction.key] items σ = (stableSort direction.compare items, σ) := by
  have hcompare (a b : Item) (τ : Session) (h : τ = σ) :
      ∃ υ, υ = σ ∧ compareInTurn [direction.key] a b τ = (direction.compare a b, υ) := by
    have hcall (x : Item) : direction.key.selector.call x τ = (x, τ) := rfl
    have hdecided : direction.key.direction.apply (a.order b) = direction.compare a b := rfl
    refine ⟨τ, h, ?_⟩
    rw [compareInTurn, Eff.bind_run (hcall a), Eff.bind_run (hcall b), hdecided]
    cases direction.compare a b <;> rfl
  obtain ⟨τ, rfl, hsort⟩ := sortByKeys_of_compareInTurn hcompare items rfl
  exact hsort

/-- What the operator of this name comes to with the values of its source. -/
def extremeOf (direction : Direction) (name : String) (values : List Item) : Except QueryError Output :=
  (kept name (stableSort direction.compare values).head?).map .value

/-- **One pass comes to what a stable sort puts in front.** -/
theorem extreme_comesTo (name : String) {result : Except QueryError Item} :
    Eval.ComesTo (fun budget => s.extreme name direction.wanted selector budget) σ result τ ↔
      ∃ outcome, (valuesScan selector).Gives [] σ s outcome τ ∧
        result = outcome >>= fun values => kept name (stableSort direction.compare values).head? := by
  have himplements : (valuesScan selector).Implements
      (fun visits => (visits.map Prod.snd).foldl (better direction.compare) none)
      (fun values => kept name (stableSort direction.compare values).head?)
      (fun (best : Option Item) item => do
        let value ← Callable.project selector item
        match best with
        | some current => return .more (some (if value.order current = direction.wanted then value else current))
        | none => return .more (some value))
      (kept name) := by
    refine ⟨fun visits x => congrArg _ (funext fun c => ?_), fun visits => ?_⟩
    · have hnext : ((visits ++ [(x, c)]).map Prod.snd).foldl (better direction.compare) none =
          better direction.compare ((visits.map Prod.snd).foldl (better direction.compare) none) c := by
        simp
      rw [hnext]
      cases (visits.map Prod.snd).foldl (better direction.compare) none with
      | none => rfl
      | some current =>
        simp only [better, direction.compare_eq_lt_iff]
        rfl
    · exact congrArg (kept name) (foldl_better direction.compare _)
  exact himplements.comesTo_iff []

end Directions

/-! ### Queries -/

/-- The parts that put the function on a source, if there is one. -/
def selections : Option Callable → List Part
  | some f => [⟨.select, [.function f]⟩]
  | none => []

/-- The part that comes to the first value in the direction. -/
def extremePart (direction : Direction) (selector : Option Callable) : Part :=
  ⟨direction.extreme, selector.toList.map .function⟩

/-- The parts that sort the values in the direction and take the first. -/
def firstInOrder (direction : Direction) (selector : Option Callable) : List Part :=
  selections selector ++ [Engine.byItem .starts direction, ⟨.first .fails, []⟩]

namespace Engine

variable (engine : Engine)

/-- With every budget that is large enough, the query comes to the result, and leaves the session `τ`. -/
def ComesTo (source : Sequence) (parts : List Part) (σ : Session) (result : Except QueryError Output) (τ : Session) : Prop :=
  Eval.ComesTo (fun budget => (executeSequence { engine with budget } source parts).unlogged) σ result τ

/-- The query comes to the value at the foremost position of the source, compared by the values.  It fails with the error of
the source, if the source ends with one, and with an error of the given name if the source is empty, and only then. -/
def PicksForemost (direction : Direction) (selector : Option Callable) (source : Sequence) (parts : List Part)
    (name : String) : Prop :=
  ∀ σ τ,
    (∀ output, engine.ComesTo source parts σ (.ok output) τ ↔
      ∃ fed i, FeedsAll (Callable.project selector) σ source fed .finished τ ∧
        IsForemost (fun a b => direction.compare a.2 b.2) fed i ∧ output = .value (fed.get i).2) ∧
    ∀ e, engine.ComesTo source parts σ (.error e) τ ↔
      (∃ fed, FeedsAll (Callable.project selector) σ source fed (.failed e) τ) ∨
        FeedsAll (Callable.project selector) σ source [] .finished τ ∧ e = .emptySequence name

section Queries

variable {direction : Direction} {selector : Option Callable} {source : Sequence} {part : Part} {parts : List Part}
  {name : String} {σ τ : Session} {result : Except QueryError Output}

lemma comesTo_single (hpart : part.isOrdering = false) :
    engine.ComesTo source [part] σ result τ ↔ part.ComesTo (.sequence source) σ result τ := by
  have hrun : (fun budget => (executeSequence { engine with budget } source [part]).unlogged) =
      fun budget => apply budget (.sequence source) part := by
    funext budget
    rw [executeSequence_segments, segments_cons_single hpart, segments]
    simp only [interpret, Segment.interpret, bind_pure]
  rw [ComesTo, hrun, Part.ComesTo]

/-- A part that puts stages on the source leaves the rest to the parts behind it. -/
lemma comesTo_cons {stages : List Stage} (hpart : part.isOrdering = false) (hplan : part.plan = .ok (.lazily stages)) :
    engine.ComesTo source (part :: parts) σ result τ ↔ engine.ComesTo (source.withStages stages) parts σ result τ := by
  have hrun : (fun budget => (executeSequence { engine with budget } source (part :: parts)).unlogged) =
      fun budget => (executeSequence { engine with budget } (source.withStages stages) parts).unlogged := by
    funext budget
    rw [executeSequence_segments, executeSequence_segments, segments_cons_single hpart]
    simp only [interpret, Segment.interpret, apply_of_stages _ hplan, pure_bind]
  rw [ComesTo, hrun, ComesTo]

/-- The sort, and then the first of what it hands on. -/
lemma interpret_firstInOrder (budget : Nat) (s : Sequence) :
    interpret budget (segments [byItem .starts direction, ⟨.first .fails, []⟩]) (.sequence s) =
      apply budget (.sequence (s.sorted [direction.key])) (Element.first.part [] .fails) := by
  have hordering : (byItem .starts direction).isOrdering := rfl
  have hsegments : segments [byItem .starts direction, ⟨.first .fails, []⟩] =
      [.ordering (byItem .starts direction) [], .single ⟨.first .fails, []⟩] := by
    rw [segments, if_pos hordering]
    exact congrArg _ ((segments_cons_single rfl []).trans (by rw [segments]))
  have hkeys : readKeys [byItem .starts direction] = .ok [direction.key] := by
    cases direction <;> rfl
  rw [hsegments]
  simp only [interpret, Segment.interpret, hkeys, bind_pure]
  rfl

lemma comesTo_firstInOrder : engine.ComesTo source (firstInOrder direction selector) σ result τ ↔
    (Element.first.part [] .fails).ComesTo (.sequence ((source.projected selector).sorted [direction.key])) σ result τ := by
  have hrun : (fun budget => (executeSequence { engine with budget } source (firstInOrder direction selector)).unlogged) =
      fun budget => apply budget (.sequence ((source.projected selector).sorted [direction.key]))
        (Element.first.part [] .fails) := by
    funext budget
    rw [executeSequence_segments, firstInOrder]
    cases selector with
    | none => exact interpret_firstInOrder budget source
    | some f =>
      rw [selections, List.singleton_append, segments_cons_single rfl]
      exact interpret_firstInOrder budget (.through (.select f) source)
  rw [ComesTo, hrun, Part.ComesTo]

/-- **The operator comes to what a stable sort of all values puts in front.** -/
theorem comesTo_extreme_iff : engine.ComesTo source [extremePart direction selector] σ result τ ↔
    ∃ outcome, (valuesScan selector).Gives [] σ source outcome τ ∧
      result = outcome >>= extremeOf direction direction.extreme.name := by
  have hplan : (extremePart direction selector).plan =
      .ok (.choosing (Sequence.extreme direction.extreme.name direction.wanted selector)) := by
    cases direction <;> cases selector <;> rfl
  have hresult (outcome : Except QueryError (List Item)) :
      (outcome >>= fun values => kept direction.extreme.name (stableSort direction.compare values).head?).map Output.value =
        outcome >>= extremeOf direction direction.extreme.name := by
    cases outcome <;> rfl
  have hpersists : Eval.Persists fun budget =>
      source.extreme direction.extreme.name direction.wanted selector budget := reduce_persists _ _ _ _
  rw [comesTo_single engine (by cases direction <;> rfl), comesTo_of_eagerly (source_sequence _ _) hplan,
    Eval.comesTo_map hpersists]
  simp only [extreme_comesTo]
  constructor
  · rintro ⟨_, ⟨outcome, hgives, rfl⟩, rfl⟩
    exact ⟨outcome, hgives, hresult outcome⟩
  · rintro ⟨outcome, hgives, rfl⟩
    exact ⟨_, ⟨outcome, hgives, rfl⟩, (hresult outcome).symm⟩

/-- **And so does the query that sorts them and takes the first.** -/
theorem comesTo_firstInOrder_iff : engine.ComesTo source (firstInOrder direction selector) σ result τ ↔
    ∃ outcome, (valuesScan selector).Gives [] σ source outcome τ ∧ result = outcome >>= extremeOf direction "first" := by
  have hscan : (Element.first.part [] .fails).ComesTo
      (.sequence ((source.projected selector).sorted [direction.key])) σ result τ ↔
        ∃ outcome, (Element.first.scan none 0).Gives [] σ ((source.projected selector).sorted [direction.key]) outcome τ ∧
          result = outcome >>= Found.result "first" .fails :=
    Element.comesTo_of_scan rfl fun h => by cases h
  have hresult (outcome : Except QueryError (List Item)) :
      (outcome.map fun xs => Found.head (stableSort direction.compare xs)) >>= Found.result "first" .fails =
        outcome >>= extremeOf direction "first" := by
    cases outcome with
    | error e => rfl
    | ok values =>
      show (Found.head _).result "first" .fails = extremeOf direction "first" values
      rw [Found.head, extremeOf]
      cases (stableSort direction.compare values).head? <;> rfl
  rw [comesTo_firstInOrder, hscan]
  simp only [Sequence.sorted, gives_first_gather_iff (sortByKeys_key direction), gives_values_iff,
    feedsAll_iff_drains_projected]
  constructor
  · rintro ⟨_, ⟨values, ending, hdrains, rfl⟩, rfl⟩
    exact ⟨_, ⟨values, ending, hdrains, rfl⟩, hresult _⟩
  · rintro ⟨_, ⟨values, ending, hdrains, rfl⟩, rfl⟩
    exact ⟨_, ⟨values, ending, hdrains, rfl⟩, (hresult _).symm⟩

lemma picksForemost_of_comesTo_iff (h : ∀ {σ result τ}, engine.ComesTo source parts σ result τ ↔
    ∃ outcome, (valuesScan selector).Gives [] σ source outcome τ ∧ result = outcome >>= extremeOf direction name) :
    engine.PicksForemost direction selector source parts name := by
  intro σ τ
  simp only [h, gives_values_iff]
  refine ⟨fun output => ⟨?_, ?_⟩, fun e => ⟨?_, ?_⟩⟩
  · rintro ⟨_, ⟨fed, ending, hfeeds, rfl⟩, hresult⟩
    cases ending with
    | failed e => cases hresult
    | finished =>
      replace hresult : Except.ok output = extremeOf direction name (fed.map Prod.snd) := hresult
      rw [extremeOf] at hresult
      cases hhead : (stableSort direction.compare (fed.map Prod.snd)).head? with
      | none =>
        rw [hhead] at hresult
        cases hresult
      | some value =>
        rw [hhead] at hresult
        cases hresult
        obtain ⟨i, hi, rfl⟩ := (head?_stableSort_map_iff direction.compare Prod.snd).mp hhead
        exact ⟨fed, i, hfeeds, hi, rfl⟩
  · rintro ⟨fed, i, hfeeds, hi, rfl⟩
    refine ⟨_, ⟨fed, .finished, hfeeds, rfl⟩, ?_⟩
    show _ = extremeOf direction name (fed.map Prod.snd)
    rw [extremeOf, (head?_stableSort_map_iff direction.compare Prod.snd).mpr ⟨i, hi, rfl⟩]
    rfl
  · rintro ⟨_, ⟨fed, ending, hfeeds, rfl⟩, hresult⟩
    cases ending with
    | failed e' =>
      cases hresult
      exact .inl ⟨fed, hfeeds⟩
    | finished =>
      replace hresult : Except.error e = extremeOf direction name (fed.map Prod.snd) := hresult
      rw [extremeOf] at hresult
      cases hhead : (stableSort direction.compare (fed.map Prod.snd)).head? with
      | none =>
        rw [hhead] at hresult
        cases hresult
        have hperm := stableSort_perm direction.compare (fed.map Prod.snd)
        rw [List.head?_eq_none_iff.mp hhead] at hperm
        rw [List.map_eq_nil_iff.mp hperm.symm.eq_nil] at hfeeds
        exact .inr ⟨hfeeds, rfl⟩
      | some value =>
        rw [hhead] at hresult
        cases hresult
  · rintro (⟨fed, hfeeds⟩ | ⟨hfeeds, rfl⟩)
    · exact ⟨_, ⟨fed, .failed e, hfeeds, rfl⟩, rfl⟩
    · refine ⟨_, ⟨[], .finished, hfeeds, rfl⟩, ?_⟩
      show _ = extremeOf direction name []
      simp [extremeOf, stableSort]
      rfl

end Queries

/-- **The smallest and the largest come first in order.**  For any source, also an endless one or one that fails, and any
function on its items, or none:

* `min` comes to the very value that sorting the values and taking the first comes to, and `max` to that of sorting them
  downwards;
* this is the value at the foremost position of the source, which no other value comes before in that order, and no equal one
  in the source; and both fail with the error that the source ends with, or with one of their own if the source is empty,
  and only then;
* the foremost position is the one that stands first in the one stable order of the positions;
* without a function the values are the items themselves. -/
theorem extremes_come_first_in_order (direction : Direction) (selector : Option Callable) (source : Sequence) :
    (∀ σ output τ, engine.ComesTo source [extremePart direction selector] σ (.ok output) τ ↔
      engine.ComesTo source (firstInOrder direction selector) σ (.ok output) τ) ∧
    engine.PicksForemost direction selector source [extremePart direction selector] direction.extreme.name ∧
    engine.PicksForemost direction selector source (firstInOrder direction selector) "first" ∧
    (∀ (fed : List (Item × Item)) i, IsForemost (fun a b => direction.compare a.2 b.2) fed i ↔
      (stableOrder (fun a b => direction.compare a.2 b.2) fed).head? = some i) ∧
    ∀ σ fed ending τ, FeedsAll (Callable.project none) σ source fed ending τ → ∀ pair ∈ fed, pair.2 = pair.1 := by
  have hextreme : engine.PicksForemost direction selector source [extremePart direction selector] direction.extreme.name :=
    engine.picksForemost_of_comesTo_iff engine.comesTo_extreme_iff
  have hfirst : engine.PicksForemost direction selector source (firstInOrder direction selector) "first" :=
    engine.picksForemost_of_comesTo_iff engine.comesTo_firstInOrder_iff
  refine ⟨fun σ output τ => ?_, hextreme, hfirst, fun fed i => (head?_stableOrder_iff _).symm, ?_⟩
  · rw [(hextreme σ τ).1, (hfirst σ τ).1]
  · intro σ fed ending τ hfeeds pair hpair
    obtain ⟨υ, ω, hanswer⟩ := hfeeds.answers pair hpair
    exact (Prod.mk.inj hanswer).1.symm

/-- Of two objects, which are all equal in order, the first is the smallest, and the largest too. -/
theorem extremes_come_first_in_order_objects :
    (∀ direction, ComesTo ⟨{}, "q", 0⟩ (.ofItems [.object 1 [], .object 2 []]) [extremePart direction none] {}
      (.ok (.value (.object 1 []))) {}) ∧
    (∀ direction, ComesTo ⟨{}, "q", 0⟩ (.ofItems [.object 1 [], .object 2 []]) (firstInOrder direction none) {}
      (.ok (.value (.object 1 []))) {}) := by
  have hfed : FeedsAll (Callable.project none) {} (.ofItems [.object 1 [], .object 2 []])
      [(.object 1 [], .object 1 []), (.object 2 [], .object 2 [])] .finished {} :=
    ⟨_, _, _, _, .item (.reply rfl) rfl (.item (.reply rfl) rfl .start), .reply rfl, rfl⟩
  have hforemost (direction : Direction) : IsForemost (fun a b : Item × Item => direction.compare a.2 b.2)
      [(.object 1 [], .object 1 []), (.object 2 [], .object 2 [])] ⟨0, by decide⟩ := by
    intro j hj
    match j with
    | 0 => exact absurd rfl hj
    | 1 => exact ⟨by cases direction <;> rfl, fun _ => by decide⟩
  have hpicks (direction : Direction) := extremes_come_first_in_order ⟨{}, "q", 0⟩ direction none
    (.ofItems [.object 1 [], .object 2 []])
  have hmin (direction : Direction) := (((hpicks direction).2.1 {} {}).1 _).mpr ⟨_, _, hfed, hforemost direction, rfl⟩
  exact ⟨hmin, fun direction => ((hpicks direction).1 _ _ _).mp (hmin direction)⟩

end Engine

end LazyQuery
