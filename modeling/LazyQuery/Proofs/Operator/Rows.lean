import LazyQuery.Proofs.Operator.Failure
import LazyQuery.Proofs.Sequence.Rows

/-!
# Filters and projections

`filter`, `select` and `selectMany` make a row of items out of each item (`Part.MakesRows`).  Chains of them are
interchangeable if the rows through them are equal (`interchangeable_of_rows`), so that the laws between them are those of
lists.

The main statement is `filters_and_projections_fuse`.
-/

namespace LazyQuery

open Sequence

/-! ### Functions and parts -/

namespace Callable

/-- The function does nothing in the session. -/
def Quiet (f : Callable) : Prop :=
  (∀ x σ, (f.call x σ).2 = σ) ∧ ∀ x y σ, (f.call2 x y σ).2 = σ

end Callable

namespace Stage

/-- What is handed out for an inner item: what the result function makes of it, or the item itself. -/
def resultOf (result : Option Callable) (outer inner : Item) : Eff Item :=
  match result with
  | some r => r.call2 outer inner
  | none => pure inner

lemma projectInner_cons (result : Option Callable) (outer inner : Item) (rest : List Item) :
    projectInner result outer (inner :: rest) =
      (do return (← resultOf result outer inner) :: (← projectInner result outer rest)) := by
  cases result <;> rfl

lemma map_view_of_projectInner {β : Type} {view : Item → β} {result : Option Callable} {x : Item} {g : β → β}
    (hg : ∀ c y, (resultOf result x c).Answers y → view y = g (view c)) {elements ys : List Item}
    (h : (projectInner result x elements).Answers ys) : ys.map view = (elements.map view).map g := by
  induction elements generalizing ys with
  | nil =>
    cases h.of_pure
    rfl
  | cons c elements ih =>
    rw [projectInner_cons] at h
    obtain ⟨y, hy, h⟩ := h.bind
    obtain ⟨rest, hrest, h⟩ := h.bind
    cases h.of_pure
    rw [List.map_cons, List.map_cons, List.map_cons, hg c y hy, ih hrest]

lemma projectInner_quiet {result : Option Callable} (hresult : ∀ r, result = some r → r.Quiet) (x : Item)
    (elements : List Item) (σ : Session) : (projectInner result x elements σ).2 = σ := by
  induction elements generalizing σ with
  | nil => rfl
  | cons c elements ih =>
    have hrow : (resultOf result x c σ).2 = σ := by
      cases result with
      | none => rfl
      | some r => exact (hresult r rfl).2 x c σ
    rw [projectInner_cons]
    exact (ih (resultOf result x c σ).2).trans hrow

end Stage

namespace Part

variable {β : Type}

/-- All functions among the arguments do nothing in the session. -/
def Quiet (part : Part) : Prop :=
  ∀ f, .function f ∈ part.arguments → f.Quiet

/-- The part is a projection, and seen through `view` its function makes `F v` of an item that is seen as `v`. -/
def Selects (part : Part) (view : Item → β) (F : β → β) : Prop :=
  part.operator = .select ∧ ∃ f, part.function? 0 = some f ∧ ∀ x σ, view (f.call x σ).1 = F (view x)

/-- The part is a filter, and its function accepts an item that is seen as `v` if `P v` holds. -/
def Filters (part : Part) (view : Item → β) (P : β → Bool) : Prop :=
  part.operator = .filter ∧ ∃ p, part.function? 0 = some p ∧ ∀ x σ, (p.test x σ).1 = P (view x)

/-- The part is a projection on arrays, and its function makes one with elements that are seen as `Φ v` of an item that is
seen as `v`. -/
def Expands (part : Part) (view : Item → β) (Φ : β → List β) : Prop :=
  part.operator = .selectMany ∧ ∃ f, part.function? 0 = some f ∧
    ∀ x σ, ∃ elements, (f.call x σ).1.elements? = some elements ∧ elements.map view = Φ (view x)

/-- The part has a result function, which makes `R v w` of items that are seen as `v` and `w`. -/
def ResultsIn (part : Part) (view : Item → β) (R : β → β → β) : Prop :=
  ∃ r, part.function? 1 = some r ∧ ∀ x c σ, view (r.call2 x c σ).1 = R (view x) (view c)

/-- Seen through `view`, the part makes `row v` of an item that is seen as `v`, and does so without doing anything in the
session if its functions do nothing there. -/
def MakesRows (part : Part) (view : Item → β) (row : β → List β) : Prop :=
  ∃ stage, part.plan = .ok (.lazily [stage]) ∧ stage.Shows view row ∧ stage.waiting = [] ∧ (part.Quiet → stage.Quiet)

section MakesRows

variable {part : Part} {view : Item → β} {F : β → β} {P : β → Bool} {Φ : β → List β} {R : β → β → β}

lemma Quiet.function? {f : Callable} {position : Nat} (h : part.Quiet) (hf : part.function? position = some f) : f.Quiet := by
  unfold Part.function? at hf
  split at hf
  · next f' hf' =>
    cases hf
    exact h f (List.mem_of_getElem? hf')
  · cases hf

lemma Selects.makesRows (h : part.Selects view F) : part.MakesRows view fun v => [F v] := by
  obtain ⟨hoperator, f, hf, hF⟩ := h
  refine ⟨.select f, plan_of_select hoperator hf, ?_, rfl, fun hquiet => (hquiet.function? hf).1⟩
  intro x result hresult
  obtain ⟨y, ⟨σ, τ, hy⟩, hpure⟩ := hresult.bind
  have hview : view y = F (view x) := by rw [← hF x σ, hy]
  exact ⟨y, hpure.of_pure, congrArg (fun v => [v]) hview.symm⟩

lemma Filters.makesRows (h : part.Filters view P) : part.MakesRows view fun v => if P v then [v] else [] := by
  obtain ⟨hoperator, p, hp, hP⟩ := h
  refine ⟨.filterBy p, plan_of_filter hoperator hp, ?_, rfl, fun hquiet => (hquiet.function? hp).1⟩
  rintro x b ⟨σ, τ, hb⟩
  have htest : p.test x σ = (b, τ) := hb
  have hverdict : b = P (view x) := by rw [← hP x σ, htest]
  subst hverdict
  rfl

/-- A projection on arrays makes a row of what its result function makes of the elements. -/
lemma makesRows_of_selectMany (h : part.Expands view Φ)
    (hresult : ∀ x c y, (Stage.resultOf (part.function? 1) x c).Answers y → view y = R (view x) (view c)) :
    part.MakesRows view fun v => (Φ v).map (R v) := by
  obtain ⟨hoperator, f, hf, hΦ⟩ := h
  refine ⟨_, plan_of_selectMany hoperator hf, fun x result hanswers => ?_, rfl, fun hquiet x σ => ?_⟩
  · obtain ⟨inner, ⟨σ, τ, hinner⟩, hanswers⟩ := hanswers.bind
    obtain ⟨elements, helements, hview⟩ := hΦ x σ
    rw [hinner] at helements
    rw [helements] at hanswers
    obtain ⟨ys, hys, hpure⟩ := hanswers.bind
    refine ⟨ys, hpure.of_pure, ?_⟩
    rw [Stage.map_view_of_projectInner (hresult x) hys, hview]
  · obtain ⟨elements, helements, -⟩ := hΦ x σ
    rcases hinner : f.call x σ with ⟨inner, τ⟩
    have hτ : τ = σ := by rw [← (hquiet.function? hf).1 x σ, hinner]
    rw [hinner] at helements
    refine (congrArg Prod.snd (Eff.bind_run hinner)).trans ?_
    rw [helements, hτ]
    exact Stage.projectInner_quiet (fun r hr => hquiet.function? hr) x elements σ

lemma Expands.makesRows (h : part.Expands view Φ) (hresult : part.function? 1 = none) : part.MakesRows view Φ := by
  have hmakes : part.MakesRows view fun v => (Φ v).map fun w => w := by
    refine makesRows_of_selectMany h fun x c y hy => ?_
    rw [hresult] at hy
    exact congrArg view hy.of_pure
  simpa only [List.map_id'] using hmakes

lemma Expands.makesRows_results (h : part.Expands view Φ) (hresult : part.ResultsIn view R) :
    part.MakesRows view fun v => (Φ v).map (R v) := by
  obtain ⟨r, hr, hR⟩ := hresult
  refine makesRows_of_selectMany h fun x c y hy => ?_
  rw [hr] at hy
  obtain ⟨σ, τ, hrun⟩ := hy
  have hcall : r.call2 x c σ = (y, τ) := hrun
  rw [← hR x c σ, hcall]

end MakesRows

end Part

/-! ### Chains of parts -/

section Chains

variable {β : Type} {view : Item → β} {row : β → List β} {rows rows' : List (β → List β)} {parts parts' : List Part}

/-- The stages of a chain of parts. -/
lemma exists_stages_of_makesRows (h : List.Forall₂ (fun row part => Part.MakesRows part view row) rows parts) :
    ∃ stages, List.Forall₂ (Stage.Starts view) rows stages ∧
      ((∀ part ∈ parts, part.Quiet) → ∀ stage ∈ stages, stage.Quiet) ∧
      ∀ budget source, parts.foldlM (apply budget) (.sequence source) = pure (.sequence (source.withStages stages)) := by
  induction h with
  | nil => exact ⟨[], .nil, fun _ => by simp, fun _ _ => rfl⟩
  | @cons row part rows parts hpart _ ih =>
    obtain ⟨stage, hplan, hshows, hwaiting, hstage⟩ := hpart
    obtain ⟨stages, hrest, hstages, hfoldlM⟩ := ih
    refine ⟨stage :: stages, .cons ⟨hshows, hwaiting⟩ hrest, fun hquiet => ?_, fun budget source => ?_⟩
    · obtain ⟨hfirst, hothers⟩ := List.forall_mem_cons.mp hquiet
      exact List.forall_mem_cons.mpr ⟨hstage hfirst, hstages hothers⟩
    · rw [List.foldlM_cons, apply_of_stages budget hplan, pure_bind, hfoldlM]
      rfl

/-- Both chains of parts make `row v` of an item that is seen as `v`.  If all the functions in them do nothing in the
session, they have the same histories, on any source.  If they do, they look alike on a source that does not look different
for it; and on one that shows the same items and then an ending, be it an error, both show their rows and that ending. -/
def Interchangeable (view : Item → β) (row : β → List β) (parts parts' : List Part) : Prop :=
  ∀ source, ∃ out out',
    (∀ budget, parts.foldlM (apply budget) (.sequence source) = pure (.sequence out)) ∧
    (∀ budget, parts'.foldlM (apply budget) (.sequence source) = pure (.sequence out')) ∧
    (Function.Injective view → (∀ part ∈ parts ++ parts', part.Quiet) → out.SameHistories out') ∧
    (source.LooksLike view source → out.LooksLike view out') ∧
    ∀ vs ending, source.Shows view vs ending →
      out.Shows view (vs.flatMap row) ending ∧ out'.Shows view (vs.flatMap row) ending

/-- **Chains with the same rows are interchangeable.** -/
theorem interchangeable_of_rows (h : List.Forall₂ (fun row part => Part.MakesRows part view row) rows parts)
    (h' : List.Forall₂ (fun row part => Part.MakesRows part view row) rows' parts') (hrow : rowThrough rows = row)
    (hrow' : rowThrough rows' = row) : Interchangeable view row parts parts' := by
  intro source
  obtain ⟨stages, hstages, hquiet, hfoldlM⟩ := exists_stages_of_makesRows h
  obtain ⟨stages', hstages', hquiet', hfoldlM'⟩ := exists_stages_of_makesRows h'
  refine ⟨source.withStages stages, source.withStages stages', fun budget => hfoldlM budget source,
    fun budget => hfoldlM' budget source, fun hview hparts => ?_, fun hsource => ?_, fun vs ending hsource => ?_⟩
  · obtain ⟨hfirst, hsecond⟩ := List.forall_mem_append.mp hparts
    obtain ⟨made, hmade, hseen⟩ := Stage.exists_forall₂_makesRows hview hstages (hquiet hfirst)
    obtain ⟨made', hmade', hseen'⟩ := Stage.exists_forall₂_makesRows hview hstages' (hquiet' hsecond)
    have hsame : rowThrough made = rowThrough made' := funext fun x =>
      List.map_injective_iff.mpr hview (by rw [SeenAs.through hseen, SeenAs.through hseen', hrow, hrow'])
    have hhistories := sameHistories_rows hmade source
    rw [hsame] at hhistories
    exact hhistories.trans (sameHistories_rows hmade' source).symm
  · obtain ⟨made, hseen, hlook⟩ := hsource.exists_rows hstages
    obtain ⟨made', hseen', hlook'⟩ := hsource.exists_rows hstages'
    rw [hrow] at hseen
    rw [hrow'] at hseen'
    have hboth := hsource.through (Stage.starts_rows hseen).shows (Stage.starts_rows hseen').shows rfl
    exact hlook.trans (hboth.trans hlook'.symm)
  · have hout := hsource.withStages hstages
    have hout' := hsource.withStages hstages'
    rw [hrow] at hout
    rw [hrow'] at hout'
    exact ⟨hout, hout'⟩

end Chains

/-- **Filters and projections fuse.**  Whatever is seen of the items, let the functions make `F v` and `G v`, and arrays of
`Φ v` and `Ψ v`, of an item that is seen as `v`, and accept it if `P v` and `Q v` hold.  Then these are interchangeable:

* a projection behind another, and one with both functions;
* a filter behind another, and one with both conditions;
* a filter behind a projection, and the projection behind a filter that looks at what it makes;
* a projection on arrays behind another, and one on what the second makes of all elements of the first;
* a projection, and one on arrays of one element;
* a filter, and a projection on arrays of one element or none;
* a projection on arrays with a result function, and one on arrays of the results. -/
theorem filters_and_projections_fuse {β : Type} (view : Item → β) (F G : β → β) (P Q : β → Bool) (Φ Ψ : β → List β)
    (R : β → β → β) :
    (∀ first second once : Part, first.Selects view F → second.Selects view G → once.Selects view (fun v => G (F v)) →
      Interchangeable view (fun v => [G (F v)]) [first, second] [once]) ∧
    (∀ first second once : Part, first.Filters view P → second.Filters view Q → once.Filters view (fun v => P v && Q v) →
      Interchangeable view (fun v => if P v && Q v then [v] else []) [first, second] [once]) ∧
    (∀ select filter before : Part, select.Selects view F → filter.Filters view P → before.Filters view (fun v => P (F v)) →
      Interchangeable view (fun v => if P (F v) then [F v] else []) [select, filter] [before, select]) ∧
    (∀ first second once : Part, first.Expands view Φ → first.function? 1 = none → second.Expands view Ψ →
      second.function? 1 = none → once.Expands view (fun v => (Φ v).flatMap Ψ) → once.function? 1 = none →
      Interchangeable view (fun v => (Φ v).flatMap Ψ) [first, second] [once]) ∧
    (∀ select expand : Part, select.Selects view F → expand.Expands view (fun v => [F v]) → expand.function? 1 = none →
      Interchangeable view (fun v => [F v]) [select] [expand]) ∧
    (∀ filter expand : Part, filter.Filters view P → expand.Expands view (fun v => if P v then [v] else []) →
      expand.function? 1 = none → Interchangeable view (fun v => if P v then [v] else []) [filter] [expand]) ∧
    (∀ joint expand : Part, joint.Expands view Φ → joint.ResultsIn view R → expand.Expands view (fun v => (Φ v).map (R v)) →
      expand.function? 1 = none → Interchangeable view (fun v => (Φ v).map (R v)) [joint] [expand]) := by
  refine ⟨fun first second once hfirst hsecond honce => ?_, fun first second once hfirst hsecond honce => ?_,
    fun select filter before hselect hfilter hbefore => ?_,
    fun first second once hfirst hfirst' hsecond hsecond' honce honce' => ?_,
    fun select expand hselect hexpand hexpand' => ?_, fun filter expand hfilter hexpand hexpand' => ?_,
    fun joint expand hjoint hresults hexpand hexpand' => ?_⟩
  · exact interchangeable_of_rows (.cons hfirst.makesRows (.cons hsecond.makesRows .nil)) (.cons honce.makesRows .nil) rfl rfl
  · refine interchangeable_of_rows (.cons hfirst.makesRows (.cons hsecond.makesRows .nil)) (.cons honce.makesRows .nil) ?_
      (rowThrough_one _)
    rw [rowThrough_two]
    funext v
    cases P v <;> simp
  · refine interchangeable_of_rows (.cons hselect.makesRows (.cons hfilter.makesRows .nil))
      (.cons hbefore.makesRows (.cons hselect.makesRows .nil)) ?_ ?_
    · rw [rowThrough_two]
      exact funext fun v => List.flatMap_singleton _ (F v)
    · rw [rowThrough_two]
      funext v
      cases P (F v) <;> simp
  · exact interchangeable_of_rows (.cons (hfirst.makesRows hfirst') (.cons (hsecond.makesRows hsecond') .nil))
      (.cons (honce.makesRows honce') .nil) (rowThrough_two Φ Ψ) (rowThrough_one _)
  · exact interchangeable_of_rows (.cons hselect.makesRows .nil) (.cons (hexpand.makesRows hexpand') .nil) rfl rfl
  · exact interchangeable_of_rows (.cons hfilter.makesRows .nil) (.cons (hexpand.makesRows hexpand') .nil) (rowThrough_one _)
      (rowThrough_one _)
  · exact interchangeable_of_rows (.cons (hjoint.makesRows_results hresults) .nil) (.cons (hexpand.makesRows hexpand') .nil)
      (rowThrough_one _) (rowThrough_one _)

/-- A projection that does nothing in the session. -/
def selecting (f : Item → Item) : Part :=
  ⟨.select, [.function (.unary fun item => return f item)]⟩

lemma quiet_selecting (f : Item → Item) : (selecting f).Quiet := by
  intro g hg
  cases List.mem_singleton.mp hg
  exact ⟨fun _ _ => rfl, fun _ _ _ => rfl⟩

lemma selects_selecting (f : Item → Item) : (selecting f).Selects id f :=
  ⟨rfl, _, rfl, fun _ _ => rfl⟩

/-- A projection on new arrays of an item so many times. -/
def copying (count : Nat) : Part :=
  ⟨.selectMany, [.function (.unary fun item => newArray (List.replicate count item))]⟩

lemma expands_copying (count : Nat) : (copying count).Expands id (List.replicate count) :=
  ⟨rfl, _, rfl, fun x _ => ⟨List.replicate count x, rfl, List.map_id _⟩⟩

/-- Hands out the item without end and reports each pull. -/
def echoing (item : Item) : Sequence :=
  .producer (fun k => do report "pull"; return (.item item, k)) 0

lemma looksLike_echoing (item : Item) : (echoing item).LooksLike id (echoing item) :=
  looksLike_producer (fun _ _ _ => rfl) (fun _ _ _ => rfl) 0

/-- Negated twice on a source that fails; and copied twice on one that fails, and on one that is endless. -/
theorem filters_and_projections_fuse_null :
    (∃ out out',
      [selecting fun v => .bool (!v.isTruthy), selecting fun v => .bool (!v.isTruthy)].foldlM (apply 0)
        (.sequence (failing [.null] (.negativeCount (-1)) 0)) = pure (.sequence out) ∧
      [selecting fun v => .bool v.isTruthy].foldlM (apply 0)
        (.sequence (failing [.null] (.negativeCount (-1)) 0)) = pure (.sequence out') ∧ out.SameHistories out') ∧
    (∃ out out',
      [copying 2, copying 2].foldlM (apply 0) (.sequence (failing [.null] (.negativeCount (-1)) 0)) = pure (.sequence out) ∧
      [copying 4].foldlM (apply 0) (.sequence (failing [.null] (.negativeCount (-1)) 0)) = pure (.sequence out') ∧
      out.Shows id [.null, .null, .null, .null] (.failed (.negativeCount (-1))) ∧
      out'.Shows id [.null, .null, .null, .null] (.failed (.negativeCount (-1)))) ∧
    ∃ out out',
      [copying 2, copying 2].foldlM (apply 0) (.sequence (echoing .null)) = pure (.sequence out) ∧
      [copying 4].foldlM (apply 0) (.sequence (echoing .null)) = pure (.sequence out') ∧ out.LooksLike id out' := by
  obtain ⟨hselect, -, -, hexpand, -⟩ := filters_and_projections_fuse id (fun v => .bool (!v.isTruthy))
    (fun v => .bool (!v.isTruthy)) (fun _ => true) (fun _ => true) (List.replicate 2) (List.replicate 2) fun v _ => v
  have hcopying : Interchangeable id (fun v => (List.replicate 2 v).flatMap (List.replicate 2)) [copying 2, copying 2]
      [copying 4] :=
    hexpand _ _ _ (expands_copying 2) rfl (expands_copying 2) rfl (expands_copying 4) rfl
  refine ⟨?_, ?_, ?_⟩
  · have honce : (selecting fun v => .bool v.isTruthy).Selects id fun v => .bool (!(Item.bool (!v.isTruthy)).isTruthy) :=
      ⟨rfl, _, rfl, fun x _ => congrArg Item.bool (Bool.not_not x.isTruthy).symm⟩
    obtain ⟨out, out', hout, hout', hsame, -⟩ := hselect _ _ _ (selects_selecting _) (selects_selecting _) honce
      (failing [.null] (.negativeCount (-1)) 0)
    refine ⟨out, out', hout 0, hout' 0, hsame Function.injective_id ?_⟩
    exact List.forall_mem_cons.mpr ⟨quiet_selecting _, List.forall_mem_cons.mpr ⟨quiet_selecting _,
      List.forall_mem_singleton.mpr (quiet_selecting _)⟩⟩
  · have hsource : (failing [.null] (.negativeCount (-1)) 0).Shows id [.null] (.failed (.negativeCount (-1))) :=
      (failing_delivers [.null] (.negativeCount (-1)) 0).mono fun xs ending h => ⟨(List.map_id xs).trans h.1, h.2⟩
    obtain ⟨out, out', hout, hout', -, -, hshow⟩ := hcopying (failing [.null] (.negativeCount (-1)) 0)
    exact ⟨out, out', hout 0, hout' 0, hshow [.null] _ hsource⟩
  · obtain ⟨out, out', hout, hout', -, hlook, -⟩ := hcopying (echoing .null)
    exact ⟨out, out', hout 0, hout' 0, hlook (looksLike_echoing .null)⟩

end LazyQuery
