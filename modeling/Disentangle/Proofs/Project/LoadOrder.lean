import Disentangle.Project.Break
import Disentangle.Proofs.Dependency.Sorting
import Disentangle.Proofs.Import.Routes
import Disentangle.Proofs.Index.Entries
import Disentangle.Proofs.Project.Ownership

/-!
The order in which a project is loaded once its imports lead through the index. Three decisions
have to agree for it: from which file a binding is said to come when records are ordered, which
imports are led through the index, and in which order the indexes name the sources.
-/

namespace Disentangle

open Index

section Inquiries

open Inquiry

variable {scene : Scene} {before after : List Event}

theorem sortRecords_of_orderRecords {records ordered : List FileRecord} {table : SymbolTable}
    (h : (orderRecords records table).Succeeds scene before ordered after) :
    Dependency.sortRecords records table = .ok ordered := by
  simp only [orderRecords, succeeds_bind, succeeds_read] at h
  obtain ⟨_, _, -, _, _, ⟨rfl, rfl⟩, h⟩ := h
  split at h
  next => exact absurd h not_succeeds_throw
  split at h
  next found hsorted =>
    rw [succeeds_pure] at h
    rw [hsorted, h.1]
  next =>
    simp only [succeeds_bind] at h
    obtain ⟨_, _, -, h⟩ := h
    split at h <;> simp at h

/-- What is rendered in a scene is what is rendered anywhere. -/
theorem renderRuntime_of_scene {indexPath text : Text} {records : List FileRecord}
    {options : RuntimeOptions} (h : scene.renderRuntime indexPath records options = .ok text) :
    renderRuntime scene.cwd indexPath records options = .ok text := by
  rw [Scene.renderRuntime] at h
  split at h
  · cases h
  · exact h

/-- What has been written has been rendered. -/
theorem exists_text_of_writeBreak {plan : BreakPlan} {before after : Workspace}
    (h : (writeBreak plan).Succeeds before () after) {path : Text} {rendered : Except Fault Text}
    (hruntime : plan.runtime = some (path, rendered)) : ∃ text, rendered = .ok text := by
  simp only [writeBreak, Work.succeeds_bind, Work.succeeds_discard, hruntime, writeIndex,
    Work.succeeds_inquire, succeeds_orFault] at h
  obtain ⟨_, _, -, _, _, -, _, _, ⟨_, _, _, -, _, _, -, text, _, ⟨_, ⟨htext, -⟩, -⟩, -⟩, -⟩ := h
  exact ⟨text, htext⟩

/-- How a plan comes about: from the sources that were collected and from what was read of them
come the order, and from the order the indexes. -/
structure BreakPlan.MadeOf (options : BreakOptions) (scene : Scene) (before : List Event)
    (records : List FileRecord) (table : SymbolTable) (plan : BreakPlan) : Prop where
  read : ∃ sources told told' told'',
    (collectSources (options.standardize scene.cwd)).Succeeds scene before sources told ∧
      (readRecords .empty [] sources).Succeeds scene told' (records, table) told''
  sorted : Dependency.sortRecords (sortBy (fun r s => r.path.le s.path) records) table =
    .ok plan.ordered
  indexPath : plan.indexPath = Path.standardize scene.cwd options.indexPath
  declaration : renderDeclaration scene.cwd plan.indexPath plan.ordered = .ok plan.declaration
  runtime : plan.runtime = options.runtime.map fun runtime =>
    (runtime.output scene.cwd plan.indexPath,
      scene.renderRuntime plan.indexPath plan.ordered runtime)

/-- The stages of a plan. Behind the order stand the sources with their imports led through the
index, and the entry file. -/
theorem stages_of_planBreak {options : BreakOptions} {plan : BreakPlan}
    (h : (planBreak options).Succeeds scene before plan after) :
    ∃ records table, plan.MadeOf options scene before records table ∧
      (∃ told told', (plan.ordered.mapM (redirectSource plan.indexPath table)).Succeeds
        scene told plan.sources told') ∧
      ∃ told told', ((options.standardize scene.cwd).entryPath.mapM
        (requireIndex plan.indexPath)).Succeeds scene told plan.entry told' := by
  simp only [planBreak, succeeds_bind, succeeds_read, succeeds_orFault, succeeds_pure] at h
  obtain ⟨_, _, ⟨rfl, rfl⟩, sources, told, hsources, _, _, -, _, _, -, ⟨records, table⟩, told',
    hread, ordered, _, hordered, updates, _, hupdates, entry, _, hentry, declaration, _,
    ⟨hdeclaration, rfl⟩, _, _, ⟨rfl, rfl⟩, rfl, -⟩ := h
  exact ⟨records, table, ⟨⟨sources, told, _, told', hsources, hread⟩,
    sortRecords_of_orderRecords hordered, rfl, hdeclaration, rfl⟩, ⟨_, _, hupdates⟩,
    ⟨_, _, hentry⟩⟩

theorem madeOf_of_planBreak {options : BreakOptions} {plan : BreakPlan}
    (h : (planBreak options).Succeeds scene before plan after) :
    ∃ records table, plan.MadeOf options scene before records table := by
  obtain ⟨records, table, hmade, -⟩ := stages_of_planBreak h
  exact ⟨records, table, hmade⟩

end Inquiries

namespace BreakPlan.MadeOf

variable {options : BreakOptions} {scene : Scene} {before : List Event} {plan : BreakPlan}
  {records : List FileRecord} {table : SymbolTable}

theorem perm (h : plan.MadeOf options scene before records table) :
    plan.ordered.Perm records :=
  (Dependency.sortRecords_perm h.sorted).trans (sortBy_perm _ records)

theorem owner?_iff_exports (h : plan.MadeOf options scene before records table) (n p : Text) :
    table.owner? n = some p ↔ Exports records p n := by
  obtain ⟨_, _, _, _, -, hread⟩ := h.read
  exact Disentangle.owner?_iff_exports hread n p

/-- The owner of a name that a source needs while it is loaded stands before that source, if the
name is asked of the index. -/
theorem exists_owner_before (h : plan.MadeOf options scene before records table)
    {u : FileRecord} (hu : u ∈ plan.ordered) {name : Text} {line : ImportLine}
    (hneeded : (name, line) ∈ u.dependencies) (hroutes : line.routesToIndex table = true)
    (hname : name ∈ line.names) :
    ∃ v ∈ plan.ordered, table.owner? (line.exportedName name) = some v.path ∧
      [v, u].Sublist plan.ordered := by
  obtain ⟨owner, howner, hsource⟩ := ImportLine.sourceOf_of_routesToIndex hroutes hname
  obtain ⟨v, hv, rfl, -⟩ := (h.owner?_iff_exports _ owner).mp howner
  refine ⟨v, h.perm.mem_iff.mpr hv, howner, ?_⟩
  -- The owner is also where the sort has looked for the binding.
  have hsorted := sortBy_perm (fun r s => r.path.le s.path) records
  exact Dependency.sortRecords_pair_sublist h.sorted
    (hsorted.mem_iff.mpr (h.perm.mem_iff.mp hu)) (hsorted.mem_iff.mpr hv)
    ⟨name, line, hneeded, hsource⟩

theorem standardize_indexPath (h : plan.MadeOf options scene before records table) :
    Path.standardize scene.cwd plan.indexPath = plan.indexPath := by
  rw [h.indexPath, Path.standardize_standardize]

theorem declaresBefore (h : plan.MadeOf options scene before records table)
    {v u : FileRecord} (hpair : [v, u].Sublist plan.ordered) :
    DeclaresBefore scene.cwd plan.indexPath plan.ordered plan.declaration v u := by
  have hbefore := declaresBefore_of_sublist h.declaration hpair
  rwa [h.standardize_indexPath] at hbefore

theorem requiresBefore (h : plan.MadeOf options scene before records table)
    {v u : FileRecord} (hpair : [v, u].Sublist plan.ordered) {path text : Text}
    (hruntime : plan.runtime = some (path, .ok text)) :
    RequiresBefore scene.cwd plan.indexPath plan.ordered text v u := by
  obtain ⟨runtime, -, heq⟩ := Option.map_eq_some_iff.mp (h.runtime.symm.trans hruntime)
  have htext := renderRuntime_of_scene (Prod.ext_iff.mp heq).2
  have hbefore := requiresBefore_of_sublist htext hpair
  rwa [h.standardize_indexPath] at hbefore

end BreakPlan.MadeOf

/-- When the circular imports of a project have been broken, every source stands behind the
sources that it needs while it is loaded, as far as its imports now lead through the index: the
owner of what such an import asks for is one of the records, stands before the source that asks,
and comes first in both indexes. -/
theorem breakCycles_owner_first {options : BreakOptions} {before after : Workspace}
    {ordered : List FileRecord} (h : (breakCycles options).Succeeds before ordered after) :
    ∃ plan told records table,
      (planBreak options).Succeeds before.scene before.events plan told ∧
      plan.ordered = ordered ∧
      (writeBreak plan).Succeeds { before with events := told } () after ∧
      plan.MadeOf options before.scene before.events records table ∧
      ordered.Perm records ∧
      ∀ u ∈ ordered, ∀ i line, u.imports[i]? = some line → line.routesToIndex table = true →
        ∀ name ∈ line.names, (name, i) ∈ u.depends →
          ∃ v ∈ ordered, table.owner? (line.exportedName name) = some v.path ∧
            [v, u].Sublist ordered ∧
            DeclaresBefore before.scene.cwd plan.indexPath ordered plan.declaration v u ∧
            ∀ path rendered, plan.runtime = some (path, rendered) → ∃ text, rendered = .ok text ∧
              RequiresBefore before.scene.cwd plan.indexPath ordered text v u := by
  simp only [breakCycles, Work.succeeds_bind, Work.succeeds_inquire, Work.succeeds_pure] at h
  obtain ⟨plan, _, ⟨told, hplan, rfl⟩, _, _, hwrite, rfl, rfl⟩ := h
  obtain ⟨records, table, hmade⟩ := madeOf_of_planBreak hplan
  refine ⟨plan, told, records, table, hplan, rfl, hwrite, hmade, hmade.perm, ?_⟩
  intro u hu i line hline hroutes name hname hdepends
  have hneeded : (name, line) ∈ u.dependencies :=
    List.mem_filterMap.mpr ⟨(name, i), hdepends, by simp [hline]⟩
  obtain ⟨v, hv, howner, hpair⟩ := hmade.exists_owner_before hu hneeded hroutes hname
  refine ⟨v, hv, howner, hpair, hmade.declaresBefore hpair, ?_⟩
  intro path rendered hruntime
  obtain ⟨text, rfl⟩ := exists_text_of_writeBreak hwrite hruntime
  exact ⟨text, rfl, hmade.requiresBefore hpair hruntime⟩

/-- Whether the second of two records extends the class `Z` of the first, which it imports by
name. -/
def secondExtendsFirst : List FileRecord → Bool
  | [first, second] =>
    first.exportNames.contains ['Z'] && second.depends.contains (['Z'], 0) &&
      match second.imports[0]? with
      | some line =>
        line.names = [['Z']] && line.aliases.isEmpty && line.namespaceName.isNone &&
          !line.isRequire && !line.hasDefault
      | none => false
  | _ => false

/-- Two classes import each other, but only one is needed while the other is loaded. -/
theorem breakCycles_owner_first_base_class :
    let scene := Scene.holding
      [("/a.ts", "import \x7b Z \x7d from './z';\nexport class A extends Z \x7b\x7d\n"),
       ("/z.ts", "import \x7b A \x7d from './a';\nexport class Z \x7b other: A; \x7d\n")]
    let options : BreakOptions :=
      { root := ['/'], indexPath := "/index.ts".toList, patterns := ["*.ts".toList]
        filter := none, exclude := [], entryPath := none
        runtime := some
          { distPath := "index.js".toList, relativeIndexPath := "index.ts".toList
            moduleId := some "index".toList } }
    ∃ ordered after, (breakCycles options).Succeeds ⟨scene, []⟩ ordered after ∧
      ∃ plan : BreakPlan, ∃ v u, ordered = [v, u] ∧
        DeclaresBefore scene.cwd plan.indexPath ordered plan.declaration v u ∧
        ∀ path rendered, plan.runtime = some (path, rendered) → ∃ text, rendered = .ok text ∧
          RequiresBefore scene.cwd plan.indexPath ordered text v u := by
  intro scene options
  have hrun : (breakCycles options).succeedsWith secondExtendsFirst scene = true := by
    decide +kernel
  obtain ⟨ordered, after, hsucceeds, hcheck⟩ := Work.exists_succeeds hrun
  refine ⟨ordered, after, hsucceeds, ?_⟩
  obtain ⟨plan, _, records, table, -, -, -, hmade, hperm, hfirst⟩ :=
    breakCycles_owner_first hsucceeds
  match ordered, hcheck with
  | [v, u], hcheck =>
    cases hline : u.imports[0]? with
    | none => simp [secondExtendsFirst, hline] at hcheck
    | some line =>
      simp only [secondExtendsFirst, hline, Bool.and_eq_true, decide_eq_true_eq,
        List.contains_eq_mem, List.isEmpty_iff, Option.isNone_iff_eq_none,
        Bool.not_eq_true'] at hcheck
      obtain ⟨⟨hexports, hdepends⟩, ⟨⟨⟨hnames, haliases⟩, hnamespace⟩, hrequire⟩, hdefault⟩ :=
        hcheck
      have hexported : line.exportedName ['Z'] = ['Z'] := by
        simp [ImportLine.exportedName, haliases]
      have howner : table.owner? ['Z'] = some v.path :=
        (hmade.owner?_iff_exports _ _).mpr ⟨v, hperm.mem_iff.mp (by simp), rfl, hexports⟩
      have hroutes : line.routesToIndex table = true := by
        simp [ImportLine.routesToIndex_iff, hnames, hnamespace, hrequire, hexported, howner,
          ImportLine.isDefaultBinding, hdefault]
      obtain ⟨w, -, -, hpair, hdeclares, hrequires⟩ :=
        hfirst u (by simp) 0 line hline hroutes ['Z'] (by simp [hnames]) hdepends
      cases hpair.eq_of_length rfl
      exact ⟨plan, v, u, rfl, hdeclares, hrequires⟩

end Disentangle
