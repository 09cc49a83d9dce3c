import Disentangle.Proofs.Import.Retargeted
import Disentangle.Proofs.Path.Keys
import Disentangle.Proofs.Project.Carrying
import Disentangle.Proofs.Project.Updates

/-!
Imports follow the files that move. Behind a move every source that was read holds the text that
was made for it, at the place where it then is: no other write, no removal and no pruning touches
it. The imports of a file that moves are found by the path that their specifiers lead to, and are
spelled anew from the new places. The specifier of a declaration file does not lead back to it, so
its imports are left behind.
-/

namespace Disentangle

open Inquiry

namespace Path

theorem exists_relativeImport?_of_ne_nil (cwd base : Text) {target : Text} (h : target ≠ [])
    (keepExtension : Bool) :
    ∃ spelling, relativeImport? cwd base target keepExtension = some spelling := by
  rw [relativeImport?, List.isEmpty_eq_false_iff.mpr h, if_neg Bool.false_ne_true]
  exact ⟨_, rfl⟩

end Path

namespace Relocation

/-- A source is where it is to be afterwards, with the text that was made for it. -/
def Delivered (moved : Relocation) (scene : Scene) (path text : Text) (tree : FileTree) : Prop :=
  tree.HoldsText (Path.components (moved.apply path)) (moved.textAfter scene path text)

/-- The sources that a move reads: those that move, and those below the root. -/
def Reads (moved : Relocation) (scene : Scene) (root pattern path : Text) : Prop :=
  moved.has path = true ∨ ∃ found told told',
    (filesBelow (Path.standardize scene.cwd root) pattern).Succeeds scene told found told' ∧
      path ∈ found

theorem reads_of_contains {moved : Relocation} {scene : Scene} {root pattern path : Text}
    (h : (filesBelow (Path.standardize scene.cwd root) pattern).succeedsWith (·.contains path)
      scene = true) : moved.Reads scene root pattern path := by
  obtain ⟨found, told, hfound, hcontains⟩ := Inquiry.exists_succeeds h
  exact .inr ⟨found, [], told, hfound, List.contains_iff_mem.mp hcontains⟩

end Relocation

section Outputs

variable {scene : SoundScene} {plan : MovePlan} {root source target pattern : Text}
  {others : List Text}
  {path text : Text}

namespace MovePlan.MadeOf

theorem mem_of_reads (h : plan.MadeOf scene root source target pattern others)
    (hreads : plan.moved.Reads scene root pattern path) :
    path ∈ plan.moved.pairs.map Prod.fst ++ others := by
  cases hhas : plan.moved.has path with
  | true => exact List.mem_append_left _ (List.mem_map.mpr (Relocation.exists_pair_of_has hhas))
  | false =>
    obtain ⟨found, told, told', hfound, hmem⟩ := hreads.resolve_left (by simp [hhas])
    obtain ⟨found', other, other', hfound', rfl⟩ := h.stays
    cases (onlyReads_filesBelow _ _).eq_of_succeeds hfound hfound'
    refine List.mem_append_right _ ((sortBy_perm _ _).mem_iff.mpr (List.mem_filter.mpr ⟨hmem, ?_⟩))
    rw [hhas]
    rfl

theorem isCanonical_read (h : plan.MadeOf scene root source target pattern others)
    (hmark : Path.rootMark (Path.append scene.cwd root) =
      Path.rootMark (Path.append scene.cwd source))
    (hpath : path ∈ plan.moved.pairs.map Prod.fst ++ others) :
    Path.IsCanonical (Path.rootMark (Path.append scene.cwd source)) path := by
  rcases List.mem_append.mp hpath with hold | hother
  · obtain ⟨pair, hpair, rfl⟩ := List.mem_map.mp hold
    exact h.isCanonical_old hpair
  · exact hmark ▸ h.isCanonical_other hother

end MovePlan.MadeOf

/-- A move that succeeds has followed a plan, and behind it each source that was read is where it is
to be, with the text that was made for it. -/
theorem exists_plan_of_moveSources {told : List Event} {after : Workspace} {moved : Relocation}
    (hmark : Path.rootMark (Path.append scene.cwd root) =
      Path.rootMark (Path.append scene.cwd source))
    (h : (moveSources root source target "*.ts".toList).Succeeds ⟨scene, told⟩ moved after) :
    ∃ (plan : MovePlan) (others : List Text),
      plan.MadeOf scene root source target "*.ts".toList others ∧ plan.moved = moved ∧
      ∀ path text, path ∈ moved.pairs.map Prod.fst ++ others →
        scene.tree.HoldsText (Path.components path) text →
          moved.Delivered scene path text after.scene.tree := by
  have hslash : '/' ∉ "*.ts".toList := by decide
  obtain ⟨plan, others, hmade, rfl, hcarried⟩ :=
    exists_carriedOut_of_moveSources hslash h
  refine ⟨plan, others, hmade, rfl, fun path text hpath htext => ?_⟩
  have hkept : ∀ pair ∈ plan.moved.pairs,
      Path.components pair.1 ≠ Path.components (plan.moved.apply path) := by
    intro pair hpair heq
    rcases hmade.moves_or_stays hpath with ⟨new, hmoves, happly⟩ | ⟨hother, happly⟩
    · exact hmade.old_ne_new hslash hmoves hpair (happly ▸ heq)
    · rw [happly] at heq
      have hsame := (hmade.isCanonical_old hpair).eq_of_components
        (hmade.isCanonical_read hmark hpath) heq
      obtain ⟨_, -, -, hhas⟩ := Relocation.exists_pair (List.mem_map_of_mem hpair)
      exact absurd hhas (by simp [hsame, hmade.not_has_other hother])
  obtain ⟨content, hcontent, hdecode⟩ := hmade.exists_writtenTo hslash hpath htext
  rw [← hcarried.holds _ hkept, FileTree.content?_eq_some_iff] at hcontent
  exact ⟨content, hcontent, hdecode⟩

/-- An import of a plain source that moves is spelled anew from the new places. -/
theorem MovePlan.MadeOf.retarget_eq
    (hmark : Path.rootMark (Path.append scene.cwd root) =
      Path.rootMark (Path.append scene.cwd source))
    (h : plan.MadeOf scene root source target "*.ts".toList others)
    (hpath : path ∈ plan.moved.pairs.map Prod.fst ++ others) {old new : Text}
    (hpair : (old, new) ∈ plan.moved.pairs) (hplain : Path.IsPlainSource old) {line : ImportLine}
    (hline : line ∈ (scene.extraction path text).record.imports)
    (hspelled : Path.relativeImport? scene.cwd path old false = some line.modulePath) :
    Path.relativeImport? scene.cwd (plan.moved.apply path) new false =
      some (plan.moved.retarget scene.cwd path line) := by
  have hslash : '/' ∉ "*.ts".toList := by decide
  have hfile := h.hasFileAt_read hpath
  have hold := h.hasFileAt_old hpair
  have hcanonical := h.isCanonical_read hmark hpath
  have hbelow : ¬ Path.components old <+: (Path.components path).dropLast := by
    intro habove
    obtain ⟨hstart, hne⟩ := (FileTree.prefix_dropLast_iff hfile.ne_nil).mp habove
    obtain ⟨content, hnode⟩ := hfile
    obtain ⟨content', hnode'⟩ := hold
    cases (scene.grounded.above hnode hstart hne).symm.trans hnode'
  obtain ⟨hknown, hresolve⟩ := Path.resolveImport_relativeImport? hcanonical
    (h.isCanonical_old hpair) hfile.ne_nil hbelow hplain hspelled
  have hresolved : line.resolvedPath = some old := by
    rw [Extraction.resolvedPath_of_mem_ofTree hline, hcanonical.standardize_eq, hresolve]
  have happly : plan.moved.apply old = new := h.apply_old hpair
  have hmoves : new ≠ old := by
    rintro rfl
    obtain ⟨content, hnode⟩ := hold
    cases (h.node?_new hslash hpair).symm.trans hnode
  obtain ⟨c, rest, hnew⟩ : ∃ c rest, new = c :: rest := by
    have habsolute := (h.isDirect_new hslash hpair).absolute
    cases new with
    | nil => cases habsolute
    | cons c rest => exact ⟨c, rest, rfl⟩
  obtain ⟨spelling, hspelling⟩ := Path.exists_relativeImport?_of_ne_nil scene.cwd
    (plan.moved.apply path) (hnew ▸ List.cons_ne_nil c rest) false
  rw [Relocation.retarget, hresolved]
  dsimp only
  rw [happly, hknown, hspelling, if_neg (by simp [hmoves]), Option.getD_some]

end Outputs

/-- A move keeps the imports of the files that move. Where the specifier of an import is the one
under which its source imports a file that moves, the statement is exchanged for one with the
specifier under which the source, from its place afterwards, imports the file at its new path; it is
written in the same quotes, and the text around the statements stays. -/
theorem moveSources_keeps_imports (root source target : Text) {scene : SoundScene}
    {told : List Event} {after : Workspace} {moved : Relocation}
    (hmark : Path.rootMark (Path.append scene.cwd root) =
      Path.rootMark (Path.append scene.cwd source))
    (h : (moveSources root source target "*.ts".toList).Succeeds ⟨scene, told⟩ moved after)
    {path : Text} (hreads : moved.Reads scene root "*.ts".toList path) :
    ∃ text result written, scene.tree.HoldsText (Path.components path) text ∧
      after.scene.tree.HoldsText (Path.components (moved.apply path)) result ∧
      Exchanged written 0 text (scene.extraction path text).record.imports result ∧
      ∀ old new, (old, new) ∈ moved.pairs → Path.IsPlainSource old →
        ∀ line ∈ (scene.extraction path text).record.imports, line.HasOneLiteral →
          Path.relativeImport? scene.cwd path old false = some line.modulePath →
            ∃ spelling, Path.relativeImport? scene.cwd (moved.apply path) new false =
                some spelling ∧ line.PointedAt spelling (written line) := by
  obtain ⟨plan, others, hmade, rfl, hdelivered⟩ := exists_plan_of_moveSources hmark h
  have hpath := hmade.mem_of_reads hreads
  obtain ⟨text, htext⟩ := hmade.exists_text_read hpath
  refine ⟨text, _, _, htext, hdelivered path text hpath htext,
    retargetImports_exchanged (plan.moved.retarget scene.cwd path) _ path _, ?_⟩
  intro old new hpair hplain line hline honce hspelled
  exact ⟨_, hmade.retarget_eq hmark hpath hpair hplain hline hspelled,
    ImportLine.pointed_pointedAt hline honce⟩

/-- A source that imports a file of the folder beside it. -/
def importingText : Text :=
  "import \x7b A \x7d from './lib/a';\n".toList

/-- The files of a project with that source and a file of that folder. -/
def FileTree.withLibrary (name : Text) : FileTree :=
  ⟨[(["src".toList], .directory), (["src".toList, "lib".toList], .directory),
    (["src".toList, "app.ts".toList], .file (Utf8.encode importingText)),
    (["src".toList, "lib".toList, name], .file [])]⟩

/-- A source that stays imports one that moves. -/
theorem moveSources_keeps_imports_two_sources :
    let scene : SoundScene := .standard ['/'] (.withLibrary "a.ts".toList) (by decide)
    ∃ moved after,
      (moveSources "/src".toList "/src/lib".toList "/src/core".toList "*.ts".toList).Succeeds
        ⟨scene, []⟩ moved after ∧
      moved.Reads scene "/src".toList "*.ts".toList "/src/app.ts".toList ∧
      moved.pairs = [("/src/lib/a.ts".toList, "/src/core/a.ts".toList)] ∧
      ∃ result written, after.scene.tree.HoldsText ["src".toList, "app.ts".toList] result ∧
        Exchanged written 0 importingText
          (scene.extraction "/src/app.ts".toList importingText).record.imports result ∧
        ∃ line ∈
            (scene.extraction "/src/app.ts".toList importingText).record.imports,
          line.PointedAt "./core/a".toList (written line) := by
  intro scene
  have hmark : Path.rootMark (Path.append scene.cwd "/src".toList) =
      Path.rootMark (Path.append scene.cwd "/src/lib".toList) := by
    decide
  have hmoves : (moveSources "/src".toList "/src/lib".toList "/src/core".toList
      "*.ts".toList).succeedsWith (fun moved =>
        moved.pairs = [("/src/lib/a.ts".toList, "/src/core/a.ts".toList)]) scene = true := by
    decide +kernel
  have hbelow : (filesBelow (Path.standardize scene.cwd "/src".toList) "*.ts".toList).succeedsWith
      (·.contains "/src/app.ts".toList) scene = true := by
    decide
  have hholds : scene.tree.HoldsText (Path.components "/src/app.ts".toList) importingText :=
    ⟨_, rfl, Utf8.decode_encode _⟩
  have hline : ∃ line ∈
      (scene.extraction "/src/app.ts".toList importingText).record.imports,
      line.HasOneLiteral ∧ Path.relativeImport? scene.cwd "/src/app.ts".toList
        "/src/lib/a.ts".toList false = some line.modulePath := by
    decide +kernel
  have hspelled : Path.relativeImport? scene.cwd "/src/app.ts".toList
      "/src/core/a.ts".toList false = some "./core/a".toList := by
    decide
  clear_value scene
  obtain ⟨moved, after, hrun, hpairs⟩ := Work.exists_succeeds hmoves
  replace hpairs := of_decide_eq_true hpairs
  have hreads : moved.Reads scene "/src".toList "*.ts".toList "/src/app.ts".toList :=
    Relocation.reads_of_contains hbelow
  have happly : moved.apply "/src/app.ts".toList = "/src/app.ts".toList := by
    rw [Relocation.apply, hpairs]
    decide
  obtain ⟨text, result, written, htext, hresult, hexchanged, hkept⟩ :=
    moveSources_keeps_imports _ _ _ hmark hrun hreads
  cases htext.unique hholds
  rw [happly] at hresult hkept
  obtain ⟨line, hmem, honce, hmodule⟩ := hline
  obtain ⟨spelling, hspelling, hpointed⟩ :=
    hkept _ _ (hpairs ▸ List.mem_singleton_self _) (by decide) line hmem honce hmodule
  cases hspelled.symm.trans hspelling
  exact ⟨moved, after, hrun, hreads, hpairs, result, written, hresult, hexchanged,
    line, hmem, hpointed⟩

/-- The specifier of a declaration file names a source that is not there, so an import of it is left
behind when the file moves. -/
theorem moveSources_leaves_import_of_declarations :
    let scene : SoundScene := .standard ['/'] (.withLibrary "a.d.ts".toList) (by decide)
    ∃ moved after,
      (moveSources "/src".toList "/src/lib".toList "/src/core".toList "*.ts".toList).Succeeds
        ⟨scene, []⟩ moved after ∧
      moved.Reads scene "/src".toList "*.ts".toList "/src/app.ts".toList ∧
      moved.pairs = [("/src/lib/a.d.ts".toList, "/src/core/a.d.ts".toList)] ∧
      moved.apply "/src/app.ts".toList = "/src/app.ts".toList ∧
      scene.tree.HoldsText (Path.components "/src/app.ts".toList) importingText ∧
      (∃ line ∈
          (scene.extraction "/src/app.ts".toList importingText).record.imports,
        line.HasOneLiteral ∧ Path.relativeImport? scene.cwd "/src/app.ts".toList
          "/src/lib/a.d.ts".toList false = some line.modulePath) ∧
      ∃ result, after.scene.tree.HoldsText (Path.components "/src/app.ts".toList) result ∧
        ∀ line ∈ (scene.extraction "/src/app.ts".toList result).record.imports,
          Path.relativeImport? scene.cwd "/src/app.ts".toList "/src/core/a.d.ts".toList false ≠
            some line.modulePath := by
  intro scene
  have hmoves : (moveSources "/src".toList "/src/lib".toList "/src/core".toList
      "*.ts".toList).succeedsWith (fun moved =>
        moved.pairs = [("/src/lib/a.d.ts".toList, "/src/core/a.d.ts".toList)]) scene = true := by
    decide +kernel
  have hleaves : (moveSources "/src".toList "/src/lib".toList "/src/core".toList
      "*.ts".toList).leavesText (Path.components "/src/app.ts".toList) importingText scene =
      true := by
    decide +kernel
  have hbelow : (filesBelow (Path.standardize scene.cwd "/src".toList) "*.ts".toList).succeedsWith
      (·.contains "/src/app.ts".toList) scene = true := by
    decide
  have hholds : scene.tree.HoldsText (Path.components "/src/app.ts".toList) importingText :=
    ⟨_, rfl, Utf8.decode_encode _⟩
  have hline : ∃ line ∈
      (scene.extraction "/src/app.ts".toList importingText).record.imports,
      line.HasOneLiteral ∧ Path.relativeImport? scene.cwd "/src/app.ts".toList
        "/src/lib/a.d.ts".toList false = some line.modulePath := by
    decide +kernel
  have hlost : ∀ line ∈
      (scene.extraction "/src/app.ts".toList importingText).record.imports,
      Path.relativeImport? scene.cwd "/src/app.ts".toList "/src/core/a.d.ts".toList false ≠
        some line.modulePath := by
    decide +kernel
  clear_value scene
  obtain ⟨moved, after, hrun, hpairs⟩ := Work.exists_succeeds hmoves
  obtain ⟨moved', after', hrun', hresult⟩ := Work.exists_holdsText hleaves
  cases hrun.symm.trans hrun'
  replace hpairs := of_decide_eq_true hpairs
  have hreads : moved.Reads scene "/src".toList "*.ts".toList "/src/app.ts".toList :=
    Relocation.reads_of_contains hbelow
  have happly : moved.apply "/src/app.ts".toList = "/src/app.ts".toList := by
    rw [Relocation.apply, hpairs]
    decide
  exact ⟨moved, after, hrun, hreads, hpairs, happly, hholds, hline, _, hresult,
    hlost⟩

end Disentangle
