import Disentangle.Proofs.Project.Following

/-!
What a move changes in a tree, and what it leaves. The files that move are those below the old
folder that have a name that fits the pattern. They are gone from their old places and stand at the
new ones, where nothing but their imports has changed. Of the other files only those change that are
below the root, have a name that fits and import one of them, and of these only the imports. No file
comes to be anywhere else, and in the old folder no directory is left that holds nothing.
-/

namespace Disentangle

open Inquiry

/-- The path of a file below a directory that has a name that fits a pattern. -/
def Scene.FitsBelow (scene : Scene) (directory pattern path : Text) : Prop :=
  ∃ front name, (∀ n ∈ front ++ [name], Path.IsName n) ∧
    Wildcard.matchesText pattern name = true ∧
    path = Path.standardize scene.cwd
      (Path.append (Path.standardize scene.cwd directory) (Text.join ['/'] (front ++ [name])))

/-- The source at a path imports a file that moves. -/
def Relocation.ImportedBy (moved : Relocation) (scene : Scene) (path text : Text) : Prop :=
  ∃ line ∈ (scene.extraction path text).record.imports,
    ∃ pair ∈ moved.pairs, line.resolvedPath = some pair.1

/-- The texts of the source at a path differ in nothing but the import statements. -/
def Scene.DifferInImports (scene : Scene) (path text text' : Text) : Prop :=
  ∃ written, Exchanged written 0 text (scene.extraction path text).record.imports text'

theorem FileRecord.retargetImports_eq_self {record : FileRecord} {resolve : ImportLine → Text}
    (h : ∀ line ∈ record.imports, resolve line = line.modulePath) (text : Text) :
    record.retargetImports resolve text = text := by
  have hnone : record.changes resolve = [] :=
    List.filterMap_eq_nil_iff.mpr fun line hline => if_pos (h line hline)
  rw [retargetImports, hnone]
  rfl

namespace Relocation

variable {moved : Relocation} {scene : Scene} {cwd path text : Text} {line : ImportLine}

theorem retarget_eq_modulePath (hpath : moved.has path = false)
    (hline : ∀ resolved, line.resolvedPath = some resolved → moved.has resolved = false) :
    moved.retarget cwd path line = line.modulePath := by
  rw [retarget]
  split
  next => rfl
  next resolved hresolved =>
    rw [apply_of_not_has (hline resolved hresolved), hpath, if_pos (by simp)]

/-- The text of a source that stays changes only if it imports a file that moves. -/
theorem importedBy_of_textAfter_ne (hpath : moved.has path = false)
    (h : moved.textAfter scene path text ≠ text) : moved.ImportedBy scene path text := by
  by_contra hnone
  refine h (FileRecord.retargetImports_eq_self (fun line hline => ?_) text)
  refine retarget_eq_modulePath hpath fun resolved hresolved => ?_
  refine Bool.eq_false_iff.mpr fun hhas => ?_
  obtain ⟨pair, hpair, rfl⟩ := exists_pair_of_has hhas
  exact hnone ⟨line, hline, pair, hpair, hresolved⟩

theorem differInImports_textAfter (moved : Relocation) (scene : Scene) (path text : Text) :
    scene.DifferInImports path text (moved.textAfter scene path text) :=
  ⟨_, retargetImports_exchanged (moved.retarget scene.cwd path) scene.cwd path _⟩

end Relocation

section Carried

variable {scene : SoundScene} {root source target pattern : Text} {others : List Text}
  {plan : MovePlan}
  {after : FileTree} {place : Location} {content : List UInt8}

section Below

variable {directory path : Text} {paths : List Text} {told told' : List Event}

theorem fitsBelow_of_filesBelow
    (hslash : '/' ∉ pattern)
    (h : (filesBelow (Path.standardize scene.cwd directory) pattern).Succeeds scene told paths
      told') (hpath : path ∈ paths) : scene.FitsBelow directory pattern path := by
  have hdirect := Path.isDirect_standardize scene.cwd directory
  have hdown := hdirect.leadsDown
  obtain ⟨found, hfound, hpaths⟩ := exists_found_of_filesBelow h
  obtain ⟨steps, hsteps, rfl⟩ := (hpaths path).mp hpath
  rw [Path.steps_of_isDirect hdirect] at hfound
  obtain ⟨front, name, rfl, hmatches⟩ :=
    scene.wellFormed.exists_name_of_filesMatching hslash hdown hfound hsteps
  have hnames := (scene.wellFormed.isName_of_filesMatching hslash hdown hfound hsteps).2
  exact ⟨front, name, hnames, hmatches, rfl⟩

/-- Files that fit are found, unless the pattern asks for directories at any depth. -/
theorem mem_of_fitsBelow (hslash : '/' ∉ pattern)
    (hdepth : pattern ≠ "**".toList)
    (h : (filesBelow (Path.standardize scene.cwd directory) pattern).Succeeds scene told paths
      told') (hfits : scene.FitsBelow directory pattern path)
    (hfile : scene.tree.HasFileAt (Path.components path)) : path ∈ paths := by
  have hcanonical := Path.isCanonical_standardize scene.cwd directory
  obtain ⟨found, hfound, hpaths⟩ := exists_found_of_filesBelow h
  rw [Path.steps_of_isDirect hcanonical.isDirect] at hfound
  obtain ⟨front, name, hnames, hmatches, rfl⟩ := hfits
  rw [hcanonical.components_append scene.cwd hnames] at hfile
  have hmem := scene.wellFormed.mem_filesMatching hslash hdepth hcanonical.isDirect.leadsDown hfound
    hnames hmatches hfile
  exact (hpaths _).mpr ⟨_, hmem, rfl⟩

end Below

/-- What moves are the files below the folder that have a name that fits, and each goes where its
path leads behind the new folder. -/
theorem MovePlan.MadeOf.moved_iff (h : plan.MadeOf scene root source target pattern others)
    (hslash : '/' ∉ pattern)
    (hdepth : pattern ≠ "**".toList) (old new : Text) :
    (old, new) ∈ plan.moved.pairs ↔ scene.FitsBelow source pattern old ∧
      scene.tree.HasFileAt (Path.components old) ∧
      new = Path.standardize scene.cwd target ++
        old.drop (Path.standardize scene.cwd source).length := by
  constructor
  · intro hpair
    have hfile := h.hasFileAt_old hpair
    obtain ⟨found, _, _, hfound, hmoved⟩ := h.moved
    rw [hmoved, h.source] at hpair
    rw [h.source] at hfound
    obtain ⟨_, hmem, heq⟩ := List.mem_map.mp hpair
    cases heq
    exact ⟨fitsBelow_of_filesBelow hslash hfound (List.mem_eraseDups.mp hmem), hfile,
      rfl⟩
  · rintro ⟨hfits, hfile, rfl⟩
    obtain ⟨found, _, _, hfound, hmoved⟩ := h.moved
    rw [h.source] at hfound hmoved
    rw [hmoved]
    have hmem := mem_of_fitsBelow hslash hdepth hfound hfits hfile
    exact List.mem_map.mpr ⟨old, List.mem_eraseDups.mpr hmem, rfl⟩

theorem MovePlan.MadeOf.fitsBelow_other
    (h : plan.MadeOf scene root source target pattern others) (hslash : '/' ∉ pattern)
    {path : Text} (hpath : path ∈ others) :
    scene.FitsBelow root pattern path := by
  obtain ⟨found, _, _, hfound, rfl⟩ := h.stays
  have hmem := (List.mem_filter.mp ((sortBy_perm _ _).mem_iff.mp hpath)).1
  exact fitsBelow_of_filesBelow hslash hfound hmem

namespace MovePlan.CarriedOut

/-- A file that moves is at its new place, changed in its imports only. -/
theorem exists_moved (hcarried : plan.CarriedOut scene.tree after)
    (h : plan.MadeOf scene root source target pattern others)
    (hslash : '/' ∉ pattern) {pair : Text × Text} (hpair : pair ∈ plan.moved.pairs) :
    ∃ text result, scene.tree.HoldsText (Path.components pair.1) text ∧
      after.HoldsText (Path.components pair.2) result ∧
      scene.DifferInImports pair.1 text result := by
  have hread : pair.1 ∈ plan.moved.pairs.map Prod.fst ++ others :=
    List.mem_append_left _ (List.mem_map_of_mem hpair)
  obtain ⟨text, htext⟩ := h.exists_text_read hread
  obtain ⟨content, hcontent, hdecode⟩ := h.exists_writtenTo hslash hread htext
  rw [h.apply_old hpair,
    ← hcarried.holds _ fun pair' hpair' => h.old_ne_new hslash hpair hpair',
    FileTree.content?_eq_some_iff] at hcontent
  exact ⟨text, _, htext, ⟨content, hcontent, hdecode⟩,
    plan.moved.differInImports_textAfter scene pair.1 text⟩

/-- A file that does not move stays, and stays the same unless it is a source that imports one that
moves. -/
theorem stays_or_changes (hcarried : plan.CarriedOut scene.tree after)
    (h : plan.MadeOf scene root source target pattern others) (hslash : '/' ∉ pattern)
    (hnode : scene.tree.node? place = some (.file content))
    (hplace : ∀ pair ∈ plan.moved.pairs, Path.components pair.1 ≠ place) :
    after.node? place = some (.file content) ∨ ∃ path text result,
      Path.components path = place ∧ scene.FitsBelow root pattern path ∧
      scene.tree.HoldsText place text ∧ plan.moved.ImportedBy scene path text ∧
      after.HoldsText place result ∧ scene.DifferInImports path text result := by
  have hholds := hcarried.holds place hplace
  by_cases hwritten : ∃ write ∈ plan.outputs, Path.components write.1 = place
  · obtain ⟨write, hwrite, rfl⟩ := hwritten
    rw [h.writtenTo_of_mem_outputs hslash hwrite, FileTree.content?_eq_some_iff] at hholds
    obtain ⟨path, text, hpath, htext, rfl, hcause⟩ := h.of_mem_outputs hwrite
    rcases h.moves_or_stays hpath with ⟨new, hpair, happly⟩ | ⟨hother, happly⟩
    · -- Nothing stood where a file goes.
      rw [happly] at hnode
      cases (h.node?_new hslash hpair).symm.trans hnode
    · have hhas := h.not_has_other hother
      rw [happly] at hholds ⊢
      exact .inr ⟨path, text, _, rfl, h.fitsBelow_other hslash hother, htext,
        Relocation.importedBy_of_textAfter_ne hhas (hcause.resolve_left (by simp [hhas])),
        ⟨_, hholds, Utf8.decode_encode _⟩,
        plan.moved.differInImports_textAfter scene path text⟩
  · rw [writtenTo_of_forall_ne fun write hwrite heq => hwritten ⟨write, hwrite, heq⟩] at hholds
    rw [← FileTree.content?_eq_some_iff, hholds, FileTree.content?_eq_some_iff]
    exact .inl hnode

/-- A file that is there afterwards has moved, or was there before. -/
theorem moved_or_stayed (hcarried : plan.CarriedOut scene.tree after)
    (h : plan.MadeOf scene root source target pattern others)
    (hnode : after.node? place = some (.file content)) :
    (∃ pair ∈ plan.moved.pairs, Path.components pair.2 = place) ∨
      scene.tree.HasFileAt place ∧
        ∀ pair ∈ plan.moved.pairs, Path.components pair.1 ≠ place := by
  have hplace : ∀ pair ∈ plan.moved.pairs, Path.components pair.1 ≠ place := by
    rintro pair hpair rfl
    cases (hcarried.gone pair hpair).symm.trans hnode
  have hholds := hcarried.holds place hplace
  rw [FileTree.content?_eq_some_iff.mpr hnode] at hholds
  by_cases hwritten : ∃ write ∈ plan.outputs, Path.components write.1 = place
  · obtain ⟨write, hwrite, rfl⟩ := hwritten
    obtain ⟨path, text, hpath, -, rfl, -⟩ := h.of_mem_outputs hwrite
    rcases h.moves_or_stays hpath with ⟨new, hpair, happly⟩ | ⟨-, happly⟩
    · exact .inl ⟨_, hpair, congrArg Path.components happly.symm⟩
    · rw [happly] at hplace ⊢
      exact .inr ⟨h.hasFileAt_read hpath, hplace⟩
  · rw [writtenTo_of_forall_ne fun write hwrite heq => hwritten ⟨write, hwrite, heq⟩] at hholds
    exact .inr ⟨⟨content, FileTree.content?_eq_some_iff.mp hholds.symm⟩, hplace⟩

end MovePlan.CarriedOut

end Carried

/-- What a move leaves behind, whatever the folders are and however they overlap. What moves are the
files below the old folder that have a name that fits the pattern, and each goes where it was, seen
from the new folder; only `**` asks for directories in place of names. No old path leads to
anything any more, and at each new one stands the old text, with nothing changed but its import
statements. Every other file is still there with the same content, unless it is below the root, has
a name that fits the pattern and imports a file that moves, and then nothing but its import
statements has changed. Each file that is there is one that has moved, or was there before and has
not moved. No empty directory is left in the old folder, and the folder itself is not left empty. -/
theorem moveSources_frame (root source target pattern : Text) {scene : SoundScene}
    {told : List Event} {after : Workspace} {moved : Relocation} (hslash : '/' ∉ pattern)
    (hsource : Path.components (Path.standardize scene.cwd source) ≠ [])
    (h : (moveSources root source target pattern).Succeeds ⟨scene, told⟩ moved after) :
    (pattern ≠ "**".toList → ∀ old new, (old, new) ∈ moved.pairs ↔
        scene.FitsBelow source pattern old ∧
        scene.tree.HasFileAt (Path.components old) ∧
        new = Path.standardize scene.cwd target ++
          old.drop (Path.standardize scene.cwd source).length) ∧
      (∀ pair ∈ moved.pairs, after.scene.tree.node? (Path.components pair.1) = none) ∧
      (∀ pair ∈ moved.pairs, ∃ text result,
        scene.tree.HoldsText (Path.components pair.1) text ∧
        after.scene.tree.HoldsText (Path.components pair.2) result ∧
        scene.DifferInImports pair.1 text result) ∧
      (∀ place content, scene.tree.node? place = some (.file content) →
        (∀ pair ∈ moved.pairs, Path.components pair.1 ≠ place) →
        after.scene.tree.node? place = some (.file content) ∨ ∃ path text result,
          Path.components path = place ∧ scene.FitsBelow root pattern path ∧
          scene.tree.HoldsText place text ∧
          moved.ImportedBy scene path text ∧
          after.scene.tree.HoldsText place result ∧
          scene.DifferInImports path text result) ∧
      (∀ place content, after.scene.tree.node? place = some (.file content) →
        (∃ pair ∈ moved.pairs, Path.components pair.2 = place) ∨
          scene.tree.HasFileAt place ∧
            ∀ pair ∈ moved.pairs, Path.components pair.1 ≠ place) ∧
      ∀ place, Path.components (Path.standardize scene.cwd source) <+: place →
        after.scene.tree.node? place = some .directory →
          ∃ name node, after.scene.tree.node? (place ++ [name]) = some node := by
  obtain ⟨plan, others, hmade, rfl, hcarried⟩ :=
    exists_carriedOut_of_moveSources hslash h
  refine ⟨hmade.moved_iff hslash, hcarried.gone,
    fun pair hpair => hcarried.exists_moved hmade hslash hpair,
    fun place content hnode hplace =>
      hcarried.stays_or_changes hmade hslash hnode hplace,
    fun place content hnode => hcarried.moved_or_stayed hmade hnode, ?_⟩
  rw [← hmade.source] at hsource ⊢
  exact hcarried.filled hsource

/-- A folder that moves beside a source that stays. -/
theorem moveSources_frame_two_sources :
    let scene : SoundScene := .standard ['/'] (.withLibrary "a.ts".toList) (by decide)
    '/' ∉ "*.ts".toList ∧
      Path.components (Path.standardize scene.cwd "/src/lib".toList) ≠ [] ∧ ∃ moved after,
      (moveSources "/src".toList "/src/lib".toList "/src/core".toList "*.ts".toList).Succeeds
        ⟨scene, []⟩ moved after ∧
      moved.pairs = [("/src/lib/a.ts".toList, "/src/core/a.ts".toList)] ∧
      after.scene.tree.node? ["src".toList, "lib".toList, "a.ts".toList] = none ∧
      (∃ text result, scene.tree.HoldsText ["src".toList, "lib".toList, "a.ts".toList] text ∧
        after.scene.tree.HoldsText ["src".toList, "core".toList, "a.ts".toList] result ∧
        scene.DifferInImports "/src/lib/a.ts".toList text result) ∧
      ∀ place, ["src".toList, "lib".toList] <+: place →
        after.scene.tree.node? place = some .directory →
          ∃ name node, after.scene.tree.node? (place ++ [name]) = some node := by
  intro scene
  have hslash : '/' ∉ "*.ts".toList := by decide
  have hsource : Path.components (Path.standardize scene.cwd "/src/lib".toList) =
      ["src".toList, "lib".toList] := by
    decide
  have hroot : Path.components (Path.standardize scene.cwd "/src/lib".toList) ≠ [] := by
    rw [hsource]
    exact List.cons_ne_nil _ _
  have hmoves : (moveSources "/src".toList "/src/lib".toList "/src/core".toList
      "*.ts".toList).succeedsWith (fun moved =>
        moved.pairs = [("/src/lib/a.ts".toList, "/src/core/a.ts".toList)]) scene = true := by
    decide +kernel
  clear_value scene
  obtain ⟨moved, after, hrun, hpairs⟩ := Work.exists_succeeds hmoves
  replace hpairs := of_decide_eq_true hpairs
  obtain ⟨-, hgone, hmoved, -, -, hfilled⟩ :=
    moveSources_frame _ _ _ _ hslash hroot hrun
  have hpair := hpairs ▸ List.mem_singleton_self _
  exact ⟨hslash, hroot, moved, after, hrun, hpairs, hgone _ hpair,
    hmoved _ hpair, hsource ▸ hfilled⟩

end Disentangle
