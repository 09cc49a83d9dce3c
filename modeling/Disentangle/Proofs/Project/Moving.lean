import Disentangle.Project.Move
import Disentangle.Proofs.Project.Leaving
import Disentangle.Proofs.Project.Writing

/-!
Moving a folder never loses a source. A move that stops because something is wrong has not begun to
write. Once it writes, the copies come first, each to a place where nothing stood; only these writes
can be refused, and then all that stood before still stands as it was. Behind the last copy nothing
can go wrong any more: a source that stays is written over a file, and what is removed is there.
-/

namespace Disentangle

namespace Path

variable {mark path : Text}

theorem IsCanonical.isDirect (h : IsCanonical mark path) : IsDirect path where
  absolute := h.isAbsolute
  leadsDown := by
    intro step hstep
    obtain ⟨hpiece, hne, -⟩ := mem_components.mp hstep
    exact (h.isName_of_mem_pieces hpiece hne).ne_dots

end Path

namespace Inquiry

variable {α β : Type} {scene : SoundScene} {told told' : List Event}

theorem exists_of_succeeds_forM {inquiry : α → Inquiry Unit} {items : List α}
    (h : (items.forM inquiry).Succeeds scene told () told') {a : α} (ha : a ∈ items) :
    ∃ told told', (inquiry a).Succeeds scene told () told' := by
  induction items generalizing told with
  | nil => cases ha
  | cons first rest ih =>
    obtain ⟨_, middle, hfirst, hrest⟩ := succeeds_bind.mp h
    rcases List.mem_cons.mp ha with rfl | ha
    · exact ⟨_, _, hfirst⟩
    · exact ih hrest ha

@[simp] theorem succeeds_exists? {path : Text} {found : Bool} :
    (exists? path).Succeeds scene told found told' ↔
      scene.tree.has (scene.steps path) = found ∧ told = told' := by
  simp only [exists?, succeeds_bind, succeeds_read, succeeds_pure]
  constructor
  · rintro ⟨_, _, ⟨rfl, rfl⟩, hfound, rfl⟩
    exact ⟨hfound, rfl⟩
  · rintro ⟨hfound, rfl⟩
    exact ⟨_, _, ⟨rfl, rfl⟩, hfound, rfl⟩

end Inquiry

open Inquiry

theorem onlyReads_filesBelow (directory pattern : Text) :
    (filesBelow directory pattern).OnlyReads := by
  refine onlyReads_bind onlyReads_read fun scene => ?_
  exact onlyReads_bind (onlyReads_orFault _) fun _ => onlyReads_pure _

section Stages

variable {scene : SoundScene} {told told' : List Event} {plan : MovePlan}
  {root source target pattern : Text}

/-- How a move is planned: the sources below the folder are to move where nothing stands, and what
is to be written comes from these sources first and then from the others below the root. -/
structure MovePlan.MadeOf (scene : Scene) (root source target pattern : Text)
    (others : List Text) (plan : MovePlan) : Prop where
  source : plan.source = Path.standardize scene.cwd source
  moved : ∃ found told told', (filesBelow plan.source pattern).Succeeds scene told found told' ∧
    plan.moved = Relocation.ofFolder plan.source (Path.standardize scene.cwd target) found
  free : ∀ pair ∈ plan.moved.pairs, scene.tree.has (scene.steps pair.2) = false
  stays : ∃ found told told',
    (filesBelow (Path.standardize scene.cwd root) pattern).Succeeds scene told found told' ∧
      others = sortBy Text.le (found.filter (!plan.moved.has ·))
  outputs : ∃ copies rewrites,
    List.Forall₂ (fun path output => ∃ told told',
      (moveSource plan.moved path).Succeeds scene told output told')
        (plan.moved.pairs.map Prod.fst) copies ∧
    List.Forall₂ (fun path output => ∃ told told',
      (moveSource plan.moved path).Succeeds scene told output told') others rewrites ∧
    plan.outputs = copies.filterMap id ++ rewrites.filterMap id

theorem madeOf_of_planMove
    (h : (planMove root source target pattern).Succeeds scene told plan told') :
    ∃ others, plan.MadeOf scene root source target pattern others := by
  rw [planMove] at h
  simp only [succeeds_bind, succeeds_standardize] at h
  obtain ⟨_, _, ⟨rfl, rfl⟩, _, _, ⟨rfl, rfl⟩, _, _, ⟨rfl, rfl⟩, isDirectory, _, -, h⟩ := h
  cases isDirectory with
  | false => simp at h
  | true =>
    rw [Bool.not_true, if_neg Bool.false_ne_true] at h
    split at h
    next => simp at h
    next =>
      simp only [succeeds_bind, succeeds_tell, succeeds_pure] at h
      obtain ⟨olds, _, holds, _, _, hfree, found, _, hfound, _, _, rfl, outputs, _, houtputs,
        rfl, -⟩ := h
      rw [List.mapM_append] at houtputs
      simp only [succeeds_bind, succeeds_pure] at houtputs
      obtain ⟨copies, _, hcopies, rewrites, _, hrewrites, rfl, -⟩ := houtputs
      refine ⟨_, rfl, ⟨olds, _, _, holds, rfl⟩, fun pair hpair => ?_, ⟨found, _, _, hfound, rfl⟩,
        copies, rewrites, forall₂_of_succeeds_mapM hcopies, forall₂_of_succeeds_mapM hrewrites,
        List.filterMap_append⟩
      obtain ⟨_, _, hpair⟩ := exists_of_succeeds_forM hfree hpair
      simp only [succeeds_bind, succeeds_exists?] at hpair
      obtain ⟨taken, _, ⟨htaken, -⟩, hpair⟩ := hpair
      cases taken with
      | false => exact htaken
      | true => simp at hpair

/-- What is found below a directory is found by a search from there. -/
theorem exists_found_of_filesBelow {directory : Text} {paths : List Text}
    (h : (filesBelow directory pattern).Succeeds scene told paths told') :
    ∃ found, scene.tree.filesMatching (scene.steps directory) pattern = .ok found ∧
      ∀ path, path ∈ paths ↔ ∃ steps ∈ found,
        Path.standardize scene.cwd (Path.append directory (Text.join ['/'] steps)) = path := by
  simp only [filesBelow, succeeds_bind, succeeds_read, succeeds_orFault, succeeds_pure] at h
  obtain ⟨_, _, ⟨rfl, rfl⟩, found, _, ⟨hfound, -⟩, rfl, -⟩ := h
  refine ⟨found, hfound, fun path => ?_⟩
  simp only [List.mem_map, (sortBy_perm _ _).mem_iff]

/-- What is found below a canonical directory has canonical paths with its root mark. -/
theorem isCanonical_of_filesBelow {mark directory : Text}
    (hdirectory : Path.IsCanonical mark directory) {paths : List Text}
    (h : (filesBelow directory pattern).Succeeds scene told paths told') {path : Text}
    (hpath : path ∈ paths) : Path.IsCanonical mark path := by
  obtain ⟨found, hfound, hpaths⟩ := exists_found_of_filesBelow h
  obtain ⟨steps, hsteps, rfl⟩ := (hpaths path).mp hpath
  have hstep := (scene.plainNames.of_filesMatching hfound hsteps).1
  exact hdirectory.standardize_append scene.cwd (Path.head?_join_of_isStep hstep)

/-- What is prepared for a source: its text with the imports pointed at where they lead
afterwards, if it moves or changes. -/
theorem of_moveSource {moved : Relocation} {path : Text} {output : Option (Text × Text)}
    (h : (moveSource moved path).Succeeds scene told output told') :
    ∃ told told' text, (readSource path).Succeeds scene told text told' ∧
      output =
        let record := (scene.extraction path text).record
        let result := record.retargetImports (moved.retarget scene.cwd path) text
        if moved.has path || result ≠ text then some (moved.apply path, result) else none := by
  simp only [moveSource, retargetText, succeeds_bind, succeeds_read, succeeds_tellAll,
    succeeds_pure] at h
  obtain ⟨text, _, htext, _, _, ⟨rfl, rfl⟩, result, _, ⟨⟨record, _⟩, _, hrecord, _, _, -, rfl, -⟩,
    rfl, -⟩ := h
  cases (of_extract hrecord).1
  exact ⟨_, _, text, htext, rfl⟩

namespace Relocation

variable {moved : Relocation} {old : Text}

theorem exists_pair (h : old ∈ moved.pairs.map Prod.fst) :
    ∃ new, (old, new) ∈ moved.pairs ∧ moved.apply old = new ∧ moved.has old = true := by
  cases hlookup : moved.pairs.lookup old with
  | none =>
    obtain ⟨pair, hpair, rfl⟩ := List.mem_map.mp h
    simpa using List.lookup_eq_none_iff.mp hlookup pair hpair
  | some new =>
    obtain ⟨front, back, hpairs, -⟩ := List.lookup_eq_some_iff.mp hlookup
    exact ⟨new, by simp [hpairs], by simp [apply, hlookup], by simp [has, hlookup]⟩

theorem exists_pair_of_has (h : moved.has old = true) : ∃ pair ∈ moved.pairs, pair.1 = old := by
  obtain ⟨new, hlookup⟩ := Option.isSome_iff_exists.mp h
  obtain ⟨front, back, hpairs, -⟩ := List.lookup_eq_some_iff.mp hlookup
  exact ⟨(old, new), by simp [hpairs], rfl⟩

theorem apply_of_not_has (h : moved.has old = false) : moved.apply old = old := by
  rw [has, Option.isSome_eq_false_iff, Option.isNone_iff_eq_none] at h
  rw [apply, h, Option.getD_none]

end Relocation

namespace MovePlan.MadeOf

variable {others : List Text}

theorem isCanonical_source (h : plan.MadeOf scene root source target pattern others) :
    Path.IsCanonical (Path.rootMark (Path.append scene.cwd source)) plan.source :=
  h.source ▸ Path.isCanonical_standardize scene.cwd source

theorem isCanonical_old (h : plan.MadeOf scene root source target pattern others)
    {pair : Text × Text} (hpair : pair ∈ plan.moved.pairs) :
    Path.IsCanonical (Path.rootMark (Path.append scene.cwd source)) pair.1 := by
  obtain ⟨found, _, _, hfound, hmoved⟩ := h.moved
  rw [hmoved] at hpair
  obtain ⟨old, hold, rfl⟩ := List.mem_map.mp hpair
  exact isCanonical_of_filesBelow h.isCanonical_source hfound (List.mem_eraseDups.mp hold)

theorem isCanonical_other (h : plan.MadeOf scene root source target pattern others) {path : Text}
    (hpath : path ∈ others) :
    Path.IsCanonical (Path.rootMark (Path.append scene.cwd root)) path := by
  obtain ⟨found, _, _, hfound, rfl⟩ := h.stays
  have hmem := (List.mem_filter.mp ((sortBy_perm _ _).mem_iff.mp hpath)).1
  exact isCanonical_of_filesBelow (Path.isCanonical_standardize scene.cwd root) hfound hmem

theorem not_has_other (h : plan.MadeOf scene root source target pattern others) {path : Text}
    (hpath : path ∈ others) : plan.moved.has path = false := by
  obtain ⟨found, _, _, _, rfl⟩ := h.stays
  simpa using (List.mem_filter.mp ((sortBy_perm _ _).mem_iff.mp hpath)).2

/-- The new path of a file leads to a place where nothing stands. -/
theorem exists_place (h : plan.MadeOf scene root source target pattern others) {pair : Text × Text}
    (hpair : pair ∈ plan.moved.pairs) :
    Path.isAbsolute pair.2 = true ∧ ∃ place, FileTree.LeadsTo (Path.components pair.2) place ∧
      scene.tree.node? place = none := by
  have hold := h.isCanonical_old hpair
  obtain ⟨found, _, _, -, hmoved⟩ := h.moved
  have hnew : pair.2 = Path.standardize scene.cwd target ++ pair.1.drop plan.source.length := by
    rw [hmoved] at hpair
    obtain ⟨old, -, rfl⟩ := List.mem_map.mp hpair
    rfl
  have htarget := Path.isCanonical_standardize scene.cwd target
  have habsolute : Path.isAbsolute pair.2 = true :=
    hnew ▸ Path.isAbsolute_append htarget.isAbsolute _
  obtain ⟨place, hplace⟩ := htarget.exists_leadsTo hold plan.source.length
  rw [← hnew] at hplace
  refine ⟨habsolute, place, hplace, hplace.node?_eq_none scene.grounded ?_⟩
  have hfree := h.free pair hpair
  rwa [Path.steps_of_isAbsolute habsolute] at hfree

theorem nodup_olds (h : plan.MadeOf scene root source target pattern others) :
    (plan.moved.pairs.map Prod.fst).Nodup := by
  obtain ⟨found, _, _, -, hmoved⟩ := h.moved
  have hfst : plan.moved.pairs.map Prod.fst = found.eraseDups := by
    rw [hmoved, Relocation.ofFolder, List.map_map]
    exact List.map_id _
  rw [hfst]
  exact nodup_eraseDups found

/-- The files that move lie at different places. -/
theorem nodup_places (h : plan.MadeOf scene root source target pattern others) :
    (plan.moved.pairs.map fun pair => Path.components pair.1).Nodup := by
  have hplaces := List.Nodup.map_on (f := Path.components) ?_ h.nodup_olds
  · rwa [List.map_map] at hplaces
  · intro old hold old' hold' heq
    obtain ⟨pair, hpair, rfl⟩ := List.mem_map.mp hold
    obtain ⟨pair', hpair', rfl⟩ := List.mem_map.mp hold'
    exact (h.isCanonical_old hpair).eq_of_components (h.isCanonical_old hpair') heq

/-- The files that move are there. -/
theorem hasFileAt_old (h : plan.MadeOf scene root source target pattern others)
    {pair : Text × Text} (hpair : pair ∈ plan.moved.pairs) :
    scene.tree.HasFileAt (Path.components pair.1) := by
  obtain ⟨copies, _, hcopies, -⟩ := h.outputs
  obtain ⟨_, -, _, _, hmove⟩ := exists_of_mem_left hcopies (List.mem_map_of_mem hpair)
  obtain ⟨_, _, _, hread, -⟩ := of_moveSource hmove
  exact (holdsText_of_readSource (h.isCanonical_old hpair).isDirect hread).hasFileAt

/-- What is written first are copies of the files that move, and then sources that stay. -/
theorem exists_outputs (h : plan.MadeOf scene root source target pattern others) :
    ∃ copies rewrites, plan.outputs = copies ++ rewrites ∧
      (∀ write ∈ copies, ∃ pair ∈ plan.moved.pairs, write.1 = pair.2) ∧
      ∀ write ∈ rewrites, Path.IsDirect write.1 ∧
        scene.tree.HasFileAt (Path.components write.1) := by
  obtain ⟨copies, rewrites, hcopies, hrewrites, houtputs⟩ := h.outputs
  refine ⟨_, _, houtputs, fun write hwrite => ?_, fun write hwrite => ?_⟩
  · obtain ⟨output, houtput, hsome⟩ := List.mem_filterMap.mp hwrite
    cases (hsome : output = some write)
    obtain ⟨old, hold, _, _, hmove⟩ := exists_of_mem_right hcopies houtput
    obtain ⟨new, hpair, happly, hhas⟩ := Relocation.exists_pair hold
    obtain ⟨_, _, _, -, heq⟩ := of_moveSource hmove
    simp only [hhas, Bool.true_or, if_true, Option.some.injEq] at heq
    exact ⟨_, hpair, heq ▸ happly⟩
  · obtain ⟨output, houtput, hsome⟩ := List.mem_filterMap.mp hwrite
    cases (hsome : output = some write)
    obtain ⟨path, hpath, _, _, hmove⟩ := exists_of_mem_right hrewrites houtput
    obtain ⟨_, _, text, hread, heq⟩ := of_moveSource hmove
    have hdirect := (h.isCanonical_other hpath).isDirect
    have hwritten : write.1 = path := by
      dsimp only at heq
      split at heq
      next =>
        rw [Option.some.inj heq]
        exact Relocation.apply_of_not_has (h.not_has_other hpath)
      next => cases heq
    rw [hwritten]
    exact ⟨hdirect, (holdsText_of_readSource hdirect hread).hasFileAt⟩

end MovePlan.MadeOf

end Stages

section Phases

open Work

variable {platform : Platform} {base : FileTree} {fails : Problem → FileTree → Prop}

/-- The work stopped with this problem at a write: it was refused, or the path or the text is
impossible. -/
def Platform.StopsAt (platform : Platform) (write : Text × Text) (problem : Problem) : Prop :=
  (∃ cause, problem = .failure (.unwritable write.1 cause)) ∨
    ∃ fault, problem = .fault fault ∧ ¬ platform.Accepts write.1 write.2

/-- Copies are written to places where nothing stood: whatever becomes of them, all that stood there
before stays. -/
theorem leaves_copies {copies : List (Text × Text)}
    (hplaces : ∀ write ∈ copies, Path.isAbsolute write.1 = true ∧ ∃ place,
      FileTree.LeadsTo (Path.components write.1) place ∧ base.node? place = none) :
    (copies.forM fun write => writeSource write.1 write.2).Leaves platform
      (fun tree => base.Extends tree ∧ tree.Grounded)
      (fun tree => base.Extends tree ∧ tree.Grounded)
      (fun problem tree => base.Extends tree ∧
        ∃ write ∈ copies, platform.StopsAt write problem) := by
  refine leaves_forM fun write hwrite => ?_
  obtain ⟨habsolute, place, hplace, hfree⟩ := hplaces write hwrite
  refine leaves_writeSource habsolute hplace (fun tree htree => htree.2) ?_ ?_
  · intro tree after htree hwritten
    exact ⟨htree.1.written hfree hwritten, hwritten.grounded htree.2⟩
  · rintro scene rfl htree problem after hstops
    exact ⟨fun p node hnode => hstops.extends p node (htree.1 p node hnode), write, hwrite,
      hstops.refused_or_fault⟩

/-- Sources that stay are written over themselves, which nothing prevents but a text that cannot be
encoded; files stay files. -/
theorem leaves_rewrites {rewrites : List (Text × Text)}
    (hfiles : ∀ write ∈ rewrites, Path.IsDirect write.1 ∧
      base.HasFileAt (Path.components write.1) ∧
      platform.pathFault? (Path.components write.1) = none) :
    (rewrites.forM fun write => writeSource write.1 write.2).Leaves platform
      (fun tree => tree.Grounded ∧ ∀ place, base.HasFileAt place → tree.HasFileAt place)
      (fun tree => tree.Grounded ∧ ∀ place, base.HasFileAt place → tree.HasFileAt place)
      (fun problem tree => (∀ place, base.HasFileAt place → tree.HasFileAt place) ∧
        problem = .fault .unencodable ∧
        ∃ write ∈ rewrites, platform.textFault? write.2 = some .unencodable) := by
  refine leaves_forM fun write hwrite => ?_
  obtain ⟨hdirect, hfile, hname⟩ := hfiles write hwrite
  refine leaves_writeSource hdirect.absolute (FileTree.LeadsTo.self hdirect.leadsDown)
    (fun tree htree => htree.1) ?_ ?_
  · intro tree after htree hwritten
    exact ⟨hwritten.grounded htree.1, fun place hplace => (htree.2 place hplace).written hwritten⟩
  · rintro scene rfl htree problem after hstops
    obtain ⟨hproblem, htext⟩ := hstops.of_hasFileAt htree.1 (htree.2 _ hfile) hname
    exact ⟨fun place hplace => (htree.2 place hplace).extends hstops.extends, hproblem, write,
      hwrite, htext⟩

/-- Files at different places are removed one after another, and nothing else is done. -/
theorem leaves_erased {pairs : List (Text × Text)}
    (hdirect : ∀ pair ∈ pairs, Path.IsDirect pair.1)
    (hplaces : (pairs.map fun pair => Path.components pair.1).Nodup) (hgrounded : base.Grounded)
    (hfiles : ∀ pair ∈ pairs, base.HasFileAt (Path.components pair.1)) :
    (pairs.forM fun pair => removeSource pair.1).Leaves platform (· = base)
      (· = (pairs.map fun pair => Path.components pair.1).foldl FileTree.erase base) fails := by
  induction pairs generalizing base with
  | nil => exact leaves_pure ()
  | cons pair rest ih =>
    obtain ⟨hother, hrest⟩ := List.nodup_cons.mp hplaces
    have hfile := hfiles pair List.mem_cons_self
    have hstep := ih (fun p hp => hdirect p (List.mem_cons_of_mem pair hp)) hrest
      (hgrounded.erase hfile) fun p hp =>
        (hfiles p (List.mem_cons_of_mem pair hp)).erase hfile fun heq =>
          hother (List.mem_map.mpr ⟨p, hp, heq⟩)
    refine leaves_bind ?_ fun _ => hstep
    refine leaves_removeSource (hdirect pair List.mem_cons_self) ?_ ?_ ?_
    · rintro tree rfl
      exact hgrounded
    · rintro tree rfl
      exact hfile
    · rintro tree rfl
      rfl

/-- How the writes of a move stop. At a copy all that stood before still stands. Behind the copies
only a text can be impossible, and then every file is still there, but sources that stay may have
been written already. -/
inductive MovePlan.StopsWriting (plan : MovePlan) (scene : Scene) (problem : Problem)
    (after : FileTree) : Prop where
  | copy {pair : Text × Text} {text : Text} (hpair : pair ∈ plan.moved.pairs)
      (hwrite : (pair.2, text) ∈ plan.outputs) (hstops : scene.platform.StopsAt (pair.2, text) problem)
      (hkept : scene.tree.Extends after)
  | rewrite {write : Text × Text} (hwrite : write ∈ plan.outputs)
      (htext : scene.platform.textFault? write.2 = some .unencodable)
      (hproblem : problem = .fault .unencodable)
      (hfiles : ∀ place, scene.tree.HasFileAt place → after.HasFileAt place)

variable {scene : SoundScene} {root source target pattern : Text} {others : List Text}
  {plan : MovePlan}

/-- All writes of a move but those of the copies succeed, as far as texts can be encoded. -/
theorem leaves_outputs (h : plan.MadeOf scene root source target pattern others) :
    (plan.outputs.forM fun write => writeSource write.1 write.2).Leaves scene.platform
      (· = scene.tree)
      (fun tree => tree.Grounded ∧ ∀ place, scene.tree.HasFileAt place → tree.HasFileAt place)
      (plan.StopsWriting scene) := by
  obtain ⟨copies, rewrites, houtputs, hcopies, hrewrites⟩ := h.exists_outputs
  have hplaces : ∀ write ∈ copies, Path.isAbsolute write.1 = true ∧ ∃ place,
      FileTree.LeadsTo (Path.components write.1) place ∧ scene.tree.node? place = none := by
    intro write hwrite
    obtain ⟨pair, hpair, heq⟩ := hcopies write hwrite
    exact heq ▸ h.exists_place hpair
  have hfiles : ∀ write ∈ rewrites, Path.IsDirect write.1 ∧
      scene.tree.HasFileAt (Path.components write.1) ∧
      scene.platform.pathFault? (Path.components write.1) = none := by
    intro write hwrite
    obtain ⟨hdirect, hfile⟩ := hrewrites write hwrite
    obtain ⟨content, hnode⟩ := hfile
    exact ⟨hdirect, ⟨content, hnode⟩, SoundScene.pathFault?_eq_none hnode⟩
  rw [houtputs]
  refine leaves_forM_append ((leaves_copies hplaces).imp ?_ ?_ ?_)
    ((leaves_rewrites hfiles).imp (fun _ htree => htree) (fun _ htree => htree) ?_)
  · rintro tree rfl
    exact ⟨.refl _, scene.grounded⟩
  · rintro tree ⟨hextends, hgrounded⟩
    exact ⟨hgrounded, fun place hplace => hplace.extends hextends⟩
  · rintro problem tree ⟨hextends, ⟨path, text⟩, hwrite, hstops⟩
    obtain ⟨pair, hpair, heq⟩ := hcopies _ hwrite
    cases heq
    exact .copy hpair (houtputs ▸ List.mem_append_left _ hwrite) hstops hextends
  · rintro problem tree ⟨hkept, hproblem, write, hwrite, htext⟩
    exact .rewrite (houtputs ▸ List.mem_append_right _ hwrite) htext hproblem hkept

end Phases

end Disentangle
