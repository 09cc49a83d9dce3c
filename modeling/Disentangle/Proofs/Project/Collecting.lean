import Disentangle.Proofs.Project.LoadOrder
import Disentangle.Proofs.Project.Sound

/-!
The sources of a project. They are collected if every pattern is one that a search takes. Each of
them is a file that is found by steps from the root, so it has a canonical path at which the system
can look, and no source is collected twice.
-/

namespace Disentangle

namespace SearchStep

variable {component pattern : Text}

end SearchStep

section Collecting

open Inquiry

variable {scene : Scene} {told told' : List Event} {options : BreakOptions} {path : Text}

/-- A source to work on is a file that is found by steps from the root of the project. -/
structure BreakOptions.Collects (options : BreakOptions) (scene : Scene) (path : Text) : Prop where
  exists_steps : ∃ steps, (∀ step ∈ steps, Path.IsStep step) ∧
    scene.tree.hasFile (scene.steps options.root ++ steps) = true ∧
    path = Path.standardize scene.cwd (Path.append options.root (Text.join ['/'] steps))

theorem collects_of_sourcesMatching {scene : SoundScene} {pattern : Text} {paths : List Text}
    (h : (sourcesMatching options pattern).Succeeds scene told paths told') (hpath : path ∈ paths) :
    options.Collects scene path := by
  simp only [sourcesMatching, succeeds_bind, succeeds_read, succeeds_orFault, succeeds_pure] at h
  obtain ⟨_, _, ⟨rfl, rfl⟩, found, _, ⟨hfound, -⟩, rfl, -⟩ := h
  obtain ⟨steps, hsteps, hkept⟩ := List.mem_filterMap.mp hpath
  obtain ⟨hplain, hfile⟩ := scene.plainNames.of_filesMatching hfound hsteps
  split at hkept
  next => exact ⟨steps, hplain, hfile, (Option.some.inj hkept).symm⟩
  next => cases hkept

/-- Sources are collected below a directory, by all patterns. -/
theorem exists_of_collectSources {sources : List Text}
    (h : (collectSources options).Succeeds scene told sources told') :
    ∃ found before after,
      (options.patterns.mapM (sourcesMatching options)).Succeeds scene before found after ∧
        sources = sortBy Text.le found.flatten.eraseDups := by
  rw [collectSources, succeeds_bind] at h
  obtain ⟨isDirectory, _, -, h⟩ := h
  cases isDirectory with
  | true =>
    simp only [Bool.not_true, Bool.false_eq_true, if_false, succeeds_bind, succeeds_pure] at h
    obtain ⟨found, _, hfound, rfl, -⟩ := h
    exact ⟨found, _, _, hfound, rfl⟩
  | false => simp at h

theorem collects_of_collectSources {scene : SoundScene} {sources : List Text}
    (h : (collectSources options).Succeeds scene told sources told') (hpath : path ∈ sources) :
    options.Collects scene path := by
  obtain ⟨found, _, _, hfound, rfl⟩ := exists_of_collectSources h
  have hmem := List.mem_eraseDups.mp ((sortBy_perm _ _).mem_iff.mp hpath)
  obtain ⟨paths, hpaths, hmem⟩ := List.mem_flatten.mp hmem
  obtain ⟨_, -, _, _, hpattern⟩ := exists_of_mem_right (forall₂_of_succeeds_mapM hfound) hpaths
  exact collects_of_sourcesMatching hpattern hmem

namespace BreakOptions.Collects

/-- Below a root that is read from the working directory, all sources have its root mark. -/
theorem isCanonical (h : (options.standardize scene.cwd).Collects scene path) :
    Path.IsCanonical (Path.rootMark (Path.append scene.cwd options.root)) path := by
  obtain ⟨steps, hsteps, -, rfl⟩ := h.exists_steps
  exact (Path.isCanonical_standardize scene.cwd options.root).standardize_append scene.cwd
    (Path.head?_join_of_isStep hsteps)

theorem pathFault?_eq_none {scene : SoundScene}
    (h : (options.standardize scene.cwd).Collects scene path) :
    scene.platform.pathFault? (Path.components path) = none := by
  obtain ⟨steps, hsteps, hfile, rfl⟩ := h.exists_steps
  exact SoundScene.pathFault?_of_hasFile (Path.isCanonical_standardize scene.cwd options.root)
    hsteps hfile

theorem standardize_eq (h : options.Collects scene path) :
    Path.standardize scene.cwd path = path := by
  obtain ⟨steps, -, -, rfl⟩ := h.exists_steps
  exact Path.standardize_standardize _ _ _

end BreakOptions.Collects

theorem BreakPlan.MadeOf.collects {scene : SoundScene} {plan : BreakPlan}
    {records : List FileRecord} {table : SymbolTable}
    (h : plan.MadeOf options scene told records table) {record : FileRecord}
    (hrecord : record ∈ plan.ordered) :
    (options.standardize scene.cwd).Collects scene record.path := by
  obtain ⟨sources, _, _, _, hcollected, hread⟩ := h.read
  have hamong : record.path ∈ sources.map (Path.standardize scene.cwd) := by
    rw [← (records_of_readRecords hread).1]
    exact List.mem_map_of_mem (h.perm.mem_iff.mp hrecord)
  obtain ⟨path, hpath, hrecordPath⟩ := List.mem_map.mp hamong
  have hcollects := collects_of_collectSources hcollected hpath
  rwa [← hrecordPath, hcollects.standardize_eq]

end Collecting

end Disentangle
