import Disentangle.Proofs.Files.Matching
import Disentangle.Proofs.Project.Stops

/-!
Scenes as they can be found. What stands in a tree has a place of its own, in a directory and under
a name that files can have, and a text that has been decoded can be encoded.
-/

namespace Disentangle

structure SoundScene extends Scene where
  wellFormed : tree.IsWellFormed
  named : ∀ entry ∈ tree.entries, platform.pathFault? entry.1 = none
  encoded : ∀ place text, tree.HoldsText place text → platform.textFault? text = none

namespace SoundScene

instance : Coe SoundScene Scene := ⟨toScene⟩

variable (scene : SoundScene)

theorem grounded : scene.tree.Grounded :=
  scene.wellFormed.grounded

theorem plainNames : scene.tree.HasPlainNames :=
  scene.wellFormed.plainNames

theorem listsOnce : scene.tree.ListsOnce :=
  scene.wellFormed.listsOnce

/-- Where something stands the system can look. -/
theorem pathFault?_eq_none {scene : SoundScene} {place : Location} {node : Node}
    (hnode : scene.tree.node? place = some node) : scene.platform.pathFault? place = none := by
  by_cases hroot : place = []
  · subst hroot
    exact Platform.pathFault?_eq_none_iff.mpr (by simp)
  · rw [FileTree.node?, if_neg hroot, List.lookup_eq_some_iff] at hnode
    obtain ⟨front, back, hentries, -⟩ := hnode
    exact scene.named (place, node) (by simp [hentries])

/-- A place that steps lead to is one at which the system can look. -/
theorem pathFault?_of_locate {scene : SoundScene} {steps : List Text} {place : Location}
    {node : Node} (hlocate : scene.tree.locate steps = .ok place)
    (hnode : scene.tree.node? place = some node) : scene.platform.pathFault? steps = none := by
  induction steps using List.reverseRecOn generalizing place node with
  | nil => exact Platform.pathFault?_eq_none_iff.mpr (by simp)
  | append_singleton front last ih =>
    obtain ⟨up, hup, hdirectory, hplace⟩ := FileTree.exists_of_locate_concat hlocate
    have hfront := ih hup hdirectory
    rw [Platform.pathFault?_eq_none_iff] at hfront ⊢
    simp only [List.forall_mem_append, List.forall_mem_singleton]
    refine ⟨hfront, ?_⟩
    by_cases hdots : last = ['.', '.']
    · intro c hc
      obtain rfl : c = '.' := by simpa [hdots] using hc
      refine ⟨Bool.eq_false_iff.mpr fun hlacks => ?_, by decide⟩
      have hencodes := scene.platform.encodes_ascii '.' (by decide)
      rw [scene.platform.lacksEncoding_of_lacksName _ hlacks] at hencodes
      cases hencodes
    · rw [hplace, if_neg hdots] at hnode
      have hall := Platform.pathFault?_eq_none_iff.mp (pathFault?_eq_none hnode)
      exact hall last (by simp)

/-- A source that is found by steps from a canonical directory is one at which the system can
look. -/
theorem pathFault?_of_hasFile {scene : SoundScene} {mark directory : Text} {steps : List Text}
    (hdirectory : Path.IsCanonical mark directory) (hsteps : ∀ step ∈ steps, Path.IsStep step)
    (hfile : scene.tree.hasFile (scene.steps directory ++ steps) = true) :
    scene.platform.pathFault? (Path.components
      (Path.standardize scene.cwd (Path.append directory (Text.join ['/'] steps)))) = none := by
  obtain ⟨place, content, hlocate, hnode⟩ := FileTree.exists_file_of_hasFile hfile
  rw [Path.steps_of_isAbsolute hdirectory.isAbsolute] at hlocate
  exact Platform.pathFault?_of_subset (pathFault?_of_locate hlocate hnode)
    (hdirectory.components_standardize_subset scene.cwd hsteps)

end SoundScene

/-- What a tree has to be like to be found on the standard platform. -/
def FileTree.IsFindable (tree : FileTree) : Prop :=
  (∀ entry ∈ tree.entries, tree.node? entry.1.dropLast = some .directory ∧
    ∀ name ∈ entry.1, Path.IsName name ∧ '\x00' ∉ name) ∧
    (tree.entries.map Prod.fst).Nodup

instance (tree : FileTree) : Decidable tree.IsFindable :=
  inferInstanceAs (Decidable (_ ∧ _))

/-- A scene on the standard platform. -/
def SoundScene.standard (cwd : Text) (tree : FileTree) (h : tree.IsFindable) : SoundScene where
  cwd := cwd
  tree := tree
  wellFormed :=
    { grounded := FileTree.grounded_of_entries fun entry hentry => (h.1 entry hentry).1
      plainNames := fun entry hentry name hname => ((h.1 entry hentry).2 name hname).1
      listsOnce := h.2 }
  named := by
    intro entry hentry
    refine Platform.pathFault?_eq_none_iff.mpr fun name hname c hc => ⟨rfl, ?_⟩
    rintro rfl
    exact ((h.1 entry hentry).2 name hname).2 hc
  encoded := fun _ _ _ => Platform.textFault?_eq_none_iff.mpr fun _ _ => rfl

/-- A scene with nothing but the given files. -/
def SoundScene.holding (files : List (String × String))
    (h : (Scene.holding files).tree.IsFindable) : SoundScene :=
  .standard ['/'] (Scene.holding files).tree h

end Disentangle
