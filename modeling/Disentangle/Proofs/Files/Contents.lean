import Disentangle.Proofs.Files.Search
import Disentangle.Proofs.Project.Success
import Disentangle.Proofs.Utf8
import Mathlib.Logic.Function.Basic

/-!
The texts that files hold. A file that has been written holds the text that was written, one that
stands at another place keeps its own, and what is read of a file is the text that it holds.
-/

namespace Disentangle

namespace FileTree

variable {tree before after : FileTree} {place place' : Location} {steps : List Text}
  {text text' : Text} {content : List UInt8}

/-- No place is listed twice. -/
def ListsOnce (tree : FileTree) : Prop :=
  (tree.entries.map Prod.fst).Nodup

/-- The names in the tree are plain, whatever stands in it stands in a directory, and no place is
listed twice. -/
structure IsWellFormed (tree : FileTree) : Prop where
  grounded : tree.Grounded
  plainNames : tree.HasPlainNames
  listsOnce : tree.ListsOnce

/-- A file with the given text stands at a place. -/
def HoldsText (tree : FileTree) (place : Location) (text : Text) : Prop :=
  ∃ content, tree.node? place = some (.file content) ∧ Utf8.decode content = .ok text

theorem HoldsText.unique (h : tree.HoldsText place text)
    (h' : tree.HoldsText place text') : text = text' := by
  obtain ⟨content, hnode, hdecode⟩ := h
  obtain ⟨content', hnode', hdecode'⟩ := h'
  cases hnode.symm.trans hnode'
  cases hdecode.symm.trans hdecode'
  rfl

theorem Written.holdsText (h : before.Written place (Utf8.encode text) after) :
    after.HoldsText place text :=
  ⟨Utf8.encode text, by rw [h.2, if_pos rfl], Utf8.decode_encode text⟩

/-- What stands at another place stays. -/
theorem Written.node?_of_ne {node : Node} (h : before.Written place content after)
    (hnode : before.node? place' = some node) (hne : place' ≠ place) :
    after.node? place' = some node := by
  rw [h.2, if_neg hne]
  split
  next hup =>
    -- It stands on the way to the new file, so it is a directory.
    cases node with
    | directory => rfl
    | file old => exact absurd (Or.inr ⟨place', old, hup, hne, hnode⟩) h.1
  next => exact hnode

theorem HoldsText.written (hold : before.HoldsText place' text)
    (h : before.Written place content after) (hne : place' ≠ place) :
    after.HoldsText place' text := by
  obtain ⟨old, hnode, hdecode⟩ := hold
  exact ⟨old, h.node?_of_ne hnode hne, hdecode⟩

/-- The content of the file at a place. -/
def content? (tree : FileTree) (place : Location) : Option (List UInt8) :=
  match tree.node? place with
  | some (.file content) => some content
  | _ => none

theorem content?_eq_some_iff :
    tree.content? place = some content ↔ tree.node? place = some (.file content) := by
  rw [content?]
  split
  next old hnode => simp [hnode]
  next hother => exact ⟨nofun, fun hnode => absurd hnode (hother content)⟩

theorem content?_congr (h : before.node? place = after.node? place) :
    before.content? place = after.content? place := by
  rw [content?, h, content?]

/-- A write changes what one file holds. -/
theorem Written.content?_eq (h : before.Written place content after) :
    after.content? = Function.update before.content? place (some content) := by
  funext p
  by_cases hp : p = place
  · rw [hp, Function.update_self, content?_eq_some_iff, h.2, if_pos rfl]
  · rw [Function.update_of_ne hp]
    refine Option.ext fun old => ?_
    rw [content?_eq_some_iff, content?_eq_some_iff]
    refine ⟨fun hnode => ?_, fun hnode => h.node?_of_ne hnode hp⟩
    rw [h.2, if_neg hp] at hnode
    split at hnode
    next => cases hnode
    next => exact hnode

/-- Steps that lead down lead to the place that they spell. -/
theorem eq_of_locate (hdown : LeadsDown steps)
    (h : tree.locate steps = .ok place) : place = steps := by
  induction steps using List.reverseRecOn generalizing place with
  | nil => exact (Except.ok.inj h).symm
  | append_singleton front last ih =>
    obtain ⟨hfront, hlast⟩ := hdown.of_concat
    obtain ⟨up, hup, -, rfl⟩ := exists_of_locate_concat h
    rw [if_neg hlast, ih hfront hup]

/-- What is read stands in a file where the steps lead. -/
theorem exists_locate_of_read (h : tree.read steps = .ok content) :
    ∃ place, tree.locate steps = .ok place ∧ tree.node? place = some (.file content) := by
  rw [read, find] at h
  cases hlocate : tree.locate steps with
  | error refusal => simp [hlocate, bind, Except.bind] at h
  | ok place =>
    simp only [hlocate, bind, Except.bind] at h
    refine ⟨place, rfl, ?_⟩
    cases hnode : tree.node? place with
    | none => simp [hnode, throw, throwThe, MonadExceptOf.throw] at h
    | some node =>
      cases node with
      | directory => simp [hnode, pure, Except.pure, throw, throwThe, MonadExceptOf.throw] at h
      | file old => simpa [hnode, pure, Except.pure] using h

theorem node?_of_read (hdown : LeadsDown steps) (h : tree.read steps = .ok content) :
    tree.node? steps = some (.file content) := by
  obtain ⟨place, hlocate, hnode⟩ := exists_locate_of_read h
  rwa [eq_of_locate hdown hlocate] at hnode

end FileTree

namespace Inquiry

variable {scene : Scene} {told told' : List Event} {path text : Text}

@[simp] theorem succeeds_readBytes {content : List UInt8} :
    (readBytes path).Succeeds scene told content told' ↔
      scene.platform.pathFault? (Path.components path) = none ∧
        scene.tree.read (scene.steps path) = .ok content ∧ told = told' := by
  rw [readBytes, succeeds_bind]
  simp only [succeeds_read]
  constructor
  · rintro ⟨_, _, ⟨rfl, rfl⟩, h⟩
    split at h
    next => exact absurd h not_succeeds_throw
    next found hfault hread =>
      obtain ⟨rfl, rfl⟩ := succeeds_pure.mp h
      exact ⟨hfault, hread, rfl⟩
    next => exact absurd h not_succeeds_fail
  · rintro ⟨hfault, hread, rfl⟩
    refine ⟨scene, told, ⟨rfl, rfl⟩, ?_⟩
    simp only [hfault, hread]
    exact succeeds_pure.mpr ⟨rfl, rfl⟩

@[simp] theorem succeeds_readSource :
    (readSource path).Succeeds scene told text told' ↔
      scene.platform.pathFault? (Path.components path) = none ∧
        (∃ content, scene.tree.read (scene.steps path) = .ok content ∧
          Utf8.decode content = .ok text) ∧ told = told' := by
  rw [readSource, succeeds_bind]
  simp only [succeeds_readBytes]
  constructor
  · rintro ⟨content, _, ⟨hfault, hread, rfl⟩, h⟩
    split at h
    next found hdecode =>
      obtain ⟨rfl, rfl⟩ := succeeds_pure.mp h
      exact ⟨hfault, ⟨content, hread, hdecode⟩, rfl⟩
    next => exact absurd h not_succeeds_fail
  · rintro ⟨hfault, ⟨content, hread, hdecode⟩, rfl⟩
    refine ⟨content, told, ⟨hfault, hread, rfl⟩, ?_⟩
    rw [hdecode]
    exact succeeds_pure.mpr ⟨rfl, rfl⟩

/-- A source that is read stands where its path leads. -/
theorem holdsText_of_readSource (hpath : Path.IsDirect path)
    (h : (readSource path).Succeeds scene told text told') :
    scene.tree.HoldsText (Path.components path) text := by
  obtain ⟨-, ⟨content, hread, hdecode⟩, -⟩ := succeeds_readSource.mp h
  rw [Path.steps_of_isDirect hpath] at hread
  exact ⟨content, FileTree.node?_of_read hpath.leadsDown hread, hdecode⟩

end Inquiry

end Disentangle
