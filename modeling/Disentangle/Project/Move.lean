import Disentangle.Import.Retarget
import Disentangle.Project.Sources

/-!
Moving a folder of sources. The relative imports of the sources that move are written anew from
their new place, and the sources that import them follow. All of this is worked out before
anything is written; old files are removed when every new one is there.
-/

namespace Disentangle

/-- The text of the source at a path with its imports pointed at the modules that `resolve`
gives. -/
def retargetText (path text : Text) (resolve : ImportLine → Text) : Inquiry Text := do
  let (record, _) ← extract (fun _ => .ok ()) path text
  Inquiry.tellAll (record.retargetEvents resolve text)
  return record.retargetImports resolve text

/-- Points the imports of the source at a path at the modules that `resolve` gives, and writes
the result to `target`, if there is one. -/
def retargetFile (path : Text) (resolve : ImportLine → Text) (target : Option Text) :
    Work Text := do
  let result ← Work.inquire do
    let path ← Inquiry.standardize path
    retargetText path (← Inquiry.readSource path) resolve
  match target with
  | some target => Work.writeSource target result
  | none => pure ()
  return result

/-- Old paths with their new ones. -/
structure Relocation where
  pairs : List (Text × Text)

namespace Relocation

def has (moved : Relocation) (path : Text) : Bool :=
  (moved.pairs.lookup path).isSome

/-- Where a path leads afterwards. -/
def apply (moved : Relocation) (path : Text) : Text :=
  (moved.pairs.lookup path).getD path

/-- The relocation of the files at `olds`, all below `source`, to the same places below
`target`. -/
def ofFolder (source target : Text) (olds : List Text) : Relocation :=
  ⟨olds.eraseDups.map fun old => (old, target ++ old.drop source.length)⟩

/-- The module that an import of the source at `path` names afterwards. An import that leads to
no file of its own stays, and so does one of a source that stays to a file that stays. -/
def retarget (cwd : Text) (moved : Relocation) (path : Text) (line : ImportLine) : Text :=
  match line.resolvedPath with
  | none => line.modulePath
  | some resolved =>
    let target := moved.apply resolved
    if !moved.has path && target = resolved then line.modulePath
    else
      (Path.relativeImport? cwd (moved.apply path) target
        (Path.hasKnownExtension line.modulePath)).getD line.modulePath

end Relocation

/-- What a move will do. -/
structure MovePlan where
  source : Text
  moved : Relocation
  /-- The paths and texts to be written, in order. -/
  outputs : List (Text × Text)

/-- The files that a pattern describes below a directory, by canonical path, in the order of
their steps. -/
def filesBelow (directory pattern : Text) : Inquiry (List Text) := do
  let scene ← read
  let found ← Inquiry.orFault (scene.tree.filesMatching (scene.steps directory) pattern)
  return (sortBy stepsLe found).map fun steps =>
    Path.standardize scene.cwd (Path.append directory (Text.join ['/'] steps))

/-- The path and the text of a source after a move, unless it stays as it is. -/
def moveSource (moved : Relocation) (path : Text) : Inquiry (Option (Text × Text)) := do
  let text ← Inquiry.readSource path
  let result ← retargetText path text (moved.retarget (← read).cwd path)
  return if moved.has path || result ≠ text then some (moved.apply path, result) else none

def planMove (root source target pattern : Text) : Inquiry MovePlan := do
  let root ← Inquiry.standardize root
  let source ← Inquiry.standardize source
  let target ← Inquiry.standardize target
  if !(← Inquiry.hasDirectory source) then Inquiry.fail (.folderNotDirectory source)
  if target = source || target.startsWith (source ++ ['/']) then
    Inquiry.fail (.moveIntoItself source target)
  let moved := Relocation.ofFolder source target (← filesBelow source pattern)
  moved.pairs.forM fun (_, new) => do
    if ← Inquiry.exists? new then Inquiry.fail (.targetExists new)
  let others := sortBy Text.le
    ((← filesBelow root pattern).filter (!moved.has ·))
  Inquiry.tell (.movingSources moved.pairs.length source target)
  let outputs ← (moved.pairs.map Prod.fst ++ others).mapM (moveSource moved)
  return ⟨source, moved, outputs.filterMap id⟩

/-- Removes the directories at and below a path that hold nothing. -/
def pruneDirectories (path : Text) : Work Unit :=
  modify fun workspace =>
    let scene := workspace.scene
    { workspace with scene :=
        { scene with tree := scene.tree.pruneEmpty (scene.tree.placeOf (scene.steps path)) } }

/-- Moves the sources below `source` that `pattern` describes to `target`, and keeps every import
of a source below `root` working; old paths with their new ones. -/
def moveSources (root source target pattern : Text) : Work Relocation := do
  let plan ← Work.inquire (planMove root source target pattern)
  plan.outputs.forM fun (path, text) => Work.writeSource path text
  plan.moved.pairs.forM fun (old, _) => Work.removeSource old
  pruneDirectories plan.source
  Work.tell (.sourcesUpdated plan.outputs.length)
  return plan.moved

end Disentangle
