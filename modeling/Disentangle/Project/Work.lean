import Disentangle.Event
import Disentangle.Files.Search
import Disentangle.Platform

/-!
Work on a tree of files. An `Inquiry` reads the tree and cannot change it; a `Work` may. Both
tell events as they go, and both may stop with a problem; what was told and written before
remains.
-/

namespace Disentangle

/-- A tree of files, the directory from which relative paths are read, and the platform. -/
structure Scene where
  cwd : Text
  tree : FileTree
  platform : Platform := .standard

namespace Scene

/-- The steps of a path from the root. -/
def steps (scene : Scene) (path : Text) : List Text :=
  Path.components (Path.append scene.cwd path)

/-- The tree with a text written to the file at a path. The path of the directory is handed over
first; when it has been made, the text is encoded, and then the path of the file is handed over. -/
def write (scene : Scene) (path text : Text) : FileTree × Option Problem :=
  let names := Path.components path
  let steps := scene.steps path
  let unwritable (refusal : Refusal) : Problem :=
    .failure (.unwritable path (some refusal.message))
  match scene.platform.pathFault? names.dropLast,
    (scene.platform.textFault? text).or (scene.platform.pathFault? names) with
  | some fault, _ => (scene.tree, some (.fault fault))
  | none, none =>
    let (tree, refusal) := scene.tree.write steps (Utf8.encode text)
    (tree, refusal.map unwritable)
  | none, some fault =>
    match scene.tree.makeDirectories steps.reverse.tail with
    | (tree, some refusal) => (tree, some (unwritable refusal))
    | (tree, none) => (tree, some (.fault fault))

/-- The tree without the file at a path. -/
def remove (scene : Scene) (path : Text) : FileTree × Option Problem :=
  let (tree, refusal) := scene.tree.remove (scene.steps path)
  (tree, refusal.map fun refusal => .failure (.unwritable path (some refusal.message)))

end Scene

/-- A scene and the events told so far. -/
structure Workspace where
  scene : Scene
  events : List Event

/-- Reading work. -/
abbrev Inquiry := ReaderT Scene (ExceptT Problem (StateM (List Event)))

/-- Work that may write. -/
abbrev Work := ExceptT Problem (StateM Workspace)

namespace Inquiry

def tell (event : Event) : Inquiry Unit :=
  fun _ => ExceptT.mk fun events => (.ok (), events ++ [event])

def tellAll (told : List Event) : Inquiry Unit :=
  fun _ => ExceptT.mk fun events => (.ok (), events ++ told)

def fail {α : Type} (reason : Failure) : Inquiry α :=
  throw (.failure reason)

/-- Goes on with a result, or stops with its failure. -/
def orFail {α : Type} : Except Failure α → Inquiry α
  | .ok a => return a
  | .error reason => fail reason

/-- Goes on with a result, or stops with its fault. -/
def orFault {α : Type} : Except Fault α → Inquiry α
  | .ok a => return a
  | .error reason => throw (.fault reason)

def standardize (path : Text) : Inquiry Text :=
  return Path.standardize (← read).cwd path

def readBytes (path : Text) : Inquiry (List UInt8) := do
  let scene ← read
  match scene.platform.pathFault? (Path.components path), scene.tree.read (scene.steps path) with
  | some fault, _ => throw (.fault fault)
  | none, .ok content => return content
  | none, .error refusal => fail (.unreadable path (some refusal.message))

def readSource (path : Text) : Inquiry Text := do
  match Utf8.decode (← readBytes path) with
  | .ok text => return text
  | .error e => fail (.malformed (some path) ("not valid UTF-8: ".toList ++ e.message))

def hasDirectory (path : Text) : Inquiry Bool := do
  let scene ← read
  return scene.tree.hasDirectory (scene.steps path)

def exists? (path : Text) : Inquiry Bool := do
  let scene ← read
  return scene.tree.has (scene.steps path)

end Inquiry

namespace Work

/-- Does reading work. -/
def inquire {α : Type} (inquiry : Inquiry α) : Work α :=
  ExceptT.mk fun workspace =>
    let (result, events) := (inquiry workspace.scene).run workspace.events
    (result, { workspace with events := events })

def tell (event : Event) : Work Unit :=
  inquire (Inquiry.tell event)

/-- Changes the tree, and stops where that is a problem. -/
def change (operation : Scene → FileTree × Option Problem) : Work Unit :=
  ExceptT.mk fun workspace =>
    let (tree, problem) := operation workspace.scene
    (problem.elim (.ok ()) .error, { workspace with scene := { workspace.scene with tree } })

/-- Writes a text to the file at a path. -/
def writeSource (path text : Text) : Work Unit :=
  change (·.write path text)

def removeSource (path : Text) : Work Unit :=
  change (·.remove path)

/-- The result of work that begins in a scene, and the workspace afterwards. -/
def runIn {α : Type} (scene : Scene) (work : Work α) : Except Problem α × Workspace :=
  work.run ⟨scene, []⟩

end Work

end Disentangle
