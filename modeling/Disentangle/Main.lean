import Disentangle.Command.Perform

/-!
The program. It takes a picture of the part of the disk that a command line names, does the work
on that, and brings the disk into the state that comes out.
-/

open Disentangle

def pathText (steps : List Text) : String :=
  String.ofList ('/' :: Text.join ['/'] steps)

/-- The tree with what stands on the disk at the end of `steps` and above, where `above` are the
steps gone so far. It ends where the disk does. -/
def takeUp (tree : FileTree) (above : List Text) : List Text → IO FileTree
  | [] => return tree
  | name :: rest => do
    let steps := above ++ [name]
    let here := (← IO.currentDir) / pathText steps
    if ← here.isDir then takeUp (tree.set steps .directory) steps rest
    else if ← here.pathExists then
      return tree.set steps (.file (← IO.FS.readBinFile here).toList)
    else return tree

/-- The tree with what stands on the disk at, above and below a path. -/
def takePlace (cwd : Text) (tree : FileTree) (path : Text) : IO FileTree := do
  let steps := Path.names (Path.append cwd path)
  let mut tree ← takeUp tree [] steps
  let here := (← IO.currentDir) / pathText steps
  if ← here.isDir then
    for below in ← here.walkDir do
      tree ← takeUp tree [] (Path.names below.toString.toList)
  return tree

/-- Brings the disk from one state to another. -/
def bringOver (before after : FileTree) : IO Unit := do
  for (steps, node) in after.entries do
    if before.node? steps ≠ some node then
      match node with
      | .directory => IO.FS.createDirAll (pathText steps)
      | .file content =>
        IO.FS.createDirAll (pathText steps.dropLast)
        IO.FS.writeBinFile (pathText steps) ⟨content.toArray⟩
  let gone := before.entries.filter fun (steps, _) => (after.node? steps).isNone
  for (steps, node) in sortBy (fun a b => b.1.length ≤ a.1.length) gone do
    match node with
    | .directory => IO.FS.removeDir (pathText steps)
    | .file _ => IO.FS.removeFile (pathText steps)

def usage : String :=
  "usage: disentangle [-h] [-v] break ROOT [--index FILE] [--entry FILE] [--runtime-index FILE]\n" ++
  "           [--dist-path PATH] [--relative-index PATH] [--pattern GLOB]...\n" ++
  "       disentangle [-h] [-v] swin FILE [-o FILE]\n" ++
  "       disentangle [-h] [-v] move ROOT SRC DST [--pattern GLOB]"

/-- Does a task on the disk and tells about it; the status at the end. -/
def runTask (threshold : Level) (task : Command.Task) : IO UInt32 := do
  let cwd := (← IO.currentDir).toString.toList
  let named ← task.places.foldlM (takePlace cwd) ⟨[]⟩
  let (settings, _) := (Work.inquire task.placesFromSettings).runIn { cwd, tree := named }
  let added := settings.toOption.getD []
  let tree ← added.foldlM (takePlace cwd) named
  let (result, workspace) := task.perform.runIn { cwd, tree }
  for event in workspace.events do
    if threshold.rank ≤ event.level.rank then IO.eprintln (String.ofList event.message)
  bringOver tree workspace.scene.tree
  match result with
  | .ok status => return status.toUInt32
  | .error (.failure reason) =>
    IO.eprintln (String.ofList reason.message)
    return 1
  | .error (.fault _) =>
    IO.eprintln "the settings or a pattern cannot be used"
    return 1

def main (arguments : List String) : IO UInt32 := do
  let request := Command.Request.ofArguments (arguments.map String.toList)
  match request with
  | .work _ task => runTask request.threshold task
  | .stop .help =>
    IO.println usage
    return 0
  | .stop .misuse =>
    IO.eprintln usage
    return 2
