import Disentangle.Dependency.Order
import Disentangle.Dependency.Tangles
import Disentangle.Entry
import Disentangle.Import.Redirect
import Disentangle.Index.RuntimeModule
import Disentangle.Project.Sources

/-!
Breaking the circular imports of a project: its sources are read, ordered by what they need while
they are loaded, and led through a generated index. Everything is read and computed before
anything is written, so a project in which anything is wrong stays as it was.
-/

namespace Disentangle

/-- What to do with which sources. -/
structure BreakOptions where
  root : Text
  indexPath : Text
  patterns : List Text
  /-- Decides about a source by its path and by its path from the root. Without it, declaration
  files, the index, the entry file and what `exclude` describes are left out. -/
  filter : Option (Text → Text → Bool)
  exclude : List Text
  entryPath : Option Text
  runtime : Option Index.RuntimeOptions

namespace BreakOptions

/-- The options with canonical paths; an empty entry is none. -/
def standardize (cwd : Text) (options : BreakOptions) : BreakOptions :=
  { options with
    root := Path.standardize cwd options.root
    indexPath := Path.standardize cwd options.indexPath
    entryPath := (Index.RuntimeOptions.given? options.entryPath).map (Path.standardize cwd) }

/-- Whether a source belongs to the sources to work on. -/
def accepts (options : BreakOptions) (path relative : Text) : Bool :=
  match options.filter with
  | some keeps => keeps path relative
  | none =>
    !path.endsWith ".d.ts".toList && options.entryPath ≠ some path &&
      path ≠ options.indexPath &&
      !options.exclude.any fun pattern => Wildcard.matchesText pattern relative

end BreakOptions

/-- The paths of the sources that one pattern describes and the options accept. -/
def sourcesMatching (options : BreakOptions) (pattern : Text) : Inquiry (List Text) := do
  let scene ← read
  let found ← Inquiry.orFault
    (scene.tree.filesMatching (scene.steps options.root) pattern)
  return found.filterMap fun steps =>
    let relative := Text.join ['/'] steps
    let path := Path.standardize scene.cwd (Path.append options.root relative)
    if options.accepts path relative then some path else none

/-- The paths of the sources to work on, in order and each once. -/
def collectSources (options : BreakOptions) : Inquiry (List Text) := do
  if !(← Inquiry.hasDirectory options.root) then
    Inquiry.fail (.rootNotDirectory options.root)
  let found ← options.patterns.mapM (sourcesMatching options)
  return sortBy Text.le found.flatten.eraseDups

/-- The records in an order in which each comes after those it needs while it is loaded. Where
there is none, the tangles are told. -/
def orderRecords (records : List FileRecord) (table : SymbolTable) :
    Inquiry (List FileRecord) := do
  let unprovided := (Dependency.unprovided records table).map fun (path, name) =>
    Event.dependencyNotFound path name
  Inquiry.tellAll unprovided
  if (← read).platform.stack.order records table then throw (.fault .tooDeep)
  else match Dependency.sortRecords records table with
    | .ok ordered => return ordered
    | .error reason =>
      Inquiry.tellAll unprovided
      match Dependency.tangledPaths records table with
      | .ok groups => Inquiry.tellAll (groups.map .tangleFound)
      | .error _ => pure ()
      Inquiry.fail reason

/-- A source before and after. -/
structure SourceUpdate where
  path : Text
  before : Text
  after : Text

def SourceUpdate.isChange (update : SourceUpdate) : Bool :=
  update.after ≠ update.before

/-- The source of a record with its imports led through the index. -/
def redirectSource (indexPath : Text) (table : SymbolTable) (record : FileRecord) :
    Inquiry SourceUpdate := do
  let text ← Inquiry.readSource record.path
  let specifier ← Inquiry.orFault (Index.importFrom (← read).cwd record.path indexPath)
  Inquiry.tellAll ((record.unmatchedImports text).map (.unmatchedImport record.path))
  return ⟨record.path, text, record.redirectImports specifier table text⟩

/-- The entry file, which requires the index. -/
def requireIndex (indexPath entryPath : Text) : Inquiry SourceUpdate := do
  let text ← Inquiry.readSource entryPath
  let specifier ← Inquiry.orFault (Index.importFrom (← read).cwd entryPath indexPath)
  Inquiry.tellAll (Entry.events text)
  return ⟨entryPath, text, Entry.requiring text specifier⟩

/-- What a run will write. -/
structure BreakPlan where
  ordered : List FileRecord
  sources : List SourceUpdate
  indexPath : Text
  declaration : Text
  /-- The path and the text of the index for the running program, if it can be rendered. -/
  runtime : Option (Text × Except Fault Text)
  entry : Option SourceUpdate

/-- The text of the index for the running program. Where its identity is a digest of its path, the
path has to be encoded. -/
def Scene.renderRuntime (scene : Scene) (indexPath : Text) (records : List FileRecord)
    (options : Index.RuntimeOptions) : Except Fault Text :=
  match Index.RuntimeOptions.given? options.moduleId,
    scene.platform.textFault? options.distPath with
  | none, some fault => .error fault
  | _, _ => Index.renderRuntime scene.cwd indexPath records options

def planBreak (options : BreakOptions) : Inquiry BreakPlan := do
  let cwd := (← read).cwd
  let options := options.standardize cwd
  let sources ← collectSources options
  Inquiry.tellAll [.runStarted, .sourcesFound sources.length, .indexChosen options.indexPath]
  Inquiry.tellAll (options.entryPath.map Event.entryChosen).toList
  let (records, table) ← readRecords .empty [] sources
  let ordered ← orderRecords (sortBy (fun r s => r.path.le s.path) records) table
  let updates ← ordered.mapM (redirectSource options.indexPath table)
  let entry ← options.entryPath.mapM (requireIndex options.indexPath)
  let declaration ← Inquiry.orFault (Index.renderDeclaration cwd options.indexPath ordered)
  let scene ← read
  let runtime := options.runtime.map fun runtime =>
    (runtime.output cwd options.indexPath,
      scene.renderRuntime options.indexPath ordered runtime)
  return ⟨ordered, updates, options.indexPath, declaration, runtime, entry⟩

/-- Writes the index of declarations and the one for the running program, as far as it could be
rendered; the paths written. -/
def writeIndex (indexPath declaration : Text) (runtime : Option (Text × Except Fault Text)) :
    Work (List Text) := do
  Work.writeSource indexPath declaration
  Work.tell (.indexWritten indexPath)
  match runtime with
  | none => return [indexPath]
  | some (path, rendered) =>
    let text ← Work.inquire (Inquiry.orFault rendered)
    Work.writeSource path text
    Work.tell (.runtimeIndexWritten path)
    return [indexPath, path]

/-- Renders and writes the indexes of the given records; the paths written. -/
def generateIndex (records : List FileRecord) (indexPath : Text)
    (runtime : Option Index.RuntimeOptions) : Work (List Text) := do
  let scene := (← get).scene
  let path := Path.standardize scene.cwd indexPath
  let declaration ←
    Work.inquire (Inquiry.orFault (Index.renderDeclaration scene.cwd path records))
  writeIndex path declaration (runtime.map fun options =>
    (options.output scene.cwd path, scene.renderRuntime path records options))

/-- Writes what was planned: the sources that change, the indexes, and the entry file if it
changes. -/
def writeBreak (plan : BreakPlan) : Work Unit := do
  let changed := plan.sources.filter SourceUpdate.isChange
  changed.forM fun update => Work.writeSource update.path update.after
  Work.tell (.importsRedirected changed.length plan.sources.length)
  discard (writeIndex plan.indexPath plan.declaration plan.runtime)
  match plan.entry.filter SourceUpdate.isChange with
  | none => return
  | some update =>
    Work.writeSource update.path update.after
    Work.tell (.entryUpdated update.path)

/-- Breaks the circular imports of a project; the records in the order of the index. -/
def breakCycles (options : BreakOptions) : Work (List FileRecord) := do
  let plan ← Work.inquire (planBreak options)
  writeBreak plan
  return plan.ordered

/-- Breaks the circular imports of a project and tells a failure; whether it succeeded. -/
def tryBreakCycles (options : BreakOptions) : Work Bool := do
  try
    discard (breakCycles options)
    return true
  catch problem =>
    match problem with
    | .failure reason =>
      Work.tell (.failed reason)
      return false
    | .fault _ => throw problem

end Disentangle
