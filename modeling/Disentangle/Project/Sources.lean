import Disentangle.Extraction
import Disentangle.Project.Work
import Disentangle.Section.Parts

/-!
Reading the sources of a project: their records, their parts, and their imports moved to the
top.
-/

namespace Disentangle

/-- What the source at a path with the content `text` says about itself. -/
def Scene.extraction (scene : Scene) (path text : Text) : Extraction :=
  .parsedBy scene.platform.parse scene.cwd path text

/-- What there is to tell about a source with mistakes. -/
def Extraction.warnings (found : Extraction) : List Event :=
  let path := found.record.path
  (if found.complete then [] else [.malformedSource path]) ++ found.flawed.map fun
    | (.moduleMissing, text) => .importWithoutModule path text
    | (.nameMissing, text) => .importWithoutName path text

/-- The record of the source at a path with the content `text`. Its exports are claimed in their
order while its tree is walked. -/
def extract {α : Type} (claim : List Text → Except Failure α) (path text : Text) :
    Inquiry (FileRecord × α) := do
  let scene ← read
  let found := scene.extraction path text
  let record := found.record
  let names := found.exported.map (·.name)
  Inquiry.tellAll found.warnings
  match scene.platform.stack.walk? (TypeScript.usesJsx record.path) text with
  | some count =>
    discard (Inquiry.orFail (claim (names.take count)))
    throw (.fault .tooDeep)
  | none =>
    let claimed ← Inquiry.orFail (claim names)
    Inquiry.tell
      (.recordRead record.path record.exports.length record.imports.length record.depends.length)
    return (record, claimed)

/-- The record of the source at a path. Its exports are claimed in `table` one after another. -/
def readRecord (table : SymbolTable) (path : Text) : Inquiry (FileRecord × SymbolTable) := do
  let path ← Inquiry.standardize path
  let text ← Inquiry.readSource path
  extract (table.claimAll path) path text

/-- The records of the sources at several paths, which have to differ, and the table of their
exports. `seen` are the paths that came before. -/
def readRecords (table : SymbolTable) (seen : List Text) :
    List Text → Inquiry (List FileRecord × SymbolTable)
  | [] => return ([], table)
  | path :: rest => do
    if seen.contains path then Inquiry.fail (.duplicateSource path)
    Inquiry.tell (.readingSource path)
    let (record, table) ← readRecord table path
    let (records, table) ← readRecords table (path :: seen) rest
    return (record :: records, table)

/-- The three parts of the source at a path. -/
def readParts (path : Text) : Inquiry Parts := do
  Inquiry.tell (.readingSections path)
  let text ← Inquiry.readSource path
  if text.isEmpty then Inquiry.tell (.emptySource path)
  return text.parts

/-- Moves the imports of the source at a path to its top, and writes the result to `target` or
back. An empty source is not written. -/
def hoistImportsOf (path : Text) (target : Option Text) : Work Text := do
  Work.tell (.hoistingImports path)
  let text ← Work.inquire (Inquiry.readSource path)
  if text.isEmpty then
    Work.tell (.emptySource path)
    return text
  let hoisted := text.hoistImports
  Work.writeSource (target.getD path) hoisted
  return hoisted

end Disentangle
