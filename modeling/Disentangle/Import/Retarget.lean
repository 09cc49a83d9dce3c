import Disentangle.Event
import Disentangle.FileRecord

/-!
Imports pointed at other modules. Only the literal that names the module is exchanged; all else
of a source stays as it is.
-/

namespace Disentangle

/-- An import line with the module it shall name. -/
structure Change where
  line : ImportLine
  modulePath : Text

namespace Change

/-- Whether the line still stands in `text` where it was read, if it was read at all. -/
def isCurrent (change : Change) (text : Text) : Bool :=
  0 ≤ change.line.offset &&
    (text.drop change.line.start).take change.line.text.length = change.line.text

/-- The statement of the line with its last literal that reads like the specifier exchanged. -/
def statement? (change : Change) : Option Text :=
  let line := change.line
  (Text.lastPositionOf? line.specifier line.text).map fun i =>
    let quote := line.specifier.take 1
    line.text.take i ++ quote ++ change.modulePath ++ quote ++
      line.text.drop (i + line.specifier.length)

/-- `text` with the line exchanged, if it still stands there. -/
def apply (change : Change) (text : Text) : Text :=
  if change.isCurrent text then
    match change.statement? with
    | some statement =>
      text.take change.line.start ++ statement ++
        text.drop (change.line.start + change.line.text.length)
    | none => text
  else text

/-- Adds a change to changes in decreasing order of their offsets, behind those with the same
offset. -/
def insert (change : Change) : List Change → List Change
  | [] => [change]
  | other :: rest =>
    if other.line.offset < change.line.offset then change :: other :: rest
    else other :: insert change rest

/-- Changes in decreasing order of their offsets. -/
def backToFront (changes : List Change) : List Change :=
  changes.foldl (fun sorted change => insert change sorted) []

def applyAll (text : Text) (changes : List Change) : Text :=
  changes.foldl (fun text change => change.apply text) text

/-- The changes whose line no longer stands where it was read, each seen when its turn comes. -/
def stale : Text → List Change → List Change
  | _, [] => []
  | text, change :: rest =>
    if change.isCurrent text then stale (change.apply text) rest
    else change :: stale text rest

end Change

namespace FileRecord

/-- The lines that `resolve` gives another module. -/
def changes (record : FileRecord) (resolve : ImportLine → Text) : List Change :=
  record.imports.filterMap fun line =>
    let modulePath := resolve line
    if modulePath = line.modulePath then none else some ⟨line, modulePath⟩

/-- `text` with every import pointed at the module that `resolve` gives for it. The last import
is exchanged first, so that the offsets of the others stay right. -/
def retargetImports (record : FileRecord) (resolve : ImportLine → Text) (text : Text) : Text :=
  Change.applyAll text (Change.backToFront (record.changes resolve))

/-- What there is to tell about pointing imports at other modules. -/
def retargetEvents (record : FileRecord) (resolve : ImportLine → Text) (text : Text) :
    List Event :=
  let changes := record.changes resolve
  changes.map (fun c => .importRetargeted record.path c.line.modulePath c.modulePath) ++
    (Change.stale text (Change.backToFront changes)).map fun c =>
      .importMoved record.path c.line.modulePath

end FileRecord

end Disentangle
