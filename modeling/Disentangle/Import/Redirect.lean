import Disentangle.FileRecord
import Disentangle.Section.Parts

/-!
Imports led through the generated index. An import statement is redirected when the files of the
project own every name it binds; any other statement stays as it is written.
-/

namespace Disentangle

namespace ImportLine

/-- One name of a redirected statement, with `as` where its local name differs. -/
def clause (line : ImportLine) (name : Text) : Text :=
  let exported := line.exportedName name
  if exported = name then name else exported ++ " as ".toList ++ name

/-- The names of a redirected statement in braces; a default import becomes one of them. -/
def clauses (line : ImportLine) : Text :=
  "\x7b ".toList ++ Text.join ", ".toList (line.names.map line.clause) ++ " \x7d".toList

/-- The statement that imports the names of a line from the module `specifier`. -/
def redirected (line : ImportLine) (specifier : Text) : Text :=
  (if line.typeOnly then "import type ".toList else "import ".toList) ++ line.clauses ++
    " from \"".toList ++ specifier ++ "\";".toList

/-- Whether every name of a line can be had from the index. A default import can if the imported
module itself owns a name like it. Namespaces, `require` and imports that bind nothing cannot. -/
def routesToIndex (line : ImportLine) (table : SymbolTable) : Bool :=
  line.namespaceName.isNone && !line.isRequire && !line.names.isEmpty &&
    line.names.all fun name =>
      match table.owner? (line.exportedName name) with
      | some owner => !line.isDefaultBinding name || line.resolvedPath = some owner
      | none => false

end ImportLine

namespace FileRecord

/-- The import line that begins at `offset`; of several the last one. -/
def lineAt? (record : FileRecord) (offset : Nat) : Option ImportLine :=
  record.imports.reverse.find? (·.offset = (offset : Int))

/-- The import line that stands at the front of the section `written`, which begins at
`offset`. -/
def match? (record : FileRecord) (offset : Nat) (written : Text) : Option ImportLine :=
  (record.lineAt? offset).filter fun line => line.text.isPrefixOf written

/-- A section of imports with its statement redirected to `specifier`, if that is possible. -/
def redirectSection (record : FileRecord) (specifier : Text) (table : SymbolTable)
    (offset : Nat) (written : Text) : Text :=
  match record.match? offset written with
  | some line =>
    if line.routesToIndex table then line.redirected specifier ++ written.drop line.text.length
    else written
  | none => written

/-- The text of a source with its imports redirected to `specifier` where that is possible, and
gathered behind its header. -/
def redirectImports (record : FileRecord) (specifier : Text) (table : SymbolTable)
    (text : Text) : Text :=
  let parts := text.partsWith (record.redirectSection specifier table)
  { parts with imports := Text.closeLine parts.imports parts.body }.whole

/-- The offsets of the sections of imports that no import line of the record matches. -/
def unmatchedImports (record : FileRecord) (text : Text) : List Nat :=
  (Section.positioned 0 text.sections).filterMap fun (offset, s) =>
    if s.kind = .imports ∧ (record.match? offset s.text).isNone then some offset else none

end FileRecord

end Disentangle
