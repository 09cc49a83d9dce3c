import Disentangle.FileRecord
import Disentangle.Path.Specifier

/-!
The generated index of declarations: one line for every source that exports anything, which
passes on the names of its exports. A name that a source exports more than once is listed once.
-/

namespace Disentangle.Index

/-- The first line of a generated index. -/
def declarationHeader : Text :=
  "// This file is generated by tsunravel, do not edit it by hand.".toList

/-- The symbols without those whose name occurs earlier. -/
def distinct : List Text → List ExportedSymbol → List ExportedSymbol
  | _, [] => []
  | seen, symbol :: rest =>
    if seen.contains symbol.name then distinct seen rest
    else symbol :: distinct (symbol.name :: seen) rest

/-- One line of the index. -/
structure Reexport where
  symbols : List ExportedSymbol
  /-- How the index imports the source. -/
  specifier : Text

def listed (symbol : ExportedSymbol) : Text :=
  if symbol.isDefault then "default as ".toList ++ symbol.name else symbol.name

def Reexport.render (line : Reexport) : Text :=
  "export \x7b ".toList ++ Text.join ", ".toList (line.symbols.map listed) ++
    " \x7d from '".toList ++ line.specifier ++ "';".toList

/-- The specifier under which the file at `base` imports the one at `target`. -/
def importFrom (cwd base target : Text) : Except Fault Text :=
  match Path.relativeImport? cwd base target false with
  | some specifier => .ok specifier
  | none => .error .emptyTarget

/-- The line for a source, if it exports anything. -/
def reexport? (cwd indexPath : Text) (record : FileRecord) : Except Fault (Option Reexport) :=
  match distinct [] record.exports with
  | [] => .ok none
  | symbols => (importFrom cwd indexPath record.path).map fun specifier =>
      some ⟨symbols, specifier⟩

/-- The lines of the index at `indexPath`, in the order of the records. -/
def reexports (cwd indexPath : Text) (records : List FileRecord) :
    Except Fault (List Reexport) :=
  (records.mapM (reexport? cwd indexPath)).map (·.filterMap id)

/-- The text of the index of declarations at `indexPath`. -/
def renderDeclaration (cwd indexPath : Text) (records : List FileRecord) : Except Fault Text :=
  (reexports cwd (Path.standardize cwd indexPath) records).map fun lines =>
    Text.join ['\n'] (declarationHeader :: lines.map Reexport.render) ++ ['\n']

end Disentangle.Index
