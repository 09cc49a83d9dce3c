import Disentangle.Export
import Disentangle.ImportLine

/-!
What is known about one source: its exports, its imports, and which imported names it needs
while it is loaded.
-/

namespace Disentangle

structure FileRecord where
  path : Text
  /-- The exports; default exports stand in front. -/
  exports : List ExportedSymbol := []
  /-- How many of the exports are there when the program runs. -/
  solidCount : Nat := 0
  imports : List ImportLine := []
  /-- The names needed while the source is loaded, each with the position of the import that
  binds it. -/
  depends : List (Text × Nat) := []

namespace FileRecord

def addExport (record : FileRecord) (symbol : ExportedSymbol) : FileRecord :=
  { record with
    exports := if symbol.isDefault then symbol :: record.exports else record.exports ++ [symbol]
    solidCount := if symbol.kind.isVirtual then record.solidCount else record.solidCount + 1 }

def addImport (record : FileRecord) (line : ImportLine) : FileRecord :=
  { record with imports := record.imports ++ [line] }

/-- Whether `name` is needed while the source is loaded. -/
def needs (record : FileRecord) (name : Text) : Bool :=
  (record.depends.lookup name).isSome

/-- Notes that `name` is needed while the source is loaded, if an import binds it, and tells whether
it is needed; the first such import counts. A name that is already known to be needed stays with its
import. -/
def noteDependency (record : FileRecord) (name : Text) : FileRecord × Bool :=
  if record.needs name then (record, true)
  else match record.imports.findIdx? (·.names.contains name) with
    | some i =>
      ({ record with
          imports := record.imports.modify i ({ · with isStrong := true })
          depends := record.depends ++ [(name, i)] }, true)
    | none => (record, false)

/-- The record that knows that `name` is needed while the source is loaded. -/
def addDependency (record : FileRecord) (name : Text) : FileRecord :=
  (record.noteDependency name).1

/-- The names needed while the source is loaded, each with the import that binds it. -/
def dependencies (record : FileRecord) : List (Text × ImportLine) :=
  record.depends.filterMap fun (name, i) => record.imports[i]?.map (name, ·)

end FileRecord

end Disentangle
