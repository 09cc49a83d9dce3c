import Disentangle.FileRecord

/-!
The graph of sources that need each other while they are loaded. A vertex is the position of a
record in a list; there is an edge from a record to the record that provides a binding it needs.
The search through such a graph is written here once, for every use.
-/

namespace Disentangle.Dependency

/-- A graph: the targets of the edges that leave each vertex, in order. -/
structure Graph where
  targets : List (List Nat)

namespace Graph

def size (graph : Graph) : Nat := graph.targets.length

/-- The targets of the edges that leave `v`. -/
def next (graph : Graph) (v : Nat) : List Nat := graph.targets.getD v []

end Graph

/-- The position of the record with the given path. -/
def position? (records : List FileRecord) (path : Text) : Option Nat :=
  records.findIdx? (·.path = path)

/-- The position of the record that provides `name`, which `line` binds. -/
def provider? (records : List FileRecord) (table : SymbolTable) (name : Text)
    (line : ImportLine) : Option Nat :=
  (line.sourceOf table name).bind (position? records)

/-- The path of the first record that has the path of an earlier one. -/
def duplicate? : List Text → List Text → Option Text
  | _, [] => none
  | earlier, path :: rest =>
    if earlier.contains path then some path else duplicate? (path :: earlier) rest

/-- The graph of the records: an edge for every name needed at load time whose provider is
among the records. -/
def graphOf (records : List FileRecord) (table : SymbolTable) : Graph :=
  ⟨records.map fun record =>
    record.dependencies.filterMap fun (name, line) => provider? records table name line⟩

/-- The graph of the records, whose paths have to differ. -/
def graph? (records : List FileRecord) (table : SymbolTable) : Except Failure Graph :=
  match duplicate? [] (records.map (·.path)) with
  | some path => .error (.duplicateSource path)
  | none => .ok (graphOf records table)

/-- The names needed at load time whose provider is not among the records, each with the path
of the record that needs it. -/
def unprovided (records : List FileRecord) (table : SymbolTable) : List (Text × Text) :=
  records.flatMap fun record =>
    record.dependencies.filterMap fun (name, line) =>
      if (provider? records table name line).isSome then none else some (record.path, name)

end Disentangle.Dependency
