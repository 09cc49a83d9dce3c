import Disentangle.Failure

/-!
Which file owns an exported name. A name belongs to the first file that claims it; a claim by
another file fails and changes nothing.
-/

namespace Disentangle

/-- Exported names with the paths of the files that own them, in the order of the claims. -/
structure SymbolTable where
  owners : List (Text × Text)

namespace SymbolTable

def empty : SymbolTable := ⟨[]⟩

/-- The path of the file that owns `name`. -/
def owner? (table : SymbolTable) (name : Text) : Option Text :=
  table.owners.lookup name

def contains (table : SymbolTable) (name : Text) : Bool :=
  (table.owner? name).isSome

def covers (table : SymbolTable) (names : List Text) : Bool :=
  names.all table.contains

def size (table : SymbolTable) : Nat :=
  table.owners.length

/-- Makes the file at `path` the owner of `name`. -/
def claim (table : SymbolTable) (path name : Text) : Except Failure SymbolTable :=
  match table.owner? name with
  | some owner => if owner = path then .ok table else .error (.nameCollision name owner path)
  | none => .ok ⟨table.owners ++ [(name, path)]⟩

/-- Claims names one after another for the file at `path`, up to the first that fails. -/
def claimAll (table : SymbolTable) (path : Text) : List Text → Except Failure SymbolTable
  | [] => .ok table
  | name :: rest =>
    match table.claim path name with
    | .ok table => table.claimAll path rest
    | .error reason => .error reason

end SymbolTable

end Disentangle
