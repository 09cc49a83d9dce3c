import Disentangle.SymbolTable

/-!
An import statement of a source, with what it binds and how it was written.
-/

namespace Disentangle

/-- One import statement. -/
structure ImportLine where
  /-- The module as the statement names it. -/
  modulePath : Text := []
  /-- The file which that is, unless the module is an external one. -/
  resolvedPath : Option Text := none
  /-- The local names that are bound, a default binding first. -/
  names : List Text := []
  hasDefault : Bool := false
  /-- Whether some value of the source is computed from this import while it is loaded. -/
  isStrong : Bool := false
  text : Text := []
  /-- The number of characters before the statement; negative if it stands nowhere. -/
  offset : Int := -1
  /-- The literal that names the module, with its quotes. -/
  specifier : Text := []
  /-- The exported names of those local names that differ from them. -/
  aliases : List (Text × Text) := []
  /-- The name under which the whole module is bound. -/
  namespaceName : Option Text := none
  typeOnly : Bool := false
  isRequire : Bool := false

namespace ImportLine

/-- Where the statement begins, if it stands in a text. -/
def start (line : ImportLine) : Nat :=
  line.offset.toNat

/-- The name under which the module exports what is bound to `name`. -/
def exportedName (line : ImportLine) (name : Text) : Text :=
  (line.aliases.lookup name).getD name

/-- Whether `name` is bound to the default export of the module. -/
def isDefaultBinding (line : ImportLine) (name : Text) : Bool :=
  line.hasDefault && !line.isRequire && line.names.head? = some name &&
    (line.aliases.lookup name).isNone

/-- The file that provides the binding `name`: the module itself for its default export and for
`require`, else the owner of the exported name. -/
def sourceOf (line : ImportLine) (table : SymbolTable) (name : Text) : Option Text :=
  if line.isRequire || line.isDefaultBinding name then line.resolvedPath
  else table.owner? (line.exportedName name)

end ImportLine

end Disentangle
