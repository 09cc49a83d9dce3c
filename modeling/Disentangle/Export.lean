import Disentangle.Text

/-!
What a source exports.
-/

namespace Disentangle

/-- What kind of declaration a name stands for. -/
inductive ExportKind where
  | value
  | function
  | enumeration
  | classDefinition
  | interface
  | typeAlias
  deriving DecidableEq, Repr

namespace ExportKind

def all : List ExportKind :=
  [.value, .function, .enumeration, .classDefinition, .interface, .typeAlias]

def word : ExportKind → Text
  | .value => "var".toList
  | .function => "func".toList
  | .enumeration => "enum".toList
  | .classDefinition => "class".toList
  | .interface => "interface".toList
  | .typeAlias => "type".toList

def ofWord? (w : Text) : Option ExportKind :=
  all.find? (·.word = w)

/-- Whether nothing is left of a declaration of this kind when the program runs. -/
def isVirtual : ExportKind → Bool
  | .interface | .typeAlias => true
  | _ => false

end ExportKind

structure ExportedSymbol where
  name : Text
  kind : ExportKind
  isDefault : Bool
  deriving DecidableEq, Repr

end Disentangle
