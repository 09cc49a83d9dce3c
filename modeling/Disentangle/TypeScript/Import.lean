import Disentangle.TypeScript.Expression

/-!
Import statements: what they bind, and where in the text the name of the module stands.
-/

namespace Disentangle.TypeScript

/-- What an import statement binds. -/
inductive ImportForm where
  /-- Nothing: the module is only loaded. -/
  | effect
  /-- `import name = require('m')`. -/
  | require (name : Text)
  /-- A default binding, a namespace and named bindings as pairs of exported and local name. -/
  | bindings (default? : Option Text) (namespace? : Option Text) (named : List (Text × Text))
  deriving DecidableEq

structure ImportStatement where
  /-- Whether `type` stands before the bindings. -/
  typeOnly : Bool
  form : ImportForm
  /-- The number of characters of the statement before the literal that names the module. -/
  moduleAt : Nat
  deriving DecidableEq

namespace Grammar

open Disentangle.TypeScript.Parser

/-- A name that an import or export asks of a module: a word, or a string without its quotes. -/
def exportedName : Parser Text := do
  match ← peek with
  | .word w => advance; return w
  | .string _ body => advance; return body
  | _ => failure

/-- The words that mark a name or a whole import as a type. -/
def typeMarkers : List Text :=
  ["type", "typeof"].map String.toList

/-- An exported name and the local one, up to the comma or the brace behind them. A name in quotes
needs a local one. -/
def importedNames : Parser (Text × Text) := do
  let names ← (do match ← peek with
    | .word exported =>
      advance
      if ← acceptWord "as" then return (exported, ← word)
      return (exported, exported)
    | .string _ exported =>
      advance
      keyword "as"
      return (exported, ← word)
    | _ => failure)
  if (← atSign ",") || (← atSign "\x7d") then return names else failure

/-- One name in the braces of an import: the exported name and the local one. -/
def importSpecifier : Parser (Text × Text) :=
  importedNames <|> do
    if ← atAnyWord typeMarkers then advance; importedNames
    else failure

def namedImports : Parser (List (Text × Text)) := do
  sign "\x7b"
  commaList "\x7d" importSpecifier

/-- `* as name`. -/
def namespaceImport : Parser Text := do
  sign "*"
  keyword "as"
  word

def importBindings : Parser ImportForm := do
  match ← peek with
  | .sign ['*'] => return .bindings none (some (← namespaceImport)) []
  | .sign ['{'] => return .bindings none none (← namedImports)
  | .word name =>
    advance
    if ← acceptSign "," then
      if ← atSign "*" then return .bindings (some name) (some (← namespaceImport)) []
      else return .bindings (some name) none (← namedImports)
    return .bindings (some name) none []
  | _ => failure

/-- The literal that names a module; the value is where it begins. -/
def moduleName : Parser Nat := do
  let c ← get
  match c.token with
  | .string _ _ => advance; return c.start
  | _ => failure

/-- `with` or `assert` and an object, on the same line. -/
def importAttributesIfAny (g : Grammar) : Parser Unit := do
  if ← atAnyWord (["with", "assert"].map String.toList) then
    if !(← onNewLine) then
      advance
      discard g.object

/-- `require` and a module; the value is where the literal that names it begins. -/
def requireCall : Parser Nat := do
  keyword "require"
  sign "("
  let offset ← moduleName
  sign ")"
  return offset

/-- What is bound to a name by an equals sign: a module, or a member of a namespace, which imports
nothing. -/
def importEquals (g : Grammar) (typeOnly : Bool) : Parser (Option ImportStatement) := do
  let name ← word
  sign "="
  match ← optional? requireCall with
  | some offset =>
    g.importAttributesIfAny
    return some ⟨typeOnly, .require name, offset⟩
  | none =>
    if typeOnly then failure
    qualifiedName
    return none

/-- The name of the module from which an import statement takes its bindings, up to the last token
before the semicolon. -/
def importedModule (g : Grammar) (typeOnly : Bool) (form : ImportForm) :
    Parser (Option ImportStatement) := do
  let offset ← moduleName
  g.importAttributesIfAny
  return some ⟨typeOnly, form, offset⟩

/-- An import statement behind `import` and a possible `type`, up to its last token before the
semicolon. -/
def importTail (g : Grammar) (typeOnly : Bool) : Parser (Option ImportStatement) := do
  match ← peek with
  | .string _ _ => g.importedModule typeOnly .effect
  | _ =>
    match ← optional? (g.importEquals typeOnly) with
    | some statement => return statement
    | none =>
      let form ← importBindings
      keyword "from"
      g.importedModule typeOnly form

/-- An import statement behind `import` where `type` or `typeof` stands before the bindings. -/
def markedTail (g : Grammar) : Parser (Option ImportStatement) := do
  if ← acceptWord "type" then g.importTail true
  else if ← acceptWord "typeof" then g.importTail false
  else failure

/-- An import statement up to its last token before the semicolon. -/
def importStatement (g : Grammar) : Parser (Option ImportStatement) := do
  keyword "import"
  g.markedTail <|> g.importTail false

end Grammar

end Disentangle.TypeScript
