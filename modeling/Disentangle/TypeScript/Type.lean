import Disentangle.TypeScript.Signature

/-!
Types. They bind nothing that is read at load time, so they are recognised and dropped.
-/

namespace Disentangle.TypeScript.Grammar

open Disentangle.TypeScript.Parser

/-- A name with members: `A`, `A.b.c`. -/
def qualifiedName : Parser Unit := do
  discard word
  discard <| many do
    if ← acceptSign "." then
      match ← peek with
      | .word _ | .privateName => advance; return some ()
      | _ => failure
    else return none

/-- `import('m')` as the front of a type. -/
def importType : Parser Unit := do
  keyword "import"
  sign "("
  match ← peek with
  | .string _ _ => advance
  | _ => failure
  sign ")"
  discard <| many do
    if ← acceptSign "." then discard word; return some () else return none

/-- An index signature or the head of a mapped type, from its bracket on. -/
def indexSignature (g : Grammar) : Parser Unit := do
  sign "["
  discard word
  if ← acceptWord "in" then
    g.type
    if ← acceptWord "as" then g.type
  else
    sign ":"
    g.type
  sign "]"
  if ← acceptSign "?" then pure ()
  else if (← atSign "+") || (← atSign "-") then
    advance
    sign "?"
  g.typeAnnotationIfAny

/-- The words that may stand before the name of a member of an object type. -/
def memberModifiers : List Text :=
  ["readonly", "get", "set", "static", "public", "private", "protected", "override", "async"].map
    String.toList

/-- Passes words of `modifiers` as long as a property's name follows them. -/
def passModifiers (modifiers : List Text) : Parser (List Text) := many do
  match ← peek with
  | .word w =>
    if modifiers.contains w then
      match ← peekNext with
      | .word _ | .string _ _ | .number | .privateName | .sign ['['] => advance; return some w
      | _ => return none
    else return none
  | _ => return none

def typeMember (g : Grammar) : Parser Unit := do
  if (← atSign "+") || (← atSign "-") then
    advance
    keyword "readonly"
    g.indexSignature
  else if (← atSign "(") || (← atOpenAngle) then
    g.callSignature
  else
    let newFollowedBySignature ← do
      if ← atWord "new" then
        match ← peekNext with
        | .sign ['('] | .sign ['<'] => pure true
        | _ => pure false
      else pure false
    if newFollowedBySignature then
      advance
      g.callSignature
    else
      discard (passModifiers memberModifiers)
      match ← optional? (if ← atSign "[" then g.indexSignature else failure) with
      | some _ => return
      | none =>
        g.propertyName
        discard (acceptSign "?")
        if (← atSign "(") || (← atOpenAngle) then g.callSignature
        else g.typeAnnotationIfAny

/-- An object type, also the body of an interface. -/
def objectType (g : Grammar) : Parser Unit := do
  sign "\x7b"
  discard <| many do
    if (← acceptSign ";") || (← acceptSign ",") then return some ()
    if ← atSign "\x7d" then return none
    g.typeMember
    if (← atSign ";") || (← atSign ",") || (← atStatementEnd false) then return some ()
    failure
  sign "\x7d"

/-- One member of a tuple, possibly named, optional or a rest. -/
def tupleMember (g : Grammar) : Parser Unit := do
  discard (acceptSign "...")
  let named ← foresee do
    discard word
    discard (acceptSign "?")
    sign ":"
  if named.isSome then
    discard word
    discard (acceptSign "?")
    sign ":"
  g.type
  discard (acceptSign "?")

/-- A function type from its parameters on. -/
def functionType (g : Grammar) : Parser Unit := do
  g.typeParametersIfAny
  g.parameters
  sign "=>"
  g.resultType

/-- The words that make an operand of the type behind them. -/
def typeOperators : List Text :=
  ["keyof", "unique", "readonly", "infer"].map String.toList

/-- Whether a type can begin at the token after this one. -/
def typeFollows : Parser Bool := do
  match ← peekNext with
  | .word w => return w ≠ "extends".toList && w ≠ "is".toList
  | .string _ _ | .number | .template _ => return true
  | .sign s => return s = ['('] || s = ['['] || s = ['{']
  | _ => return false

/-- A type without operators around it. -/
def primaryType (g : Grammar) : Parser Unit := do
  match ← peek with
  | .string _ _ | .number => advance
  | .template _ => template g.type
  | .sign ['-'] =>
    advance
    match ← peek with
    | .number => advance
    | _ => failure
  | .sign ['*'] => advance
  | .sign ['?'] => advance; g.type
  | .sign ['{'] => g.objectType
  | .sign ['['] => advance; discard (commaList "]" g.tupleMember)
  | .sign ['('] =>
    match ← closesBefore? ["=>"] with
    | some true => g.functionType
    | some false => advance; g.type; sign ")"
    | none =>
      match ← optional? g.functionType with
      | some _ => return
      | none => advance; g.type; sign ")"
  | .sign ['<'] => g.functionType
  | .word w =>
    if w = "new".toList then
      advance
      g.functionType
    else if w = "abstract".toList && (← peekNext) = .word "new".toList then
      advance
      advance
      g.functionType
    else if w = "typeof".toList then
      advance
      if ← atWord "import" then importType else qualifiedName
      g.typeArgumentsIfAny
    else if w = "import".toList then
      importType
      g.typeArgumentsIfAny
    else
      qualifiedName
      discard (optional? g.typeArguments)
  | _ => failure

/-- An array type or a type of members behind a type. -/
def indexedType (g : Grammar) : Parser Unit := do
  g.primaryType
  discard <| many do
    if (← atSign "[") && !(← onNewLine) then
      advance
      if !(← acceptSign "]") then
        g.type
        sign "]"
      return some ()
    else return none

/-- A type with the operators before it. -/
def typeOperand (g : Grammar) : Parser Unit := do
  let operators ← many do
    match ← peek with
    | .word w =>
      if typeOperators.contains w && (← typeFollows) then advance; return some w
      else return none
    | _ => return none
  g.indexedType
  if operators.getLast? = some "infer".toList then
    if ← atWord "extends" then
      discard <| optional? do
        advance
        g.indexedType

/-- Operands with `|` and `&` between them, one of which may also stand before the first. -/
def unionType (g : Grammar) : Parser Unit := do
  if !(← acceptSign "|") then discard (acceptSign "&")
  g.typeOperand
  discard <| many do
    if (← acceptSign "|") || (← acceptSign "&") then
      g.typeOperand
      return some ()
    else return none

def wholeType (g : Grammar) : Parser Unit := do
  g.unionType
  if (← atWord "extends") && !(← onNewLine) then
    discard <| optional? do
      advance
      g.unionType
      sign "?"
      g.type
      sign ":"
      g.type

end Disentangle.TypeScript.Grammar
