import Disentangle.TypeScript.Import

/-!
Statements and declarations. A statement keeps what it imports or declares; what is nested in
it is read for its extent only.
-/

namespace Disentangle.TypeScript

/-- One variable with its initial value; a pattern has no name. -/
structure Declarator where
  name : Option Text
  value : Option Expression

/-- What a statement declares at the top of a module. -/
inductive Declaration where
  | classDefinition (summary : ClassSummary)
  | function (name : Option Text)
  | enumeration (name : Text) (values : List Expression)
  | variables (declarators : List Declarator)
  | interface (name : Text)
  | typeAlias (name : Text)

/-- A statement at the top of a module. -/
inductive Statement where
  | imports (statement : ImportStatement)
  | declares (exported isDefault : Bool) (declaration : Declaration)
  | other

namespace Grammar

open Disentangle.TypeScript.Parser

/-- One variable of a declaration, and whether its initial value was the last thing read. -/
def declarator (g : Grammar) (place : Place) : Parser (Declarator × Bool) := do
  let name ← (do match ← peek with
    | .word w => return some w
    | _ => return none)
  g.binding
  if name.isSome then
    if ← acceptSign "!" then
      sign ":"
      g.type
      return (⟨name, none⟩, false)
  g.typeAnnotationIfAny
  if ← acceptSign "=" then return (⟨name, some (← g.expression place)⟩, true)
  return (⟨name, none⟩, false)

/-- The variables of a declaration behind `var`, `let` or `const`, without its end. -/
def declarators (g : Grammar) (place : Place) : Parser (List Declarator × Bool) := do
  let found ← sepBy1 "," (g.declarator place)
  return (found.map Prod.fst, (found.getLast?.map Prod.snd).getD false)

/-- The members of an enumeration: the values that are given to them. -/
def enumBody (g : Grammar) : Parser (List Expression) := do
  sign "\x7b"
  let values ← commaList "\x7d" do
    g.propertyName
    if ← acceptSign "=" then return some (← g.expression .enclosed)
    return none
  return values.filterMap id

/-- The words that begin a declaration of variables. -/
def variableWords : List Text :=
  ["var", "let", "const"].map String.toList

/-- A function declaration from `function` on. A signature without a body declares something
only where it stands for a function defined elsewhere. -/
def functionDeclaration (g : Grammar) (ambient : Bool) : Parser (Option Declaration) := do
  keyword "function"
  discard (acceptSign "*")
  let name ← word
  g.callSignature
  if ← atSign "\x7b" then
    g.block
    return some (.function (some name))
  statementEnd false
  return if ambient then some (.function (some name)) else none

/-- The name and the body of a namespace or a module. -/
def namespaceTail (g : Grammar) : Parser Unit := do
  match ← peek with
  | .string _ _ => advance
  | _ => qualifiedName
  if ← atSign "\x7b" then g.block else statementEnd false

/-- A declaration; namespaces declare nothing of interest. Where `standalone` says that a
statement may be a single word, a line break behind a word such as `type` ends it. -/
def declaration (g : Grammar) (ambient standalone : Bool) : Parser (Option Declaration) := do
  let c ← get
  let next := c.next
  let broken := standalone && next.fresh
  match c.token with
  | .sign ['@'] =>
    g.decorators
    discard (acceptWord "abstract")
    return some (.classDefinition (← named))
  | .word w =>
    if w = "class".toList then return some (.classDefinition (← named))
    else if w = "abstract".toList && next.token = .word "class".toList then
      advance
      return some (.classDefinition (← named))
    else if w = "function".toList then g.functionDeclaration ambient
    else if w = "async".toList && next.token = .word "function".toList && !broken then
      advance
      g.functionDeclaration ambient
    else if w = "enum".toList then
      advance
      enumTail
    else if w = "const".toList && next.token = .word "enum".toList then
      advance
      advance
      enumTail
    else if variableWords.contains w &&
        !(w = "let".toList && (broken || !startsBinding next.token)) then
      advance
      let (found, valueLast) ← g.declarators .statement
      statementEnd valueLast
      return some (.variables found)
    else if w = "interface".toList then
      advance
      let name ← word
      g.typeParametersIfAny
      if ← acceptWord "extends" then discard (sepBy1 "," g.type)
      g.objectType
      return some (.interface name)
    else if w = "type".toList && isName next.token && !broken then
      advance
      let name ← word
      g.typeParametersIfAny
      sign "="
      g.type
      statementEnd false
      return some (.typeAlias name)
    else if w = "namespace".toList && isName next.token && !broken then
      advance
      g.namespaceTail
      return none
    else if w = "module".toList && !broken then
      match next.token with
      | .word _ | .string _ _ =>
        advance
        g.namespaceTail
        return none
      | _ => failure
    else failure
  | _ => failure
where
  named : Parser ClassSummary := do
    let summary ← g.classSummary
    if summary.name.isNone then failure
    return summary
  enumTail : Parser (Option Declaration) := do
    let name ← word
    return some (.enumeration name (← g.enumBody))
  startsBinding : Token → Bool
    | .word w => w ≠ "in".toList && w ≠ "instanceof".toList
    | .sign s => s = ['{'] || s = ['[']
    | _ => false
  isName : Token → Bool
    | .word _ => true
    | _ => false

/-- A declaration behind `declare`, which says that something is defined elsewhere. -/
def ambientDeclaration (g : Grammar) (standalone : Bool) : Parser (Option Declaration) := do
  keyword "declare"
  if standalone && (← onNewLine) then failure
  let global ← optional? do
    keyword "global"
    g.block
  if global.isSome then return none
  let moduleType ← optional? do
    keyword "module"
    sign "."
    discard word
    sign ":"
    g.type
    statementEnd false
  if moduleType.isSome then return none
  if ← atWord "import" then
    discard g.importStatement
    statementEnd false
    return none
  g.declaration true false

/-- One name in the braces of an export. -/
def exportSpecifier : Parser Unit := do
  let plain : Parser Unit := do
    discard exportedName
    if ← acceptWord "as" then discard exportedName
    if !(← atSign ",") && !(← atSign "\x7d") then failure
  plain <|> do
    if ← atAnyWord typeMarkers then advance; plain
    else failure

/-- What an export passes on from another module, or names in braces. -/
def reexport (g : Grammar) : Parser Unit := do
  if ← acceptSign "*" then
    if ← acceptWord "as" then discard exportedName
    source
  else
    sign "\x7b"
    discard (commaList "\x7d" exportSpecifier)
    if ← atWord "from" then source
  statementEnd false
where
  source : Parser Unit := do
    keyword "from"
    discard moduleName
    g.importAttributesIfAny

/-- What stands behind `export default`. An anonymous class or function is a value; a class
still evaluates what it extends and its static fields. -/
def defaultExport (g : Grammar) : Parser Statement := do
  let declared : Parser Statement := do
    let found ← if ← atWord "declare" then g.ambientDeclaration true else g.declaration false true
    return (found.map (.declares true true)).getD .other
  let anonymousClass : Parser Statement := do
    g.decorators
    let summary ← g.classSummary
    statementEnd true
    return .declares true true (.classDefinition summary)
  let value : Parser Statement := do
    discard (g.expression .statement)
    statementEnd true
    return .other
  declared <|> anonymousClass <|> value

def exportStatement (g : Grammar) : Parser Statement := do
  keyword "export"
  if ← onNewLine then
    if !(continuesLine true (← get).here) then failure
  let c ← get
  let next := c.next
  match c.token with
  | .sign ['*'] | .sign ['{'] => g.reexport; return .other
  | .sign ['='] =>
    advance
    discard (g.expression .statement)
    statementEnd true
    return .other
  | .word w =>
    if w = "default".toList then
      advance
      g.defaultExport
    else if w = "as".toList && next.token = .word "namespace".toList then
      advance
      advance
      discard word
      statementEnd false
      return .other
    else if w = "import".toList then
      match ← g.importStatement with
      | none | some ⟨_, .require _, _⟩ =>
        statementEnd false
        return .other
      | _ => failure
    else if w = "type".toList && (next.token = .sign ['{'] || next.token = .sign ['*']) then
      advance
      g.reexport
      return .other
    else if w = "declare".toList then
      return ((← g.ambientDeclaration false).map (.declares true false)).getD .other
    else
      return ((← g.declaration false false).map (.declares true false)).getD .other
  | .sign ['@'] =>
    return ((← g.declaration false false).map (.declares true false)).getD .other
  | _ => failure

/-- The head and the body of a `for` loop. -/
def forStatement (g : Grammar) : Parser Unit := do
  keyword "for"
  discard (acceptWord "await")
  sign "("
  let place : Place := ⟨false, false, false⟩
  let declared : Parser Unit := do
    if !(← atAnyWord (["var", "let", "const", "using"].map String.toList)) then failure
    advance
    g.binding
    g.typeAnnotationIfAny
    if ← acceptSign "=" then discard (g.expression place)
    overTail
  let assigned : Parser Unit := do
    discard (g.operand place)
    overTail
  let counted : Parser Unit := do
    if !(← atSign ";") then
      let declares ← do
        let c ← get
        match c.token, c.next.token with
        | .word w, .word _ | .word w, .sign ['{'] | .word w, .sign ['['] =>
          pure (variableWords.contains w)
        | _, _ => pure false
      if declares then
        advance
        discard (g.declarators place)
      else discard (g.sequence place)
    sign ";"
    if !(← atSign ";") then discard (g.sequence .enclosed)
    sign ";"
    if !(← atSign ")") then discard (g.sequence .enclosed)
  declared <|> assigned <|> counted
  sign ")"
  g.statement
where
  overTail : Parser Unit := do
    if !(← acceptWord "of") then keyword "in"
    discard (g.sequence .enclosed)
    if !(← atSign ")") then failure

def switchBody (g : Grammar) : Parser Unit := do
  sign "\x7b"
  discard <| many do
    if ← atSign "\x7d" then return none
    if ← acceptWord "case" then discard (g.sequence .enclosed) else keyword "default"
    sign ":"
    discard <| many do
      if (← atSign "\x7d") || (← atWord "case") || (← atWord "default") then return none
      g.statement
      return some ()
    return some ()
  sign "\x7d"

/-- `try` with what handles its failure. -/
def tryStatement (g : Grammar) : Parser Unit := do
  keyword "try"
  g.block
  let caught ← acceptWord "catch"
  if caught then
    if ← acceptSign "(" then
      g.binding
      g.typeAnnotationIfAny
      sign ")"
    g.block
  let ended ← acceptWord "finally"
  if ended then g.block
  if !caught && !ended then failure

/-- A statement that begins with a word of control flow, if `w` is one. -/
def controlStatement? (g : Grammar) (w : Text) : Option (Parser Unit) :=
  match String.ofList w with
  | "if" => some do
    advance
    g.parenthesized
    g.statement
    if ← acceptWord "else" then g.statement
  | "for" => some g.forStatement
  | "while" => some do
    advance
    g.parenthesized
    g.statement
  | "do" => some do
    advance
    g.statement
    keyword "while"
    g.parenthesized
    discard (acceptSign ";")
  | "switch" => some do
    advance
    g.parenthesized
    g.switchBody
  | "with" => some do
    advance
    g.parenthesized
    g.statement
  | "try" => some g.tryStatement
  | "return" => some do
    advance
    if !(← atSign ";") && !(← atStatementEnd false) then discard (g.sequence .statement)
    statementEnd true
  | "throw" => some do
    advance
    discard (g.sequence .statement)
    statementEnd true
  | "break" | "continue" => some do
    advance
    if !(← atSign ";") && !(← atStatementEnd false) then discard word
    statementEnd false
  | "debugger" => some do
    advance
    statementEnd false
  | _ => none

def expressionStatement (g : Grammar) : Parser Unit := do
  discard (g.sequence .statement)
  statementEnd true

/-- The words at which a statement is a declaration or nothing. -/
def declarationWords : List Text :=
  ["enum", "interface", "abstract", "var", "const"].map String.toList

/-- Whether the statement at a word is a declaration or nothing: a class or a function without
a name may also be an expression. -/
def mustDeclare (w : Text) (next : Token) : Bool :=
  declarationWords.contains w ||
    ((w = "class".toList || w = "function".toList) &&
      match next with
      | .word name => name ≠ "extends".toList && name ≠ "implements".toList
      | _ => false)

/-- Whether the brace here may open an object expression in place of a block. -/
def mayOpenObject : Parser Bool := do
  let first := (← get).next
  match first.token, first.next.token with
  | .sign ['.', '.', '.'], _ => return true
  | .word _, .sign s | .string _ _, .sign s | .number, .sign s =>
    return s = [':'] || s = [','] || s = ['}']
  | _, _ => return false

/-- `using` with variables that are disposed of at the end of their block. -/
def usingStatement (g : Grammar) : Parser Unit := do
  discard (acceptWord "await")
  keyword "using"
  if ← onNewLine then failure
  let (_, valueLast) ← g.declarators .statement
  statementEnd valueLast

/-- A statement. The cursor is left behind its last token. -/
def wholeStatement (g : Grammar) : Parser Statement := do
  let c ← get
  let next := c.next
  match c.token with
  | .sign [';'] => advance; return .other
  | .sign ['{'] =>
    if ← mayOpenObject then g.block <|> g.expressionStatement else g.block
    return .other
  | .sign ['@'] => decorated <|> plain
  | .word w =>
    match g.controlStatement? w with
    | some p => p; return .other
    | none =>
      if w = "import".toList && next.token ≠ .sign ['('] && next.token ≠ .sign ['.'] then
        let statement ← g.importStatement
        statementEnd false
        return (statement.map .imports).getD .other
      else if next.token = .sign [':'] then
        advance
        advance
        g.statement
        return .other
      else if w = "export".toList then g.exportStatement <|> plain
      else if w = "declare".toList then
        (do return ((← g.ambientDeclaration true).map (.declares false false)).getD .other) <|> plain
      else if w = "using".toList || w = "await".toList then
        (do g.usingStatement; return .other) <|> plain
      else if mustDeclare w next.token then
        return ((← g.declaration false true).map (.declares false false)).getD .other
      else
        (do return ((← g.declaration false true).map (.declares false false)).getD .other) <|> plain
  | _ => plain
where
  plain : Parser Statement := do
    g.expressionStatement
    return .other
  decorated : Parser Statement := do
    g.decorators
    if ← atWord "export" then g.exportStatement
    else return ((← g.declaration false true).map (.declares false false)).getD .other

end Grammar

end Disentangle.TypeScript
