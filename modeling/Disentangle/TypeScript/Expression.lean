import Disentangle.TypeScript.Class
import Disentangle.TypeScript.Jsx

/-!
Expressions. A chain of members, calls and instances keeps its shape, and so do lists and
objects; whatever stands under an operator, in parentheses or in a function is `other`.
-/

namespace Disentangle.TypeScript.Grammar

open Disentangle.TypeScript.Parser

/-- An expression, and whether a value can be assigned to it. -/
structure Operand where
  value : Expression
  assignable : Bool

/-- The body of an arrow function; tells whether it is a block. -/
def arrowBody (g : Grammar) (place : Place) : Parser Bool := do
  sign "=>"
  if ← atSign "\x7b" then
    g.block
    return true
  discard (g.expression place)
  return false

/-- An arrow function from its type parameters or its parentheses on. Where a colon may belong
to a conditional expression around it, a result type is only one if that colon still follows. -/
def arrowFunction (g : Grammar) (place : Place) : Parser Bool := do
  g.typeParametersIfAny
  g.parameters
  let typed ← acceptSign ":"
  if typed then g.resultType
  let blocked ← g.arrowBody place
  if typed && place.beforeColon && !(← atSign ":") then failure
  return blocked

/-- An arrow function, if the parentheses here are those of its parameters. -/
def arrowAtParenthesis? (g : Grammar) (place : Place) : Parser (Option Bool) := do
  match ← closesBefore? ["=>"], ← closesBefore? [":"] with
  | some true, _ => return some (← g.arrowFunction place)
  | some false, some false => return none
  | _, _ => optional? (g.arrowFunction place)

/-- An arrow function, if one stands here; the value tells whether its body is a block. -/
def arrow? (g : Grammar) (place : Place) : Parser (Option Bool) := do
  let c ← get
  let next := c.next
  match c.token with
  | .word w =>
    if next.token = .sign ['=', '>'] then
      advance
      return some (← g.arrowBody place)
    else if w = "async".toList && !next.fresh then
      match next.token with
      | .word _ =>
        if next.next.token = .sign ['=', '>'] then
          advance
          advance
          return some (← g.arrowBody place)
        else return none
      | .sign ['('] =>
        match ← foresee (do advance; g.arrowAtParenthesis? place) with
        | some (some _) => advance; g.arrowAtParenthesis? place
        | _ => return none
      | .sign ['<'] => optional? (do advance; g.arrowFunction place)
      | _ => return none
    else return none
  | .sign ['('] => g.arrowAtParenthesis? place
  | .sign ['<'] => optional? (g.arrowFunction place)
  | _ => return none

/-- The words that may stand before the name of a method in an object. -/
def objectModifiers : List Text :=
  ["async", "get", "set", "static", "public", "private", "protected", "override", "readonly"].map
    String.toList

def property (g : Grammar) : Parser Property := do
  if ← acceptSign "..." then
    discard (g.expression .enclosed)
    return .other
  let modifiers ← passModifiers objectModifiers
  if (← atWord "async") && (← peekNext) = .sign ['*'] then advance
  let starred ← acceptSign "*"
  let plain := modifiers.isEmpty && !starred
  let name ← peek
  g.propertyName
  if plain then
    if ← acceptSign ":" then return .pair (← g.expression .enclosed)
    match name with
    | .word w => if (← atSign ",") || (← atSign "\x7d") then return .shorthand w
    | _ => pure ()
  discard (acceptSign "?")
  g.callSignature
  g.block
  return .other

def object (g : Grammar) : Parser Expression := do
  sign "\x7b"
  return .object (← sparseList "\x7d" g.property)

def array (g : Grammar) : Parser Expression := do
  sign "["
  return .array (← sparseList "]" g.listItem)

/-- An array or object expression, or a pattern to which a value is assigned. -/
def literalOrPattern (g : Grammar) (literal : Parser Expression) : Parser Expression :=
  literal <|> do
    g.binding
    if !(← atSign "=") then failure
    return .other

/-- An expression between parentheses, possibly with its type. -/
def parenthesized (g : Grammar) : Parser Unit := do
  sign "("
  discard (g.sequence .enclosed)
  g.typeAnnotationIfAny
  sign ")"

/-- A function expression from the word `function` on; the value is its name. -/
def functionExpression (g : Grammar) : Parser (Option Text) := do
  keyword "function"
  discard (acceptSign "*")
  let name ← optional? word
  g.callSignature
  g.block
  return name

/-- A chain of members, without calls, as it stands behind `new`. -/
def memberChain (g : Grammar) (base : Operand) : Parser Operand :=
  extend base fun e => do
    match ← peek with
    | .sign ['.'] =>
      advance
      match ← peek with
      | .word _ | .privateName => advance; return some ⟨.member e.value, true⟩
      | _ => failure
    | .sign ['['] =>
      advance
      discard (g.sequence .enclosed)
      sign "]"
      return some ⟨.other, true⟩
    | .sign ['!'] => advance; return some ⟨.other, true⟩
    | _ => return none

/-- A call with type arguments, a template with them, or the application alone. -/
def angleSuffix (g : Grammar) (alone : Bool) (e : Operand) : Parser (Option Operand) :=
  optional? do
    g.typeArguments
    let c ← get
    match c.token with
    | .sign ['('] => return ⟨.call e.value (← g.arguments), false⟩
    | .template _ => g.templateExpression; return ⟨.tagged e.value, false⟩
    | token =>
      if !alone then failure
      let ends := match token with
        | .word w => ["in", "instanceof", "as", "satisfies"].contains (String.ofList w)
        | .sign s =>
          ! ["<", ">", "+", "-", "[", "\x7b", "!", "~", "++", "--", "/", "@", "#"].contains
            (String.ofList s)
        | .finish => true
        | _ => false
      if c.fresh || ends then return ⟨.other, false⟩ else failure

/-- One step along a chain: a member, a call, a template, an index, or a mark behind an
operand. -/
def suffix (g : Grammar) (place : Place) (inHeritage : Bool) (e : Operand) :
    Parser (Option Operand) := do
  let c ← get
  let onSameStatement := !(c.fresh && place.lineEnds)
  match c.token with
  | .sign ['.'] =>
    advance
    match ← peek with
    | .word _ | .privateName => advance; return some ⟨.member e.value, true⟩
    | _ => failure
  | .sign ['?', '.'] =>
    advance
    match ← peek with
    | .word _ | .privateName => advance; return some ⟨.member e.value, true⟩
    | .sign ['('] => return some ⟨.call e.value (← g.arguments), false⟩
    | .sign ['['] =>
      advance
      discard (g.sequence .enclosed)
      sign "]"
      return some ⟨.other, true⟩
    | .sign ['<'] =>
      g.typeArguments
      return some ⟨.call e.value (← g.arguments), false⟩
    | _ => failure
  | .sign ['['] =>
    advance
    discard (g.sequence .enclosed)
    sign "]"
    return some ⟨.other, true⟩
  | .sign ['('] => return some ⟨.call e.value (← g.arguments), false⟩
  | .template _ => g.templateExpression; return some ⟨.tagged e.value, false⟩
  | .sign ['!'] =>
    if onSameStatement then advance; return some ⟨.other, true⟩ else return none
  | .sign ['+', '+'] | .sign ['-', '-'] =>
    if onSameStatement && !inHeritage then advance; return some ⟨.other, false⟩ else return none
  | .sign ['<'] | .sign ['<', '<'] => g.angleSuffix (!inHeritage) e
  | _ => return none

/-- The words that stand for a value which is no binding. -/
def constantWords : List Text :=
  ["this", "super", "true", "false", "null", "undefined"].map String.toList

/-- The words that make the operand behind them an operation. -/
def operatorWords : List Text :=
  ["typeof", "void", "delete", "await"].map String.toList

/-- The signs that make the operand behind them an operation. -/
def operatorSigns : List Text :=
  ["!", "~", "-", "+", "++", "--"].map String.toList

/-- A regular expression, whose slash stands here as a sign. -/
def regularExpression : Parser Unit := do
  match (← get).here with
  | '/' :: rest =>
    match readPattern false rest with
    | some after => resumeAt after
    | none => failure
  | _ => failure

/-- An operand that begins with a word other than `new`. -/
def wordOperand (g : Grammar) (w : Text) : Parser Operand := do
  if constantWords.contains w then
    advance
    return ⟨.other, w = "undefined".toList⟩
  else if w = "function".toList then
    discard g.functionExpression
    return ⟨.other, false⟩
  else if w = "class".toList then
    discard g.classSummary
    return ⟨.other, false⟩
  else if w = "import".toList then
    match ← peekNext with
    | .sign ['('] => advance; return ⟨.other, false⟩
    | .sign ['.'] => advance; advance; discard word; return ⟨.other, false⟩
    | _ => failure
  else if operatorWords.contains w || w = "yield".toList then failure
  else if w = "async".toList then
    let next := (← get).next
    if next.token = .word "function".toList && !next.fresh then
      advance
      discard g.functionExpression
      return ⟨.other, false⟩
    else advance; return ⟨.name w, true⟩
  else
    advance
    return ⟨.name w, true⟩

/-- An operand without anything behind it, and not an instance. -/
def plainOperand (g : Grammar) : Parser Operand := do
  let c ← get
  match c.token with
  | .word w => g.wordOperand w
  | .string _ _ | .number => advance; return ⟨.other, false⟩
  | .privateName =>
    if c.next.token ≠ .word "in".toList then failure
    advance
    return ⟨.other, false⟩
  | .template _ => g.templateExpression; return ⟨.other, false⟩
  | .sign ['('] => g.parenthesized; return ⟨.other, true⟩
  | .sign ['['] => return ⟨← g.literalOrPattern g.array, true⟩
  | .sign ['{'] => return ⟨← g.literalOrPattern g.object, true⟩
  | .sign ['@'] => g.decorators; discard g.classSummary; return ⟨.other, false⟩
  | .sign ('/' :: _) => regularExpression; return ⟨.other, false⟩
  | .sign ('<' :: _) =>
    if g.jsx then
      g.element
      advance
      return ⟨.other, false⟩
    else failure
  | _ => failure

/-- An operand: an instance made by one or more `new`, or an operand without one. -/
def primary (g : Grammar) : Parser Operand := do
  let news ← many do
    if ← atWord "new" then advance; return some () else return none
  if news.isEmpty then g.plainOperand
  else if ← acceptSign "." then
    keyword "target"
    return ⟨.other, false⟩
  else
    build news.length (← g.memberChain (← g.plainOperand))
where
  build : Nat → Operand → Parser Operand
    | 0, e => return e
    | n + 1, e => do
      discard (optional? g.typeArguments)
      let arguments ← if ← atSign "(" then g.arguments else pure []
      build n ⟨.construct e.value arguments, false⟩

/-- What a class extends: an operand with its chain, and type arguments that belong to the
class; or any other expression. -/
def wholeHeritage (g : Grammar) : Parser Expression := do
  let chain : Parser Expression := do
    let e ← extend (← g.primary) (g.suffix .enclosed true)
    discard (optional? g.typeArguments)
    if (← atSign "\x7b") || (← atSign ",") || (← atWord "implements") then return e.value
    else failure
  chain <|> g.expression .enclosed

/-- A `yield` with what it yields, if anything. -/
def yielded (g : Grammar) (place : Place) : Parser Unit := do
  keyword "yield"
  if ← acceptSign "*" then discard (g.expression place)
  else if place.lineEnds && (← onNewLine) then return
  else discard (optional? (g.expression place))

/-- An operand with its unary operators and its chain. -/
def unary (g : Grammar) (place : Place) : Parser Operand := do
  match ← g.arrow? place with
  | some false => return ⟨.other, false⟩
  | some true => extend ⟨.other, false⟩ (g.suffix place false)
  | none =>
    let operation ← do
      match ← peek with
      | .sign s => pure (operatorSigns.contains s)
      | .word w => pure (operatorWords.contains w)
      | _ => pure false
    if operation then
      advance
      discard (g.operand place)
      return ⟨.other, false⟩
    else if ← atWord "yield" then
      g.yielded place
      return ⟨.other, false⟩
    else if !g.jsx && (← atSign "<") then
      g.typeArguments
      discard (g.operand place)
      return ⟨.other, false⟩
    else extend (← g.primary) (g.suffix place false)

/-- The signs that stand between two operands. Those that begin with `>` are put together from
the text. -/
def binarySigns : List Text :=
  ["+", "-", "*", "/", "%", "**", "<<", "&", "|", "^", "&&", "||", "??", "<", "<=", "==", "!=",
   "===", "!=="].map String.toList

/-- The signs that assign the value behind them. -/
def assignmentSigns : List Text :=
  ["=", "+=", "-=", "*=", "/=", "%=", "**=", "<<=", "&=", "|=", "^=", "&&=", "||=", "??="].map
    String.toList

/-- One operator and what stands behind it. -/
def operation (g : Grammar) (place : Place) (e : Operand) : Parser (Option Operand) := do
  let c ← get
  match c.token with
  | .sign ['>'] =>
    let s := (greaterSigns.find? (·.isPrefixOf c.here)).getD ['>']
    set (c.withSign s.length)
    advance
    if s = ">>=".toList || s = ">>>=".toList then
      if !e.assignable then failure
      discard (g.expression place)
      return some ⟨.other, false⟩
    else return some ⟨.other, (← g.unary place).assignable⟩
  | .sign s =>
    if binarySigns.contains s then
      advance
      return some ⟨.other, (← g.unary place).assignable⟩
    else if assignmentSigns.contains s then
      if !e.assignable then failure
      advance
      discard (g.expression place)
      return some ⟨.other, false⟩
    else return none
  | .word w =>
    if w = "instanceof".toList || (w = "in".toList && place.allowsIn) then
      advance
      return some ⟨.other, (← g.unary place).assignable⟩
    else if (w = "as".toList || w = "satisfies".toList) && !(c.fresh && place.lineEnds) then
      advance
      if !(← acceptWord "const") then g.type
      return some ⟨.other, false⟩
    else return none
  | _ => return none

/-- An expression without commas at its top: operands with operators between them, and perhaps
a condition. -/
def wholeExpression (g : Grammar) (place : Place) : Parser Expression := do
  let e ← extend (← g.unary place) (g.operation place)
  if ← acceptSign "?" then
    discard (g.expression ⟨false, true, true⟩)
    sign ":"
    discard (g.expression place)
    return .other
  return e.value

end Disentangle.TypeScript.Grammar
