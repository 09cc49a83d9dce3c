import Disentangle.TypeScript.Grammar

/-!
The parts that functions, classes and types share: arguments, templates, property names,
decorators, type arguments and parameters.
-/

namespace Disentangle.TypeScript.Grammar

open Disentangle.TypeScript.Parser

/-- One argument or one element of an array; a spread reads nothing. -/
def listItem (g : Grammar) : Parser Expression := do
  if ← acceptSign "..." then
    discard (g.expression .enclosed)
    return .other
  g.expression .enclosed

/-- The arguments of a call, with their parentheses. -/
def arguments (g : Grammar) : Parser (List Expression) := do
  sign "("
  sparseList ")" g.listItem

/-- A template from its first chunk to its last, with `content` in every substitution. -/
def template (content : Parser Unit) : Parser Unit := do
  match ← peek with
  | .template true => advance
  | .template false =>
    advance
    discard <| many do
      content
      let c ← get
      if c.token ≠ .sign ['}'] then failure
      match readChunk c.after with
      | some (true, rest) => resumeAt rest; return none
      | some (false, rest) => resumeAt rest; return some ()
      | none => failure
    return
  | _ => failure

/-- A template whose substitutions are expressions. -/
def templateExpression (g : Grammar) : Parser Unit :=
  template (discard (g.sequence .enclosed))

/-- The name of a property, a field or a method. -/
def propertyName (g : Grammar) : Parser Unit := do
  match ← peek with
  | .word _ | .string _ _ | .number | .privateName => advance
  | .sign ['['] =>
    advance
    discard (g.sequence .enclosed)
    sign "]"
  | _ => failure

/-- The `<` that opens type arguments, also where two of them stand together. -/
def openAngle : Parser Unit := do
  let c ← get
  match c.token with
  | .sign ['<'] => advance
  | .sign ['<', '<'] => set (c.withSign 1); advance
  | _ => failure

/-- Whether a `<` that may open type arguments stands here. -/
def atOpenAngle : Parser Bool := do
  match ← peek with
  | .sign ['<'] | .sign ['<', '<'] => return true
  | _ => return false

/-- Type arguments with their angle brackets; there is at least one. -/
def typeArguments (g : Grammar) : Parser Unit := do
  openAngle
  if ← atSign ">" then failure
  discard (commaList ">" g.type)

def typeArgumentsIfAny (g : Grammar) : Parser Unit := do
  if ← atOpenAngle then g.typeArguments

/-- The parameters of a generic declaration with their angle brackets. -/
def typeParameters (g : Grammar) : Parser Unit := do
  openAngle
  if ← atSign ">" then failure
  discard <| commaList ">" do
    discard <| many do
      if ← atAnyWord (["const", "in", "out"].map String.toList) then
        match ← peekNext with
        | .word _ => advance; return some ()
        | _ => return none
      else return none
    discard word
    if ← acceptWord "extends" then g.type
    if ← acceptSign "=" then g.type

def typeParametersIfAny (g : Grammar) : Parser Unit := do
  if ← atOpenAngle then g.typeParameters

/-- A colon and a type, if they stand here. -/
def typeAnnotationIfAny (g : Grammar) : Parser Unit := do
  if ← acceptSign ":" then g.type

/-- One decorator: a name or a member of one, with arguments or without, or an expression in
parentheses. -/
def decorator (g : Grammar) : Parser Unit := do
  sign "@"
  if ← acceptSign "(" then
    discard (g.sequence .enclosed)
    sign ")"
  else
    discard word
    discard <| many do
      if ← acceptSign "." then
        match ← peek with
        | .word _ | .privateName => advance; return some ()
        | _ => failure
      else return none
    if ← atOpenAngle then
      g.typeArguments
      discard g.arguments
    else if ← atSign "(" then
      discard g.arguments

def decorators (g : Grammar) : Parser Unit := do
  discard <| many do
    if ← atSign "@" then g.decorator; return some () else return none

/-- Takes each word of `order` off the front of `words` where it stands there. -/
def passInOrder (order words : List Text) : List Text :=
  order.foldl (fun left w => if left.head? = some w then left.tail else left) words

/-- Whether `words` are some of the words of `order`, in this order. -/
def inOrder (order : List String) (words : List Text) : Bool :=
  (passInOrder (order.map String.toList) words).isEmpty

/-- Who may use a member. -/
def accessWords : List Text :=
  ["public", "private", "protected"].map String.toList

/-- The words left behind one that says who may use a member, if there is one. -/
def withoutAccess (words : List Text) : List Text :=
  match words with
  | w :: rest => if accessWords.contains w then rest else words
  | [] => []

/-- The words that may stand before a parameter's name. -/
def parameterModifiers : List Text :=
  ["public", "private", "protected", "override", "readonly"].map String.toList

def parameter (g : Grammar) : Parser Unit := do
  g.decorators
  let modifiers ← many do
    match ← peek with
    | .word w =>
      if !parameterModifiers.contains w then return none
      match ← peekNext with
      | .word _ | .sign ['['] | .sign ['{'] | .sign ['.', '.', '.'] => advance; return some w
      | _ => return none
    | _ => return none
  if !inOrder ["override", "readonly"] (withoutAccess modifiers) then failure
  discard (acceptSign "...")
  g.binding
  discard (acceptSign "?")
  g.typeAnnotationIfAny
  if ← acceptSign "=" then discard (g.expression .enclosed)

def parameters (g : Grammar) : Parser Unit := do
  sign "("
  discard (commaList ")" g.parameter)

/-- A result type, or what a call tells about one of its arguments. -/
def resultType (g : Grammar) : Parser Unit := do
  let c ← get
  match c.token, c.next.token with
  | .word first, .word second =>
    if c.next.fresh then g.type
    else if first = "asserts".toList then
      advance
      advance
      if ← acceptWord "is" then g.type
    else if second = "is".toList then
      advance
      advance
      g.type
    else g.type
  | _, _ => g.type

/-- Everything of a signature behind the name: type parameters, parameters, result. -/
def callSignature (g : Grammar) : Parser Unit := do
  g.typeParametersIfAny
  g.parameters
  if ← acceptSign ":" then g.resultType

end Disentangle.TypeScript.Grammar
