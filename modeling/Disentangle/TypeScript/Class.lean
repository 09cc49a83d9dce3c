import Disentangle.TypeScript.Type

/-!
Function bodies and classes. Of a class three things are kept: its name, the expression it
extends, and the initial values of its static fields, which are evaluated when the class is
loaded.
-/

namespace Disentangle.TypeScript

/-- A class as far as loading it is concerned. -/
structure ClassSummary where
  name : Option Text
  base : Option Expression
  statics : List Expression

namespace Grammar

open Disentangle.TypeScript.Parser

def block (g : Grammar) : Parser Unit := do
  sign "\x7b"
  discard <| many do
    if ← atSign "\x7d" then return none
    g.statement
    return some ()
  sign "\x7d"

/-- A binding: a name, or a pattern of bindings with values to fall back on. -/
def wholeBinding (g : Grammar) : Parser Unit := do
  match ← peek with
  | .word _ => advance
  | .sign ['['] =>
    advance
    discard <| sparseList "]" do
      discard (acceptSign "...")
      g.binding
      if ← acceptSign "=" then discard (g.expression .enclosed)
  | .sign ['{'] =>
    advance
    discard <| commaList "\x7d" do
      if ← acceptSign "..." then g.binding
      else
        let name ← peek
        g.propertyName
        if ← acceptSign ":" then g.binding
        else match name with
          | .word _ => pure ()
          | _ => failure
        if ← acceptSign "=" then discard (g.expression .enclosed)
  | _ => failure

/-- The words that may stand before the name of a class member. A line break after one of them
makes it the name of a field. -/
def classModifiers : List Text :=
  ["declare", "static", "override", "readonly", "public", "private", "protected", "async", "get",
   "set"].map String.toList

/-- The words that stand before the name of a class member also across a line break. -/
def firmClassModifiers : List Text :=
  ["abstract", "accessor"].map String.toList

/-- The modifiers of a class member. -/
def passClassModifiers : Parser (List Text) := many do
  let c ← get
  let next := c.next
  match c.token, next.token with
  | .word w, .word _ | .word w, .string _ _ | .word w, .number | .word w, .privateName
  | .word w, .sign ['['] | .word w, .sign ['*'] =>
    if firmClassModifiers.contains w || (classModifiers.contains w && !next.fresh) then
      advance
      return some w
    else return none
  | _, _ => return none

/-- Whether `words` may stand before the name of a field. -/
def fieldModifiers (words : List Text) : Bool :=
  let rest := if words.head? = some "declare".toList then withoutAccess words.tail
    else passInOrder ["declare".toList] (withoutAccess words)
  inOrder ["static", "override", "readonly"] rest || inOrder ["abstract", "readonly"] rest
    || inOrder ["readonly", "abstract"] rest || inOrder ["accessor"] rest

/-- Whether `words` may stand before the name of a method; a `starred` one has a star behind
them. -/
def methodModifiers (starred : Bool) (words : List Text) : Bool :=
  let order := ["static", "override", "readonly", "async"]
  let orders := if starred then [order] else [order ++ ["get"], order ++ ["set"]]
  orders.any (inOrder · (withoutAccess words))

/-- Whether `words` may stand before the name of an abstract method. -/
def abstractModifiers (starred : Bool) (words : List Text) : Bool :=
  match withoutAccess words with
  | [] => false
  | w :: rest =>
    let orders := if starred then [["override"]] else [["override", "get"], ["override", "set"]]
    w = "abstract".toList && orders.any (inOrder · rest)

/-- The end of a class member without a body: a comma, or the end of a statement. -/
def memberEnd (afterExpression : Bool) : Parser Unit := do
  if !(← acceptSign ",") then statementEnd afterExpression

/-- One member of a class. The value is that of a static field. Of the members, only methods
with a body and fields may be decorated. -/
def classMember (g : Grammar) : Parser (Option Expression) := do
  let decorated ← atSign "@"
  g.decorators
  if !decorated && (← atWord "static") && (← peekNext) = .sign ['{'] then
    advance
    g.block
    return none
  let modifiers ← passClassModifiers
  let indexed ← optional? do
    if decorated || !inOrder ["readonly"] modifiers || !(← atSign "[") then failure
    g.indexSignature
    memberEnd false
  if indexed.isSome then return none
  let starred ← acceptSign "*"
  g.propertyName
  let doubted ← acceptSign "?"
  if (← atSign "(") || (← atOpenAngle) then
    g.callSignature
    if ← atSign "\x7b" then
      if !methodModifiers starred modifiers then failure
      g.block
    else
      if decorated then failure
      if !methodModifiers starred modifiers && !abstractModifiers starred modifiers then failure
      memberEnd false
    return none
  if starred || !fieldModifiers modifiers then failure
  if !doubted then discard (acceptSign "!")
  g.typeAnnotationIfAny
  if ← acceptSign "=" then
    let value ← g.expression .statement
    memberEnd true
    return if modifiers.contains "static".toList then some value else none
  memberEnd false
  return none

/-- The body of a class: the initial values of its static fields. -/
def classBody (g : Grammar) : Parser (List Expression) := do
  sign "\x7b"
  let values ← many do
    if ← acceptSign ";" then return some none
    if ← atSign "\x7d" then return none
    return some (← g.classMember)
  sign "\x7d"
  return values.filterMap id

/-- A class from the word `class` on. -/
def classSummary (g : Grammar) : Parser ClassSummary := do
  keyword "class"
  let name ← optional? do
    if ← atAnyWord (["extends", "implements"].map String.toList) then failure
    word
  g.typeParametersIfAny
  let base ← do
    if ← acceptWord "extends" then
      let bases ← sepBy1 "," g.heritage
      pure bases.head?
    else pure none
  if ← acceptWord "implements" then discard (sepBy1 "," g.type)
  let statics ← g.classBody
  return ⟨name, base, statics⟩

end Grammar

end Disentangle.TypeScript
