import Disentangle.TypeScript.Signature

/-!
JSX elements. Between tags stands plain text, which is not made of tokens: it is read from the
`>` or the brace before it up to the next tag or the next substitution.
-/

namespace Disentangle.TypeScript.Grammar

open Disentangle.TypeScript.Parser

/-- A name in a tag, which may hold hyphens. -/
def tagName : Parser Unit := do
  let c ← get
  match c.token with
  | .word _ => resumeAt (c.here.dropWhile fun ch => isWordPart ch || ch = '-')
  | _ => failure

/-- A name with members or with a namespace. -/
def qualifiedTagName : Parser Unit := do
  tagName
  discard <| many do
    if (← acceptSign ".") || (← acceptSign ":") then tagName; return some ()
    else return none

/-- The value of an attribute. A string in a tag knows no escapes and may hold line breaks. -/
def attributeValue (g : Grammar) : Parser Unit := do
  let c ← get
  match c.here with
  | '{' :: _ =>
    advance
    discard (g.sequence .enclosed)
    sign "\x7d"
  | '<' :: _ => g.element; advance
  | q :: rest =>
    if q = '"' || q = '\'' then
      match rest.dropWhile (· ≠ q) with
      | _ :: after => resumeAt after
      | [] => failure
    else failure
  | [] => failure

def attributes (g : Grammar) : Parser Unit := do
  discard <| many do
    match ← peek with
    | .sign ['{'] =>
      advance
      sign "..."
      discard (g.expression .enclosed)
      sign "\x7d"
      return some ()
    | .word _ =>
      qualifiedTagName
      if ← atSign "=" then
        modify fun c => Cursor.reading c.stop c.after
        g.attributeValue
      return some ()
    | _ => return none

/-- The text after the semicolon of a character reference, given the text after its `&`: a name
of letters, or `#` and a number. -/
def afterReference? (t : Text) : Option Text :=
  let body := t.takeWhile (· ≠ ';')
  let known := match body with
    | '#' :: x :: digits =>
      if x = 'x' || x = 'X' then
        !digits.isEmpty && digits.length ≤ 6 && dropHex? digits.length digits = some []
      else (x :: digits).length ≤ 5 && (x :: digits).all Char.isDigit
    | name => !name.isEmpty && name.length ≤ 30 && name.all Char.isAlpha
  if known && body.length < t.length then some (t.drop (body.length + 1)) else none

/-- The text behind plain text and character references; an `&` by itself is a mistake. The
first argument bounds the number of references. -/
def afterPlainText? : Nat → Text → Option Text
  | 0, _ => none
  | n + 1, t =>
    match t.dropWhile fun ch => !"\x7b\x7d<>&".toList.contains ch with
    | '&' :: rest => (afterReference? rest).bind (afterPlainText? n)
    | rest => some rest

/-- What stands between an opening tag and its closing tag, from the `>` of the one to the `>`
of the other. -/
def children (g : Grammar) : Parser Unit := do
  discard <| many do
    let c ← get
    match afterPlainText? (c.after.length + 1) c.after with
    | some rest => resumeAt rest
    | none => failure
    match ← peek with
    | .sign ['{'] =>
      advance
      discard (acceptSign "...")
      if !(← atSign "\x7d") then
        discard (g.sequence .enclosed)
        if !(← atSign "\x7d") then failure
      return some ()
    | .sign ('<' :: _) =>
      let c ← get
      set (c.withSign 1)
      match (c.withSign 1).next.here with
      | '/' :: _ =>
        advance
        modify fun c => (c.withSign 1).next
        if !(← atSign ">") then
          qualifiedTagName
          if !(← atSign ">") then failure
        return none
      | _ =>
        g.element
        return some ()
    | _ => failure

/-- A whole element or a fragment, up to its last `>`. -/
def wholeElement (g : Grammar) : Parser Unit := do
  sign "<"
  if ← atSign ">" then g.children
  else
    qualifiedTagName
    discard (optional? g.typeArguments)
    g.attributes
    match (← get).here with
    | '/' :: _ =>
      modify fun c => (c.withSign 1).next
      if !(← atSign ">") then failure
    | '>' :: _ => g.children
    | _ => failure

end Disentangle.TypeScript.Grammar
