import Disentangle.TypeScript.Cursor

/-!
The grammar's knots. Expressions, types, patterns and statements contain each other, so every
reader of a construct takes a `Grammar`, the readers of the constructs that may stand inside it.
The module `Disentangle.TypeScript.Source` ties the knot to a bounded depth.

Only what decides about exports, imports and load order is kept of a source: an expression
keeps its names, members, calls, lists and objects, everything else is `other`.
-/

namespace Disentangle.TypeScript

mutual

/-- An expression, as far as the bindings it reads at load time are concerned. -/
inductive Expression where
  | name (name : Text)
  | member (object : Expression)
  | call (callee : Expression) (arguments : List Expression)
  /-- A template with a tag; what the template substitutes is not kept. -/
  | tagged (tag : Expression)
  | construct (constructor : Expression) (arguments : List Expression)
  | array (elements : List Expression)
  | object (properties : List Property)
  | other

/-- A property of an object expression. -/
inductive Property where
  | pair (value : Expression)
  | shorthand (name : Text)
  /-- A method, an accessor or a spread. -/
  | other

end

/-- Where an expression stands. -/
structure Place where
  /-- A line break may end the statement here. -/
  lineEnds : Bool
  /-- `in` is an operator here, and not the middle of a loop's head. -/
  allowsIn : Bool
  /-- A colon after a parameter list belongs to a conditional expression here. -/
  beforeColon : Bool

namespace Place

/-- Directly inside a statement. -/
def statement : Place := ⟨true, true, false⟩

/-- Between brackets. -/
def enclosed : Place := ⟨false, true, false⟩

end Place

/-- The readers of the constructs that may stand inside another one. -/
structure Grammar where
  /-- Whether JSX elements are expressions; if not, `<T>` before an expression asserts its
  type. -/
  jsx : Bool
  /-- An expression without commas at its top. -/
  expression : Place → Parser Expression
  /-- An operand with its unary operators. -/
  operand : Place → Parser Expression
  /-- What a class extends, with its type arguments. -/
  heritage : Parser Expression
  type : Parser Unit
  /-- A binding: a name or a pattern. -/
  binding : Parser Unit
  statement : Parser Unit
  /-- A JSX element from its `<` on. The cursor is left at its last `>`, because the text behind
  it is read differently inside another element. -/
  element : Parser Unit

def Grammar.empty (jsx : Bool) : Grammar :=
  ⟨jsx, fun _ => failure, fun _ => failure, failure, failure, failure, failure, failure⟩

namespace Grammar

/-- Expressions with commas between them; the value is that of a single one. -/
def sequence (g : Grammar) (place : Place) : Parser Expression := do
  match ← Parser.sepBy1 "," (g.expression place) with
  | [e] => return e
  | _ => return .other

end Grammar

namespace Parser

/-- Whether the next tokens up to the bracket that closes the one here are followed by one of
the signs `follow`. Nothing is known where the tokens in between cannot be told apart without
the grammar. -/
def closesBefore? (follow : List String) : Parser (Option Bool) := do
  let depth := fun (c : Cursor) (open' : Nat) => match c.token with
    | .sign s =>
      if ["(", "[", "\x7b"].contains (String.ofList s) then open' + 1
      else if [")", "]", "\x7d"].contains (String.ofList s) then open' - 1
      else open'
    | _ => open'
  let c ← get
  return go depth (c.here.length + 1) c 0
where
  go (depth : Cursor → Nat → Nat) : Nat → Cursor → Nat → Option Bool
    | 0, _, _ => none
    | n + 1, c, level =>
      let level := depth c level
      match c.token with
      | .unknown | .finish => none
      | .template false => none
      | .sign ['/'] => none
      | _ =>
        if level = 0 then
          some (follow.any fun s => c.next.token = .sign s.toList)
        else go depth n c.next level

/-- Whether a text on a new line continues the statement before it. After an expression a
parenthesis or a bracket does; of the words, only the operators `in` and `instanceof` do. -/
def continuesLine (afterExpression : Bool) : Text → Bool
  | '(' :: _ | '[' :: _ => afterExpression
  | '+' :: rest => rest.head? ≠ some '+'
  | '-' :: rest => rest.head? ≠ some '-'
  | '!' :: rest => rest.head? = some '='
  | 'i' :: 'n' :: 's' :: 't' :: 'a' :: 'n' :: 'c' :: 'e' :: 'o' :: 'f' :: rest =>
    !(rest.head?.map Char.isAlpha).getD false
  | 'i' :: 'n' :: rest => !(rest.head?.map Char.isAlpha).getD false
  | c :: _ => "`,.;*%><=?^|&/:".toList.contains c
  | [] => false

/-- Whether a statement may end here without a semicolon: at the end of the text, before a
closing brace, or at a line break unless the new line continues the statement. -/
def atStatementEnd (afterExpression : Bool) : Parser Bool := do
  let c ← get
  match c.token with
  | .finish => return true
  | .sign ['}'] => return true
  | _ => return c.fresh && !continuesLine afterExpression c.here

/-- Ends a statement, with a semicolon or without one. -/
def statementEnd (afterExpression : Bool) : Parser Unit := do
  if ← acceptSign ";" then return
  if !(← atStatementEnd afterExpression) then failure

end Parser

end Disentangle.TypeScript
