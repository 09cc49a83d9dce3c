import Disentangle.TypeScript.Statement

/-!
Whole sources. Here the grammar's knot is tied: constructs may be nested to a depth that no text
of a given length can exceed. A source is read statement by statement, each one from the end of
the one before, so statements are disjoint and in order by construction. How a statement is read
depends on nothing but the text from its first token on.
-/

namespace Disentangle.TypeScript

/-- The grammar for constructs nested at most `depth` deep. -/
def Grammar.ofDepth (jsx : Bool) : Nat → Grammar
  | 0 => .empty jsx
  | depth + 1 =>
    { jsx := jsx
      expression := fun place c => (ofDepth jsx depth).wholeExpression place c
      operand := fun place c => ((ofDepth jsx depth).unary place c).map fun (e, c) => (e.value, c)
      heritage := fun c => (ofDepth jsx depth).wholeHeritage c
      type := fun c => (ofDepth jsx depth).wholeType c
      binding := fun c => (ofDepth jsx depth).wholeBinding c
      statement := fun c => ((ofDepth jsx depth).wholeStatement c).map fun (_, c) => ((), c)
      element := fun c => (ofDepth jsx depth).wholeElement c }

/-- A grammar deep enough for a text: constructs that begin at one place nest at most a fixed
number of times before a character is read. -/
def Grammar.deepEnough (jsx : Bool) (t : Text) : Grammar :=
  ofDepth jsx (8 * t.length + 64)

/-- A statement and the range of the text it takes up. -/
structure Located where
  start : Nat
  stop : Nat
  statement : Statement

/-- The end of a statement that begins `here` and has been read up to the cursor `c`. An import
without a semicolon includes the comments behind it on its last line. -/
def statementStop (here : Text) (c : Cursor) : Statement → Nat
  | .imports _ =>
    if (here.drop (c.previousStop - 1)).head? = some ';' then c.previousStop
    else c.previousStop + trailingComments (c.gap.length + 1) c.gap
  | _ => c.previousStop

/-- The statement that begins `here`, and the number of characters that it takes up. -/
def readStatement (jsx : Bool) (here : Text) : Option (Statement × Nat) :=
  match (Grammar.deepEnough jsx here).wholeStatement (Cursor.reading 0 here) with
  | none => none
  | some (statement, c) => some (statement, statementStop here c statement)

/-- What has been read of a source: its statements, and whether they are all of it. -/
structure Reading where
  statements : List Located
  complete : Bool

/-- The statements of the text `t`, which begins after `position` characters, at most `n` of them,
up to the first mistake. -/
def readFrom (jsx : Bool) : Nat → Nat → Text → Reading
  | 0, _, _ => ⟨[], false⟩
  | n + 1, position, t =>
    let here := (skipTrivia t.length.succ false t).2
    let start := position + (t.length - here.length)
    if here = [] then ⟨[], true⟩
    else match readStatement jsx here with
      | none | some (_, 0) => ⟨[], false⟩
      | some (statement, width) =>
        let rest := readFrom jsx n (start + width) (here.drop width)
        ⟨⟨start, start + width, statement⟩ :: rest.statements, rest.complete⟩

/-- The offset at which statements begin: behind a line that names an interpreter. -/
def bodyStart (text : Text) : Nat :=
  let c := Cursor.reading 0 text
  match c.here with
  | '#' :: '!' :: rest => c.start + 2 + (rest.takeWhile fun ch => !isLineEnd ch).length
  | _ => 0

/-- The statements at the top of a source. -/
def readSource (jsx : Bool) (text : Text) : Reading :=
  readFrom jsx (text.length + 1) (bodyStart text) (text.drop (bodyStart text))

/-- The statements at the top of a source, or none if the source is malformed. -/
def statements? (jsx : Bool) (text : Text) : Option (List Located) :=
  let reading := readSource jsx text
  if reading.complete then some reading.statements else none

/-- Files of this kind are read with JSX elements. -/
def usesJsx (path : Text) : Bool :=
  path.endsWith ".tsx".toList

end Disentangle.TypeScript
