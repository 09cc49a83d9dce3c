import Disentangle.Text

/-!
A source cut into consecutive sections: comments with the blanks around them, import statements,
and code. The cut is lexical. It knows blanks, the two kinds of comments, quoted literals with
backslash escapes, and lines that begin with `import `; it needs no grammar and accepts every
text. Each scanner gives back what it has passed and what is left, so the sections of a text are
the text itself, cut into pieces.
-/

namespace Disentangle

inductive SectionKind where
  /-- Blanks and comments. -/
  | comment
  /-- An import statement with the line breaks behind it. -/
  | imports
  | code
  deriving DecidableEq, Repr

/-- A section: a piece of a text and its kind. -/
structure Section where
  kind : SectionKind
  text : Text
  deriving DecidableEq, Repr

namespace Section

/-- The word with which an import statement begins, together with the blank behind it. -/
def importMark : Text := "import ".toList

/-- The characters that end a line. -/
def isLineBreak (c : Char) : Bool := c = '\r' || c = '\n'

/-- The characters between sections. -/
def isSpace (c : Char) : Bool :=
  c = ' ' || c = '\t' || c = '\r' || c = '\n' || c = '\uFEFF'

/-- The characters that open and close a literal. -/
def isQuote (c : Char) : Bool := c = '\'' || c = '"' || c = '`'

/-- Whether a comment begins at the front of a text. -/
def opensComment : Text → Bool
  | '/' :: '/' :: _ | '/' :: '*' :: _ => true
  | _ => false

/-- The state inside a literal: the quote that closes it, and whether the next character is
escaped. -/
structure Literal where
  quote : Char
  escaped : Bool

/-- The state of a literal after one more character, or none if that character closes it. -/
def Literal.step (literal : Literal) (c : Char) : Option Literal :=
  if literal.escaped then some { literal with escaped := false }
  else if c = '\\' then some { literal with escaped := true }
  else if c = literal.quote then none
  else some literal

/-- The state after a character outside of literals. -/
def literalAt? (c : Char) : Option Literal :=
  if isQuote c then some ⟨c, false⟩ else none

/-- Where a scanner of comments is. -/
inductive CommentState where
  | between
  | inLine
  | inBlock

/-- The blanks and comments at the front of a text, and the rest. A comment that does not end
goes on to the end of the text. -/
def commentSpan : CommentState → Text → Text × Text
  | _, [] => ([], [])
  | .inBlock, '*' :: '/' :: rest =>
    let (passed, left) := commentSpan .between rest
    ('*' :: '/' :: passed, left)
  | .inBlock, c :: rest =>
    let (passed, left) := commentSpan .inBlock rest
    (c :: passed, left)
  | .inLine, c :: rest =>
    let (passed, left) := commentSpan (if isLineBreak c then .between else .inLine) rest
    (c :: passed, left)
  | .between, '/' :: '/' :: rest =>
    let (passed, left) := commentSpan .inLine rest
    ('/' :: '/' :: passed, left)
  | .between, '/' :: '*' :: rest =>
    let (passed, left) := commentSpan .inBlock rest
    ('/' :: '*' :: passed, left)
  | .between, c :: rest =>
    if isSpace c then
      let (passed, left) := commentSpan .between rest
      (c :: passed, left)
    else ([], c :: rest)

/-- The code at the front of a text, and the rest. Code ends before a comment, and,
where `atLineStart` says that a line begins, before an import statement. -/
def codeSpan : Option Literal → Bool → Text → Text × Text
  | _, _, [] => ([], [])
  | some literal, _, c :: rest =>
    let (passed, left) := codeSpan (literal.step c) false rest
    (c :: passed, left)
  | none, atLineStart, c :: rest =>
    if (atLineStart && importMark.isPrefixOf (c :: rest)) || opensComment (c :: rest) then
      ([], c :: rest)
    else
      let (passed, left) := codeSpan (literalAt? c) (isLineBreak c) rest
      (c :: passed, left)

/-- Where a scanner of import statements is. -/
inductive ImportState where
  | plain
  | inLiteral (literal : Literal)
  | inLine
  | inBlock

/-- The line breaks at the front of a text, and the rest. -/
def breakSpan (t : Text) : Text × Text :=
  (t.takeWhile isLineBreak, t.dropWhile isLineBreak)

/-- The import statement at the front of a text, and the rest. The statement ends with the first
line that closes as many braces as are open, and takes the line breaks behind that line with
it. -/
def importSpan : ImportState → Int → Text → Text × Text
  | _, _, [] => ([], [])
  | .inLiteral literal, depth, c :: rest =>
    let (passed, left) := importSpan (match literal.step c with
      | some literal => .inLiteral literal
      | none => .plain) depth rest
    (c :: passed, left)
  | .inBlock, depth, '*' :: '/' :: rest =>
    let (passed, left) := importSpan .plain depth rest
    ('*' :: '/' :: passed, left)
  | .inBlock, depth, c :: rest =>
    let (passed, left) := importSpan .inBlock depth rest
    (c :: passed, left)
  | .plain, depth, '/' :: '/' :: rest =>
    let (passed, left) := importSpan .inLine depth rest
    ('/' :: '/' :: passed, left)
  | .plain, depth, '/' :: '*' :: rest =>
    let (passed, left) := importSpan .inBlock depth rest
    ('/' :: '*' :: passed, left)
  | state, depth, c :: rest =>
    if isLineBreak c then
      if depth ≤ 0 then breakSpan (c :: rest)
      else
        let (passed, left) := importSpan .plain depth rest
        (c :: passed, left)
    else
      let (passed, left) := match state with
        | .inLine => importSpan .inLine depth rest
        | _ =>
          importSpan (if isQuote c then .inLiteral ⟨c, false⟩ else .plain)
            (if c = '{' then depth + 1 else if c = '}' then depth - 1 else depth) rest
      (c :: passed, left)

/-- The section at the front of a text that begins with `c`, and the rest. -/
def first (c : Char) (rest : Text) : Section × Text :=
  if isSpace c || opensComment (c :: rest) then
    let (passed, left) := commentSpan .between (c :: rest)
    (⟨.comment, passed⟩, left)
  else if importMark.isPrefixOf (c :: rest) then
    let (passed, left) := importSpan .plain 0 rest
    (⟨.imports, c :: passed⟩, left)
  else
    let (passed, left) := codeSpan (literalAt? c) (isLineBreak c) rest
    (⟨.code, c :: passed⟩, left)

/-- The sections of a text, at most `n` of them. -/
def cut : Nat → Text → List Section
  | 0, _ => []
  | _, [] => []
  | n + 1, c :: rest =>
    let (found, left) := first c rest
    found :: cut n left

end Section

/-- The sections of a text. Each has at least one character, so there are no more of them than
characters. -/
def Text.sections (t : Text) : List Section :=
  Section.cut t.length t

/-- Sections with the number of characters before each. -/
def Section.positioned (start : Nat) : List Section → List (Nat × Section)
  | [] => []
  | s :: rest => (start, s) :: positioned (start + s.text.length) rest

end Disentangle
