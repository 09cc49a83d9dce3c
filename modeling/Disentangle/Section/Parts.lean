import Disentangle.Section.Basic

/-!
The three parts of a source, header, imports and body, and the regrouping of a source so that
its imports stand together.
-/

namespace Disentangle

structure Parts where
  /-- The comments before the first import and the first code. -/
  header : Text
  /-- All import statements. -/
  imports : Text
  /-- Everything else. -/
  body : Text
  deriving DecidableEq, Repr

namespace Parts

/-- The three parts that sections fall into, with `edit` applied to the position and the text
of every import statement. -/
def ofSections (edit : Nat → Text → Text) (sections : List (Nat × Section)) : Parts :=
  let isComment (s : Nat × Section) : Bool := s.2.kind = .comment
  let isImport (s : Nat × Section) : Bool := s.2.kind = .imports
  let rest := sections.dropWhile isComment
  { header := (sections.takeWhile isComment).flatMap (·.2.text)
    imports := (rest.filter isImport).flatMap fun s => edit s.1 s.2.text
    body := (rest.filter (!isImport ·)).flatMap (·.2.text) }

def whole (parts : Parts) : Text :=
  parts.header ++ parts.imports ++ parts.body

end Parts

namespace Text

/-- The three parts of a text, with every import statement edited. -/
def partsWith (edit : Nat → Text → Text) (t : Text) : Parts :=
  .ofSections edit (Section.positioned 0 t.sections)

def parts (t : Text) : Parts :=
  t.partsWith fun _ written => written

def endsLine (t : Text) : Bool :=
  match t.getLast? with
  | some c => Section.isLineBreak c
  | none => false

/-- The text `t` with a line break at its end, unless it is empty, ends with one already, or
nothing follows it. -/
def closeLine (t following : Text) : Text :=
  if t.isEmpty || following.isEmpty || t.endsLine then t else t ++ ['\n']

/-- A source with its import statements moved to its top, in their order. -/
def hoistImports (t : Text) : Text :=
  let isImport (s : Section) : Bool := s.kind = .imports
  let imports := (t.sections.filter isImport).flatMap (·.text)
  let rest := (t.sections.filter (!isImport ·)).flatMap (·.text)
  closeLine imports rest ++ rest

end Text

end Disentangle
