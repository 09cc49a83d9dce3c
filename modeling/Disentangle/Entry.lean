import Disentangle.Event

/-!
The entry file of a program requires the index. The statement stands between two marker lines;
what is between them belongs to this program, everything else in the file does not.
-/

namespace Disentangle.Entry

/-- The mark of the line before the statement. -/
def beginMark : Text := "[tsunravel.safeguard.begin]".toList

/-- The mark of the line behind the statement. -/
def endMark : Text := "[tsunravel.safeguard.end]".toList

/-- The statement that requires the module at `path`. -/
def statement (path : Text) : Text :=
  "require('".toList ++ path ++ "');\n".toList

/-- A block with the statement between marker lines. -/
def block (path : Text) : Text :=
  "// ".toList ++ beginMark ++ '\n' :: statement path ++ "// ".toList ++ endMark ++ ['\n']

/-- What the marks in an entry file look like. -/
inductive Marks where
  | missing
  /-- No mark at the end follows the one at the beginning. -/
  | unclosed
  | onOneLine
  /-- The text up to the end of the line of the first mark, and the text from the beginning of
  the line of the last one. -/
  | around (before after : Text)

def marks (text : Text) : Marks :=
  match Text.positionOf? beginMark text with
  | none => .missing
  | some start =>
    let inside := start + beginMark.length
    match Text.positionOf? endMark (text.drop inside) with
    | none => .unclosed
    | some width =>
      let between := (text.drop inside).take width
      let lastLine := (between.reverse.takeWhile (· ≠ '\n')).reverse
      if between.contains '\n' then
        .around
          (text.take (inside + (between.takeWhile (· ≠ '\n')).length + 1))
          (text.drop (inside + width - lastLine.length))
      else .onOneLine

/-- The entry file with the statement that requires the module at `path`: in place of the lines
between the marks, or in a new block at its top. -/
def requiring (text path : Text) : Text :=
  match marks text with
  | .around before after => before ++ statement path ++ after
  | _ => block path ++ text

/-- What there is to tell about the marks of an entry file. -/
def events (text : Text) : List Event :=
  match marks text with
  | .unclosed => [.endMarkerMissing]
  | .onOneLine => [.markersShareLine]
  | _ => []

end Disentangle.Entry
