import Disentangle.Failure
import Disentangle.Section.Basic

/-!
Cutting a text with a check that the scanners get on. Whatever stands at the front of a text is
given to the scanner of comments, of imports or of code; where this passes over nothing the text
cannot be cut further, and that is a failure.
-/

namespace Disentangle.Section

/-- The section which the scanners find at the front of a text that begins with `c`, and the rest.
A slash is given to the scanner of comments first. The section is empty where the scanner in charge
does not get on. -/
def attempt (c : Char) (rest : Text) : Section × Text :=
  let found (kind : SectionKind) (span : Text × Text) : Section × Text := (⟨kind, span.1⟩, span.2)
  let comments := commentSpan .between (c :: rest)
  if isSpace c then found .comment comments
  else if importMark.isPrefixOf (c :: rest) then
    found .imports (importSpan .plain 0 (c :: rest))
  else if c = '/' ∧ comments.1 ≠ [] then found .comment comments
  else found .code (codeSpan none true (c :: rest))

/-- The failure of the source at `path`, of which no scanner passes over what stands at
`offset`. -/
def stuck (path : Option Text) (offset : Nat) : Failure :=
  .malformed path ("scanner made no progress at offset ".toList ++ Text.decimal offset)

/-- The sections of what stands behind `start` characters of the source at `path`, each with the
number of characters before it. -/
def scan (path : Option Text) (start : Nat) : Text → Except Failure (List (Nat × Section))
  | [] => .ok []
  | c :: rest =>
    let found := (attempt c rest).1
    if (attempt c rest).2.length < (c :: rest).length then
      (scan path (start + found.text.length) (attempt c rest).2).map ((start, found) :: ·)
    else .error (stuck path start)
termination_by t => t.length
decreasing_by assumption

end Disentangle.Section
