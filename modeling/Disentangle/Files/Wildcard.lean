import Disentangle.Text

/-!
Patterns for names: `*` stands for any text, `?` for any character, `[abc]`, `[a-c]` and `[!abc]`
for one character inside or outside a set. Everything else stands for itself, also a bracket
that is not closed.
-/

namespace Disentangle

/-- One part of a pattern. -/
inductive Wildcard where
  | anyText
  | anyChar
  | literal (c : Char)
  /-- A character that is one of `singles` or in one of `ranges`, or that is not. -/
  | oneOf (negated : Bool) (singles : List Char) (ranges : List (Char × Char))
  deriving Repr

namespace Wildcard

/-- Whether a part that stands for one character fits `c`. -/
def fits : Wildcard → Char → Bool
  | anyText, _ => false
  | anyChar, _ => true
  | literal d, c => c = d
  | oneOf negated singles ranges, c =>
    (singles.contains c || ranges.any fun (low, high) => low ≤ c && c ≤ high) != negated

/-- A text and all texts that remain when characters are taken from its front. -/
def suffixes : Text → List Text
  | [] => [[]]
  | c :: rest => (c :: rest) :: suffixes rest

/-- Whether a pattern fits a whole text. -/
def fitsAll : List Wildcard → Text → Bool
  | [], t => t.isEmpty
  | anyText :: rest, t => (suffixes t).any (fitsAll rest)
  | _ :: _, [] => false
  | part :: rest, c :: t => part.fits c && fitsAll rest t

/-- The content of a set cut at the hyphens that make ranges. A hyphen at the front or behind the
end of a range stands for itself. `taken` are the characters since the last cut, in reverse
order; the number says how many characters cannot be a cut. -/
def cutAtHyphens (taken : Text) : Nat → Text → List Text
  | _, [] => [taken.reverse]
  | kept + 1, c :: rest => cutAtHyphens (c :: taken) kept rest
  | 0, c :: rest =>
    if c = '-' then taken.reverse :: cutAtHyphens [] 2 rest
    else cutAtHyphens (c :: taken) 0 rest

/-- Joins an empty last piece to the one before it as a hyphen. -/
def closeHyphens : List Text → List Text
  | [] => []
  | [piece, []] => [piece ++ ['-']]
  | piece :: rest => piece :: closeHyphens rest

/-- Joins pieces between which an empty range stands: both ends of the range are dropped. -/
def dropEmptyRanges : List Text → List Text
  | [] => []
  | piece :: rest =>
    match dropEmptyRanges rest with
    | [] => [piece]
    | next :: more =>
      match piece.getLast?, next.head? with
      | some low, some high =>
        if high < low then (piece.dropLast ++ next.tail) :: more else piece :: next :: more
      | _, _ => piece :: next :: more

/-- The ranges between neighbouring pieces. -/
def rangesOf : List Text → List (Char × Char)
  | piece :: next :: rest =>
    match piece.getLast?, next.head? with
    | some low, some high => (low, high) :: rangesOf (next :: rest)
    | _, _ => rangesOf (next :: rest)
  | _ => []

/-- The set that the text between brackets stands for. An exclamation mark at its front negates
it. A set that is empty fits nothing, and its negation everything. -/
def setOf (content : Text) : Wildcard :=
  let kept := if content.head? = some '!' then 2 else 1
  match dropEmptyRanges (closeHyphens (cutAtHyphens [] kept content)) with
  | [['!']] => anyChar
  | ('!' :: piece) :: rest => oneOf true ((piece :: rest).flatMap id) (rangesOf (piece :: rest))
  | pieces => oneOf false (pieces.flatMap id) (rangesOf pieces)

/-- The number of characters between a bracket and the bracket that closes it. A closing bracket
at the front of the set belongs to the set. -/
def setLength? (t : Text) : Option Nat :=
  let mark := if t.head? = some '!' then 1 else 0
  let first := if (t.drop mark).head? = some ']' then mark + 1 else mark
  let rest := t.drop first
  if rest.contains ']' then some (first + (rest.takeWhile (· ≠ ']')).length) else none

/-- The parts of a pattern, at most `n` of them. -/
def parse : Nat → Text → List Wildcard
  | 0, _ => []
  | _, [] => []
  | n + 1, c :: rest =>
    if c = '*' then anyText :: parse n rest
    else if c = '?' then anyChar :: parse n rest
    else if c = '[' then
      match setLength? rest with
      | some length => setOf (rest.take length) :: parse n (rest.drop (length + 1))
      | none => literal c :: parse n rest
    else literal c :: parse n rest

/-- Whether the pattern `pattern` fits the whole of `t`. -/
def matchesText (pattern t : Text) : Bool :=
  fitsAll (parse pattern.length pattern) t

end Wildcard

end Disentangle
