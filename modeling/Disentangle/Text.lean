/-!
Texts are lists of code points, so that every position is a count of code points and every cut
is a `take` or a `drop`. This module holds the few operations on texts that the rest of the
library shares: splitting and joining at a separator, searching from either end, and decimal
numerals.
-/

namespace Disentangle

/-- A text is the list of its code points. -/
abbrev Text := List Char

namespace Text

/-- The pieces of a text between the separators; there is always one piece more than
there are separators. -/
def pieces (separator : Char) : Text → List Text
  | [] => [[]]
  | c :: rest =>
    if c = separator then [] :: pieces separator rest
    else match pieces separator rest with
      | [] => [[c]]
      | piece :: more => (c :: piece) :: more

/-- The texts one after another with `separator` between neighbours. -/
def join (separator : Text) : List Text → Text
  | [] => []
  | [t] => t
  | t :: rest => t ++ separator ++ join separator rest

/-- The position of the first occurrence of `pattern` in a text. -/
def positionOf? (pattern : Text) : Text → Option Nat
  | [] => if pattern.isEmpty then some 0 else none
  | c :: rest =>
    if pattern.isPrefixOf (c :: rest) then some 0
    else (positionOf? pattern rest).map (· + 1)

/-- The position of the last occurrence of `pattern` in a text. -/
def lastPositionOf? (pattern : Text) : Text → Option Nat
  | [] => if pattern.isEmpty then some 0 else none
  | c :: rest =>
    match lastPositionOf? pattern rest with
    | some n => some (n + 1)
    | none => if pattern.isPrefixOf (c :: rest) then some 0 else none

/-- The text between two positions. -/
def slice (start stop : Nat) (t : Text) : Text :=
  (t.drop start).take (stop - start)

def endsWith (t tail : Text) : Bool :=
  tail.isSuffixOf t

def startsWith (t head : Text) : Bool :=
  head.isPrefixOf t

/-- The order by code points, first difference first. -/
def le (s t : Text) : Bool :=
  match s, t with
  | [], _ => true
  | _ :: _, [] => false
  | a :: s, b :: t => if a = b then le s t else a.val ≤ b.val

def decimal (n : Nat) : Text :=
  Nat.toDigits 10 n

/-- The text with every piece equal to `old` exchanged for `new`. -/
def replaceChar (old new : Char) (t : Text) : Text :=
  t.map fun c => if c = old then new else c

end Text

end Disentangle
