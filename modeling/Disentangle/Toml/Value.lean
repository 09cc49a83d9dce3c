import Disentangle.Text

/-!
The values of a TOML document: texts, numbers, booleans, dates and times, arrays and tables; and
why a document may have none.
-/

namespace Disentangle.Toml

/-- A number with a fraction or an exponent, or one of the numbers that are not finite. -/
inductive Real where
  /-- `digits` times ten to the power `exponent`. -/
  | finite (negative : Bool) (digits : Nat) (exponent : Int)
  | infinite (negative : Bool)
  | notANumber
  deriving DecidableEq, Repr

/-- The exponent of two at which the numbers end that a machine can tell from zero: a number
of at most two to the power `-smallestExponent` counts as zero. -/
def smallestExponent : Nat := 1075

/-- Whether a number is zero to a machine. A number whose first digit stands more than 400
places behind the point is. -/
def Real.isZero : Real → Bool
  | finite _ 0 _ => true
  | finite _ digits (.negSucc below) =>
    (Nat.toDigits 10 digits).length + 400 < below + 1 ||
      digits * Nat.pow 2 smallestExponent ≤ Nat.pow 10 (below + 1)
  | _ => false

/-- A day of the calendar. -/
structure Date where
  year : Nat
  month : Nat
  day : Nat
  deriving DecidableEq, Repr

/-- Whether a year has a 29th of February. -/
def Date.isLeapYear (year : Nat) : Bool :=
  year % 4 = 0 && (year % 100 ≠ 0 || year % 400 = 0)

def Date.daysOfMonth (year month : Nat) : Nat :=
  if month = 2 then (if isLeapYear year then 29 else 28)
  else if month = 4 ∨ month = 6 ∨ month = 9 ∨ month = 11 then 30
  else 31

/-- Whether a date is a day of the calendar, which begins with the year one. -/
def Date.isValid (date : Date) : Bool :=
  1 ≤ date.year && 1 ≤ date.month && date.month ≤ 12 && 1 ≤ date.day &&
    date.day ≤ daysOfMonth date.year date.month

/-- A time of the day, as precise as a microsecond. -/
structure Clock where
  hour : Nat
  minute : Nat
  second : Nat
  microsecond : Nat
  deriving DecidableEq, Repr

/-- A date, a time of the day, or both; both may come with the minutes by which the place is
ahead of universal time. -/
inductive Moment where
  | date (date : Date)
  | clock (clock : Clock)
  | both (date : Date) (clock : Clock) (ahead : Option Int)
  deriving DecidableEq, Repr

/-- A value of a document. The keys of a table are listed in the order of the document. -/
inductive Value where
  | text (t : Text)
  | integer (n : Int)
  | real (x : Real)
  | boolean (b : Bool)
  | moment (m : Moment)
  | array (items : List Value)
  | table (entries : List (Text × Value))

/-- The entries of a table: keys with their values. -/
abbrev Entries := List (Text × Value)

namespace Value

/-- Whether a value stands for nothing: an empty text, array or table, zero, or `false`. -/
def isBlank : Value → Bool
  | text t => t.isEmpty
  | integer n => n = 0
  | real x => x.isZero
  | boolean b => !b
  | moment _ => false
  | array items => items.isEmpty
  | table entries => entries.isEmpty

def get? (key : Text) : Value → Option Value
  | table entries => entries.lookup key
  | _ => none

def entries? : Value → Option Entries
  | table entries => some entries
  | _ => none

end Value

/-- Why the reading of a document stops. -/
inductive Stop where
  | malformed
  /-- An integer has more decimal digits than can be converted. -/
  | tooManyDigits
  /-- Values stand in each other so deep that the stack does not suffice for them. -/
  | tooDeep
  deriving DecidableEq, Repr

/-- What a reader of documents can cope with. -/
structure Limits where
  /-- The number of decimal digits that an integer may have. -/
  digits : Nat
  /-- Whether the stack does not suffice for the value at the front of a text, behind the brackets
  and braces that are open there, outer ones first. -/
  exhausted : Text → Text → Bool

/-- The result, or the stop of a document that is malformed. -/
def orMalformed {α : Type} : Option α → Except Stop α
  | some a => .ok a
  | none => .error .malformed

end Disentangle.Toml
