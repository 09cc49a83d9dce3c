import Disentangle.Toml.Value

/-!
How texts, keys, numbers, dates and times are written in a TOML document. Every function reads
something at the front of a text and returns it with what stands behind, or fails. Line breaks
are single line feeds.
-/

namespace Disentangle.Toml

def isBlankChar (c : Char) : Bool :=
  c = ' ' || c = '\t'

def isGapChar (c : Char) : Bool :=
  isBlankChar c || c = '\n'

/-- The text behind the spaces and tabs at its front. -/
def skipBlanks (t : Text) : Text :=
  t.dropWhile isBlankChar

/-- Control characters except tabs. They may stand nowhere in a line. -/
def isControl (c : Char) : Bool :=
  (c.toNat < 32 && c ≠ '\t') || c.toNat = 127

/-- Whether a character may stand in a text of one line or of several. -/
def isAllowed (multiline : Bool) (c : Char) : Bool :=
  !isControl c || (multiline && c = '\n')

/-- The text behind `head`, if it begins so. -/
def after? (head t : Text) : Option Text :=
  if head.isPrefixOf t then some (t.drop head.length) else none

/-! ### Texts -/

/-- The character with a hexadecimal number of `count` digits. -/
def readCodePoint (count : Nat) (t : Text) : Option (Char × Text) :=
  let digits := t.take count
  if digits.length = count ∧ digits.all isHexDigit then
    let n := digits.foldl (fun n d => n * 16 + hexValue d) 0
    if h : n.isValidChar then some (Char.ofNatAux n h, t.drop count) else none
  else none
where
  isHexDigit (c : Char) : Bool :=
    c.isDigit || ('a' ≤ c && c ≤ 'f') || ('A' ≤ c && c ≤ 'F')
  hexValue (c : Char) : Nat :=
    if c.isDigit then c.toNat - 48 else c.toLower.toNat - 87

/-- The character that an escape without a number stands for. -/
def escaped? : Char → Option Char
  | 'b' => some '\x08'
  | 't' => some '\t'
  | 'n' => some '\n'
  | 'f' => some '\x0c'
  | 'r' => some '\r'
  | '"' => some '"'
  | '\\' => some '\\'
  | _ => none

/-- What stands behind a backslash in a text between double quotes. In a text of several lines
a backslash at the end of a line takes away all gaps up to the next character. -/
def readEscape (multiline : Bool) : Text → Option (Text × Text)
  | [] => none
  | c :: rest =>
    if multiline ∧ isGapChar c then
      match if c = '\n' then c :: rest else skipBlanks rest with
      | [] => some ([], [])
      | d :: rest => if d = '\n' then some ([], rest.dropWhile isGapChar) else none
    else if c = 'u' then (readCodePoint 4 rest).map fun (d, rest) => ([d], rest)
    else if c = 'U' then (readCodePoint 8 rest).map fun (d, rest) => ([d], rest)
    else (escaped? c).map fun d => ([d], rest)

/-- The content of a text between double quotes, up to and without the quotes that close it.
The number bounds the steps. -/
def readBasic (multiline : Bool) (close : Text) : Nat → Text → Option (Text × Text)
  | 0, _ => none
  | n + 1, t =>
    match after? close t with
    | some rest => some ([], rest)
    | none =>
      match t with
      | [] => none
      | '\\' :: rest => do
        let (written, rest) ← readEscape multiline rest
        let (more, rest) ← readBasic multiline close n rest
        return (written ++ more, rest)
      | c :: rest =>
        if isAllowed multiline c then do
          let (more, rest) ← readBasic multiline close n rest
          return (c :: more, rest)
        else none

/-- The content of a text between single quotes, up to and without the quotes that close it. -/
def readLiteral (multiline : Bool) (close : Text) : Text → Option (Text × Text)
  | [] => none
  | c :: rest =>
    match after? close (c :: rest) with
    | some rest => some ([], rest)
    | none =>
      if isAllowed multiline c then
        (readLiteral multiline close rest).map fun (more, rest) => (c :: more, rest)
      else none

/-- A text of several lines. A line break at its front does not count, and of five quotes at its
end the first two belong to it. -/
def readLongText (quote : Char) (t : Text) : Option (Text × Text) := do
  let close := List.replicate 3 quote
  let content := (after? ['\n'] t).getD t
  let (written, rest) ←
    if quote = '"' then readBasic true close (content.length + 1) content
    else readLiteral true close content
  let extra := ((rest.take 2).takeWhile (· = quote)).length
  return (written ++ List.replicate extra quote, rest.drop extra)

/-- A text of one line, behind its first quote. -/
def readShortText (quote : Char) (t : Text) : Option (Text × Text) :=
  if quote = '"' then readBasic false [quote] (t.length + 1) t
  else readLiteral false [quote] t

/-- A text in quotes, behind its first quote. -/
def readQuoted (quote : Char) (t : Text) : Option (Text × Text) :=
  match after? [quote, quote] t with
  | some content => readLongText quote content
  | none => readShortText quote t

/-! ### Keys -/

/-- The characters of a key without quotes. -/
def isBareChar (c : Char) : Bool :=
  c.isAlphanum || c = '-' || c = '_'

def readKeyPart : Text → Option (Text × Text)
  | [] => none
  | c :: rest =>
    if isBareChar c then some ((c :: rest).takeWhile isBareChar, (c :: rest).dropWhile isBareChar)
    else if c = '"' || c = '\'' then readShortText c rest
    else none

/-- A key, whose parts stand between points, and the blanks behind it. The number bounds the
parts. -/
def readKeyFrom : Nat → Text → Option (List Text × Text)
  | 0, _ => none
  | n + 1, t => do
    let (part, rest) ← readKeyPart t
    match skipBlanks rest with
    | '.' :: rest =>
      let (more, rest) ← readKeyFrom n (skipBlanks rest)
      return (part :: more, rest)
    | rest => return ([part], rest)

def readKey (t : Text) : Option (List Text × Text) :=
  readKeyFrom (t.length + 1) t

/-! ### Numbers -/

/-- The digits that a test accepts, with single underscores between them, without the
underscores. There is at least one. -/
def readDigits (accepts : Char → Bool) : Text → Option (Text × Text)
  | [] => none
  | c :: rest => if accepts c then some (more c rest) else none
where
  more (c : Char) : Text → Text × Text
    | '_' :: d :: rest =>
      if accepts d then
        let (digits, rest) := more d rest
        (c :: digits, rest)
      else ([c], '_' :: d :: rest)
    | d :: rest =>
      if accepts d then
        let (digits, rest) := more d rest
        (c :: digits, rest)
      else ([c], d :: rest)
    | [] => ([c], [])

/-- The value of digits in a base up to sixteen. -/
def valueOf (base : Nat) (digits : Text) : Nat :=
  digits.foldl (fun n d => n * base + readCodePoint.hexValue d) 0

/-- The value of digits behind the mark of their base. -/
def readBased : Text → Option (Value × Text)
  | '0' :: mark :: rest =>
    let digits (base : Nat) (accepts : Char → Bool) : Option (Value × Text) :=
      (readDigits accepts rest).map fun (digits, rest) =>
        (.integer (valueOf base digits), rest)
    if mark = 'x' then digits 16 readCodePoint.isHexDigit
    else if mark = 'o' then digits 8 fun c => '0' ≤ c && c ≤ '7'
    else if mark = 'b' then digits 2 fun c => c = '0' || c = '1'
    else none
  | _ => none

/-- The sign at the front of a number: whether it is a minus. -/
def readSign : Text → Bool × Text
  | '-' :: rest => (true, rest)
  | '+' :: rest => (false, rest)
  | t => (false, t)

/-- The digits in front of the point: a zero, or digits that begin with another one. -/
def readWhole : Text → Option (Text × Text)
  | '0' :: rest => some (['0'], rest)
  | t => readDigits Char.isDigit t

/-- The digits behind a point, if there are any. -/
def readFraction (t : Text) : Option Text × Text :=
  match t with
  | '.' :: rest =>
    match readDigits Char.isDigit rest with
    | some (digits, rest) => (some digits, rest)
    | none => (none, t)
  | _ => (none, t)

def readExponent (t : Text) : Option Int × Text :=
  match t with
  | mark :: rest =>
    let (negative, rest) := readSign rest
    match readDigits Char.isDigit rest with
    | some (digits, rest) =>
      if mark = 'e' || mark = 'E' then
        let n : Int := valueOf 10 digits
        (some (if negative then -n else n), rest)
      else (none, t)
    | none => (none, t)
  | [] => (none, t)

/-- A number in decimal digits; one without a fraction and an exponent is an integer, which may not
have more than `maxDigits` of them. -/
def readDecimal (maxDigits : Nat) (t : Text) : Option (Except Stop Value × Text) := do
  let (negative, rest) := readSign t
  let (whole, rest) ← readWhole rest
  let (fraction, rest) := readFraction rest
  let (exponent, rest) := readExponent rest
  if fraction.isNone && exponent.isNone then
    let n : Int := valueOf 10 whole
    return (if maxDigits < whole.length then .error .tooManyDigits
      else .ok (.integer (if negative then -n else n)), rest)
  else
    let places := fraction.getD []
    let digits := valueOf 10 (whole ++ places)
    return (.ok (.real (.finite negative digits (exponent.getD 0 - places.length))), rest)

/-- A number that is not finite. -/
def readSpecial (t : Text) : Option (Value × Text) :=
  let (negative, rest) := readSign t
  match after? "inf".toList rest with
  | some rest => some (.real (.infinite negative), rest)
  | none => (after? "nan".toList rest).map fun rest => (.real .notANumber, rest)

def readNumber (maxDigits : Nat) (t : Text) : Except Stop (Value × Text) :=
  match readBased t, readDecimal maxDigits t with
  | some found, _ => .ok found
  | none, some (value, rest) => value.map (·, rest)
  | none, none => orMalformed (readSpecial t)

/-! ### Dates and times -/

/-- A number of exactly `count` digits between two bounds. -/
def readField (count low high : Nat) (t : Text) : Option (Nat × Text) :=
  let digits := t.take count
  let n := valueOf 10 digits
  if digits.length = count ∧ digits.all Char.isDigit ∧ low ≤ n ∧ n ≤ high then
    some (n, t.drop count)
  else none

/-- A number of exactly two digits between two bounds, behind a mark. -/
def readMarked (mark : Char) (low high : Nat) : Text → Option (Nat × Text)
  | c :: rest => if c = mark then readField 2 low high rest else none
  | [] => none

/-- The microseconds that a fraction of a second gives; further digits do not count. -/
def readMicroseconds (t : Text) : Nat × Text :=
  match t with
  | '.' :: rest =>
    let digits := rest.takeWhile Char.isDigit
    if digits.isEmpty then (0, t)
    else (valueOf 10 ((digits ++ List.replicate 6 '0').take 6), rest.dropWhile Char.isDigit)
  | _ => (0, t)

def readClock (t : Text) : Option (Clock × Text) := do
  let (hour, rest) ← readField 2 0 23 t
  let (minute, rest) ← readMarked ':' 0 59 rest
  let (second, rest) ← readMarked ':' 0 59 rest
  let (microsecond, rest) := readMicroseconds rest
  return (⟨hour, minute, second, microsecond⟩, rest)

/-- A date as it is written; it may be missing in the calendar. -/
def readDate (t : Text) : Option (Date × Text) := do
  let (year, rest) ← readField 4 0 9999 t
  let (month, rest) ← readMarked '-' 1 12 rest
  let (day, rest) ← readMarked '-' 1 31 rest
  return (⟨year, month, day⟩, rest)

/-- How far a place is ahead of universal time, if it is said. -/
def readAhead (t : Text) : Option Int × Text :=
  match t with
  | c :: rest =>
    if c = 'Z' || c = 'z' then (some 0, rest)
    else if c = '+' || c = '-' then
      match minutes rest with
      | some (n, rest) => (some (if c = '-' then -n else n), rest)
      | none => (none, t)
    else (none, t)
  | [] => (none, t)
where
  minutes (t : Text) : Option (Nat × Text) := do
    let (hour, rest) ← readField 2 0 23 t
    let (minute, rest) ← readMarked ':' 0 59 rest
    return (hour * 60 + minute, rest)

/-- The time of the day behind a date, if there is one. -/
def readClockBehind : Text → Option (Clock × Text)
  | c :: rest => if c = 'T' || c = 't' || c = ' ' then readClock rest else none
  | [] => none

/-- A date, a time of the day, or both. The first result is missing where neither is written, the
second one where a date is written that the calendar does not have. -/
def readMoment? (t : Text) : Option (Option (Value × Text)) :=
  match readDate t with
  | some (date, rest) =>
    let found : Moment × Text :=
      match readClockBehind rest with
      | some (clock, rest) =>
        let (ahead, rest) := readAhead rest
        (.both date clock ahead, rest)
      | none => (.date date, rest)
    some (if date.isValid then some (.moment found.1, found.2) else none)
  | none => (readClock t).map fun (clock, rest) => some (.moment (.clock clock), rest)

end Disentangle.Toml
