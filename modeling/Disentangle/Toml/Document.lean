import Disentangle.Toml.Literal

/-!
TOML documents: values with arrays and inline tables, and the lines that put them into tables.
A table may be opened by a header once; what an inline table or an array holds cannot be changed
from outside; no key is given a value twice.
-/

namespace Disentangle.Toml

/-- The text behind a comment, if it begins with one. -/
def skipComment : Text → Option Text
  | '#' :: rest =>
    if (rest.takeWhile (· ≠ '\n')).any isControl then none
    else some (rest.dropWhile (· ≠ '\n'))
  | t => some t

/-- The text behind gaps and comments. The number bounds the comments. -/
def skipGaps : Nat → Text → Option Text
  | 0, t => some t
  | n + 1, t =>
    match t.dropWhile isGapChar with
    | '#' :: rest => (skipComment ('#' :: rest)).bind (skipGaps n)
    | rest => some rest

/-! ### Tables -/

/-- Entries with the value at a key set. -/
def setEntry (key : Text) (value : Value) : Entries → Entries
  | [] => [(key, value)]
  | (k, old) :: rest => if k = key then (k, value) :: rest else (k, old) :: setEntry key value rest

/-- Entries with the table at a path changed by `edit`. Missing tables on the way are made; where
`entersArrays` says so, the way goes into the last table of an array. -/
def editAt (entersArrays : Bool) (edit : Entries → Option Entries) :
    List Text → Entries → Option Entries
  | [], entries => edit entries
  | key :: rest, entries =>
    match entries.lookup key with
    | none => (editAt entersArrays edit rest []).map fun inner =>
        setEntry key (.table inner) entries
    | some (.table inner) => (editAt entersArrays edit rest inner).map fun inner =>
        setEntry key (.table inner) entries
    | some (.array items) =>
      match if entersArrays then items.getLast? else none with
      | some (.table inner) => (editAt entersArrays edit rest inner).map fun inner =>
          setEntry key (.array (items.dropLast ++ [.table inner])) entries
      | _ => none
    | some _ => none

/-- Entries with a value for one more key. -/
def addEntry (key : Text) (value : Value) (entries : Entries) : Option Entries :=
  if (entries.lookup key).isSome then none else some (entries ++ [(key, value)])

/-- Entries with one more empty table at the end of the array at a key. -/
def addTable (key : Text) (entries : Entries) : Option Entries :=
  match entries.lookup key with
  | none => some (entries ++ [(key, .array [.table []])])
  | some (.array items) => some (setEntry key (.array (items ++ [.table []])) entries)
  | some _ => none

def lastPart (key : List Text) : Text :=
  key.getLastD []

/-- Whether a value holds others. -/
def holdsOthers : Value → Bool
  | .array _ | .table _ => true
  | _ => false

/-! ### Values -/

/-- An inline table with one more entry. `closed` are the keys whose values hold others; nothing
below them can be added. -/
def addInline (closed : List (List Text)) (key : List Text) (value : Value) (entries : Entries) :
    Option Entries :=
  if closed.any fun other => other.isPrefixOf key then none
  else editAt false (addEntry (lastPart key) value) key.dropLast entries

/-- The equals sign behind a key, with the blanks behind it. -/
def skipEquals : Text → Option Text
  | '=' :: rest => some (skipBlanks rest)
  | _ => none

mutual

/-- A value, behind the brackets and braces `outer` that are open. The number bounds the depth and
the number of values. -/
def readValue (limits : Limits) : Nat → Text → Text → Except Stop (Value × Text)
  | 0, _, _ => .error .malformed
  | n + 1, outer, t =>
    if limits.exhausted outer t then .error .tooDeep
    else match t with
      | [] => .error .malformed
      | c :: rest =>
        if c = '"' || c = '\'' then
          (orMalformed (readQuoted c rest)).map fun (t, rest) => (.text t, rest)
        else if c = '[' then do
          let (items, rest) ← readItems limits n (outer ++ [c]) (← orMalformed (skipGaps n rest))
          return (.array items, rest)
        else if c = '{' then do
          let (entries, rest) ←
            match skipBlanks rest with
            | '}' :: rest => .ok ([], rest)
            | rest => readInline limits n (outer ++ [c]) [] [] rest
          return (.table entries, rest)
        else
          match after? "true".toList (c :: rest), after? "false".toList (c :: rest) with
          | some rest, _ => .ok (.boolean true, rest)
          | _, some rest => .ok (.boolean false, rest)
          | none, none =>
            match readMoment? (c :: rest) with
            | some moment => orMalformed moment
            | none => readNumber limits.digits (c :: rest)

/-- The items of an array up to and with its closing bracket. -/
def readItems (limits : Limits) : Nat → Text → Text → Except Stop (List Value × Text)
  | 0, _, _ => .error .malformed
  | _, _, ']' :: rest => .ok ([], rest)
  | n + 1, outer, t => do
    let (item, rest) ← readValue limits n outer t
    match ← orMalformed (skipGaps n rest) with
    | ']' :: rest => return ([item], rest)
    | ',' :: rest =>
      let (items, rest) ← readItems limits n outer (← orMalformed (skipGaps n rest))
      return (item :: items, rest)
    | _ => .error .malformed

/-- The entries of an inline table up to and with its closing brace, behind the entries read so
far. -/
def readInline (limits : Limits) : Nat → Text → List (List Text) → Entries → Text →
    Except Stop (Entries × Text)
  | 0, _, _, _, _ => .error .malformed
  | n + 1, outer, closed, entries, t => do
    let (key, rest) ← orMalformed (readKey t)
    let (value, rest) ← readValue limits n outer (← orMalformed (skipEquals rest))
    let entries ← orMalformed (addInline closed key value entries)
    match skipBlanks rest with
    | '}' :: rest => return (entries, rest)
    | ',' :: rest =>
      readInline limits n outer (if holdsOthers value then key :: closed else closed) entries
        (skipBlanks rest)
    | _ => .error .malformed

end

/-! ### Lines -/

/-- What has been read of a document. -/
structure Progress where
  entries : Entries
  /-- The table of the last header. -/
  header : List Text
  /-- The tables that no header may open any more. -/
  opened : List (List Text)
  /-- The tables that keys with points have opened since the last header. -/
  passed : List (List Text)
  /-- The keys of inline tables and arrays. -/
  closed : List (List Text)

namespace Progress

/-- Whether a key lies in or below an inline table or an array. -/
def isClosed (progress : Progress) (key : List Text) : Bool :=
  key ≠ [] && progress.closed.any fun other => other.isPrefixOf key

/-- The headers that a new header finds opened. -/
def allOpened (progress : Progress) : List (List Text) :=
  progress.passed ++ progress.opened

def openTable (progress : Progress) (key : List Text) : Option Progress :=
  let opened := progress.allOpened
  if opened.contains key || progress.isClosed key then none
  else (editAt true some key progress.entries).map fun entries =>
    { progress with entries, header := key, opened := key :: opened, passed := [] }

/-- Adds a table to the array at a key and opens it. What was opened below the table before it
may be opened anew. -/
def openItem (progress : Progress) (key : List Text) : Option Progress :=
  if progress.isClosed key then none
  else (editAt true (addTable (lastPart key)) key.dropLast progress.entries).map fun entries =>
    { entries
      header := key
      opened := key :: progress.allOpened.filter (!key.isPrefixOf ·)
      passed := []
      closed := progress.closed.filter (!key.isPrefixOf ·) }

/-- The tables that a key with points passes through, below the table of the header. -/
def passedBy (progress : Progress) (key : List Text) : List (List Text) :=
  (List.range (key.length - 1)).map fun i => progress.header ++ key.take (i + 1)

/-- Gives a key of the open table its value. -/
def assign (progress : Progress) (key : List Text) (value : Value) : Option Progress :=
  let passed := progress.passedBy key
  let table := progress.header ++ key.dropLast
  if passed.any progress.opened.contains || progress.isClosed table then none
  else (editAt true (addEntry (lastPart key) value) table progress.entries).map fun entries =>
    { progress with
      entries
      passed := passed ++ progress.passed
      closed := if holdsOthers value then (progress.header ++ key) :: progress.closed
        else progress.closed }

/-- Reads a header or a key with its value. -/
def readStatement (limits : Limits) (progress : Progress) :
    Text → Except Stop (Progress × Text)
  | '[' :: '[' :: rest => orMalformed do
    let (key, rest) ← readKey (skipBlanks rest)
    return (← progress.openItem key, ← after? [']', ']'] rest)
  | '[' :: rest => orMalformed do
    let (key, rest) ← readKey (skipBlanks rest)
    return (← progress.openTable key, ← after? [']'] rest)
  | t => do
    let (key, rest) ← orMalformed (readKey t)
    let (value, rest) ← readValue limits (t.length + 1) [] (← orMalformed (skipEquals rest))
    return (← orMalformed (progress.assign key value), rest)

/-- Reads the lines of a document. The number bounds the lines. -/
def readLines (limits : Limits) (progress : Progress) : Nat → Text → Except Stop Progress
  | 0, _ => .error .malformed
  | n + 1, t =>
    match skipBlanks t with
    | [] => .ok progress
    | '\n' :: rest => progress.readLines limits n rest
    | c :: rest => do
      let (progress, rest) ←
        if c = '#' then .ok (progress, c :: rest) else progress.readStatement limits (c :: rest)
      match ← orMalformed (skipComment (skipBlanks rest)) with
      | [] => return progress
      | '\n' :: rest => progress.readLines limits n rest
      | _ => .error .malformed

end Progress

/-- The text with every pair of a carriage return and a line feed made a line feed. -/
def unifyLineBreaks : Text → Text
  | '\r' :: '\n' :: rest => '\n' :: unifyLineBreaks rest
  | c :: rest => c :: unifyLineBreaks rest
  | [] => []

/-- The table that a document describes. -/
def readDocument (limits : Limits) (t : Text) : Except Stop Value :=
  let t := unifyLineBreaks t
  (Progress.readLines limits ⟨[], [], [], [], []⟩ (t.length + 1) t).map (.table ·.entries)

end Disentangle.Toml
