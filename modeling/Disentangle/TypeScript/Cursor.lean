import Disentangle.TypeScript.Token

/-!
A cursor stands at one token of a text and knows where that token begins and ends. A parser is
a function on cursors that may fail; a parser that fails leaves nothing behind, so alternatives
are tried from the same place.
-/

namespace Disentangle.TypeScript

/-- A place in a text, with the token that stands there. -/
structure Cursor where
  token : Token
  /-- The number of characters before the token. -/
  start : Nat
  /-- The text from the token on. -/
  here : Text
  /-- The number of characters up to the end of the token. -/
  stop : Nat
  /-- The text after the token. -/
  after : Text
  /-- The end of the token before this one. -/
  previousStop : Nat
  /-- The text from the end of the token before this one. -/
  gap : Text
  /-- Whether a line ends between the token before this one and this one. -/
  fresh : Bool

namespace Cursor

/-- The cursor at the first token of `t`, which begins after `position` characters. -/
def reading (position : Nat) (t : Text) : Cursor :=
  let (fresh, here) := skipTrivia t.length.succ false t
  let start := position + (t.length - here.length)
  let (token, after) := readToken here
  let stop := start + (here.length - after.length)
  ⟨token, start, here, stop, after, position, t, fresh⟩

def next (c : Cursor) : Cursor :=
  reading c.stop c.after

/-- The cursor whose token is the first `width` characters of what is here, as a sign. -/
def withSign (c : Cursor) (width : Nat) : Cursor :=
  { c with
    token := .sign (c.here.take width), stop := c.start + width, after := c.here.drop width }

/-- The cursor at the first token of `after`, a later part of the text that is here. -/
def resume (c : Cursor) (after : Text) : Cursor :=
  reading (c.start + (c.here.length - after.length)) after

end Cursor

/-- A parser reads from a cursor on; it may fail. -/
abbrev Parser (α : Type) := StateT Cursor Option α

namespace Parser

def peek : Parser Token :=
  return (← get).token

def peekNext : Parser Token :=
  return (← get).next.token

def advance : Parser Unit :=
  modify Cursor.next

/-- Whether a line ends before the token that stands here. -/
def onNewLine : Parser Bool :=
  return (← get).fresh

def stands (token : Token) : Parser Bool :=
  return (← get).token = token

/-- Passes the token if it stands here, and tells whether it did. -/
def accept (token : Token) : Parser Bool := do
  if ← stands token then advance; return true
  else return false

/-- Passes the token, which has to stand here. -/
def expect (token : Token) : Parser Unit := do
  if ← stands token then advance else failure

def atSign (symbol : String) : Parser Bool :=
  stands (.sign symbol.toList)

def atWord (name : String) : Parser Bool :=
  stands (.word name.toList)

def atAnyWord (names : List Text) : Parser Bool := do
  match ← peek with
  | .word name => return names.contains name
  | _ => return false

def acceptSign (symbol : String) : Parser Bool :=
  accept (.sign symbol.toList)

def acceptWord (name : String) : Parser Bool :=
  accept (.word name.toList)

def sign (symbol : String) : Parser Unit :=
  expect (.sign symbol.toList)

def keyword (name : String) : Parser Unit :=
  expect (.word name.toList)

def word : Parser Text := do
  match ← peek with
  | .word name => advance; return name
  | _ => failure

/-- The result of `p`, or `none` and no step where `p` fails. -/
def optional? {α : Type} (p : Parser α) : Parser (Option α) := fun c =>
  match p c with
  | some (a, c) => some (some a, c)
  | none => some (none, c)

/-- What `p` would do from here, without going anywhere. -/
def foresee {α : Type} (p : Parser α) : Parser (Option α) := fun c =>
  some ((p c).map Prod.fst, c)

/-- The results of `item` until it gives none, at most `n` of them. -/
def collect {α : Type} (item : Parser (Option α)) : Nat → Parser (List α)
  | 0 => failure
  | n + 1 => do
    match ← item with
    | none => return []
    | some a => return a :: (← collect item n)

/-- The results of `item` until it gives none. Every item takes a character, so the length of
what is left bounds their number. -/
def many {α : Type} (item : Parser (Option α)) : Parser (List α) := do
  collect item ((← get).here.length + 2)

/-- Carries a value through `step` until it gives none. -/
def grow {α : Type} (step : α → Parser (Option α)) : Nat → α → Parser α
  | 0, _ => failure
  | n + 1, a => do
    match ← step a with
    | none => return a
    | some b => grow step n b

/-- Carries a value through `step` until it gives none; every step takes a character. -/
def extend {α : Type} (a : α) (step : α → Parser (Option α)) : Parser α := do
  grow step ((← get).here.length + 2) a

/-- One item of a list and the comma behind it, or none before the sign `close`. -/
def separatedItem {α : Type} (close : String) (item : Parser α) : Parser (Option α) := do
  if ← atSign close then return none
  let a ← item
  if !(← acceptSign ",") && !(← atSign close) then failure
  return some a

/-- Items up to the sign `close`, with commas between them; one comma may stand before it. -/
def commaList {α : Type} (close : String) (item : Parser α) : Parser (List α) := do
  let items ← many (separatedItem close item)
  sign close
  return items

/-- Items up to the sign `close`, with commas between them; places may be empty. -/
def sparseList {α : Type} (close : String) (item : Parser α) : Parser (List α) := do
  let items ← commaList close do
    if ← atSign "," then return none else return some (← item)
  return items.filterMap id

/-- `p` once, and again after every sign `separator`. -/
def sepBy1 {α : Type} (separator : String) (p : Parser α) : Parser (List α) := do
  let first ← p
  let rest ← many do
    if ← acceptSign separator then return some (← p) else return none
  return first :: rest

/-- Reads on where `after`, a later part of the text here, begins. -/
def resumeAt (after : Text) : Parser Unit :=
  modify (·.resume after)

end Parser

end Disentangle.TypeScript
