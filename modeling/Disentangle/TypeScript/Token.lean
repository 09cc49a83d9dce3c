import Disentangle.Text

/-!
The tokens of TypeScript, read on demand from the front of a text. A reader returns what it
read together with the text after it. `>` is always a token of its own, so that nested type
arguments close one by one; the operators that begin with it are put together where an
expression wants them. Regular expressions, the later chunks of a template and JSX text are not
recognised here but by readers of their own, because only the grammar knows where they stand.
-/

namespace Disentangle.TypeScript

inductive Token where
  /-- An identifier or a keyword: the grammar decides which. -/
  | word (name : Text)
  | privateName
  | number
  | string (quote : Char) (body : Text)
  /-- The first chunk of a template, and whether the template ends with it. -/
  | template (closed : Bool)
  | sign (symbol : Text)
  | finish
  /-- Something that begins no token. -/
  | unknown
  deriving DecidableEq, Repr

/-- The space separators of Unicode, the ASCII blanks and the invisible marks that stand
between tokens. -/
@[irreducible] def isBlank (c : Char) : Bool :=
  ('\t' ≤ c && c ≤ '\r') || c = ' ' || c = '\u00A0' || c = '\u1680' ||
    ('\u2000' ≤ c && c ≤ '\u200B') || c = '\u2028' || c = '\u2029' || c = '\u202F' ||
    c = '\u205F' || c = '\u2060' || c = '\u3000' || c = '\uFEFF'

/-- The ASCII characters that end a word, the digits apart. -/
def stops : Text := ":;`\"'@#.,|^&<=>+-*/\\%?!~()[]\x7b\x7d".toList

/-- A word may go on with any character that is no blank, no control character and no sign. -/
def isWordPart (c : Char) : Bool :=
  ' ' < c && !isBlank c && !stops.contains c

/-- A word does not begin with a digit. -/
def isWordStart (c : Char) : Bool :=
  isWordPart c && !c.isDigit

/-- The characters at which a line ends for comments and literals. -/
def isLineEnd (c : Char) : Bool :=
  c = '\n' || c = '\r' || c = '\u2028' || c = '\u2029'

/-- A text after its first `count` characters if all of these are hexadecimal digits. -/
def dropHex? (count : Nat) (t : Text) : Option Text :=
  let digits := t.take count
  if digits.length = count ∧ digits.all (fun c => c.isDigit || "abcdefABCDEF".toList.contains c)
  then some (t.drop count) else none

/-- The text after an escape, given the text after its backslash. -/
def dropEscape? : Text → Option Text
  | [] => none
  | 'x' :: rest => dropHex? 2 rest
  | 'u' :: '{' :: rest =>
    let digits := rest.takeWhile (· ≠ '}')
    match dropHex? digits.length rest with
    | some ('}' :: after) => if digits.isEmpty then none else some after
    | _ => none
  | 'u' :: rest => dropHex? 4 rest
  | '\r' :: '\n' :: rest => some rest
  | _ :: rest => some rest

/-- The name at the front of a text and the text after it. A name may spell characters as
`\u0041` or with braces. The first argument bounds the length. -/
def readName : Nat → Text → Text × Text
  | 0, t => ([], t)
  | _ + 1, [] => ([], [])
  | n + 1, c :: rest =>
    if isWordPart c then
      let (name, after) := readName n rest
      (c :: name, after)
    else if c = '\\' ∧ rest.head? = some 'u' then
      match dropEscape? rest with
      | some after =>
        let (name, later) := readName n after
        (c :: rest.take (rest.length - after.length) ++ name, later)
      | none => ([], c :: rest)
    else
      ([], c :: rest)

/-- What follows a number: digits, letters of the radix and of the exponent, separators, at most
one point and a sign directly after the exponent letter of a decimal. -/
def readNumber (t : Text) : Text :=
  match t with
  | '0' :: r :: rest =>
    if "xXoObB".toList.contains r then rest.dropWhile fun c => c.isAlphanum || c = '_'
    else decimal t
  | _ => decimal t
where
  digits (t : Text) : Text := t.dropWhile fun c => c.isDigit || c = '_'
  decimal (t : Text) : Text :=
    let afterWhole := digits t
    match afterWhole with
    | 'n' :: rest => rest
    | '.' :: rest => exponent (digits rest)
    | rest => exponent rest
  exponent (t : Text) : Text :=
    match t with
    | e :: s :: d :: rest =>
      if (e = 'e' || e = 'E') && (s = '+' || s = '-') && d.isDigit then digits rest
      else if (e = 'e' || e = 'E') && s.isDigit then digits (d :: rest)
      else t
    | [e, d] => if (e = 'e' || e = 'E') && d.isDigit then [] else t
    | _ => t

/-- The body of a string literal up to the closing quote and the text after that quote. A line
break must be escaped. -/
def readString (quote : Char) : Nat → Text → Option (Text × Text)
  | 0, _ => none
  | _ + 1, [] => none
  | n + 1, c :: rest =>
    if c = quote then some ([], rest)
    else if c = '\\' then
      match dropEscape? rest with
      | some after =>
        match readString quote n after with
        | some (body, later) => some (c :: rest.take (rest.length - after.length) ++ body, later)
        | none => none
      | none => none
    else if c = '\n' || c = '\r' then none
    else
      match readString quote n rest with
      | some (body, later) => some (c :: body, later)
      | none => none

/-- The text after one chunk of a template, with `true` where the template ends and `false`
where a substitution begins. -/
def readChunk : Text → Option (Bool × Text)
  | [] => none
  | '`' :: rest => some (true, rest)
  | '$' :: '{' :: rest => some (false, rest)
  | '\\' :: _ :: rest => readChunk rest
  | _ :: rest => readChunk rest

/-- The text after the body of a regular expression, given the text after its first slash. A
slash inside a class does not end it. -/
def readPattern (inClass : Bool) : Text → Option Text
  | [] => none
  | '\\' :: c :: rest => if isLineEnd c then none else readPattern inClass rest
  | '[' :: rest => readPattern true rest
  | ']' :: rest => readPattern false rest
  | c :: rest =>
    if c = '/' && !inClass then some (rest.dropWhile fun c => c.isAlpha)
    else if isLineEnd c then none
    else readPattern inClass rest

/-- The text after the end of a block comment, given the text after its opening. -/
def afterBlockComment : Text → Option Text
  | [] => none
  | '*' :: '/' :: rest => some rest
  | _ :: rest => afterBlockComment rest

/-- The signs of more than one character, longer ones before their own beginnings. None of them
begins with `>`. -/
def longSigns : List Text :=
  ["...", "===", "!==", "**=", "<<=", "&&=", "||=", "??=", "=>", "==", "!=", "<=", "<<", "&&",
   "||", "??", "?.", "++", "--", "+=", "-=", "*=", "/=", "%=", "&=", "|=", "^=", "**"].map
    String.toList

/-- The operators that begin with `>`, longer ones before their own beginnings. -/
def greaterSigns : List Text :=
  [">>>=", ">>>", ">>=", ">>", ">="].map String.toList

/-- The sign at the front of a text. A point between a question mark and a digit belongs to the
digit. -/
def readSign (t : Text) : Option Text :=
  match longSigns.find? (·.isPrefixOf t) with
  | some sign =>
    if sign = "?.".toList && ((t.drop 2).head?.map Char.isDigit).getD false then some ['?']
    else some sign
  | none =>
    match t with
    | c :: _ => if stops.contains c && !"\\\"'`".toList.contains c then some [c] else none
    | [] => none

/-- The token at the front of a text that begins with no blank and no comment, and the text
after it. -/
def readToken (t : Text) : Token × Text :=
  match t with
  | [] => (.finish, [])
  | c :: rest =>
    if isWordStart c || (c = '\\' && rest.head? = some 'u') then
      match readName t.length t with
      | ([], _) => (.unknown, rest)
      | (name, after) => (.word name, after)
    else if c.isDigit || (c = '.' && (rest.head?.map Char.isDigit).getD false) then
      (.number, readNumber t)
    else if c = '"' || c = '\'' then
      match readString c rest.length.succ rest with
      | some (body, after) => (.string c body, after)
      | none => (.unknown, rest)
    else if c = '`' then
      match readChunk rest with
      | some (closed, after) => (.template closed, after)
      | none => (.unknown, rest)
    else if c = '#' && (rest.head?.map isWordStart).getD false then
      (.privateName, (readName rest.length rest).2)
    else
      match readSign t with
      | some sign => (.sign sign, t.drop sign.length)
      | none => (.unknown, rest)

/-- What stands between two tokens: the text after the blanks and comments at the front of a
text, and whether a line break is among the blanks. A comment that does not end is left
standing. The first argument bounds the number of steps. -/
def skipTrivia : Nat → Bool → Text → Bool × Text
  | 0, broken, t => (broken, t)
  | n + 1, broken, t =>
    match t with
    | '/' :: '/' :: rest => skipTrivia n broken (rest.dropWhile fun c => !isLineEnd c)
    | '/' :: '*' :: rest =>
      match afterBlockComment rest with
      | some after => skipTrivia n broken after
      | none => (broken, t)
    | c :: rest => if isBlank c then skipTrivia n (broken || c = '\n') rest else (broken, t)
    | [] => (broken, [])

/-- The number of characters that a statement without a semicolon takes up after its last
token: up to the end of the last comment that begins before the first line break. The first
argument bounds the number of steps. -/
def trailingComments : Nat → Text → Nat
  | 0, _ => 0
  | _ + 1, '/' :: '/' :: rest => 2 + (rest.takeWhile fun c => !isLineEnd c).length
  | n + 1, '/' :: '*' :: rest =>
    match afterBlockComment rest with
    | some after => 2 + (rest.length - after.length) + trailingComments n after
    | none => 0
  | n + 1, c :: rest =>
    if isBlank c && c ≠ '\n' then
      -- Blanks count where a comment follows them.
      match trailingComments n rest with
      | 0 => 0
      | count + 1 => count + 2
    else 0
  | _ + 1, [] => 0

end Disentangle.TypeScript
