import Disentangle.Text

/-!
Arguments on a command line. Options are written as `--word` or as `-x`, with their value behind
an equals sign or in the next argument; a word may be cut short as long as only one option
begins like it, and letters may share one hyphen. Behind `--` nothing is an option.
-/

namespace Disentangle.Command

/-- An option that a command knows. -/
structure OptionForm where
  letter : Option Char
  word : Text
  takesValue : Bool
  deriving DecidableEq, Repr

/-- Asks what the command does. -/
def helpForm : OptionForm := ⟨some 'h', "help".toList, false⟩

/-- Options with the values they are given, in order. -/
abbrev Choices := List (OptionForm × Option Text)

/-- The value that stands in one argument with its option; `marked` says that an equals sign is
in front of it. -/
structure Attached where
  marked : Bool
  value : Text

/-- What one argument says. -/
inductive Argument where
  | plain (t : Text)
  /-- The mark that no more options follow. -/
  | separator
  /-- Options that need nothing more. If `known` is not set, something unknown is among them. -/
  | options (choices : Choices) (known : Bool)
  /-- Options of which the last one has its value in the next argument. -/
  | awaiting (choices : Choices) (last : OptionForm)
  | misplacedValue

namespace Argument

/-- The options behind one hyphen: `form` and what is attached to it. What is attached to an
option without a value are more options. The number bounds the options. -/
def ofLetters (forms : List OptionForm) (choices : Choices) :
    Nat → OptionForm → Option Attached → Argument
  | _, form, none =>
    if form.takesValue then awaiting choices form else options (choices ++ [(form, none)]) true
  | 0, _, some _ => misplacedValue
  | n + 1, form, some attached =>
    if form.takesValue then options (choices ++ [(form, some attached.value)]) true
    else match attached.marked, attached.value with
      | true, _ | false, [] | false, '-' :: _ => misplacedValue
      | false, letter :: rest =>
        let choices := choices ++ [(form, none)]
        match forms.find? (·.letter = some letter) with
        | none => options choices false
        | some next =>
          ofLetters forms choices n next
            (match rest with
            | [] => none
            | '=' :: value => some ⟨true, value⟩
            | value => some ⟨false, value⟩)

/-- The option `form` written as a word, with the value behind its equals sign. -/
def ofWord (form : OptionForm) : Option Text → Argument
  | none => if form.takesValue then awaiting [] form else options [(form, none)] true
  | some value => if form.takesValue then options [(form, some value)] true else misplacedValue

/-- A text up to its first equals sign, and what stands behind that. -/
def cutAtEquals (t : Text) : Text × Option Text :=
  match t.dropWhile (· ≠ '=') with
  | [] => (t, none)
  | _ :: value => (t.takeWhile (· ≠ '='), some value)

/-- Whether a text without its hyphen is a number: digits, which may have a point among them but
not behind them. -/
def isNumber (t : Text) : Bool :=
  match t.dropWhile Char.isDigit with
  | [] => !t.isEmpty
  | '.' :: rest => !rest.isEmpty && rest.all Char.isDigit
  | _ => false

/-- What an argument is that begins like an option and is none: negative numbers and arguments
with a space are plain. -/
def unknown (t : Text) : Argument :=
  if isNumber (t.drop 1) || t.contains ' ' then plain t else options [] false

/-- What an argument says that stands in front of any separator. It fails where a word is cut so
short that several options begin like it. -/
def read? (forms : List OptionForm) (t : Text) : Option Argument :=
  match t with
  | '-' :: '-' :: rest =>
    if rest.isEmpty then some separator
    else
      let (word, value) := cutAtEquals rest
      match forms.find? (·.word = rest), forms.find? (·.word = word) with
      | some form, _ => some (ofWord form none)
      | none, some form => some (ofWord form value)
      | none, none =>
        match forms.filter fun form => word.isPrefixOf form.word with
        | [] => some (unknown t)
        | [form] => some (ofWord form value)
        | _ => none
  | '-' :: letter :: rest =>
    match forms.find? (·.letter = some letter) with
    | none => some (unknown t)
    | some form =>
      some (ofLetters forms [] t.length form
        (match rest with
        | [] => none
        | '=' :: value => some ⟨true, value⟩
        | value => some ⟨false, value⟩))
  | _ => some (plain t)

def readAll? (forms : List OptionForm) : List Text → Option (List Argument)
  | [] => some []
  | t :: rest =>
    match read? forms t with
    | none => none
    | some separator => some (separator :: rest.map plain)
    | some argument => (readAll? forms rest).map (argument :: ·)

end Argument

/-- Why a command line asks for no work. -/
inductive Stop where
  | help
  | misuse
  deriving DecidableEq, Repr

/-- What the arguments of a command say. -/
structure Given where
  choices : Choices
  /-- The arguments that are no options. A second separator in place of one says nothing. -/
  places : List (Option Text)
  surplus : Bool

namespace Given

/-- With more options chosen; a request for help stops at once. -/
def choose (given : Given) (choices : Choices) : Except Stop Given :=
  if choices.any (·.1 = helpForm) then .error .help
  else .ok { given with choices := given.choices ++ choices }

/-- With one more argument that is no option. -/
def fill (given : Given) (place : Option Text) : Given :=
  { given with places := given.places ++ [place] }

/-- With something left over. -/
def exceed (given : Given) : Given :=
  { given with surplus := true }

/-- Takes arguments one after another until `count` places are filled; `beside` says that the
argument before filled a place. A separator belongs to a place beside it. -/
def take (count : Nat) (beside : Bool) (given : Given) : List Argument → Except Stop Given
  | [] => .ok given
  | .plain t :: rest =>
    if given.places.length < count then
      take count true (given.fill (if t = "--".toList then none else some t)) rest
    else take count false given.exceed rest
  | .separator :: rest =>
    if beside then take count false given rest
    else match rest with
      | .plain t :: rest =>
        if given.places.length < count then take count true (given.fill (some t)) rest
        else take count false given.exceed rest
      | rest => take count false given.exceed rest
  | .options choices known :: rest => do
    let given ← given.choose choices
    take count false (if known then given else given.exceed) rest
  | .awaiting choices last :: rest =>
    match rest with
    | .plain value :: rest => do
      take count false (← given.choose (choices ++ [(last, some value)])) rest
    | _ => .error .misuse
  | .misplacedValue :: _ => .error .misuse

/-- What the arguments of a command with `count` places say. All places have to be filled. What
is left over does not count as a mistake yet. -/
def ofArguments (forms : List OptionForm) (count : Nat) (arguments : List Text) :
    Except Stop Given :=
  match Argument.readAll? forms arguments with
  | none => .error .misuse
  | some arguments => do
    let given ← take count false ⟨[], [], false⟩ arguments
    if given.places.length < count then .error .misuse else .ok given

def lastValue? (given : Given) (form : OptionForm) : Option Text :=
  ((given.choices.reverse.find? (·.1 = form)).bind Prod.snd)

def values (given : Given) (form : OptionForm) : List Text :=
  given.choices.filterMap fun (other, value) => if other = form then value else none

def has (given : Given) (form : OptionForm) : Bool :=
  given.choices.any (·.1 = form)

end Given

end Disentangle.Command
