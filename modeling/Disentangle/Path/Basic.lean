import Disentangle.Text

/-!
File paths as texts. A path is made absolute against a working directory and reduced to its
canonical form: no empty, `.` or `..` component and no trailing slash. A path that begins with
exactly two slashes keeps them; any other number of leading slashes counts as one.
-/

namespace Disentangle.Path

/-- A path is absolute when it begins with a slash. -/
def isAbsolute (path : Text) : Bool :=
  path.head? = some '/'

/-- `tail` seen from the directory `head`; an absolute `tail` stands for itself. -/
def append (head tail : Text) : Text :=
  if isAbsolute tail then tail
  else if head.isEmpty || head.getLast? = some '/' then head ++ tail
  else head ++ '/' :: tail

/-- The mark at the front of an absolute path: `//` for exactly two slashes, else `/`. -/
def rootMark : Text → Text
  | '/' :: '/' :: '/' :: _ => ['/']
  | '/' :: '/' :: _ => ['/', '/']
  | _ => ['/']

/-- One step of the walk along a path: empty and `.` components stay, `..` goes to the parent
(and stays at the root), any other component goes down. The names walked so far are in
reverse order. -/
def walk (above : List Text) (component : Text) : List Text :=
  if component = [] ∨ component = ['.'] then above
  else if component = ['.', '.'] then above.tail
  else component :: above

/-- The names from the root down to where the absolute path leads. -/
def names (path : Text) : List Text :=
  ((Text.pieces '/' path).foldl walk []).reverse

/-- The absolute canonical form of `path`, read from the working directory `cwd`. -/
def standardize (cwd path : Text) : Text :=
  let full := append cwd path
  rootMark full ++ Text.join ['/'] (names full)

/-- Removes the slashes at the end. -/
def trimSlashes (path : Text) : Text :=
  (path.reverse.dropWhile (· = '/')).reverse

/-- The part of a path up to its last slash, without the slashes at its end unless it has
nothing else. -/
def parent (path : Text) : Text :=
  let head := (path.reverse.dropWhile (· ≠ '/')).reverse
  if head.all (· = '/') then head else trimSlashes head

/-- The part of a path after its last slash. -/
def lastName (path : Text) : Text :=
  (path.reverse.takeWhile (· ≠ '/')).reverse

/-- A name without what follows its last dot. Dots at the front of a name start no extension. -/
def dropExtension (name : Text) : Text :=
  let stem := ((name.reverse.dropWhile (· ≠ '.')).drop 1).reverse
  if stem.all (· = '.') then name else stem

/-- The length of the longest common front of two lists of names. -/
def sharedDepth : List Text → List Text → Nat
  | a :: as, b :: bs => if a = b then sharedDepth as bs + 1 else 0
  | _, _ => 0

/-- The path from the directory `start` to `target`, both read from `cwd`: first up to their
common ancestor, then down. -/
def relativeTo (cwd target start : Text) : Text :=
  let down := names (append cwd target)
  let up := names (append cwd start)
  let shared := sharedDepth up down
  match List.replicate (up.length - shared) ['.', '.'] ++ down.drop shared with
  | [] => ['.']
  | steps => Text.join ['/'] steps

/-- The components of a path as a tree of files sees them: empty and `.` components say
nothing, `..` is kept. -/
def components (path : Text) : List Text :=
  (Text.pieces '/' path).filter fun name => ¬(name = [] ∨ name = ['.'])

/-- A path written with single slashes and without empty or `.` components; `..` is kept. -/
def tidy (path : Text) : Text :=
  let mark := if isAbsolute path then rootMark path else []
  match mark ++ Text.join ['/'] (components path) with
  | [] => ['.']
  | written => written

/-- The last component of a path; the root and the empty path have none. -/
def baseName (path : Text) : Text :=
  (components path).getLastD []

end Disentangle.Path
