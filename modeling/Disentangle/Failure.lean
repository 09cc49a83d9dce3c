import Disentangle.Text

/-!
Why an operation stops. A `Failure` is reported to the user with a message; a `Fault` is what no
message of this library describes: a misuse, or a limit that has been met.
-/

namespace Disentangle

/-- A failure that the program reports. -/
inductive Failure where
  | unreadable (path : Text) (reason : Option Text)
  | unwritable (path : Text) (reason : Option Text)
  /-- The content of a source could not be understood. -/
  | malformed (path : Option Text) (reason : Text)
  | nameCollision (name firstPath secondPath : Text)
  | duplicateSource (path : Text)
  /-- Sources depend on each other in a cycle; the last path is the first one again. -/
  | circularDependency (cycle : List Text)
  | rootNotDirectory (path : Text)
  | folderNotDirectory (path : Text)
  | moveIntoItself (source target : Text)
  /-- Something exists already where a source would be moved to. -/
  | targetExists (path : Text)
  deriving DecidableEq, Repr

namespace Failure

/-- A message with the reason in parentheses, if there is one. -/
def withReason (message : Text) : Option Text → Text
  | none => message
  | some reason => message ++ " (".toList ++ reason ++ ")".toList

def message : Failure → Text
  | unreadable path reason => withReason ("file read failed: ".toList ++ path) reason
  | unwritable path reason => withReason ("file write failed: ".toList ++ path) reason
  | malformed path reason =>
    match path with
    | some (c :: rest) => (c :: rest) ++ ": ".toList ++ reason
    | _ => reason
  | nameCollision name first second =>
    "export name conflict: ".toList ++ name ++ '\n' :: first ++ '\n' :: second
  | duplicateSource path => "source path duplicated: ".toList ++ path
  | circularDependency cycle =>
    "circular dependencies: ".toList ++ Text.join " ->\n".toList cycle
  | rootNotDirectory path => "source root is not a directory: ".toList ++ path
  | folderNotDirectory path => "source folder is not a directory: ".toList ++ path
  | moveIntoItself source target =>
    "cannot move ".toList ++ source ++ " into itself: ".toList ++ target
  | targetExists path => "move target already exists: ".toList ++ path

end Failure

/-- A misuse of the program, or a limit of what it runs on. -/
inductive Fault where
  /-- A relative path to nowhere was asked for. -/
  | emptyTarget
  /-- A component of a search pattern holds `**` and something else. -/
  | mixedRecursivePattern
  /-- A search pattern begins at the root. -/
  | absolutePattern
  | pathNotText
  /-- A setting that should be a text is none. -/
  | settingNotText
  | undecodableSettings
  /-- A path holds a null character. -/
  | nullInPath
  /-- A text or a path holds a character that has no encoding. -/
  | unencodable
  /-- The settings hold a number with too many digits. -/
  | tooManyDigits
  /-- Something is nested so deep that the stack does not suffice for it. -/
  | tooDeep
  deriving DecidableEq, Repr

/-- Why an operation has no result. -/
inductive Problem where
  | failure (reason : Failure)
  | fault (reason : Fault)
  deriving DecidableEq, Repr

end Disentangle
