import Disentangle.Command.Arguments
import Disentangle.Path.Basic
import Disentangle.Settings

/-!
What a command line asks for: one of three kinds of work, help, or nothing because it is
mistaken.
-/

namespace Disentangle.Command

/-- What is asked of breaking cycles; what is not given is left to the settings. -/
structure BreakRequest where
  root : Text
  index : Option Text
  entry : Option Text
  runtimeIndex : Option Text
  distPath : Option Text
  relativeIndex : Option Text
  patterns : List Text

/-- A kind of work with what it works on. -/
inductive Task where
  | breakCycles (request : BreakRequest)
  | hoistImports (source : Text) (target : Option Text)
  | moveFolder (root source target pattern : Text)
  /-- Work on a path that is not said. -/
  | unnamed

/-- What a command line asks for. -/
inductive Request where
  | stop (reason : Stop)
  | work (verbose : Bool) (task : Task)

namespace Request

def verboseForm : OptionForm := ⟨some 'v', "verbose".toList, false⟩
def indexForm : OptionForm := ⟨none, "index".toList, true⟩
def entryForm : OptionForm := ⟨none, "entry".toList, true⟩
def runtimeIndexForm : OptionForm := ⟨none, "runtime-index".toList, true⟩
def distPathForm : OptionForm := ⟨none, "dist-path".toList, true⟩
def relativeIndexForm : OptionForm := ⟨none, "relative-index".toList, true⟩
def patternForm : OptionForm := ⟨none, "pattern".toList, true⟩
def outputForm : OptionForm := ⟨some 'o', "output".toList, true⟩

/-- A kind of work as the command line knows it. -/
structure TaskForm where
  word : Text
  options : List OptionForm
  places : Nat
  /-- The work that the filled places and the chosen options ask for. -/
  task : List Text → Given → Task

def breakForm : TaskForm where
  word := "break".toList
  options := [helpForm, indexForm, entryForm, runtimeIndexForm, distPathForm, relativeIndexForm,
    patternForm]
  places := 1
  task
    | [root], given => .breakCycles
      { root := Path.tidy root
        index := given.lastValue? indexForm
        entry := given.lastValue? entryForm
        runtimeIndex := given.lastValue? runtimeIndexForm
        distPath := given.lastValue? distPathForm
        relativeIndex := given.lastValue? relativeIndexForm
        patterns := given.values patternForm }
    | _, _ => .unnamed

/-- Moving the imports of a source to its top. -/
def hoistForm : TaskForm where
  word := "swin".toList
  options := [helpForm, outputForm]
  places := 1
  task
    | [source], given =>
      .hoistImports (Path.tidy source) ((given.lastValue? outputForm).map Path.tidy)
    | _, _ => .unnamed

def moveForm : TaskForm where
  word := "move".toList
  options := [helpForm, patternForm]
  places := 3
  task
    | [root, source, target], given =>
      .moveFolder (Path.tidy root) (Path.tidy source) (Path.tidy target)
        ((given.lastValue? patternForm).getD Settings.defaultPattern)
    | _, _ => .unnamed

def taskForms : List TaskForm := [breakForm, hoistForm, moveForm]

/-- What the arguments behind the word for a kind of work ask for. `before` are the options in
front of it. -/
def ofTask (before : Given) (form : TaskForm) (arguments : List Text) : Request :=
  match Given.ofArguments form.options form.places arguments with
  | .error reason => .stop reason
  | .ok given =>
    if before.surplus || given.surplus then .stop .misuse
    else
      .work (before.has verboseForm)
        (match given.places.mapM id with
        | some places => form.task places given
        | none => .unnamed)

/-- What a command line asks for, where `front` says what the arguments mean up to the word for a
kind of work. -/
def ofFront (before : Given) : List Argument → List Text → Request
  | .plain word :: _, _ :: arguments =>
    match taskForms.find? (·.word = word) with
    | some form => ofTask before form arguments
    | none => .stop .misuse
  | .options choices known :: front, _ :: arguments =>
    match before.choose choices with
    | .error reason => .stop reason
    | .ok given => ofFront (if known then given else given.exceed) front arguments
  | _, _ => .stop .misuse

/-- What a command line asks for. -/
def ofArguments (arguments : List Text) : Request :=
  match Argument.readAll? [helpForm, verboseForm] arguments with
  | none => .stop .misuse
  | some front => ofFront ⟨[], [], false⟩ front arguments

/-- The least level of what is told. -/
def threshold : Request → Level
  | work true _ => .debug
  | _ => .info

end Request

end Disentangle.Command
