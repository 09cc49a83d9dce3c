import Disentangle.Project.Work
import Disentangle.Toml.Document

/-!
The settings of a project, which stand in one of two files at its root. A file that is missing
or says nothing about the program leaves the word to the next one; so does one that cannot be
read, with a warning.
-/

namespace Disentangle

inductive Setting where
  | index
  | entry
  | patterns
  | exclude
  | runtimeIndex
  | distPath
  | relativeIndex
  deriving DecidableEq, Repr

namespace Setting

def all : List Setting :=
  [index, entry, patterns, exclude, runtimeIndex, distPath, relativeIndex]

def word : Setting → Text
  | index => "index".toList
  | entry => "entry".toList
  | patterns => "patterns".toList
  | exclude => "exclude".toList
  | runtimeIndex => "runtime_index".toList
  | distPath => "dist_path".toList
  | relativeIndex => "relative_index".toList

/-- The setting that a key stands for, written with hyphens or with underscores. -/
def ofKey? (key : Text) : Option Setting :=
  all.find? fun setting => setting.word = key.replaceChar '-' '_'

/-- Whether a setting is a path that is read from the root of the project. -/
def isPath : Setting → Bool
  | index | entry | runtimeIndex => true
  | _ => false

/-- Whether a setting is a list, for which a single text may stand. -/
def isList : Setting → Bool
  | patterns | exclude => true
  | _ => false

end Setting

/-- What the settings of a project say: values of any kind, each for a setting. -/
structure Settings where
  given : List (Setting × Toml.Value)

namespace Settings

/-- The settings of a project that says nothing. -/
def empty : Settings := ⟨[]⟩

/-- The pattern of the sources where none is given. -/
def defaultPattern : Text := "*.ts".toList

/-- What a setting is where nothing is said. -/
def default? : Setting → Option Toml.Value
  | .patterns => some (.array [.text defaultPattern])
  | .exclude => some (.array [])
  | _ => none

def value? (settings : Settings) (setting : Setting) : Option Toml.Value :=
  (settings.given.lookup setting).or (default? setting)

/-- A value as the value of a setting: a single text becomes a list where a list is expected, and
a path is read from the root of the project. -/
def adapt (root : Text) (setting : Setting) (value : Toml.Value) : Except Fault Toml.Value :=
  match value with
  | .text t =>
    if setting.isList then .ok (.array [.text t])
    else if setting.isPath && !t.isEmpty then .ok (.text (Path.tidy (Path.append root t)))
    else .ok value
  | _ => if setting.isPath && !value.isBlank then .error .pathNotText else .ok value

/-- The settings that the entries of a table give. Of two entries for one setting the later one
counts, and only that one is looked at. -/
def ofEntries (root : Text) (entries : Toml.Entries) : Except Fault Settings :=
  let last (setting : Setting) : Option Toml.Value :=
    (entries.reverse.find? fun (key, _) => Setting.ofKey? key = some setting).map Prod.snd
  let given := Setting.all.filterMap fun setting => (last setting).map (setting, ·)
  (given.mapM fun (setting, value) => (adapt root setting value).map (setting, ·)).map (⟨·⟩)

/-- The keys of a table that stand for no setting. -/
def unknownKeys (entries : Toml.Entries) : List Text :=
  (entries.map Prod.fst).filter fun key => (Setting.ofKey? key).isNone

/-- The table that a list of keys leads to. -/
def tableAt? (keys : List Text) (document : Toml.Value) : Option Toml.Entries :=
  (keys.foldlM (fun (value : Toml.Value) key => value.get? key) document).bind (·.entries?)

/-- A file that may hold settings, and the keys of their table in it. -/
structure Place where
  file : Text
  keys : List Text

/-- The files that may hold settings. The first one with a table of settings counts. -/
def places : List Place :=
  [⟨".tsunravel.toml".toList, ["tsunravel".toList]⟩,
    ⟨"pyproject.toml".toList, ["tool".toList, "tsunravel".toList]⟩]

/-- The fault of a document that stops its reading, if this is not passed over. -/
def faultOf? : Toml.Stop → Option Fault
  | .malformed => none
  | .tooManyDigits => some .tooManyDigits
  | .tooDeep => some .tooDeep

/-- The table of settings at a place in the directory `root`. -/
def readTable (root : Text) (place : Place) : Inquiry (Option Toml.Entries) := do
  let path := Path.tidy (Path.append root place.file)
  let scene ← read
  if !scene.tree.has (scene.steps path) then return none
  match scene.tree.read (scene.steps path) with
  | .error _ =>
    Inquiry.tell (.settingsUnreadable path)
    return none
  | .ok bytes =>
    match Utf8.decode bytes with
    | .error _ => throw (.fault .undecodableSettings)
    | .ok text =>
      match Toml.readDocument scene.platform.toml text with
      | .error stop =>
        match faultOf? stop with
        | some fault => throw (.fault fault)
        | none =>
          Inquiry.tell (.settingsUnreadable path)
          return none
      | .ok document =>
        match tableAt? place.keys document with
        | none => return none
        | some entries =>
          Inquiry.tell (.settingsRead path)
          return some entries

/-- The first table of settings in the directory `root`. -/
def firstTable (root : Text) : List Place → Inquiry (Option Toml.Entries)
  | [] => return none
  | place :: rest => do
    match ← readTable root place with
    | some entries => return some entries
    | none => firstTable root rest

/-- The settings of the project in the directory `root`. -/
def load (root : Text) : Inquiry Settings := do
  match ← firstTable root places with
  | none => return empty
  | some entries =>
    Inquiry.tellAll ((unknownKeys entries).map .unknownSetting)
    Inquiry.orFault (ofEntries root entries)

end Settings

end Disentangle
