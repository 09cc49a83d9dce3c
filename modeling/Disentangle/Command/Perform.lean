import Disentangle.Command.Request
import Disentangle.Project.Break
import Disentangle.Project.Move

/-!
Doing what a command line asks for. Work that succeeds ends with the status zero, work that
fails with one, and a mistaken command line with two.
-/

namespace Disentangle

namespace Settings

/-- What a setting says as a text, if it says anything. -/
def text? (settings : Settings) (setting : Setting) : Except Fault (Option Text) :=
  match settings.value? setting with
  | none => .ok none
  | some (.text t) => .ok (Index.RuntimeOptions.given? (some t))
  | some value => if value.isBlank then .ok none else .error .settingNotText

/-- What a setting says as a list of texts. A table stands for its keys. -/
def texts (settings : Settings) (setting : Setting) : Except Fault (List Text) :=
  match settings.value? setting with
  | some (.array items) => items.mapM fun item =>
      match item with
      | .text t => .ok t
      | _ => .error .pathNotText
  | some (.table entries) => .ok (entries.map Prod.fst)
  | _ => .error .pathNotText

end Settings

namespace Command

/-- What the command line says about a setting if it says anything, and else what the settings
say. -/
def chosen (given : Option Text) (settings : Settings) (setting : Setting) :
    Except Fault (Option Text) :=
  match Index.RuntimeOptions.given? given with
  | some t => .ok (some t)
  | none => settings.text? setting

namespace BreakRequest

/-- What an index for the running program needs, if one is asked for. It fails with an event
where the path of the module at run time is not said. -/
def runtime (request : BreakRequest) (cwd index : Text) (settings : Settings) :
    Except Fault (Except Event (Option Index.RuntimeOptions)) := do
  let output ← chosen request.runtimeIndex settings .runtimeIndex
  match output, ← chosen request.distPath settings .distPath with
  | none, none => return .ok none
  | some _, none => return .error .distPathMissing
  | _, some distPath =>
    let relativeIndex ← chosen request.relativeIndex settings .relativeIndex
    return .ok (some
      { distPath
        relativeIndexPath := relativeIndex.getD (Path.relativeTo cwd index request.root)
        outputPath := output })

/-- What to do with which sources, or an event that tells what is missing. -/
def options (request : BreakRequest) (cwd : Text) (settings : Settings) :
    Except Fault (Except Event BreakOptions) := do
  match ← chosen request.index settings .index with
  | none => return .error .indexMissing
  | some index =>
    match ← request.runtime cwd index settings with
    | .error event => return .error event
    | .ok runtime =>
      return .ok
        { root := request.root
          indexPath := index
          patterns :=
            ← if request.patterns.isEmpty then settings.texts .patterns else .ok request.patterns
          filter := none
          exclude := ← settings.texts .exclude
          entryPath := ← chosen request.entry settings .entry
          runtime }

end BreakRequest

/-- The paths that a task names itself. -/
def Task.places : Task → List Text
  | .breakCycles request =>
    request.root :: [request.index, request.entry, request.runtimeIndex].filterMap id
  | .hoistImports source target => source :: target.toList
  | .moveFolder root source target _ => [root, source, target]
  | .unnamed => []

/-- The paths that the settings add to a task. -/
def Task.placesFromSettings : Task → Inquiry (List Text)
  | .breakCycles request => do
    let settings ← Settings.load request.root
    let places ← [Setting.index, .entry, .runtimeIndex].mapM fun setting =>
      Inquiry.orFault (settings.text? setting)
    return places.filterMap id
  | _ => return []

/-- The statuses with which a program ends. -/
def succeeded : Nat := 0
def failed : Nat := 1
def misused : Nat := 2

def BreakRequest.perform (request : BreakRequest) : Work Nat := do
  let found ← Work.inquire do
    let settings ← Settings.load request.root
    Inquiry.orFault (request.options (← read).cwd settings)
  match found with
  | .error event =>
    Work.tell event
    return failed
  | .ok options => return if ← tryBreakCycles options then succeeded else failed

/-- Does work and tells a failure; the status at its end. -/
def status (work : Work Unit) : Work Nat := do
  try
    work
    return succeeded
  catch problem =>
    match problem with
    | .failure reason =>
      Work.tell (.failed reason)
      return failed
    | .fault _ => throw problem

/-- Does what a task asks for; the status at its end. -/
def Task.perform : Task → Work Nat
  | .breakCycles request => request.perform
  | .hoistImports source target => status (discard (hoistImportsOf source target))
  | .moveFolder root source target pattern =>
    status (discard (moveSources root source target pattern))
  | .unnamed => throw (.fault .pathNotText)

/-- Does what a command line asks for; the status at its end. -/
def Request.perform : Request → Work Nat
  | .stop .help => return succeeded
  | .stop .misuse => return misused
  | .work _ task => task.perform

end Command

end Disentangle
