import Disentangle.Failure

/-!
What the program tells about its work while it runs.
-/

namespace Disentangle

/-- How much a message matters. -/
inductive Level where
  | debug
  | info
  | warning
  | error
  deriving DecidableEq, Repr

namespace Level

def word : Level → Text
  | .debug => "DEBUG".toList
  | .info => "INFO".toList
  | .warning => "WARNING".toList
  | .error => "ERROR".toList

def rank : Level → Nat
  | .debug => 0
  | .info => 1
  | .warning => 2
  | .error => 3

end Level

/-- Something worth telling. -/
inductive Event where
  | malformedSource (path : Text)
  | importWithoutModule (path text : Text)
  | importWithoutName (path text : Text)
  | recordRead (path : Text) (exports imports dependencies : Nat)
  | readingSections (path : Text)
  | emptySource (path : Text)
  | hoistingImports (path : Text)
  | unmatchedImport (path : Text) (offset : Nat)
  | markersShareLine
  | endMarkerMissing
  | importRetargeted (path before after : Text)
  | importMoved (path modulePath : Text)
  | movingSources (count : Nat) (source target : Text)
  | sourcesUpdated (count : Nat)
  | readingSource (path : Text)
  | runStarted
  | sourcesFound (count : Nat)
  | indexChosen (path : Text)
  | entryChosen (path : Text)
  | tangleFound (paths : List Text)
  | dependencyNotFound (path name : Text)
  | importsRedirected (changed total : Nat)
  | indexWritten (path : Text)
  | runtimeIndexWritten (path : Text)
  | entryUpdated (path : Text)
  | failed (reason : Failure)
  | unknownSetting (key : Text)
  | settingsUnreadable (path : Text)
  | settingsRead (path : Text)
  | indexMissing
  | distPathMissing

namespace Event

def level : Event → Level
  | recordRead .. | readingSections .. | emptySource .. | unmatchedImport ..
  | importRetargeted .. | readingSource .. | dependencyNotFound .. | settingsRead .. => .debug
  | hoistingImports .. | movingSources .. | sourcesUpdated .. | runStarted | sourcesFound ..
  | indexChosen .. | entryChosen .. | importsRedirected .. | indexWritten ..
  | runtimeIndexWritten .. | entryUpdated .. => .info
  | malformedSource .. | importWithoutModule .. | importWithoutName .. | markersShareLine
  | endMarkerMissing | importMoved .. | unknownSetting .. | settingsUnreadable .. => .warning
  | tangleFound .. | failed .. | indexMissing | distPathMissing => .error

def message : Event → Text
  | malformedSource path => path ++ ": syntax errors, extracting from the recovered tree".toList
  | importWithoutModule path text =>
    path ++ ": import without module specifier: ".toList ++ text
  | importWithoutName path text => path ++ ": parse require line failed: ".toList ++ text
  | recordRead path exports imports dependencies =>
    path ++ ": ".toList ++ Text.decimal exports ++ " exports, ".toList ++
      Text.decimal imports ++ " imports, ".toList ++ Text.decimal dependencies ++
      " strong dependencies".toList
  | readingSections path => "extract sections: ".toList ++ path
  | emptySource path => "empty source file: ".toList ++ path
  | hoistingImports path => "swin imports: ".toList ++ path
  | unmatchedImport path offset =>
    path ++ ": unmatched import at offset ".toList ++ Text.decimal offset
  | markersShareLine => "safeguard markers share one line, adding a new block".toList
  | endMarkerMissing => "safeguard end marker missing, adding a new block".toList
  | importRetargeted path before after =>
    path ++ ": ".toList ++ before ++ " -> ".toList ++ after
  | importMoved path modulePath =>
    path ++ ": import moved under us, skipped: ".toList ++ modulePath
  | movingSources count source target =>
    "move ".toList ++ Text.decimal count ++ " sources: ".toList ++ source ++ " -> ".toList ++
      target
  | sourcesUpdated count => "sources updated: ".toList ++ Text.decimal count
  | readingSource path => "process source: ".toList ++ path
  | runStarted => "circular breaker start..".toList
  | sourcesFound count => "typescript source count: ".toList ++ Text.decimal count
  | indexChosen path => "index file: ".toList ++ path
  | entryChosen path => "entry file: ".toList ++ path
  | tangleFound paths => "dependency tangle:\n  ".toList ++ Text.join "\n  ".toList paths
  | dependencyNotFound path name =>
    "dependent not found: ".toList ++ path ++ " -> ".toList ++ name
  | importsRedirected changed total =>
    "sources rewritten: ".toList ++ Text.decimal changed ++ " of ".toList ++ Text.decimal total
  | indexWritten path => "index written: ".toList ++ path
  | runtimeIndexWritten path => "runtime index written: ".toList ++ path
  | entryUpdated path => "entry file updated: ".toList ++ path
  | failed reason => reason.message
  | unknownSetting key => "unknown config key ignored: ".toList ++ key
  | settingsUnreadable path => "ignoring unreadable config ".toList ++ path
  | settingsRead path => "config loaded from ".toList ++ path
  | indexMissing => "no index file given (--index or 'index' in config)".toList
  | distPathMissing => "a runtime index needs --dist-path".toList

end Event

end Disentangle
