import Disentangle.Path.Basic

/-!
A tree of files and directories, without permissions or links. A location is the list of names
from the root down; the root itself is a directory that is always there. A path leads to a
location step by step, so `..` asks for the parent of a directory that exists.
-/

namespace Disentangle

/-- A place in a tree: the names from the root down. -/
abbrev Location := List Text

/-- What stands at a place. -/
inductive Node where
  | directory
  | file (content : List UInt8)
  deriving DecidableEq

/-- Why a tree refuses an operation. -/
inductive Refusal where
  | missing
  | isDirectory
  | notDirectory
  | exists
  deriving DecidableEq, Repr

def Refusal.message : Refusal → Text
  | missing => "No such file or directory".toList
  | isDirectory => "Is a directory".toList
  | notDirectory => "Not a directory".toList
  | .exists => "File exists".toList

/-- The files and directories below the root. -/
structure FileTree where
  entries : List (Location × Node)

namespace FileTree

/-- What stands at a location. -/
def node? (tree : FileTree) (place : Location) : Option Node :=
  if place = [] then some .directory else tree.entries.lookup place

/-- One step of a path from a location, which has to be a directory. -/
def step (tree : FileTree) (start : Location) (name : Text) : Except Refusal Location :=
  match tree.node? start with
  | none => .error .missing
  | some (.file _) => .error .notDirectory
  | some .directory => .ok (if name = ['.', '.'] then start.dropLast else start ++ [name])

/-- Where the steps of a path lead from the root. What stands there may be missing. -/
def locate (tree : FileTree) (steps : List Text) : Except Refusal Location :=
  steps.foldlM tree.step []

/-- What a path leads to. -/
def find (tree : FileTree) (steps : List Text) : Except Refusal Node := do
  match tree.node? (← tree.locate steps) with
  | some node => return node
  | none => throw .missing

def has (tree : FileTree) (steps : List Text) : Bool :=
  (tree.find steps).toOption.isSome

def hasDirectory (tree : FileTree) (steps : List Text) : Bool :=
  (tree.find steps).toOption = some .directory

def hasFile (tree : FileTree) (steps : List Text) : Bool :=
  match (tree.find steps).toOption with
  | some (.file _) => true
  | _ => false

/-- The content of the file that a path leads to. -/
def read (tree : FileTree) (steps : List Text) : Except Refusal (List UInt8) := do
  match ← tree.find steps with
  | .file content => return content
  | .directory => throw .isDirectory

/-- Sets what stands at a location in a list of entries. -/
def setEntry (place : Location) (node : Node) :
    List (Location × Node) → List (Location × Node)
  | [] => [(place, node)]
  | (key, old) :: rest =>
    if key = place then (key, node) :: rest else (key, old) :: setEntry place node rest

def set (tree : FileTree) (place : Location) (node : Node) : FileTree :=
  ⟨setEntry place node tree.entries⟩

def erase (tree : FileTree) (place : Location) : FileTree :=
  ⟨tree.entries.filter (·.1 ≠ place)⟩

/-- Makes a directory where a path leads. -/
def makeDirectory (tree : FileTree) (steps : List Text) : Except Refusal FileTree := do
  let place ← tree.locate steps
  match tree.node? place with
  | some _ => throw .exists
  | none => return tree.set place .directory

/-- Makes a directory where a path leads, unless there is one. -/
def makeDirectoryIfNone (tree : FileTree) (steps : List Text) : Except Refusal FileTree :=
  match tree.makeDirectory steps with
  | .ok tree => .ok tree
  | .error reason => if tree.hasDirectory steps then .ok tree else .error reason

/-- Makes a directory where a path leads, and those above it that are missing. The steps are
given from the last one back to the first. What was made before a refusal stays. -/
def makeDirectories (tree : FileTree) : List Text → FileTree × Option Refusal
  | [] => (tree, none)
  | name :: above =>
    let steps := (name :: above).reverse
    match tree.makeDirectoryIfNone steps with
    | .ok made => (made, none)
    | .error .missing =>
      match tree.makeDirectories above with
      | (tree, some refusal) => (tree, some refusal)
      | (tree, none) =>
        match tree.makeDirectoryIfNone steps with
        | .ok made => (made, none)
        | .error refusal => (tree, some refusal)
    | .error refusal => (tree, some refusal)

/-- Puts a file where a path leads, into a directory that is there. -/
def putFile (tree : FileTree) (steps : List Text) (content : List UInt8) :
    Except Refusal FileTree := do
  let place ← tree.locate steps
  match tree.node? place with
  | some .directory => throw .isDirectory
  | _ => return tree.set place (.file content)

/-- Writes a file where a path leads. Missing directories above it are made first; they stay also
where the file itself is refused. -/
def write (tree : FileTree) (steps : List Text) (content : List UInt8) :
    FileTree × Option Refusal :=
  match tree.makeDirectories steps.reverse.tail with
  | (tree, some refusal) => (tree, some refusal)
  | (tree, none) =>
    match tree.putFile steps content with
    | .ok tree => (tree, none)
    | .error refusal => (tree, some refusal)

def remove (tree : FileTree) (steps : List Text) : FileTree × Option Refusal :=
  match tree.locate steps with
  | .error refusal => (tree, some refusal)
  | .ok place =>
    match tree.node? place with
    | some (.file _) => (tree.erase place, none)
    | some .directory => (tree, some .isDirectory)
    | none => (tree, some .missing)

/-- The names of what stands directly in the directory at a location. -/
def children (tree : FileTree) (place : Location) : List Text :=
  tree.entries.filterMap fun (key, _) =>
    if key.dropLast = place then key.getLast? else none

/-- The locations of the directories at and below a location, as steps from it. -/
def directoriesBelow (tree : FileTree) (place : Location) : List (List Text) :=
  [] :: tree.entries.filterMap fun (key, node) =>
    if node = .directory ∧ place.isPrefixOf key ∧ key ≠ place then some (key.drop place.length)
    else none

/-- Adds a list of steps to others, longer ones first. -/
def insertByDepth (steps : List Text) : List (List Text) → List (List Text)
  | [] => [steps]
  | other :: rest =>
    if other.length < steps.length then steps :: other :: rest
    else other :: insertByDepth steps rest

/-- Removes the directories at and below a location that hold nothing, inner ones first. -/
def pruneEmpty (tree : FileTree) (place : Location) : FileTree :=
  ((tree.directoriesBelow place).foldr insertByDepth []).foldl (fun tree steps =>
    if (tree.children (place ++ steps)).isEmpty then tree.erase (place ++ steps) else tree) tree

end FileTree

end Disentangle
