import Disentangle.Failure
import Disentangle.Files.Tree
import Disentangle.Files.Wildcard

/-!
Searching a directory, at any depth, for the paths that a pattern describes. A pattern has
components between slashes; each fits a name as a `Wildcard` does, and `**` fits directories at
any depth. A path is found as the steps that lead to it from the directory where the search
begins, and `..` in a pattern stays in them.
-/

namespace Disentangle

/-- One component of a search pattern. -/
inductive SearchStep where
  /-- Any number of directories, also none. -/
  | anyDepth
  | fitting (pattern : List Wildcard)
  | exactly (name : Text)
  /-- What has been found so far has to be a directory. -/
  | directoryOnly

namespace SearchStep

/-- Whether a component holds a character with a meaning of its own. -/
def isWild (component : Text) : Bool :=
  component.any fun c => c = '*' || c = '?' || c = '['

/-- The step for a component; `**` has to stand alone. -/
def ofComponent (component : Text) : Except Fault SearchStep :=
  if component = "**".toList then .ok .anyDepth
  else if (Text.positionOf? "**".toList component).isSome then .error .mixedRecursivePattern
  else if isWild component then .ok (.fitting (Wildcard.parse component.length component))
  else .ok (.exactly component)

/-- The steps of a pattern, which may not begin at the root. A slash at its end asks for
directories. -/
def ofPattern (pattern : Text) : Except Fault (List SearchStep) :=
  if Path.isAbsolute pattern then .error .absolutePattern
  else do
    let steps ← (Path.components pattern).mapM ofComponent
    return if pattern.getLast? = some '/' then steps ++ [.directoryOnly] else steps

end SearchStep

namespace FileTree

/-- The location that steps lead to; the root if they lead nowhere. -/
def placeOf (tree : FileTree) (steps : List Text) : Location :=
  match tree.locate steps with
  | .ok place => place
  | .error _ => []

/-- The paths that `pattern` describes below the directory at `base`, as steps from there that
begin with `found`. -/
def select (tree : FileTree) (base : List Text) :
    List SearchStep → List Text → List (List Text)
  | [], found => [found]
  | step :: rest, found =>
    let enters (steps : List Text) : Bool :=
      if rest.isEmpty then tree.has (base ++ steps) else tree.hasDirectory (base ++ steps)
    match step with
    | .anyDepth =>
      (tree.directoriesBelow (tree.placeOf (base ++ found))).flatMap fun deeper =>
        tree.select base rest (found ++ deeper)
    | .fitting pattern =>
      ((tree.children (tree.placeOf (base ++ found))).filter (Wildcard.fitsAll pattern)).flatMap
        fun name => if enters (found ++ [name]) then tree.select base rest (found ++ [name]) else []
    | .exactly name =>
      if enters (found ++ [name]) then tree.select base rest (found ++ [name]) else []
    | .directoryOnly =>
      if tree.hasDirectory (base ++ found) then tree.select base rest found else []

/-- The files that `pattern` describes at any depth below the directory at `base`, as steps from
there, in the order of a search that may meet one more than once. -/
def filesMatching (tree : FileTree) (base : List Text) (pattern : Text) :
    Except Fault (List (List Text)) := do
  let steps ← SearchStep.ofPattern pattern
  if !tree.hasDirectory base then return []
  return ((tree.select base (.anyDepth :: steps) []).eraseDups).filter fun found =>
    tree.hasFile (base ++ found)

end FileTree

/-- Sorted lists of texts and of paths. -/
def insertSorted {α : Type} (le : α → α → Bool) (a : α) : List α → List α
  | [] => [a]
  | b :: rest => if le a b then a :: b :: rest else b :: insertSorted le a rest

/-- The items of a list in the order `le`; equal ones keep their order. -/
def sortBy {α : Type} (le : α → α → Bool) (items : List α) : List α :=
  items.foldr (insertSorted le) []

/-- The order of paths by their steps, one after another. -/
def stepsLe : List Text → List Text → Bool
  | [], _ => true
  | _ :: _, [] => false
  | a :: as, b :: bs => if a = b then stepsLe as bs else a.le b

end Disentangle
