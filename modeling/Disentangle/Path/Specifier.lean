import Disentangle.Path.Basic

/-!
Module specifiers: how the text in quotes after `from` names a file, and how a file is named
from another file. A specifier that begins with `./`, `../` or `/` names a file; anything else
names an external module and leads to no path.
-/

namespace Disentangle.Path

/-- The endings that make a specifier carry its extension already. -/
def knownExtensions : List Text :=
  [".ts", ".tsx", ".d.ts", ".js", ".jsx", ".mjs", ".cjs", ".json"].map String.toList

/-- A specifier is relative when it begins with `./` or `../`. -/
def isRelativeSpecifier (specifier : Text) : Bool :=
  specifier.startsWith "./".toList || specifier.startsWith "../".toList

/-- Whether a specifier already ends in an extension that importers may write. -/
def hasKnownExtension (specifier : Text) : Bool :=
  knownExtensions.any specifier.endsWith

/-- The file that `specifier` names in the file `source`; `.ts` is understood where no
extension is written. External modules have no file. -/
def resolveImport (cwd source specifier : Text) : Option Text :=
  if isRelativeSpecifier specifier || isAbsolute specifier then
    let file := if hasKnownExtension specifier then specifier else specifier ++ ".ts".toList
    some (standardize cwd (append (parent source) file))
  else
    none

/-- A path without its extension; `.d.ts` counts as one extension. -/
def stripExtension (path : Text) : Text :=
  if path.endsWith ".d.ts".toList then path.take (path.length - 5)
  else
    let name := lastName path
    path.take (path.length - name.length) ++ dropExtension name

/-- The specifier under which `base`, a file or a directory written with a slash at its end,
imports `target`. It always begins with `./` or `../`. An empty target names no file. -/
def relativeImport? (cwd base target : Text) (keepExtension : Bool) : Option Text :=
  if target.isEmpty then none
  else
    let directory := if base.getLast? = some '/' then base else parent base
    let route := relativeTo cwd target directory
    let route := if keepExtension then route else stripExtension route
    some (if isRelativeSpecifier route then route else "./".toList ++ route)

end Disentangle.Path
