import Disentangle.FileRecord
import Disentangle.Path.Specifier
import Disentangle.TypeScript.Reads
import Disentangle.TypeScript.Tree

/-!
From the syntax tree of a source to its record. The imports are collected first, so that the
names which are read at load time can be matched with the imports that bind them.
-/

namespace Disentangle

open TypeScript

/-- The kind of export that a declaration makes of its names. -/
def TypeScript.Declaration.kind : Declaration → ExportKind
  | .classDefinition _ => .classDefinition
  | .function _ => .function
  | .enumeration _ _ => .enumeration
  | .variables _ => .value
  | .interface _ => .interface
  | .typeAlias _ => .typeAlias

/-- The names that a declaration declares; a pattern has none. -/
def TypeScript.Declaration.names : Declaration → List (Option Text)
  | .classDefinition summary => [summary.name]
  | .function name => [name]
  | .enumeration name _ => [some name]
  | .variables declarators => declarators.map (·.name)
  | .interface name => [some name]
  | .typeAlias name => [some name]

/-- The names that a declaration reads while its source is loaded: those in initial values,
and the name at the left end of what a class extends. -/
def TypeScript.Declaration.reads : Declaration → List Text
  | .classDefinition summary =>
    (summary.base.bind (·.root?)).toList ++ readsOfAll summary.statics
  | .enumeration _ values => readsOfAll values
  | .variables declarators => readsOfAll (declarators.filterMap (·.value))
  | .function _ | .interface _ | .typeAlias _ => []

/-- The exports that an exported declaration makes. Of several variables only the first can be the
default export, and what has no name is not exported. -/
def TypeScript.Declaration.exports (isDefault : Bool) (declaration : Declaration) :
    List ExportedSymbol :=
  match declaration.names with
  | [] => []
  | first :: rest =>
    let symbol (isDefault : Bool) (name : Text) : ExportedSymbol :=
      ⟨name, declaration.kind, isDefault⟩
    (first.toList.map (symbol isDefault) ++ rest.filterMap (·.map (symbol false))).filter
      (!·.name.isEmpty)

namespace TypeScript.Item

variable {data : List UInt8} {span : Span data}

def exports : Item span → List ExportedSymbol
  | .declares true isDefault declaration => declaration.exports isDefault
  | _ => []

/-- The names that are read while the source is loaded. -/
def reads : Item span → List Text
  | .declares _ _ declaration => declaration.reads
  | _ => []

end TypeScript.Item

/-- The list of pairs with the value of `key` set. -/
def setAlias (key value : Text) : List (Text × Text) → List (Text × Text)
  | [] => [(key, value)]
  | (k, v) :: rest => if k = key then (k, value) :: rest else (k, v) :: setAlias key value rest

namespace ImportLine

/-- The exported names of those named bindings whose local name differs. -/
def aliasesOf (named : List (Text × Text)) : List (Text × Text) :=
  named.foldl (fun aliases (exported, name) =>
    if exported = name then aliases else setAlias name exported aliases) []

/-- The line with what an import of the given form binds. -/
def withForm (line : ImportLine) : ImportForm → ImportLine
  | .effect => line
  | .require name => { line with names := [name], hasDefault := true, isRequire := true }
  | .bindings default? namespaceName named =>
    { line with
      names := default?.toList ++ named.map Prod.snd
      hasDefault := default?.isSome
      namespaceName := namespaceName
      aliases := aliasesOf named }

/-- The import line that a node makes in the source at `path`. The module is what stands between the
quotes of the literal. -/
def ofNode? (cwd path : Text) {data : List UInt8} (node : SyntaxNode data) : Option ImportLine :=
  match node.item with
  | .imports typeOnly form literal =>
    let specifier := literal.text
    let modulePath := (specifier.drop 1).dropLast
    let line : ImportLine :=
      { modulePath
        resolvedPath := Path.resolveImport cwd path modulePath
        text := node.span.text
        offset := node.span.offset
        specifier
        typeOnly }
    some (line.withForm form)
  | _ => none

end ImportLine

/-- The record of the source at `path` with the given imports, which exports `symbols` and reads
`names`. -/
def FileRecord.collect (path : Text) (imports : List ImportLine) (symbols : List ExportedSymbol)
    (names : List Text) : FileRecord :=
  names.foldl addDependency (symbols.foldl addExport { path, imports })

/-- What a source says about itself. -/
structure Extraction where
  record : FileRecord
  /-- The exports in the order of the text. -/
  exported : List ExportedSymbol
  /-- The imports that a mistake leaves without a line, as they are written. -/
  flawed : List (ImportFlaw × Text)
  /-- Whether the source is free of mistakes. -/
  complete : Bool

namespace Extraction

/-- What the source at `path` with the given tree says about itself. -/
def ofTree (cwd path : Text) {data : List UInt8} (tree : SyntaxTree data) : Extraction :=
  let path := Path.standardize cwd path
  let exported := tree.nodes.flatMap (·.item.exports)
  { record := FileRecord.collect path (tree.nodes.filterMap (ImportLine.ofNode? cwd path)) exported
      (tree.nodes.flatMap (·.item.reads))
    exported
    flawed := tree.nodes.filterMap fun node =>
      match node.item with
      | .flawedImport flaw => some (flaw, node.span.text)
      | _ => none
    complete := tree.complete }

/-- What the source at `path` with the content `text` says about itself to a parser. -/
def parsedBy (parse : SourceParser) (cwd path text : Text) : Extraction :=
  ofTree cwd path (parse (usesJsx (Path.standardize cwd path)) text)

/-- What the source at `path` with the content `text` says about itself by the grammar. -/
def ofSource (cwd path text : Text) : Extraction :=
  parsedBy grammarParser cwd path text

/-- What a well-formed source says about itself. -/
def ofSource? (cwd path text : Text) : Option Extraction :=
  let found := ofSource cwd path text
  if found.complete then some found else none

end Extraction

end Disentangle
