import Disentangle.Digest.Md5
import Disentangle.Index.Declaration
import Disentangle.Unicode.WordChar
import Disentangle.Utf8

/-!
The generated index for the running program: a module that requires every source with an export
that is there at run time, and passes its exports on. The module is wrapped so that it can be
loaded both by a module loader and by a previewing page.
-/

namespace Disentangle.Index

/-- What the index for the running program needs to know about its surroundings. -/
structure RuntimeOptions where
  /-- The path of the module when the program runs, put into the text as it is. -/
  distPath : Text
  /-- The path of the index of declarations from the top of the project. -/
  relativeIndexPath : Text
  outputPath : Option Text := none
  moduleId : Option Text := none

namespace RuntimeOptions

/-- An optional text that is there and not empty. -/
def given? : Option Text → Option Text
  | some (c :: rest) => some (c :: rest)
  | _ => none

/-- Where the module is written: beside the index of declarations unless said otherwise. -/
def output (cwd : Text) (options : RuntimeOptions) (indexPath : Text) : Text :=
  match given? options.outputPath with
  | some path => Path.standardize cwd path
  | none => Path.stripExtension (Path.standardize cwd indexPath) ++ ".js".toList

/-- The identity of the module: a digest of its path unless said otherwise. -/
def identity (options : RuntimeOptions) : Text :=
  match given? options.moduleId with
  | some id => id
  | none => (Md5.hexDigest (Utf8.encode options.distPath)).take 23

end RuntimeOptions

/-- The part of a path's last component before its first dot. -/
def stem (path : Text) : Text :=
  (Path.baseName path).takeWhile (· ≠ '.')

/-- A text as an identifier: characters that do not belong into a word become underscores, and
another underscore stands before a digit and for an empty text. -/
def identifier (t : Text) : Text :=
  match t.map fun c => if Unicode.isWordChar c then c else '_' with
  | [] => ['_']
  | c :: rest => if Unicode.isDigit c then '_' :: c :: rest else c :: rest

/-- An identifier with the number of its use behind it. -/
def numbered (name : Text) (count : Nat) : Text :=
  name ++ '_' :: Text.decimal count

/-- The aliases of the modules at `paths`. Equal identifiers are numbered from one on;
`used` are the identifiers that came before. -/
def aliases : List Text → List Text → List Text
  | _, [] => []
  | used, path :: rest =>
    let name := identifier (stem path)
    numbered name (used.count name + 1) :: aliases (name :: used) rest

/-- One source in the index: how it is required, and the names it binds. -/
structure RuntimeBlock where
  moduleAlias : Text
  specifier : Text
  /-- The exports that are there at run time. -/
  bindings : List ExportedSymbol
  deriving DecidableEq

/-- The statement that passes an export on. The default export is copied, any other one is read
when it is asked for. -/
def binding (moduleAlias : Text) (symbol : ExportedSymbol) : Text :=
  if symbol.isDefault then
    "exports.".toList ++ symbol.name ++ " = ".toList ++ moduleAlias ++ ".default;".toList
  else
    "Object.defineProperty(exports, \"".toList ++ symbol.name ++
      "\", \x7b enumerable: true, get: function () \x7b return ".toList ++ moduleAlias ++
      ".".toList ++ symbol.name ++ "; \x7d \x7d);".toList

def RuntimeBlock.render (block : RuntimeBlock) : Text :=
  Text.join ['\n']
    (("var ".toList ++ block.moduleAlias ++ " = require(\"".toList ++ block.specifier ++
      "\");".toList) :: block.bindings.map (binding block.moduleAlias))

/-- The blocks of the index at `indexPath`, in the order of the records. -/
def runtimeBlocks (cwd indexPath : Text) (records : List FileRecord) :
    Except Fault (List RuntimeBlock) :=
  let solid := records.filter (0 < ·.solidCount)
  (solid.zip (aliases [] (solid.map (·.path)))).mapM fun (record, moduleAlias) =>
    (importFrom cwd indexPath record.path).map fun specifier =>
      ⟨moduleAlias, specifier, (distinct [] record.exports).filter (!·.kind.isVirtual)⟩

def unlines (lines : List String) : Text :=
  lines.flatMap fun line => line.toList ++ ['\n']

/-- The text of the module in front of the blocks. -/
def moduleFront (options : RuntimeOptions) : Text :=
  let relativeIndex := options.relativeIndexPath.replaceChar '\\' '/'
  unlines
    ["(function() \x7b",
     "    var nodeEnv = typeof require !== 'undefined' && typeof process !== 'undefined';",
     "    var __module = nodeEnv ? module : \x7bexports:\x7b\x7d\x7d;"] ++
  "    var __filename = '".toList ++ options.distPath.replaceChar '\\' '/' ++
  unlines
    ["';",
     "    var __require = nodeEnv ? function (request) \x7b",
     "        return cc.require(request);",
     "    \x7d : function (request) \x7b",
     "        return __quick_compile_project__.require(request, __filename);",
     "    \x7d;",
     "    function __define (exports, require, module) \x7b",
     "        if (!nodeEnv) \x7b__quick_compile_project__.registerModule(__filename, module);\x7d\"use strict\";"] ++
  "cc._RF.push(module, '".toList ++ options.identity ++ "', '".toList ++
  Path.stripExtension (Path.baseName relativeIndex) ++
  unlines ["');"] ++
  "// ".toList ++ Path.tidy relativeIndex ++
  unlines
    ["",
     "Object.defineProperty(exports, \"__esModule\", \x7b value: true \x7d);",
     ""]

/-- The text of the module behind the blocks. -/
def moduleBack : Text :=
  unlines
    ["",
     "",
     "cc._RF.pop();",
     "    \x7d",
     "    if (nodeEnv) \x7b",
     "        __define(__module.exports, __require, __module);",
     "    \x7d",
     "    else \x7b",
     "        __quick_compile_project__.registerModuleFunc(__filename, function () \x7b",
     "            __define(__module.exports, __require, __module);",
     "        \x7d);",
     "    \x7d",
     "\x7d)();"]

/-- The text of the index for the running program. -/
def renderRuntime (cwd indexPath : Text) (records : List FileRecord) (options : RuntimeOptions) :
    Except Fault Text :=
  (runtimeBlocks cwd (Path.standardize cwd indexPath) records).map fun blocks =>
    moduleFront options ++ Text.join "\n\n".toList (blocks.map RuntimeBlock.render) ++ moduleBack

end Disentangle.Index
