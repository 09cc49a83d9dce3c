import Disentangle.Proofs.Path.Canonical
import Disentangle.Proofs.TypeScript.Tree

/-!
The exports of a record are those of its source, whatever their order and however often a name is
repeated, its path is canonical, and its imports are those that the nodes of the tree make, apart
from the mark that one of them is needed while the source is
loaded. -/

namespace Disentangle

namespace FileRecord

/-- What no step of a fold changes is what it was before. -/
theorem foldl_keeps {α β γ : Type} (part : α → γ) {step : α → β → α}
    (hstep : ∀ a b, part (step a b) = part a) (items : List β) (a : α) :
    part (items.foldl step a) = part a := by
  induction items generalizing a with
  | nil => rfl
  | cons b rest ih => rw [List.foldl_cons, ih, hstep]

variable {record : FileRecord} {name : Text}

/-- The names that a source exports. -/
def exportNames (record : FileRecord) : List Text := record.exports.map (·.name)

theorem path_addExport (symbol : ExportedSymbol) :
    (record.addExport symbol).path = record.path := rfl

theorem imports_addExport (symbol : ExportedSymbol) :
    (record.addExport symbol).imports = record.imports := rfl

@[simp] theorem path_foldl_addExport (symbols : List ExportedSymbol) :
    (symbols.foldl addExport record).path = record.path :=
  foldl_keeps path (fun _ symbol => path_addExport symbol) symbols record

@[simp] theorem imports_foldl_addExport (symbols : List ExportedSymbol) :
    (symbols.foldl addExport record).imports = record.imports :=
  foldl_keeps imports (fun _ symbol => imports_addExport symbol) symbols record

theorem mem_exports_addExport {symbol s : ExportedSymbol} :
    s ∈ (record.addExport symbol).exports ↔ s = symbol ∨ s ∈ record.exports := by
  cases h : symbol.isDefault <;> simp [addExport, h, or_comm]

theorem path_addDependency : (record.addDependency name).path = record.path := by
  unfold addDependency noteDependency
  split
  · rfl
  · split <;> rfl

theorem exports_addDependency :
    (record.addDependency name).exports = record.exports := by
  unfold addDependency noteDependency
  split
  · rfl
  · split <;> rfl

@[simp] theorem path_foldl_addDependency (names : List Text) :
    (names.foldl addDependency record).path = record.path :=
  foldl_keeps path (fun _ _ => path_addDependency) names record

@[simp] theorem exports_foldl_addDependency (names : List Text) :
    (names.foldl addDependency record).exports = record.exports :=
  foldl_keeps exports (fun _ _ => exports_addDependency) names record

theorem mem_exports_foldl_addExport {symbols : List ExportedSymbol} {s : ExportedSymbol} :
    s ∈ (symbols.foldl addExport record).exports ↔ s ∈ symbols ∨ s ∈ record.exports := by
  induction symbols generalizing record with
  | nil => simp
  | cons symbol rest ih =>
    rw [List.foldl_cons, ih, mem_exports_addExport, List.mem_cons, or_left_comm, or_assoc]

end FileRecord

namespace ImportLine

variable {cwd path : Text} {data : List UInt8} {node : TypeScript.SyntaxNode data}
  {line : ImportLine}

/-- The line without the mark that a value is computed from it. -/
def weak (line : ImportLine) : ImportLine :=
  { line with isStrong := false }

theorem start_eq {n : Nat} (h : line.offset = n) : line.start = n := by
  rw [start, h, Int.toNat_natCast]

theorem weak_withForm (form : TypeScript.ImportForm) :
    (line.withForm form).weak = line.weak.withForm form := by
  cases form <;> rfl

theorem weak_of_ofNode? (h : ofNode? cwd path node = some line) : line.weak = line := by
  unfold ofNode? at h
  split at h
  · cases h
    exact weak_withForm _
  · cases h

theorem resolvedPath_of_ofNode? (h : ofNode? cwd path node = some line) :
    line.resolvedPath = Path.resolveImport cwd path line.modulePath := by
  unfold ofNode? at h
  split at h
  next typeOnly form literal _ =>
    cases h
    cases form <;> rfl
  · cases h

/-- A node that makes an import line has a literal, and the line is read off the two spans. -/
theorem exists_literal_of_ofNode? (h : ofNode? cwd path node = some line) :
    ∃ literal : TypeScript.Literal node.span, line.offset = node.span.offset ∧
      line.text = node.span.text ∧ line.specifier = literal.text ∧
      line.modulePath = (literal.text.drop 1).dropLast := by
  unfold ofNode? at h
  split at h
  next typeOnly form literal _ =>
    cases h
    cases form <;> exact ⟨literal, rfl, rfl, rfl, rfl⟩
  · cases h

end ImportLine

namespace FileRecord

variable {record : FileRecord} {name path : Text} {imports : List ImportLine}
  {symbols : List ExportedSymbol} {names : List Text}

/-- That a name is needed leaves the imports as they are, apart from the mark. -/
theorem map_weak_addDependency :
    (record.addDependency name).imports.map ImportLine.weak =
      record.imports.map ImportLine.weak := by
  unfold addDependency noteDependency
  split
  · rfl
  · split
    · apply List.ext_getElem?
      intro i
      rw [List.getElem?_map, List.getElem?_map, List.getElem?_modify]
      split
      · cases record.imports[i]? <;> rfl
      · simp
    · rfl

@[simp] theorem path_collect : (collect path imports symbols names).path = path := by
  simp [collect]

theorem mem_exports_collect {s : ExportedSymbol} :
    s ∈ (collect path imports symbols names).exports ↔ s ∈ symbols := by
  simp [collect, mem_exports_foldl_addExport]

theorem map_weak_collect : (collect path imports symbols names).imports.map ImportLine.weak =
    imports.map ImportLine.weak := by
  rw [collect, foldl_keeps (fun record : FileRecord => record.imports.map ImportLine.weak)
    (fun _ _ => map_weak_addDependency), imports_foldl_addExport]

end FileRecord

namespace Extraction

variable {cwd path : Text} {data : List UInt8} {tree : TypeScript.SyntaxTree data}
  {line : ImportLine}

theorem path_ofTree : (ofTree cwd path tree).record.path = Path.standardize cwd path :=
  FileRecord.path_collect

/-- The record exports the names that are claimed while its source is read. -/
theorem mem_exportNames_ofTree {name : Text} :
    name ∈ (ofTree cwd path tree).record.exportNames ↔
      name ∈ (ofTree cwd path tree).exported.map (·.name) := by
  simp [ofTree, FileRecord.exportNames, FileRecord.mem_exports_collect]

/-- The imports of a record are the lines of its nodes, apart from the mark. -/
theorem map_weak_imports_ofTree : (ofTree cwd path tree).record.imports.map ImportLine.weak =
    tree.nodes.filterMap (ImportLine.ofNode? cwd (Path.standardize cwd path)) := by
  refine FileRecord.map_weak_collect.trans
    ((List.map_congr_left fun line hline => ?_).trans (List.map_id _))
  obtain ⟨node, -, hnode⟩ := List.mem_filterMap.mp hline
  exact ImportLine.weak_of_ofNode? hnode

theorem exists_node_of_mem_imports (h : line ∈ (ofTree cwd path tree).record.imports) :
    ∃ node ∈ tree.nodes,
      ImportLine.ofNode? cwd (Path.standardize cwd path) node = some line.weak := by
  have hweak := List.mem_map_of_mem (f := ImportLine.weak) h
  rw [map_weak_imports_ofTree, List.mem_filterMap] at hweak
  exact hweak

theorem resolvedPath_of_mem_ofTree (h : line ∈ (ofTree cwd path tree).record.imports) :
    line.resolvedPath = Path.resolveImport cwd (Path.standardize cwd path) line.modulePath := by
  obtain ⟨node, -, hnode⟩ := exists_node_of_mem_imports h
  have hresolved : line.weak.resolvedPath = _ := ImportLine.resolvedPath_of_ofNode? hnode
  exact hresolved

end Extraction

end Disentangle
