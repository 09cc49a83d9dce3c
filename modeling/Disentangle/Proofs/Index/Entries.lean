import Disentangle.Index.RuntimeModule
import Disentangle.Proofs.Extraction
import Disentangle.Proofs.Lists

/-!
What stands in the generated indexes. A line of the index of declarations belongs to one record and
lists each name that this record exports once; the lines follow the order of the records. The
blocks of the index for the running program do so too, for the records that have something to run.
-/

namespace Disentangle.Index

variable {cwd indexPath : Text} {record : FileRecord} {records : List FileRecord}

/-- The names that a line lists. -/
def Reexport.names (line : Reexport) : List Text := line.symbols.map (·.name)

theorem mem_names_distinct {seen : List Text} {symbols : List ExportedSymbol} {n : Text} :
    n ∈ (distinct seen symbols).map (·.name) ↔ n ∈ symbols.map (·.name) ∧ n ∉ seen := by
  induction symbols generalizing seen with
  | nil => simp [distinct]
  | cons symbol rest ih =>
    rw [distinct]
    split
    next hseen =>
      have hmem : symbol.name ∈ seen := by simpa using hseen
      rw [ih, List.map_cons, List.mem_cons]
      constructor
      · rintro ⟨hn, hfresh⟩
        exact ⟨Or.inr hn, hfresh⟩
      · rintro ⟨rfl | hn, hfresh⟩
        · exact absurd hmem hfresh
        · exact ⟨hn, hfresh⟩
    next hseen =>
      have hfresh : symbol.name ∉ seen := by simpa using hseen
      rw [List.map_cons, List.mem_cons, ih, List.map_cons, List.mem_cons, List.mem_cons]
      by_cases hn : n = symbol.name
      · simp [hn, hfresh]
      · simp [hn]

theorem nodup_names_distinct (seen : List Text) (symbols : List ExportedSymbol) :
    ((distinct seen symbols).map (·.name)).Nodup := by
  induction symbols generalizing seen with
  | nil => simp [distinct]
  | cons symbol rest ih =>
    rw [distinct]
    split
    · exact ih seen
    · rw [List.map_cons, List.nodup_cons]
      refine ⟨?_, ih _⟩
      intro hmem
      exact (mem_names_distinct.mp hmem).2 List.mem_cons_self

theorem importFrom_eq_ok_iff {base target specifier : Text} :
    importFrom cwd base target = .ok specifier ↔
      Path.relativeImport? cwd base target false = some specifier := by
  rw [importFrom]
  cases Path.relativeImport? cwd base target false <;> simp

theorem exists_importFrom (cwd base : Text) {target : Text} (h : target ≠ []) :
    ∃ specifier, importFrom cwd base target = .ok specifier := by
  simp [importFrom, Path.relativeImport?, h]

/-- The line for a source, where it exports anything, lists its distinct exports. -/
theorem reexport?_eq_ok_iff {line? : Option Reexport} :
    reexport? cwd indexPath record = .ok line? ↔
      if record.exports = [] then line? = none
      else ∃ specifier, importFrom cwd indexPath record.path = .ok specifier ∧
        line? = some ⟨distinct [] record.exports, specifier⟩ := by
  rw [reexport?]
  cases hexports : record.exports with
  | nil => simp [distinct, eq_comm]
  | cons symbol rest =>
    cases importFrom cwd indexPath record.path <;> simp [distinct, Except.map, eq_comm]

theorem exists_reexport? (cwd indexPath : Text) (hpath : record.path ≠ []) :
    ∃ line?, reexport? cwd indexPath record = .ok line? := by
  obtain ⟨specifier, himport⟩ := exists_importFrom cwd indexPath hpath
  simp only [reexport?_eq_ok_iff]
  split
  · exact ⟨none, rfl⟩
  · exact ⟨_, specifier, himport, rfl⟩

/-- A line that passes on what a record exports: each name once, from the file of the record. -/
structure Reexport.IsFor (cwd indexPath : Text) (record : FileRecord) (line : Reexport) :
    Prop where
  once : line.names.Nodup
  names : ∀ n, n ∈ line.names ↔ n ∈ record.exportNames
  exported : line.symbols ⊆ record.exports
  specifier : Path.relativeImport? cwd indexPath record.path false = some line.specifier

theorem distinct_sublist (seen : List Text) (symbols : List ExportedSymbol) :
    (distinct seen symbols).Sublist symbols := by
  induction symbols generalizing seen with
  | nil => exact .slnil
  | cons symbol rest ih =>
    rw [distinct]
    split
    · exact (ih seen).cons symbol
    · exact (ih _).cons_cons symbol

theorem isFor_of_reexport? {line : Reexport}
    (h : reexport? cwd indexPath record = .ok (some line)) :
    line.IsFor cwd indexPath record := by
  rw [reexport?_eq_ok_iff] at h
  split at h
  · cases h
  · obtain ⟨specifier, himport, heq⟩ := h
    cases heq
    refine ⟨nodup_names_distinct [] record.exports, fun n => ?_,
      (distinct_sublist [] record.exports).subset, importFrom_eq_ok_iff.mp himport⟩
    rw [Reexport.names, mem_names_distinct]
    simp [FileRecord.exportNames]

/-- The line of a record in the index at a path, if it has one. -/
def lineOf? (cwd indexPath : Text) (record : FileRecord) : Option Reexport :=
  (reexport? cwd indexPath record).toOption.join

theorem lineOf?_eq_some_iff {line : Reexport} :
    lineOf? cwd indexPath record = some line ↔
      reexport? cwd indexPath record = .ok (some line) := by
  rw [lineOf?]
  cases reexport? cwd indexPath record <;> simp [Except.toOption]

/-- Every name that a record exports stands on its line. -/
theorem exists_lineOf?_of_mem_exportNames (cwd indexPath : Text) (hpath : record.path ≠ [])
    {n : Text} (h : n ∈ record.exportNames) :
    ∃ line, lineOf? cwd indexPath record = some line ∧ n ∈ line.names := by
  obtain ⟨line?, hline⟩ := exists_reexport? cwd indexPath hpath
  cases line? with
  | some line =>
    exact ⟨line, lineOf?_eq_some_iff.mpr hline, ((isFor_of_reexport? hline).names n).mpr h⟩
  | none =>
    rw [reexport?_eq_ok_iff] at hline
    split at hline
    next hnil => simp [FileRecord.exportNames, hnil] at h
    next => simp at hline

/-- The lines of the index follow the records. -/
theorem reexports_eq_ok {lines : List Reexport}
    (h : reexports cwd indexPath records = .ok lines) :
    lines = records.filterMap (lineOf? cwd indexPath) := by
  rw [reexports] at h
  cases hfound : records.mapM (reexport? cwd indexPath) with
  | error e => simp [hfound, Except.map] at h
  | ok found =>
    simp only [hfound, Except.map, Except.ok.injEq] at h
    subst h
    have hall := mapM_eq_ok_iff.mp hfound
    clear hfound
    induction hall with
    | nil => rfl
    | cons hline _ ih =>
      rw [List.filterMap_cons, List.filterMap_cons, ih, lineOf?, hline]
      rfl

theorem exists_reexports (cwd indexPath : Text) (hpaths : ∀ record ∈ records, record.path ≠ []) :
    ∃ lines, reexports cwd indexPath records = .ok lines := by
  obtain ⟨found, hfound⟩ := exists_mapM_eq_ok fun record hrecord =>
    exists_reexport? cwd indexPath (hpaths record hrecord)
  exact ⟨found.filterMap id, by rw [reexports, hfound]; rfl⟩

/-- How a line is written: between the braces stand the names, one behind the other, and that of a
default export as such. -/
def Reexport.WrittenAs (line : Reexport) (text : Text) : Prop :=
  text = "export \x7b ".toList ++
    Text.join ", ".toList (line.symbols.map fun symbol =>
      if symbol.isDefault then "default as ".toList ++ symbol.name else symbol.name) ++
    " \x7d from '".toList ++ line.specifier ++ "';".toList

/-- The text of an index of declarations: behind its header it has a line for each of the records
that export anything, in their order. -/
structure IsDeclarationIndex (cwd indexPath : Text) (records : List FileRecord)
    (lines : List Reexport) (text : Text) : Prop where
  each : List.Forall₂ (Reexport.IsFor cwd indexPath) (records.filter (!·.exports.isEmpty)) lines
  written : ∃ texts, List.Forall₂ Reexport.WrittenAs lines texts ∧
    text = declarationHeader ++ '\n' :: texts.flatMap (· ++ ['\n'])

/-- Lines that are joined each end with a line break. -/
theorem join_lines (first : Text) (rest : List Text) :
    Text.join ['\n'] (first :: rest) ++ ['\n'] = first ++ '\n' :: rest.flatMap (· ++ ['\n']) := by
  induction rest generalizing first with
  | nil => simp [Text.join]
  | cons next rest ih =>
    rw [Text.join, List.append_assoc, List.append_assoc, ih next]
    · simp
    · exact List.cons_ne_nil next rest

theorem renderDeclaration_eq_ok_iff {text : Text} :
    renderDeclaration cwd indexPath records = .ok text ↔
      ∃ lines, reexports cwd (Path.standardize cwd indexPath) records = .ok lines ∧
        text = Text.join ['\n'] (declarationHeader :: lines.map Reexport.render) ++ ['\n'] := by
  rw [renderDeclaration]
  cases reexports cwd (Path.standardize cwd indexPath) records <;> simp [Except.map, eq_comm]

theorem isDeclarationIndex_of_reexports {lines : List Reexport}
    (h : reexports cwd indexPath records = .ok lines) :
    IsDeclarationIndex cwd indexPath records lines
      (Text.join ['\n'] (declarationHeader :: lines.map Reexport.render) ++ ['\n']) := by
  refine ⟨?_, lines.map Reexport.render, ?_, join_lines _ _⟩
  · rw [reexports] at h
    cases hfound : records.mapM (reexport? cwd indexPath) with
    | error e => simp [hfound, Except.map] at h
    | ok found =>
      simp only [hfound, Except.map, Except.ok.injEq] at h
      subst h
      have hall := mapM_eq_ok_iff.mp hfound
      clear hfound
      induction hall with
      | nil => exact .nil
      | @cons record line? _ _ hline _ ih =>
        cases line? with
        | none =>
          have hnone : record.exports = [] := by
            rw [reexport?_eq_ok_iff] at hline
            split at hline
            next hnil => exact hnil
            next => simp at hline
          rwa [List.filter_cons_of_neg (by simp [hnone]), List.filterMap_cons_none rfl]
        | some line =>
          have hsome : record.exports ≠ [] := by
            intro hnil
            simp [reexport?_eq_ok_iff, hnil] at hline
          rw [List.filter_cons_of_pos (by simp [hsome])]
          exact .cons (isFor_of_reexport? hline) ih
  · rw [List.forall₂_map_right_iff]
    exact List.forall₂_same.mpr fun line _ => rfl

/-- An index that is rendered has a line for each of the records that export anything. -/
theorem exists_isDeclarationIndex {text : Text}
    (h : renderDeclaration cwd indexPath records = .ok text) :
    ∃ lines, IsDeclarationIndex cwd (Path.standardize cwd indexPath) records lines text := by
  obtain ⟨lines, hlines, rfl⟩ := renderDeclaration_eq_ok_iff.mp h
  exact ⟨lines, isDeclarationIndex_of_reexports hlines⟩

/-- A block that requires the file of a record and binds what it has at run time. -/
structure RuntimeBlock.IsOf (cwd indexPath : Text) (record : FileRecord) (block : RuntimeBlock) :
    Prop where
  specifier : importFrom cwd indexPath record.path = .ok block.specifier
  bindings : block.bindings = (distinct [] record.exports).filter (!·.kind.isVirtual)

/-- The block of a record in the index at a path. A record of which nothing is there at run time
has none. -/
def IsBlockOf (cwd indexPath : Text) (record : FileRecord) : Option RuntimeBlock → Prop
  | some block => 0 < record.solidCount ∧ RuntimeBlock.IsOf cwd indexPath record block
  | none => ¬ 0 < record.solidCount

/-- What stands in the text of an index for one record: the module that is required under an alias,
and the statements that follow. -/
structure RuntimePart where
  moduleAlias : Text
  specifier : Text
  statements : List Text

def RuntimePart.text (part : RuntimePart) : Text :=
  Text.join ['\n'] (("var ".toList ++ part.moduleAlias ++ " = require(\"".toList ++
    part.specifier ++ "\");".toList) :: part.statements)

/-- Whether a statement binds a name to what a module exports under it, or by default. -/
def Binds (moduleAlias name statement : Text) : Prop :=
  statement = "exports.".toList ++ (name ++ (" = ".toList ++ moduleAlias ++ ".default;".toList)) ∨
  statement = "Object.defineProperty(exports, \"".toList ++ (name ++
    ("\", \x7b enumerable: true, get: function () \x7b return ".toList ++ moduleAlias ++
      ".".toList ++ (name ++ "; \x7d \x7d);".toList)))

instance (moduleAlias name statement : Text) : Decidable (Binds moduleAlias name statement) :=
  inferInstanceAs (Decidable (_ ∨ _))

/-- What an index has for a record of which something is there at run time: its file is required,
and each statement binds a name that it exports. -/
def IsPartOf (cwd indexPath : Text) (record : FileRecord) : Option RuntimePart → Prop
  | some part => 0 < record.solidCount ∧
      Path.relativeImport? cwd indexPath record.path false = some part.specifier ∧
      ∀ statement ∈ part.statements, ∃ name ∈ record.exportNames,
        Binds part.moduleAlias name statement
  | none => ¬ 0 < record.solidCount

/-- The text of an index for the running program: what it has for the records stands in it in their
order. -/
structure IsRuntimeIndex (cwd indexPath : Text) (records : List FileRecord)
    (options : RuntimeOptions) (parts : List (Option RuntimePart)) (text : Text) : Prop where
  each : List.Forall₂ (IsPartOf cwd indexPath) records parts
  written : text = moduleFront options ++
    Text.join "\n\n".toList ((parts.filterMap id).map RuntimePart.text) ++ moduleBack

theorem binds_binding (moduleAlias : Text) (symbol : ExportedSymbol) :
    Binds moduleAlias symbol.name (binding moduleAlias symbol) := by
  unfold binding Binds
  split
  · exact .inl (by simp only [List.append_assoc])
  · exact .inr (by simp only [List.append_assoc])

/-- The text of a block. -/
def RuntimeBlock.part (block : RuntimeBlock) : RuntimePart :=
  ⟨block.moduleAlias, block.specifier, block.bindings.map (binding block.moduleAlias)⟩

theorem IsBlockOf.isPartOf {block? : Option RuntimeBlock}
    (h : IsBlockOf cwd indexPath record block?) :
    IsPartOf cwd indexPath record (block?.map RuntimeBlock.part) := by
  cases block? with
  | none => exact h
  | some block =>
    refine ⟨h.1, importFrom_eq_ok_iff.mp h.2.specifier, fun statement hstatement => ?_⟩
    obtain ⟨symbol, hsymbol, rfl⟩ := List.mem_map.mp hstatement
    refine ⟨symbol.name, ?_, binds_binding _ symbol⟩
    rw [h.2.bindings] at hsymbol
    exact List.mem_map_of_mem ((distinct_sublist _ _).subset (List.mem_filter.mp hsymbol).1)

@[simp] theorem length_aliases (used paths : List Text) :
    (aliases used paths).length = paths.length := by
  induction paths generalizing used with
  | nil => rfl
  | cons path rest ih => simp [aliases, ih]

theorem map_fst_zip_aliases (records : List FileRecord) :
    (records.zip (aliases [] (records.map (·.path)))).map Prod.fst = records :=
  List.map_fst_zip (by simp)

/-- The blocks of the index follow the records that have something at run time and their
aliases. -/
theorem forall₂_runtimeBlocks {blocks : List RuntimeBlock}
    (h : runtimeBlocks cwd indexPath records = .ok blocks) :
    List.Forall₂ (fun entry block =>
        RuntimeBlock.IsOf cwd indexPath entry.1 block ∧ block.moduleAlias = entry.2)
      ((records.filter (0 < ·.solidCount)).zip
        (aliases [] ((records.filter (0 < ·.solidCount)).map (·.path)))) blocks := by
  rw [runtimeBlocks, mapM_eq_ok_iff] at h
  refine h.imp ?_
  rintro ⟨record, moduleAlias⟩ block hblock
  cases himport : importFrom cwd indexPath record.path with
  | error e => simp [himport, Except.map] at hblock
  | ok specifier =>
    simp only [himport, Except.map, Except.ok.injEq] at hblock
    subst hblock
    exact ⟨⟨himport, rfl⟩, rfl⟩

theorem runtimeBlocks_eq_ok {blocks : List RuntimeBlock}
    (h : runtimeBlocks cwd indexPath records = .ok blocks) :
    List.Forall₂ (RuntimeBlock.IsOf cwd indexPath) (records.filter (0 < ·.solidCount))
      blocks := by
  have hsolid := map_fst_zip_aliases (records.filter (0 < ·.solidCount))
  rw [← hsolid, List.forall₂_map_left_iff]
  exact (forall₂_runtimeBlocks h).imp fun _ _ hblock => hblock.1

theorem exists_blocks_of_filter {blocks : List RuntimeBlock}
    (h : List.Forall₂ (RuntimeBlock.IsOf cwd indexPath) (records.filter (0 < ·.solidCount))
      blocks) :
    ∃ found : List (Option RuntimeBlock), found.filterMap id = blocks ∧
      List.Forall₂ (IsBlockOf cwd indexPath) records found := by
  induction records generalizing blocks with
  | nil =>
    cases h
    exact ⟨[], rfl, .nil⟩
  | cons record rest ih =>
    by_cases hsolid : 0 < record.solidCount
    · rw [List.filter_cons_of_pos (by simpa using hsolid)] at h
      cases h with
      | cons hblock hrest =>
        obtain ⟨found, rfl, hfound⟩ := ih hrest
        exact ⟨some _ :: found, rfl, .cons ⟨hsolid, hblock⟩ hfound⟩
    · rw [List.filter_cons_of_neg (by simpa using hsolid)] at h
      obtain ⟨found, rfl, hfound⟩ := ih h
      exact ⟨none :: found, rfl, .cons hsolid hfound⟩

theorem renderRuntime_eq_ok_iff {options : RuntimeOptions} {text : Text} :
    renderRuntime cwd indexPath records options = .ok text ↔
      ∃ blocks, runtimeBlocks cwd (Path.standardize cwd indexPath) records = .ok blocks ∧
        text = moduleFront options ++
          Text.join "\n\n".toList (blocks.map RuntimeBlock.render) ++ moduleBack := by
  rw [renderRuntime]
  cases runtimeBlocks cwd (Path.standardize cwd indexPath) records <;> simp [Except.map, eq_comm]

/-- An index that is rendered has the blocks of the records, and these make up its text. -/
theorem exists_isRuntimeIndex {options : RuntimeOptions} {text : Text}
    (h : renderRuntime cwd indexPath records options = .ok text) :
    ∃ found : List (Option RuntimeBlock),
      List.Forall₂ (IsBlockOf cwd (Path.standardize cwd indexPath)) records found ∧
      IsRuntimeIndex cwd (Path.standardize cwd indexPath) records options
        (found.map (Option.map RuntimeBlock.part)) text := by
  obtain ⟨blocks, hblocks, rfl⟩ := renderRuntime_eq_ok_iff.mp h
  obtain ⟨found, rfl, hfound⟩ := exists_blocks_of_filter (runtimeBlocks_eq_ok hblocks)
  refine ⟨found, hfound, ?_, ?_⟩
  · rw [List.forall₂_map_right_iff]
    exact hfound.imp fun _ _ hblock => hblock.isPartOf
  · have hparts : (found.map (Option.map RuntimeBlock.part)).filterMap id =
        (found.filterMap id).map RuntimeBlock.part := by
      rw [List.filterMap_map, List.map_filterMap]
      rfl
    rw [hparts, List.map_map]
    rfl

/-- The index of declarations of `records` with the given text has the line for `v` before the one
for `u`, where it has both. -/
def DeclaresBefore (cwd indexPath : Text) (records : List FileRecord) (text : Text)
    (v u : FileRecord) : Prop :=
  ∃ lines, IsDeclarationIndex cwd indexPath records lines text ∧
    (v.exports ≠ [] → u.exports ≠ [] → ∃ lineV lineU,
      [(v, lineV), (u, lineU)].Sublist ((records.filter (!·.exports.isEmpty)).zip lines))

/-- The index for the running program with the given text has the block for `v` before the one for
`u`, where it has both. -/
def RequiresBefore (cwd indexPath : Text) (records : List FileRecord) (text : Text)
    (v u : FileRecord) : Prop :=
  ∃ options parts, IsRuntimeIndex cwd indexPath records options parts text ∧
    (0 < v.solidCount → 0 < u.solidCount → ∃ partV partU,
      [(v, some partV), (u, some partU)].Sublist (records.zip parts))

variable {text : Text} {v u : FileRecord}

theorem declaresBefore_of_sublist
    (h : renderDeclaration cwd indexPath records = .ok text) (hpair : [v, u].Sublist records) :
    DeclaresBefore cwd (Path.standardize cwd indexPath) records text v u := by
  obtain ⟨lines, hindex⟩ := exists_isDeclarationIndex h
  refine ⟨lines, hindex, fun hv hu => ?_⟩
  have hlisted : [v, u].Sublist (records.filter (!·.exports.isEmpty)) := by
    simpa [hv, hu] using hpair.filter (!·.exports.isEmpty)
  obtain ⟨found, hfound, hsub⟩ := exists_zip_sublist hindex.each hlisted
  match found, hfound with
  | [lineV, lineU], _ => exact ⟨lineV, lineU, hsub⟩

theorem requiresBefore_of_sublist {options : RuntimeOptions}
    (h : renderRuntime cwd indexPath records options = .ok text)
    (hpair : [v, u].Sublist records) :
    RequiresBefore cwd (Path.standardize cwd indexPath) records text v u := by
  obtain ⟨found, -, hindex⟩ := exists_isRuntimeIndex h
  refine ⟨options, _, hindex, fun hv hu => ?_⟩
  obtain ⟨pair, hparts, hsub⟩ := exists_zip_sublist hindex.each hpair
  match pair, hparts with
  | [some partV, some partU], _ => exact ⟨partV, partU, hsub⟩
  | [none, _], .cons hnone _ => exact absurd hv hnone
  | [some _, none], .cons _ (.cons hnone _) => exact absurd hu hnone

end Disentangle.Index
