import Disentangle.Proofs.Index.Bindings
import Disentangle.Proofs.Index.Provision

/-!
Default imports that are led through the index. Such an import asks the index for its local name,
and the table says that the imported module exports something of that name. What the index lists
there is the default export of the module exactly when this goes by that name; otherwise the import
is given another export of the same module.
-/

namespace Disentangle

/-- Claims the exports of records one after another, up to the first claim that fails. -/
def SymbolTable.claimExports (table : SymbolTable) (records : List FileRecord) :
    Except Failure SymbolTable :=
  records.foldlM (fun table record => table.claimAll record.path record.exportNames) table

/-- When the exports of records have been claimed, the records own what they export. -/
theorem SymbolTable.owner?_claimExports_iff {table table' : SymbolTable}
    {records : List FileRecord} (h : table.claimExports records = .ok table') (n p : Text) :
    table'.owner? n = some p ↔ table.owner? n = some p ∨ Exports records p n := by
  unfold claimExports at h
  induction records generalizing table with
  | nil =>
    cases h
    simp [Exports]
  | cons record rest ih =>
    rw [List.foldlM_cons] at h
    cases hclaim : table.claimAll record.path record.exportNames with
    | error reason => simp [hclaim, bind, Except.bind] at h
    | ok middle =>
      rw [hclaim] at h
      rw [ih h, owner?_claimAll_iff hclaim]
      simp only [Exports, List.mem_cons, exists_eq_or_imp, or_assoc]
      simp only [and_comm, eq_comm]

/-- A table is known by its owners. -/
theorem SymbolTable.claimExports_eq_ok_iff {table table' : SymbolTable}
    {records : List FileRecord} :
    (table.claimExports records).toOption.map (·.owners) = some table'.owners ↔
      table.claimExports records = .ok table' := by
  cases h : table.claimExports records with
  | error reason => simp [Except.toOption]
  | ok made =>
    cases made
    cases table'
    simp [Except.toOption]

instance (table table' : SymbolTable) (records : List FileRecord) :
    Decidable (table.claimExports records = .ok table') :=
  decidable_of_iff _ SymbolTable.claimExports_eq_ok_iff

namespace FileRecord

/-- Whether a default export of the record goes by a name. -/
def HasDefault (record : FileRecord) (name : Text) : Prop :=
  ∃ symbol ∈ record.exports, symbol.isDefault = true ∧ symbol.name = name

instance (record : FileRecord) (name : Text) : Decidable (record.HasDefault name) :=
  inferInstanceAs
    (Decidable (∃ symbol ∈ record.exports, symbol.isDefault = true ∧ symbol.name = name))

/-- Before a default export there are default exports only. -/
def DefaultsLead (record : FileRecord) : Prop :=
  record.exports.Pairwise fun earlier later => later.isDefault = true → earlier.isDefault = true

variable {record : FileRecord} {name : Text}

theorem DefaultsLead.addExport (h : record.DefaultsLead) (symbol : ExportedSymbol) :
    (record.addExport symbol).DefaultsLead := by
  unfold DefaultsLead at h ⊢
  cases hdefault : symbol.isDefault with
  | true => simp [FileRecord.addExport, hdefault, h]
  | false => simp [FileRecord.addExport, hdefault, List.pairwise_append, h]

theorem IsBuilt.defaultsLead (h : record.IsBuilt) : record.DefaultsLead := by
  obtain ⟨start, symbols, hexports, -, rfl⟩ := h
  have hstart : start.DefaultsLead := by
    unfold DefaultsLead
    rw [hexports]
    exact List.Pairwise.nil
  clear hexports
  induction symbols generalizing start with
  | nil => exact hstart
  | cons symbol rest ih => exact ih (start.addExport symbol) (hstart.addExport symbol)

/-- Of the exports of a name the first one is the default export, if any of them is. -/
theorem DefaultsLead.isDefault_iff (h : record.DefaultsLead) {symbol : ExportedSymbol}
    (hfirst : record.firstExport? name = some symbol) :
    symbol.isDefault = true ↔ record.HasDefault name := by
  obtain ⟨hname, earlier, later, hexports, hother⟩ := List.find?_eq_some_iff_append.mp hfirst
  have hname : symbol.name = name := by simpa using hname
  constructor
  · intro hdefault
    exact ⟨symbol, List.mem_of_find?_eq_some hfirst, hdefault, hname⟩
  · rintro ⟨other, hmem, hdefault, hsame⟩
    unfold DefaultsLead at h
    rw [hexports] at hmem h
    rcases List.mem_append.mp hmem with hmem | hmem
    · exact absurd hsame (by simpa using hother other hmem)
    · rcases List.mem_cons.mp hmem with rfl | hmem
      · exact hdefault
      · exact (List.pairwise_cons.mp (List.pairwise_append.mp h).2.1).1 other hmem hdefault

end FileRecord

namespace Index

variable {cwd indexPath name : Text} {record : FileRecord} {records : List FileRecord}
  {lines : List Reexport} {symbol : ExportedSymbol}

/-- Of all that the lines of an index list, one goes by a name. It stands on the line for `record`
and is `symbol`. -/
structure EntryIs (cwd indexPath : Text) (lines : List Reexport) (record : FileRecord)
    (name : Text) (symbol : ExportedSymbol) : Prop where
  only : (lines.flatMap (·.symbols)).filter (·.name = name) = [symbol]
  onLine : ∃ line ∈ lines,
    reexport? cwd indexPath record = .ok (some line) ∧ symbol ∈ line.symbols

/-- A name that stands once, on the line for a record, is that of the first export of this name. -/
theorem exists_entryIs (hcount : (lines.flatMap Reexport.names).count name = 1) {line : Reexport}
    (hline : line ∈ lines) (hof : reexport? cwd indexPath record = .ok (some line))
    (hname : name ∈ line.names) :
    ∃ symbol, record.firstExport? name = some symbol ∧
      EntryIs cwd indexPath lines record name symbol := by
  have hsymbols : line.symbols = distinct [] record.exports := by
    have hline := reexport?_eq_ok_iff.mp hof
    split at hline
    · cases hline
    · obtain ⟨specifier, -, heq⟩ := hline
      cases heq
      rfl
  obtain ⟨symbol, hsymbol, rfl⟩ := List.mem_map.mp hname
  have hfirst : record.firstExport? symbol.name = some symbol := by
    rw [hsymbols] at hsymbol
    exact (mem_distinct_iff.mp hsymbol).2
  refine ⟨symbol, hfirst, ?_, line, hline, hof, hsymbol⟩
  have hlength : ((lines.flatMap (·.symbols)).filter (·.name = symbol.name)).length = 1 := by
    have hnames : lines.flatMap Reexport.names = (lines.flatMap (·.symbols)).map (·.name) :=
      List.map_flatMap.symm
    rw [← hcount, hnames, List.count_eq_countP, List.countP_map, ← List.countP_eq_length_filter]
    apply List.countP_congr
    simp
  obtain ⟨only, honly⟩ := List.length_eq_one_iff.mp hlength
  have hmem : symbol ∈ (lines.flatMap (·.symbols)).filter (·.name = symbol.name) :=
    List.mem_filter.mpr ⟨List.mem_flatMap.mpr ⟨line, hline, hsymbol⟩, by simp⟩
  rw [honly, List.mem_singleton] at hmem
  rw [honly, hmem]

theorem default_append_ne (name : Text) : "default as ".toList ++ name ≠ name := by
  rw [ne_eq, List.append_left_eq_self]
  decide

/-- An entry is written as the default export exactly when it is one. -/
theorem listed_eq_default_iff :
    listed symbol = "default as ".toList ++ symbol.name ↔ symbol.isDefault = true := by
  unfold listed
  cases symbol.isDefault with
  | true => simp
  | false => simpa using (default_append_ne symbol.name).symm

theorem listed_eq_name_iff : listed symbol = symbol.name ↔ symbol.isDefault = false := by
  unfold listed
  cases symbol.isDefault with
  | true => simpa using default_append_ne symbol.name
  | false => simp

end Index

namespace ImportLine

variable {line : ImportLine} {table : SymbolTable} {name : Text}

/-- A default binding is asked of the index by its local name. -/
theorem clause_of_isDefaultBinding (h : line.isDefaultBinding name = true) :
    line.clause name = name := by
  simp only [isDefaultBinding, Bool.and_eq_true, Option.isNone_iff_eq_none] at h
  simp [clause, exportedName, h.2]

/-- A default import that is led through the index names the module that owns its local name. -/
theorem resolvedPath_of_routesToIndex (hroutes : line.routesToIndex table = true)
    (hdefault : line.isDefaultBinding name = true) :
    ∃ path, line.resolvedPath = some path ∧ table.owner? name = some path := by
  have hparts := hdefault
  simp only [isDefaultBinding, Bool.and_eq_true, Option.isNone_iff_eq_none, decide_eq_true_eq]
    at hparts
  have hname : name ∈ line.names := List.mem_of_mem_head? hparts.1.2
  have hexported : line.exportedName name = name := by simp [exportedName, hparts.2]
  obtain ⟨-, -, -, hcovered⟩ := routesToIndex_iff.mp hroutes
  obtain ⟨owner, howner, hresolved⟩ := hcovered name hname
  exact ⟨owner, hresolved hdefault, hexported ▸ howner⟩

end ImportLine

open Index in
/-- What a default import is given that is led through the index. The module that it names is one of
the records and exports something under the local name, and of all that the index lists one entry
goes by this name, on the line of that very module. The entry passes on the default export of the
module exactly when this goes by the local name; otherwise it passes on another export. -/
theorem redirected_default_iff (cwd indexPath : Text) {records : List FileRecord}
    {table : SymbolTable} (hdistinct : (records.map (·.path)).Nodup)
    (hpaths : ∀ record ∈ records, record.path ≠ []) (hbuilt : ∀ record ∈ records, record.IsBuilt)
    (hclaims : SymbolTable.empty.claimExports records = .ok table) {line : ImportLine}
    {name : Text} (hroutes : line.routesToIndex table = true)
    (hdefault : line.isDefaultBinding name = true) :
    line.clause name = name ∧ ∃ record ∈ records, ∃ lines symbol,
      line.resolvedPath = some record.path ∧ name ∈ record.exportNames ∧
      reexports cwd (Path.standardize cwd indexPath) records = .ok lines ∧
      EntryIs cwd (Path.standardize cwd indexPath) lines record name symbol ∧
      (record.HasDefault name ↔ listed symbol = "default as ".toList ++ name) ∧
      (¬ record.HasDefault name ↔ listed symbol = name) := by
  have howner : ∀ n p, table.owner? n = some p ↔ Exports records p n := by
    intro n p
    simpa using SymbolTable.owner?_claimExports_iff hclaims n p
  obtain ⟨path, hresolved, howned⟩ := ImportLine.resolvedPath_of_routesToIndex hroutes hdefault
  obtain ⟨record, hrecord, rfl, hname⟩ := (howner name path).mp howned
  obtain ⟨lines, hlines⟩ := exists_reexports cwd (Path.standardize cwd indexPath) hpaths
  obtain ⟨hcount, line, hline, hof, hlisted⟩ :=
    @exists_line_of_mem_exportNames cwd (Path.standardize cwd indexPath) _ _ _ _ hdistinct hpaths
      howner hrecord hname
  rw [← reexports_eq_ok hlines] at hcount hline
  obtain ⟨symbol, hfirst, hentry⟩ := exists_entryIs hcount hline hof hlisted
  have hsame : symbol.name = name := by simpa using List.find?_some hfirst
  have hiff := (hbuilt record hrecord).defaultsLead.isDefault_iff hfirst
  refine ⟨ImportLine.clause_of_isDefaultBinding hdefault, record, hrecord, lines, symbol,
    hresolved, hname, hlines, hentry, ?_, ?_⟩
  · rw [← hiff, ← listed_eq_default_iff, hsame]
  · rw [← hiff, Bool.not_eq_true, ← listed_eq_name_iff, hsame]

open Index in
/-- A module whose default export goes by the name of an import of it. -/
theorem redirected_default_own_name :
    let app := (Extraction.ofSource ['/'] "/p/app.ts".toList
      "import Base from './y';\n".toList).record
    let module := (Extraction.ofSource ['/'] "/p/y.ts".toList
      "export class Other \x7b\x7d\nexport default class Base \x7b\x7d\n".toList).record
    ∃ table, SymbolTable.empty.claimExports [app, module] = .ok table ∧
      ∃ line ∈ app.imports, line.routesToIndex table = true ∧
        line.isDefaultBinding "Base".toList = true ∧
        line.resolvedPath = some module.path ∧
        ∃ lines symbol, reexports ['/'] (Path.standardize ['/'] "/p/index.ts".toList)
            [app, module] = .ok lines ∧
          EntryIs ['/'] (Path.standardize ['/'] "/p/index.ts".toList) lines module
            "Base".toList symbol ∧
          listed symbol = "default as ".toList ++ "Base".toList := by
  intro app module
  have hruns : ([app, module].map (·.path)).Nodup ∧
      (∀ record ∈ [app, module], record.path ≠ []) ∧
      SymbolTable.empty.claimExports [app, module] =
        .ok ⟨[("Base".toList, module.path), ("Other".toList, module.path)]⟩ ∧
      (∃ line ∈ app.imports,
        line.routesToIndex ⟨[("Base".toList, module.path), ("Other".toList, module.path)]⟩ = true ∧
          line.isDefaultBinding "Base".toList = true ∧ line.resolvedPath = some module.path) ∧
      module.HasDefault "Base".toList := by
    decide +kernel
  obtain ⟨hdistinct, hpaths, hclaims, ⟨line, hmem, hroutes, hdefault, hresolved⟩, hhas⟩ := hruns
  have hbuilt : ∀ record ∈ [app, module], record.IsBuilt := by
    simp only [List.forall_mem_cons, List.not_mem_nil, false_implies, implies_true, and_true]
    exact ⟨FileRecord.isBuilt_collect, FileRecord.isBuilt_collect⟩
  obtain ⟨-, record, hrecord, lines, symbol, hfrom, -, hlines, hentry, hown, -⟩ :=
    redirected_default_iff ['/'] "/p/index.ts".toList hdistinct hpaths hbuilt hclaims hroutes
      hdefault
  have hpath : record.path = module.path := Option.some.inj (hfrom.symm.trans hresolved)
  have heq : record = module := List.inj_on_of_nodup_map hdistinct hrecord (by simp) hpath
  rw [heq] at hentry hown
  exact ⟨_, hclaims, line, hmem, hroutes, hdefault, hresolved, lines, symbol, hlines, hentry,
    hown.mp hhas⟩

/-- A class that is imported as the default export of its module, which is another class of that
module. The import is led through the index and is given the class of its name. -/
theorem redirected_default_other_export :
    let app := (Extraction.ofSource ['/'] "/p/app.ts".toList
      "import Base from './y';\n".toList).record
    let module := (Extraction.ofSource ['/'] "/p/y.ts".toList
      "export class Base \x7b\x7d\nexport default class Other \x7b\x7d\n".toList).record
    let table : SymbolTable :=
      ⟨[("Other".toList, "/p/y.ts".toList), ("Base".toList, "/p/y.ts".toList)]⟩
    SymbolTable.empty.claimExports [app, module] = .ok table ∧
      (∃ line ∈ app.imports, line.routesToIndex table = true ∧
        line.isDefaultBinding "Base".toList = true ∧ line.resolvedPath = some module.path) ∧
      ¬ module.HasDefault "Base".toList ∧
      (Index.renderDeclaration ['/'] "/p/index.ts".toList [app, module]).toOption =
        some (Index.declarationHeader ++
          "\nexport \x7b default as Other, Base \x7d from './y';\n".toList) ∧
      app.redirectImports "./index".toList table "import Base from './y';\n".toList =
        "import \x7b Base \x7d from \"./index\";\n".toList := by
  intro app module table
  decide +kernel

end Disentangle
