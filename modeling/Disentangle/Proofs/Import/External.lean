import Disentangle.Proofs.Extraction
import Disentangle.Proofs.Import.Routes
import Disentangle.Proofs.Section.Scan

/-!
Imports of modules outside of the project. Such a module has no file, so a default import of it is
never led through the index. Names are another matter: whether they can be had from the index is
decided by the names alone, and a name of an external module may be owned by a file of the project.
-/

namespace Disentangle

open Text

/-- The import sections of a text, with the number of characters before each. -/
def Text.importSections (t : Text) : List (Nat × Section) :=
  (Section.positioned 0 t.sections).filter (·.2.kind = .imports)

namespace FileRecord

variable {record : FileRecord} {specifier : Text} {table : SymbolTable} {text : Text}

/-- What import sections become. -/
def redirectSections (record : FileRecord) (specifier : Text) (table : SymbolTable)
    (sections : List (Nat × Section)) : Text :=
  sections.flatMap fun s => record.redirectSection specifier table s.1 s.2.text

@[simp] theorem redirectSections_append (earlier later : List (Nat × Section)) :
    record.redirectSections specifier table (earlier ++ later) =
      record.redirectSections specifier table earlier ++
        record.redirectSections specifier table later :=
  List.flatMap_append

@[simp] theorem redirectSections_cons (s : Nat × Section) (later : List (Nat × Section)) :
    record.redirectSections specifier table (s :: later) =
      record.redirectSection specifier table s.1 s.2.text ++
        record.redirectSections specifier table later :=
  List.flatMap_cons

/-- A source whose imports are redirected is its header, what became of its import sections, and
its body. -/
theorem redirectImports_eq :
    record.redirectImports specifier table text =
      text.parts.header ++
        closeLine (record.redirectSections specifier table text.importSections)
          text.parts.body ++ text.parts.body := by
  rw [redirectImports, partsWith, Parts.ofSections, Parts.whole,
    Parts.filter_imports_dropWhile_comment]
  rfl

end FileRecord

namespace ImportLine

/-- Everything that a line binds is bound by a name which a file of the project owns. -/
structure BindsOwnedNames (line : ImportLine) (table : SymbolTable) : Prop where
  noNamespace : line.namespaceName = none
  noRequire : line.isRequire = false
  bindsAny : line.names ≠ []
  byName : ∀ name ∈ line.names, line.isDefaultBinding name = false
  owned : ∀ name ∈ line.names, ∃ owner, table.owner? (line.exportedName name) = some owner

/-- An import without a file is led through the index exactly when all that it binds is bound by
owned names. -/
theorem routesToIndex_iff_bindsOwnedNames {line : ImportLine} {table : SymbolTable}
    (hexternal : line.resolvedPath = none) :
    line.routesToIndex table = true ↔ line.BindsOwnedNames table := by
  rw [routesToIndex_iff]
  constructor
  · rintro ⟨hnamespace, hrequire, hnames, hcovered⟩
    refine ⟨hnamespace, hrequire, hnames, ?_, ?_⟩
    · intro name hname
      obtain ⟨owner, -, hdefault⟩ := hcovered name hname
      rw [Bool.eq_false_iff]
      intro hbinding
      have hresolved := hdefault hbinding
      rw [hexternal] at hresolved
      cases hresolved
    · intro name hname
      obtain ⟨owner, howner, -⟩ := hcovered name hname
      exact ⟨owner, howner⟩
  · rintro ⟨hnamespace, hrequire, hnames, hbyName, howned⟩
    refine ⟨hnamespace, hrequire, hnames, ?_⟩
    intro name hname
    obtain ⟨owner, howner⟩ := howned name hname
    exact ⟨owner, howner, by simp [hbyName name hname]⟩

end ImportLine

/-- When an import of an external module stays as it is written. The text around it is what the
other sections become. The import itself is left alone exactly when not all that it binds is bound
by names which files of the project own; otherwise it is led through the index like an import of
these files. -/
theorem redirectImports_external_iff (record : FileRecord) (specifier : Text)
    (table : SymbolTable) (text : Text) {earlier later : List (Nat × Section)} {offset : Nat}
    {s : Section} {line : ImportLine}
    (hsections : text.importSections = earlier ++ (offset, s) :: later)
    (hline : record.match? offset s.text = some line) (hexternal : line.resolvedPath = none) :
    ∃ written,
      record.redirectImports specifier table text =
        text.parts.header ++
          closeLine (record.redirectSections specifier table earlier ++ written ++
            record.redirectSections specifier table later) text.parts.body ++
          text.parts.body ∧
      ((line.routesToIndex table = false ∧ written = s.text) ↔ ¬ line.BindsOwnedNames table) ∧
      (line.BindsOwnedNames table →
        written = line.redirected specifier ++ s.text.drop line.text.length) := by
  refine ⟨record.redirectSection specifier table offset s.text, ?_, ?_, ?_⟩
  · rw [FileRecord.redirectImports_eq, hsections, FileRecord.redirectSections_append,
      FileRecord.redirectSections_cons, List.append_assoc (record.redirectSections _ _ earlier)]
  · rw [← ImportLine.routesToIndex_iff_bindsOwnedNames hexternal, Bool.not_eq_true]
    constructor
    · exact And.left
    · intro hroutes
      exact ⟨hroutes, by simp [FileRecord.redirectSection, hline, hroutes]⟩
  · intro howned
    have hroutes := (ImportLine.routesToIndex_iff_bindsOwnedNames hexternal).mpr howned
    simp [FileRecord.redirectSection, hline, hroutes]

/-- An import of a name that no file of the project owns stays as it is written. -/
theorem redirectImports_external_unowned :
    let text : Text := "import \x7b chunk \x7d from 'lodash';\n".toList
    let line : ImportLine :=
      { modulePath := "lodash".toList, names := ["chunk".toList]
        text := "import \x7b chunk \x7d from 'lodash';".toList, offset := 0 }
    let record : FileRecord := { path := "/p/src/app.ts".toList, imports := [line] }
    let table : SymbolTable := ⟨[(['X'], "/p/src/x.ts".toList)]⟩
    text.importSections = [] ++ [(0, ⟨.imports, text⟩)] ∧
      record.match? 0 text = some line ∧ line.resolvedPath = none ∧
      line.routesToIndex table = false ∧
      record.redirectImports "../index".toList table text = text := by
  intro text line record table
  have hsections : text.importSections = [] ++ [(0, ⟨.imports, text⟩)] := by decide
  have hline : record.match? 0 text = some line := by rfl
  have hunowned : ¬ line.BindsOwnedNames table := by
    intro h
    obtain ⟨owner, howner⟩ := h.owned "chunk".toList List.mem_cons_self
    have hnone : table.owner? (line.exportedName "chunk".toList) = none := by rfl
    rw [hnone] at howner
    cases howner
  obtain ⟨written, hwhole, hkept, -⟩ :=
    redirectImports_external_iff record "../index".toList table text hsections hline rfl
  obtain ⟨hroutes, rfl⟩ := hkept.mpr hunowned
  refine ⟨hsections, hline, rfl, hroutes, ?_⟩
  rw [hwhole]
  decide

/-- An import of an external module whose name a file of the project owns: it has no file, and yet
it is led through the index. -/
theorem redirectImports_external_owned :
    let text : Text := "import \x7b X \x7d from 'lodash';\n".toList
    let record := (Extraction.ofSource ['/'] "/p/src/app.ts".toList text).record
    let table : SymbolTable := ⟨[(['X'], "/p/src/x.ts".toList)]⟩
    (Path.resolveImport ['/'] record.path "lodash".toList = none ∧
      ∃ line ∈ record.imports, line.modulePath = "lodash".toList ∧ line.resolvedPath = none ∧
        line.routesToIndex table = true) ∧
      record.redirectImports "../index".toList table text ≠ text ∧
      record.redirectImports "../index".toList table text =
        "import \x7b X \x7d from \"../index\";\n".toList := by
  decide +kernel

end Disentangle
