import Disentangle.Proofs.Extraction

/-!
The names that a source needs while it is loaded. A name becomes a need when an import binds it by
itself; then it stands with the first such import, which is marked, and no later step takes it
away. The name of a whole module is not bound in this way, so it never becomes a need.
-/

namespace Disentangle

namespace FileRecord

variable {record : FileRecord} {name n : Text} {i : Nat} {line : ImportLine}

/-- The position of the first import that binds `name` by itself. -/
def importOf? (record : FileRecord) (name : Text) : Option Nat :=
  record.imports.findIdx? (·.names.contains name)

theorem addDependency_of_needs (h : record.needs name = true) :
    record.addDependency name = record := by
  rw [addDependency, noteDependency, if_pos h]

theorem addDependency_of_importOf?_eq_none (h : record.importOf? name = none) :
    record.addDependency name = record := by
  unfold importOf? at h
  rw [addDependency, noteDependency, h]
  split <;> rfl

theorem addDependency_of_importOf?_eq_some (hneeds : record.needs name = false)
    (h : record.importOf? name = some i) :
    record.addDependency name =
      { record with
        imports := record.imports.modify i ({ · with isStrong := true })
        depends := record.depends ++ [(name, i)] } := by
  unfold importOf? at h
  rw [addDependency, noteDependency, h, hneeds, if_neg Bool.false_ne_true]

/-- A name that is noted is needed already, or no import binds it by itself, or it is put behind
the needs together with the first import that does. -/
theorem addDependency_cases (record : FileRecord) (name : Text) :
    record.addDependency name = record ∧
        (record.needs name = true ∨ record.importOf? name = none) ∨
      ∃ i, record.needs name = false ∧ record.importOf? name = some i ∧
        record.addDependency name =
          { record with
            imports := record.imports.modify i ({ · with isStrong := true })
            depends := record.depends ++ [(name, i)] } := by
  cases hneeds : record.needs name with
  | true => exact Or.inl ⟨addDependency_of_needs hneeds, Or.inl rfl⟩
  | false =>
    cases hfirst : record.importOf? name with
    | none => exact Or.inl ⟨addDependency_of_importOf?_eq_none hfirst, Or.inr rfl⟩
    | some i => exact Or.inr ⟨i, rfl, rfl, addDependency_of_importOf?_eq_some hneeds hfirst⟩

theorem needs_iff : record.needs name = true ↔ ∃ i, (name, i) ∈ record.depends := by
  rw [needs, List.lookup_isSome_iff]
  simp

/-- A name that is noted is told to be needed exactly when it is from then on. -/
theorem noteDependency_snd (record : FileRecord) (name : Text) :
    (record.noteDependency name).2 = (record.addDependency name).needs name := by
  unfold addDependency noteDependency
  split
  next hneeds => exact hneeds.symm
  next hneeds =>
    split
    · exact (needs_iff.mpr ⟨_, List.mem_append_right _ List.mem_cons_self⟩).symm
    · exact (Bool.eq_false_iff.mpr hneeds).symm

theorem importOf?_isSome_iff :
    (record.importOf? name).isSome = true ↔ ∃ line ∈ record.imports, name ∈ line.names := by
  simp [importOf?, List.findIdx?_isSome]

/-- Which names the imports bind does not depend on which of them are marked. -/
theorem map_names_addDependency :
    (record.addDependency name).imports.map (·.names) = record.imports.map (·.names) := by
  obtain ⟨heq, -⟩ | ⟨i, -, -, heq⟩ := record.addDependency_cases name
  · rw [heq]
  · rw [heq]
    apply List.ext_getElem?
    intro j
    rw [List.getElem?_map, List.getElem?_map, List.getElem?_modify]
    split
    · cases record.imports[j]? <;> rfl
    · simp

theorem importOf?_eq_map :
    record.importOf? name = (record.imports.map (·.names)).findIdx? (·.contains name) := by
  rw [List.findIdx?_map]
  rfl

@[simp] theorem importOf?_addDependency :
    (record.addDependency name).importOf? n = record.importOf? n := by
  rw [importOf?_eq_map, map_names_addDependency, ← importOf?_eq_map]

theorem needs_addDependency :
    (record.addDependency name).needs n = true ↔
      record.needs n = true ∨ n = name ∧ (record.importOf? n).isSome = true := by
  obtain ⟨heq, hneeds | hnone⟩ | ⟨i, -, hfirst, heq⟩ := record.addDependency_cases name
  · rw [heq]
    constructor
    · exact Or.inl
    · rintro (h | ⟨rfl, -⟩)
      · exact h
      · exact hneeds
  · rw [heq]
    constructor
    · exact Or.inl
    · rintro (h | ⟨rfl, hsome⟩)
      · exact h
      · simp [hnone] at hsome
  · have hsome : n = name → (record.importOf? n).isSome = true := by
      rintro rfl
      simp [hfirst]
    rw [heq, and_iff_left_of_imp hsome, needs_iff, needs_iff]
    simp [exists_or]

/-- Of the names that are noted, those become needs that an import binds by itself. -/
theorem needs_foldl_addDependency {names : List Text} :
    (names.foldl addDependency record).needs n = true ↔
      record.needs n = true ∨ n ∈ names ∧ (record.importOf? n).isSome = true := by
  induction names generalizing record with
  | nil => simp
  | cons name rest ih =>
    rw [List.foldl_cons, ih, importOf?_addDependency, needs_addDependency, List.mem_cons,
      or_and_right, or_assoc]

@[simp] theorem importOf?_foldl_addDependency (names : List Text) :
    (names.foldl addDependency record).importOf? n = record.importOf? n :=
  foldl_keeps (importOf? · n) (fun _ _ => importOf?_addDependency) names record

theorem needs_addExport (symbol : ExportedSymbol) :
    (record.addExport symbol).needs n = record.needs n := rfl

@[simp] theorem needs_foldl_addExport (symbols : List ExportedSymbol) :
    (symbols.foldl addExport record).needs n = record.needs n :=
  foldl_keeps (needs · n) (fun _ symbol => needs_addExport symbol) symbols record

/-- An import that is marked stays as it is. -/
theorem getElem?_addDependency_of_isStrong {j : Nat} (hline : record.imports[j]? = some line)
    (hstrong : line.isStrong = true) :
    (record.addDependency name).imports[j]? = some line := by
  obtain ⟨heq, -⟩ | ⟨i, -, -, heq⟩ := record.addDependency_cases name
  · rw [heq, hline]
  · have hsame : { line with isStrong := true } = line := by rw [← hstrong]
    rw [heq, List.getElem?_modify, hline]
    split
    · exact congrArg some hsame
    · rfl

/-- What is done to a record while its source is read. -/
inductive Operation where
  | adds (symbol : ExportedSymbol)
  | imports (line : ImportLine)
  | notes (name : Text)

def Operation.apply (record : FileRecord) : Operation → FileRecord
  | .adds symbol => record.addExport symbol
  | .imports line => record.addImport line
  | .notes name => record.addDependency name

/-- The record of the source at `path` after some operations. -/
def after (path : Text) (operations : List Operation) : FileRecord :=
  operations.foldl Operation.apply { path }

/-- Every need stands with the first import that binds its name by itself, and this import is
marked. -/
structure Tracks (record : FileRecord) : Prop where
  first : ∀ need ∈ record.depends, record.importOf? need.1 = some need.2
  marked : ∀ need ∈ record.depends, ∀ line ∈ record.imports[need.2]?, line.isStrong = true

theorem Tracks.addExport (h : record.Tracks) (symbol : ExportedSymbol) :
    (record.addExport symbol).Tracks :=
  ⟨h.first, h.marked⟩

/-- A further import comes behind those that the needs stand with. -/
theorem Tracks.addImport (h : record.Tracks) (line : ImportLine) :
    (record.addImport line).Tracks := by
  refine ⟨fun need hneed => ?_, fun need hneed => ?_⟩
  · have hfirst := h.first need hneed
    unfold importOf? at hfirst ⊢
    rw [FileRecord.addImport, List.findIdx?_append, hfirst]
    rfl
  · have hfirst := h.first need hneed
    obtain ⟨hlt, -⟩ := List.findIdx?_eq_some_iff_getElem.mp hfirst
    rw [FileRecord.addImport, List.getElem?_append_left hlt]
    exact h.marked need hneed

theorem Tracks.addDependency (h : record.Tracks) (name : Text) :
    (record.addDependency name).Tracks := by
  obtain ⟨heq, -⟩ | ⟨i, -, hfirst, heq⟩ := record.addDependency_cases name
  · rw [heq]
    exact h
  refine ⟨fun need hneed => ?_, fun need hneed line hline => ?_⟩
  · rw [importOf?_addDependency]
    rw [heq] at hneed
    rcases List.mem_append.mp hneed with hneed | hneed
    · exact h.first need hneed
    · rw [List.mem_singleton.mp hneed]
      exact hfirst
  · rw [heq] at hneed hline
    rcases List.mem_append.mp hneed with hneed | hneed
    · obtain ⟨original, horiginal, hmodified⟩ : ∃ original ∈ record.imports[need.2]?,
          (if i = need.2 then { original with isStrong := true } else original) = line := by
        rw [List.getElem?_modify] at hline
        exact Option.map_eq_some_iff.mp hline
      have hmarked := h.marked need hneed original horiginal
      rw [← hmodified]
      split
      · rfl
      · exact hmarked
    · rw [List.mem_singleton.mp hneed, List.getElem?_modify_eq] at hline
      obtain ⟨original, -, rfl⟩ := Option.map_eq_some_iff.mp hline
      rfl

theorem Tracks.apply (h : record.Tracks) (operation : Operation) :
    (operation.apply record).Tracks := by
  cases operation with
  | adds symbol => exact h.addExport symbol
  | imports line => exact h.addImport line
  | notes name => exact h.addDependency name

/-- After any operations, in any order, the needs stand with the first imports that bind them. -/
theorem tracks_after (path : Text) (operations : List Operation) :
    (after path operations).Tracks :=
  List.foldlRecOn operations Operation.apply ⟨by simp, by simp⟩
    fun _ h operation _ => h.apply operation

/-- A name that an import binds by itself is noted with the first such import, which is marked. -/
theorem Tracks.lookup_addDependency (h : record.Tracks) (hfirst : record.importOf? name = some i)
    (hline : record.imports[i]? = some line) :
    (record.addDependency name).depends.lookup name = some i ∧
      (record.addDependency name).imports[i]? = some { line with isStrong := true } := by
  cases hneeds : record.needs name with
  | true =>
    obtain ⟨j, hj⟩ := Option.isSome_iff_exists.mp hneeds
    obtain ⟨before, later, hdepends, -⟩ := List.lookup_eq_some_iff.mp hj
    have hmem : (name, j) ∈ record.depends := by
      rw [hdepends]
      simp
    obtain rfl : j = i := Option.some.inj ((h.first _ hmem).symm.trans hfirst)
    have hstrong := h.marked _ hmem line hline
    rw [addDependency_of_needs hneeds, ← hstrong]
    exact ⟨hj, hline⟩
  | false =>
    have hnone : record.depends.lookup name = none := by simpa [needs] using hneeds
    rw [addDependency_of_importOf?_eq_some hneeds hfirst]
    refine ⟨?_, ?_⟩
    · simp [List.lookup_append, hnone]
    · simp [hline]

/-- Only with the first import that binds it by itself can a name stand. -/
theorem Tracks.importOf?_eq_of_lookup (h : record.Tracks)
    (hlookup : record.depends.lookup name = some i) : record.importOf? name = some i := by
  obtain ⟨before, later, hdepends, -⟩ := List.lookup_eq_some_iff.mp hlookup
  have hmem : (name, i) ∈ record.depends := by
    rw [hdepends]
    simp
  exact h.first _ hmem

theorem mem_dependencies_of_lookup (hlookup : record.depends.lookup name = some i)
    (hline : record.imports[i]? = some line) : (name, line) ∈ record.dependencies := by
  obtain ⟨before, later, hdepends, -⟩ := List.lookup_eq_some_iff.mp hlookup
  rw [dependencies, List.mem_filterMap]
  refine ⟨(name, i), ?_, ?_⟩
  · rw [hdepends]
    simp
  · simp [hline]

/-- A need stays with its import, which is marked, when further names are noted. -/
theorem mem_dependencies_foldl_addDependency {names : List Text}
    (hmem : (n, line) ∈ record.dependencies) (hstrong : line.isStrong = true) :
    (n, line) ∈ (names.foldl addDependency record).dependencies := by
  induction names generalizing record with
  | nil => exact hmem
  | cons name rest ih =>
    refine ih ?_
    obtain ⟨⟨_, j⟩, hneed, hline⟩ := List.mem_filterMap.mp hmem
    obtain ⟨original, horiginal, heq⟩ := Option.map_eq_some_iff.mp hline
    cases heq
    refine List.mem_filterMap.mpr ⟨(n, j), ?_, ?_⟩
    · obtain ⟨hsame, -⟩ | ⟨i, -, -, hsame⟩ := record.addDependency_cases name
      · rwa [hsame]
      · rw [hsame]
        exact List.mem_append_left _ hneed
    · dsimp only
      rw [getElem?_addDependency_of_isStrong horiginal hstrong]
      rfl

end FileRecord

end Disentangle
