import Disentangle.Proofs.Record.Needs
import Mathlib.Data.List.Induction

/-!
What a record remembers of the operations on it, in whatever order they came: the exports with the
default ones in front, how many of them are solid, and the imports as they were given, marked where
a need stands with them. A need stays with the import that it was noted with.
-/

namespace Disentangle.FileRecord

variable {record : FileRecord} {path name : Text} {operations : List Operation} {i : Nat}

/-- The symbols that are added, in order. -/
def addedSymbols (operations : List Operation) : List ExportedSymbol :=
  operations.filterMap fun
    | .adds symbol => some symbol
    | _ => none

/-- The imports that are put behind each other, as they are given. -/
def givenImports (operations : List Operation) : List ImportLine :=
  operations.filterMap fun
    | .imports line => some line
    | _ => none

/-- Whether some need stands with the import at position `i`. -/
def hasNeedAt (record : FileRecord) (i : Nat) : Bool :=
  record.depends.any (·.2 = i)

theorem after_concat (path : Text) (operations : List Operation) (operation : Operation) :
    after path (operations ++ [operation]) = operation.apply (after path operations) := by
  rw [after, List.foldl_append]
  rfl

theorem hasNeedAt_iff : record.hasNeedAt i = true ↔ ∃ name, (name, i) ∈ record.depends := by
  simp [hasNeedAt]

/-- Default exports come in the opposite order in front of the others. -/
theorem exports_after (path : Text) (operations : List Operation) :
    (after path operations).exports =
      ((addedSymbols operations).filter (·.isDefault)).reverse ++
        (addedSymbols operations).filter (!·.isDefault) := by
  induction operations using List.reverseRecOn with
  | nil => rfl
  | append_singleton operations operation ih =>
    rw [after_concat, addedSymbols, List.filterMap_append, List.filter_append, List.filter_append]
    cases operation with
    | adds symbol =>
      change (if symbol.isDefault then symbol :: (after path operations).exports
        else (after path operations).exports ++ [symbol]) = _
      rw [ih]
      cases hdefault : symbol.isDefault <;> simp [hdefault, addedSymbols]
    | imports line =>
      change (after path operations).exports = _
      rw [ih]
      simp [addedSymbols]
    | notes name =>
      change ((after path operations).addDependency name).exports = _
      rw [exports_addDependency, ih]
      simp [addedSymbols]

theorem solidCount_addDependency : (record.addDependency name).solidCount = record.solidCount := by
  obtain ⟨heq, -⟩ | ⟨i, -, -, heq⟩ := record.addDependency_cases name <;> rw [heq]

/-- Every solid symbol counts, also one that is added again. -/
theorem solidCount_after (path : Text) (operations : List Operation) :
    (after path operations).solidCount =
      (addedSymbols operations).countP (!·.kind.isVirtual) := by
  induction operations using List.reverseRecOn with
  | nil => rfl
  | append_singleton operations operation ih =>
    rw [after_concat, addedSymbols, List.filterMap_append, List.countP_append]
    cases operation with
    | adds symbol =>
      change (if symbol.kind.isVirtual then (after path operations).solidCount
        else (after path operations).solidCount + 1) = _
      rw [ih]
      cases hkind : symbol.kind.isVirtual <;> simp [hkind, addedSymbols]
    | imports line =>
      change (after path operations).solidCount = _
      rw [ih]
      simp [addedSymbols]
    | notes name =>
      change ((after path operations).addDependency name).solidCount = _
      rw [solidCount_addDependency, ih]
      simp [addedSymbols]

/-- The import of a need is one of the imports. -/
theorem Tracks.lt_length (h : record.Tracks) {need : Text × Nat} (hneed : need ∈ record.depends) :
    need.2 < record.imports.length :=
  (List.findIdx?_eq_some_iff_getElem.mp (h.first need hneed)).1

/-- An import that is given later comes behind those that needs stand with. -/
theorem Tracks.hasNeedAt_length (h : record.Tracks) :
    record.hasNeedAt record.imports.length = false := by
  rw [Bool.eq_false_iff]
  intro hneed
  obtain ⟨name, hname⟩ := hasNeedAt_iff.mp hneed
  exact Nat.lt_irrefl _ (h.lt_length hname)

/-- Where the needs stand with the imports, a name that is noted marks the import of a need. -/
theorem imports_addDependency {lines : List ImportLine}
    (h : record.imports = lines.mapIdx fun i line =>
      { line with isStrong := line.isStrong || record.hasNeedAt i }) :
    (record.addDependency name).imports = lines.mapIdx fun i line =>
      { line with isStrong := line.isStrong || (record.addDependency name).hasNeedAt i } := by
  obtain ⟨heq, -⟩ | ⟨i, -, -, heq⟩ := record.addDependency_cases name
  · rw [heq]
    exact h
  · have hneed (j : Nat) : (record.addDependency name).hasNeedAt j =
        (record.hasNeedAt j || decide (i = j)) := by
      rw [heq]
      simp [hasNeedAt]
    simp only [hneed]
    rw [heq]
    apply List.ext_getElem?
    intro j
    rw [List.getElem?_modify, h, List.getElem?_mapIdx, List.getElem?_mapIdx]
    cases lines[j]? with
    | none => rfl
    | some line =>
      by_cases hij : i = j
      · simp [hij]
      · simp [hij]

/-- The imports are those that were given, marked where a need stands with them. -/
theorem imports_after (path : Text) (operations : List Operation) :
    (after path operations).imports =
      (givenImports operations).mapIdx fun i line =>
        { line with isStrong := line.isStrong || (after path operations).hasNeedAt i } := by
  induction operations using List.reverseRecOn with
  | nil => rfl
  | append_singleton operations operation ih =>
    rw [after_concat, givenImports, List.filterMap_append]
    cases operation with
    | adds symbol =>
      change (after path operations).imports = List.mapIdx _ (givenImports operations ++ [])
      rw [List.append_nil]
      exact ih
    | imports line =>
      have hlast := (tracks_after path operations).hasNeedAt_length
      rw [ih, List.length_mapIdx] at hlast
      change (after path operations).imports ++ [line] =
        List.mapIdx (fun i line =>
          { line with isStrong := line.isStrong || (after path operations).hasNeedAt i })
          (givenImports operations ++ [line])
      rw [List.mapIdx_concat, ← ih, hlast, Bool.or_false]
    | notes name =>
      change ((after path operations).addDependency name).imports =
        List.mapIdx _ (givenImports operations ++ [])
      rw [List.append_nil]
      exact imports_addDependency ih

theorem nodup_needs_addDependency (h : (record.depends.map Prod.fst).Nodup) :
    ((record.addDependency name).depends.map Prod.fst).Nodup := by
  obtain ⟨heq, -⟩ | ⟨i, hneeds, -, heq⟩ := record.addDependency_cases name
  · rwa [heq]
  · rw [heq, List.map_append, List.map_singleton, List.nodup_append]
    refine ⟨h, by simp, ?_⟩
    rintro n hn _ hname rfl
    obtain ⟨need, hneed, rfl⟩ := List.mem_map.mp hn
    obtain rfl := List.mem_singleton.mp hname
    rw [needs_iff.mpr ⟨need.2, hneed⟩] at hneeds
    cases hneeds

/-- A name is a need only once. -/
theorem nodup_needs_after (path : Text) (operations : List Operation) :
    ((after path operations).depends.map Prod.fst).Nodup := by
  refine List.foldlRecOn (motive := fun record => (record.depends.map Prod.fst).Nodup) operations
    Operation.apply (b := { path }) List.nodup_nil fun record h operation _ => ?_
  cases operation with
  | adds | imports => exact h
  | notes name => exact nodup_needs_addDependency h

/-- No operation takes a need away or puts it behind others. -/
theorem depends_prefix_apply (operation : Operation) :
    record.depends <+: (operation.apply record).depends := by
  cases operation with
  | adds | imports => exact List.prefix_rfl
  | notes name =>
    change record.depends <+: (record.addDependency name).depends
    obtain ⟨heq, -⟩ | ⟨i, -, -, heq⟩ := record.addDependency_cases name
    · exact heq.symm ▸ List.prefix_rfl
    · exact heq.symm ▸ List.prefix_append _ _

theorem depends_prefix_foldl (operations : List Operation) :
    record.depends <+: (operations.foldl Operation.apply record).depends := by
  induction operations generalizing record with
  | nil => exact List.prefix_rfl
  | cons operation rest ih => exact (depends_prefix_apply operation).trans ih

/-- A need stands with the first import that binds its name by itself, and with no other. -/
theorem Tracks.exists_first (h : record.Tracks) (hneed : (name, i) ∈ record.depends) :
    ∃ line, record.imports[i]? = some line ∧ name ∈ line.names ∧
      ∀ earlier ∈ record.imports.take i, name ∉ earlier.names := by
  obtain ⟨hlt, hname, hbefore⟩ := List.findIdx?_eq_some_iff_getElem.mp (h.first _ hneed)
  refine ⟨record.imports[i], List.getElem?_eq_getElem hlt, by simpa using hname, ?_⟩
  intro earlier hearlier
  obtain ⟨j, hj, rfl⟩ := List.mem_take_iff_getElem.mp hearlier
  simpa using hbefore j (by omega)

/-- A need is found with the import that it was noted with. -/
theorem Tracks.lookup_of_mem (h : record.Tracks) (hneed : (name, i) ∈ record.depends) :
    record.depends.lookup name = some i := by
  obtain ⟨j, hj⟩ := Option.isSome_iff_exists.mp (needs_iff.mpr ⟨i, hneed⟩)
  rw [hj, ← h.importOf?_eq_of_lookup hj, h.first _ hneed]

/-- What a record holds after any operations in any order. The default exports come first, in the
opposite order of their additions, then the others; the count of solid exports is that of the solid
symbols that were added, repeated ones included. Each need is listed once, with the first import
that binds its name, and no later operation gives it another one. The imports are those that were
given, and one that was not given with its mark has it exactly if a need stands with it. -/
theorem after_remembers (path : Text) (operations : List Operation) :
    let record := after path operations
    record.exports =
        ((addedSymbols operations).filter (·.isDefault)).reverse ++
          (addedSymbols operations).filter (!·.isDefault) ∧
      record.solidCount = (addedSymbols operations).countP (!·.kind.isVirtual) ∧
      (record.depends.map Prod.fst).Nodup ∧
      (∀ need ∈ record.depends,
        (∃ line, record.imports[need.2]? = some line ∧ need.1 ∈ line.names ∧
          ∀ earlier ∈ record.imports.take need.2, need.1 ∉ earlier.names) ∧
        ∀ later, (after path (operations ++ later)).depends.lookup need.1 = some need.2) ∧
      record.imports.length = (givenImports operations).length ∧
      ∀ i line, record.imports[i]? = some line →
        ∃ given, (givenImports operations)[i]? = some given ∧
          line = { given with isStrong := line.isStrong } ∧
          (line.isStrong = true ↔
            given.isStrong = true ∨ ∃ name, (name, i) ∈ record.depends) := by
  intro record
  have htracks : record.Tracks := tracks_after path operations
  have himports := imports_after path operations
  refine ⟨exports_after path operations, solidCount_after path operations,
    nodup_needs_after path operations, ?_, ?_, ?_⟩
  · intro need hneed
    refine ⟨htracks.exists_first hneed, fun later => ?_⟩
    refine (tracks_after path (operations ++ later)).lookup_of_mem ?_
    rw [after, List.foldl_append]
    exact (depends_prefix_foldl later).subset hneed
  · rw [himports, List.length_mapIdx]
  · intro i line hline
    rw [himports, List.getElem?_mapIdx] at hline
    obtain ⟨given, hgiven, rfl⟩ := Option.map_eq_some_iff.mp hline
    refine ⟨given, hgiven, rfl, ?_⟩
    rw [Bool.or_eq_true, hasNeedAt_iff]

/-- Two imports of one name, the second of which comes when the name is a need already. -/
theorem after_remembers_second_import :
    let symbol (name : Char) (kind : ExportKind) (isDefault : Bool) : ExportedSymbol :=
      ⟨[name], kind, isDefault⟩
    let first : ImportLine := { modulePath := "./x".toList, names := [['X']] }
    let second : ImportLine := { modulePath := "./y".toList, names := [['X'], ['Y']] }
    let operations : List Operation :=
      [.adds (symbol 'T' .typeAlias false), .imports first, .notes ['X'],
        .adds (symbol 'D' .function true), .imports second, .notes ['Z']]
    let record := after "/a.ts".toList operations
    record.exports = [symbol 'D' .function true, symbol 'T' .typeAlias false] ∧
      record.solidCount = 1 ∧ record.depends = [(['X'], 0)] ∧
      record.imports = [{ first with isStrong := true }, second] ∧
      ∀ later, (after "/a.ts".toList (operations ++ later)).depends.lookup ['X'] = some 0 := by
  intro symbol first second operations record
  obtain ⟨hexports, hsolid, -, hneeds, -, -⟩ := after_remembers "/a.ts".toList operations
  have hdepends : record.depends = [(['X'], 0)] := by rfl
  have hneed : (['X'], 0) ∈ record.depends := hdepends ▸ List.mem_singleton_self _
  exact ⟨hexports, hsolid, hdepends, by rfl, (hneeds _ hneed).2⟩

end Disentangle.FileRecord
