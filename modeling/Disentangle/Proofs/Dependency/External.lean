import Disentangle.Path.Specifier
import Disentangle.Proofs.Dependency.Agreement
import Disentangle.Proofs.Lists

/-!
What a source needs of external modules while it is loaded. No file of a project provides that, so
it should have no part in the order of the files. But a binding by name is looked up by that name
alone: where a file of the project owns the name, there is an edge to this file. What is needed of
external modules leaves the graph as it is exactly when there is no such binding.
-/

namespace Disentangle

/-- Whether the module of an import is external: it is named by no path. -/
def ImportLine.isExternal (line : ImportLine) : Bool :=
  !Path.isRelativeSpecifier line.modulePath && !Path.isAbsolute line.modulePath

namespace FileRecord

/-- The record without what it needs of external modules. -/
def withoutExternal (record : FileRecord) : FileRecord :=
  { record with
    depends := record.depends.filter fun need =>
      !(record.imports[need.2]?).any ImportLine.isExternal }

variable {record : FileRecord} {records : List FileRecord}

@[simp] theorem path_withoutExternal : record.withoutExternal.path = record.path := rfl

@[simp] theorem dependencies_withoutExternal :
    record.withoutExternal.dependencies = record.dependencies.filter (!·.2.isExternal) := by
  unfold withoutExternal dependencies
  rw [List.filterMap_filter, List.filter_filterMap]
  apply List.filterMap_congr
  rintro ⟨name, i⟩ -
  dsimp only
  cases record.imports[i]? with
  | none => rfl
  | some line => cases hline : line.isExternal <;> simp [Option.filter, hline]

@[simp] theorem map_path_map_withoutExternal :
    (records.map withoutExternal).map (·.path) = records.map (·.path) := by
  simp [Function.comp_def]

end FileRecord

namespace Dependency

open Relation FileRecord

/-- What is needed of external modules comes from none of the records. -/
def ExternalsUnprovided (records : List FileRecord) (table : SymbolTable) : Prop :=
  ∀ u ∈ records, ∀ need ∈ u.dependencies, need.2.isExternal = true →
    ∀ v ∈ records, need.2.sourceOf table need.1 ≠ some v.path

instance (records : List FileRecord) (table : SymbolTable) :
    Decidable (ExternalsUnprovided records table) :=
  inferInstanceAs (Decidable (∀ u ∈ records, ∀ need ∈ u.dependencies,
    need.2.isExternal = true → ∀ v ∈ records, need.2.sourceOf table need.1 ≠ some v.path))

variable {records : List FileRecord} {table : SymbolTable} {name path : Text} {line : ImportLine}

theorem provider?_eq_none_iff :
    provider? records table name line = none ↔
      ∀ v ∈ records, line.sourceOf table name ≠ some v.path := by
  unfold provider? position?
  cases line.sourceOf table name with
  | none => simp
  | some source => simp [List.findIdx?_eq_none_iff, eq_comm (a := source)]

theorem provider?_map_withoutExternal :
    provider? (records.map withoutExternal) table name line =
      provider? records table name line := by
  unfold provider? position?
  simp only [List.findIdx?_map, Function.comp_def, path_withoutExternal]
  rfl

theorem pathAt_map_withoutExternal : pathAt (records.map withoutExternal) = pathAt records := by
  funext i
  simp [pathAt, Function.comp_def]

/-- The graph stays as it is without what is needed of external modules exactly when none of that
comes from one of the records. -/
theorem graphOf_withoutExternal_eq_iff :
    graphOf (records.map withoutExternal) table = graphOf records table ↔
      ExternalsUnprovided records table := by
  simp only [graphOf, Graph.mk.injEq, List.map_map, List.map_inj_left, Function.comp_def,
    dependencies_withoutExternal, provider?_map_withoutExternal, filterMap_filter_eq_iff]
  simp only [ExternalsUnprovided, Bool.not_eq_false', provider?_eq_none_iff]

theorem graph?_withoutExternal (h : ExternalsUnprovided records table) :
    graph? (records.map withoutExternal) table = graph? records table := by
  rw [graph?, graph?, map_path_map_withoutExternal, graphOf_withoutExternal_eq_iff.mpr h]

/-- A need that remains was there before. -/
theorem NeedsFile.of_withoutExternal {u v : FileRecord}
    (h : NeedsFile table u.withoutExternal v.withoutExternal) : NeedsFile table u v := by
  obtain ⟨name, line, hneed, hsource⟩ := h
  rw [dependencies_withoutExternal] at hneed
  exact ⟨name, line, (List.mem_filter.mp hneed).1, hsource⟩

/-- A link that remains was there before. -/
theorem Link.of_withoutExternal {p q : Text}
    (h : Link (records.map withoutExternal) table p q) : Link records table p q := by
  obtain ⟨u', hu', v', hv', hp, hq, hneeds⟩ := h
  obtain ⟨u, hu, rfl⟩ := List.mem_map.mp hu'
  obtain ⟨v, hv, rfl⟩ := List.mem_map.mp hv'
  exact ⟨u, hu, v, hv, hp, hq, hneeds.of_withoutExternal⟩

/-- Sorting without what is needed of external modules gives the same order or the same
failure. -/
theorem sortRecords_withoutExternal (h : ExternalsUnprovided records table) :
    sortRecords (records.map withoutExternal) table =
      (sortRecords records table).map (List.map withoutExternal) := by
  unfold sortRecords
  rw [graph?_withoutExternal h]
  cases graph? records table with
  | error reason => rfl
  | ok graph =>
    simp only [bind, Except.bind]
    cases order graph with
    | ok vertices =>
      simp [Except.map, pure, Except.pure, List.map_filterMap, List.getElem?_map]
    | error cycle =>
      simp [Except.map, throw, throwThe, MonadExceptOf.throw, List.getElem?_map, Option.map_map,
        Function.comp_def]

/-- Without what is needed of external modules there are the same tangles. -/
theorem tangledPaths_withoutExternal (h : ExternalsUnprovided records table) :
    tangledPaths (records.map withoutExternal) table = tangledPaths records table := by
  unfold tangledPaths
  rw [graph?_withoutExternal h]
  simp only [List.getElem?_map, Option.map_map, Function.comp_def, path_withoutExternal]

/-- A cycle that remains was there before. -/
theorem exists_circular_of_withoutExternal
    (h : ∃ cycle,
      sortRecords (records.map withoutExternal) table = .error (.circularDependency cycle)) :
    ∃ cycle, sortRecords records table = .error (.circularDependency cycle) := by
  rw [exists_circular_iff, map_path_map_withoutExternal] at h
  obtain ⟨hdistinct, p, hcycle⟩ := h
  have hbefore : TransGen (Link records table) p p :=
    TransGen.mono (fun _ _ => Link.of_withoutExternal) p p hcycle
  exact exists_circular_iff.mpr ⟨hdistinct, p, hbefore⟩

/-- An edge that remains was there before. -/
theorem edge_of_withoutExternal (hdistinct : (records.map (·.path)).Nodup) {i j : Nat}
    (h : (graphOf (records.map withoutExternal) table).Edge i j) :
    (graphOf records table).Edge i j := by
  have hdistinct' : ((records.map withoutExternal).map (·.path)).Nodup := by
    rwa [map_path_map_withoutExternal]
  obtain ⟨u', v', hu', hv', hneeds⟩ := (edge_graphOf_iff hdistinct' i j).mp h
  rw [List.getElem?_map, Option.map_eq_some_iff] at hu' hv'
  obtain ⟨u, hu, rfl⟩ := hu'
  obtain ⟨v, hv, rfl⟩ := hv'
  exact (edge_graphOf_iff hdistinct i j).mpr ⟨u, v, hu, hv, hneeds.of_withoutExternal⟩

/-- A tangle that remains lies within one that was there before. -/
theorem tangledPaths_of_withoutExternal {groups : List (List Text)}
    (h : tangledPaths (records.map withoutExternal) table = .ok groups) :
    ∃ before, tangledPaths records table = .ok before ∧
      ∀ group ∈ groups, ∃ around ∈ before, group ⊆ around := by
  have hdistinct' : ((records.map withoutExternal).map (·.path)).Nodup := by
    by_contra hrepeated
    obtain ⟨path, hpath⟩ : ∃ path, sortRecords _ table = .error (.duplicateSource path) :=
      exists_duplicate_iff.mpr hrepeated
    rw [sortRecords_eq_duplicate_iff] at hpath
    rw [tangledPaths_eq_error_iff.mpr ⟨path, hpath, rfl⟩] at h
    cases h
  have hdistinct : (records.map (·.path)).Nodup := by
    rwa [map_path_map_withoutExternal] at hdistinct'
  rw [tangledPaths_eq hdistinct', Except.ok.injEq] at h
  subst h
  refine ⟨_, tangledPaths_eq hdistinct, ?_⟩
  intro paths hpaths
  obtain ⟨group, hgroup, rfl⟩ := List.mem_map.mp hpaths
  obtain ⟨around, haround, hsubset⟩ := exists_tangle_superset (inside_graphOf hdistinct')
    (inside_graphOf hdistinct) (fun _ _ => edge_of_withoutExternal hdistinct) hgroup
  refine ⟨_, List.mem_map_of_mem haround, ?_⟩
  rw [pathAt_map_withoutExternal]
  exact List.map_subset _ hsubset

/-- What external modules have to do with the order of the files. Without what is needed of them
the graph is the same exactly when no file of the project owns what they are to provide; then there
is the same order or the same failure, and there are the same tangles. In any case what is needed of
them can only stand in the way: a cycle that remains without it was there before, and so was what
is then still tangled. -/
theorem withoutExternal_same_order_and_tangles (records : List FileRecord) (table : SymbolTable) :
    (graphOf (records.map withoutExternal) table = graphOf records table ↔
        ExternalsUnprovided records table) ∧
      (ExternalsUnprovided records table →
        sortRecords (records.map withoutExternal) table =
            (sortRecords records table).map (List.map withoutExternal) ∧
          tangledPaths (records.map withoutExternal) table = tangledPaths records table) ∧
      ((∃ cycle, sortRecords (records.map withoutExternal) table =
          .error (.circularDependency cycle)) →
        ∃ cycle, sortRecords records table = .error (.circularDependency cycle)) ∧
      ∀ groups, tangledPaths (records.map withoutExternal) table = .ok groups →
        ∃ before, tangledPaths records table = .ok before ∧
          ∀ group ∈ groups, ∃ around ∈ before, group ⊆ around := by
  refine ⟨graphOf_withoutExternal_eq_iff, ?_, exists_circular_of_withoutExternal, ?_⟩
  · intro hunprovided
    exact ⟨sortRecords_withoutExternal hunprovided, tangledPaths_withoutExternal hunprovided⟩
  · intro groups hgroups
    exact tangledPaths_of_withoutExternal hgroups

/-- The record of a file that needs the default export of the one beside it. -/
def needingDefault (path specifier source : String) : FileRecord where
  path := path.toList
  imports := [{ modulePath := specifier.toList, resolvedPath := some source.toList,
                names := [['A']], hasDefault := true, isStrong := true }]
  depends := [(['A'], 0)]

/-- The default export of an external module, under a name that a file of the project owns: it comes
from the module, which has no file. -/
theorem withoutExternal_same_order_default_export :
    let line : ImportLine :=
      { modulePath := "react".toList, names := [['X']], hasDefault := true, isStrong := true }
    let records : List FileRecord :=
      [{ path := "/a.ts".toList, imports := [line], depends := [(['X'], 0)] },
        needingDefault "/x.ts" "./a" "/a.ts"]
    let table : SymbolTable := ⟨[(['X'], "/x.ts".toList)]⟩
    ExternalsUnprovided records table ∧
      (records.map withoutExternal).map (·.depends) ≠ records.map (·.depends) ∧
      sortRecords (records.map withoutExternal) table = .ok (records.map withoutExternal) := by
  intro line records table
  have hunprovided : ExternalsUnprovided records table := by decide
  have hsort : sortRecords records table = .ok records := by rfl
  obtain ⟨-, hsame, -⟩ := withoutExternal_same_order_and_tangles records table
  refine ⟨hunprovided, by decide, ?_⟩
  rw [(hsame hunprovided).1, hsort]
  rfl

/-- A name that is needed of an external module and that a file of the project owns: it makes up a
cycle, without which there is an order. -/
theorem withoutExternal_owned_name :
    let line : ImportLine := { modulePath := "lodash".toList, names := [['X']], isStrong := true }
    let records : List FileRecord :=
      [{ path := "/a.ts".toList, imports := [line], depends := [(['X'], 0)] },
        needingDefault "/x.ts" "./a" "/a.ts"]
    let table : SymbolTable := ⟨[(['X'], "/x.ts".toList)]⟩
    line.isExternal = true ∧ line.resolvedPath = none ∧
      sortRecords records table = .error (.circularDependency
        ["/a.ts".toList, "/x.ts".toList, "/a.ts".toList]) ∧
      sortRecords (records.map withoutExternal) table = .ok (records.map withoutExternal) ∧
      tangledPaths records table = .ok [["/x.ts".toList, "/a.ts".toList]] ∧
      tangledPaths (records.map withoutExternal) table = .ok [] := by
  intro line records table
  exact ⟨by decide, rfl, rfl, rfl, rfl, rfl⟩

end Dependency

end Disentangle
