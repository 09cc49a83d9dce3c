import Disentangle.Proofs.Dependency.Sorting
import Disentangle.Proofs.Record.Needs

/-!
Which bindings of an import can be needed while a source is loaded. Those that stand by themselves
can, whether by name, by another name, as a default or by `require`; and a module that gives a
default binding, or one by `require`, is then loaded before the source. The name of a whole module
is bound as well, but it is noted nowhere, so it constrains no order.
-/

namespace Disentangle

/-- Whether a line binds `name`, by itself or as the name of the whole module. -/
def ImportLine.binds (line : ImportLine) (name : Text) : Bool :=
  line.names.contains name || line.namespaceName = some name

namespace FileRecord

variable {record : FileRecord} {name : Text} {i : Nat} {line : ImportLine}

/-- The position of the first import that binds `name`, by itself or as the name of the whole
module. -/
def binder? (record : FileRecord) (name : Text) : Option Nat :=
  record.imports.findIdx? (·.binds name)

/-- The first import that binds a name is the first one that binds it by itself, if it does so. -/
theorem importOf?_eq_iff_of_binder? (hfirst : record.binder? name = some i)
    (hline : record.imports[i]? = some line) :
    record.importOf? name = some i ↔ name ∈ line.names := by
  obtain ⟨hlt, hbinds, hbefore⟩ := List.findIdx?_eq_some_iff_getElem.mp hfirst
  obtain ⟨-, rfl⟩ := List.getElem?_eq_some_iff.mp hline
  rw [importOf?, List.findIdx?_eq_some_iff_getElem]
  constructor
  · rintro ⟨_, hname, _⟩
    simpa using hname
  · intro hname
    refine ⟨hlt, by simpa using hname, fun j hj => ?_⟩
    have hnot := hbefore j hj
    simp only [ImportLine.binds, Bool.or_eq_true, not_or] at hnot
    exact hnot.1

end FileRecord

namespace Dependency

open FileRecord

variable {name : Text} {i : Nat} {line : ImportLine}

/-- What a binding comes from does not depend on whether its import is marked. -/
theorem sourceOf_strong (table : SymbolTable)
    (hmodule : line.isRequire = true ∨ line.isDefaultBinding name = true) :
    ImportLine.sourceOf { line with isStrong := true } table name = line.resolvedPath := by
  have hbinding : (line.isRequire || line.isDefaultBinding name) = true := by simpa using hmodule
  change (if line.isRequire || line.isDefaultBinding name then line.resolvedPath else _) = _
  rw [if_pos hbinding]

/-- Records whose paths differ are sorted, with each behind those whose file it needs, or there is
a cycle. -/
theorem sortRecords_sublist_or_cycle {records : List FileRecord} {table : SymbolTable}
    (hdistinct : (records.map (·.path)).Nodup) {u v : FileRecord} (hu : u ∈ records)
    (hv : v ∈ records) (hneeds : NeedsFile table u v) :
    (∃ ordered, sortRecords records table = .ok ordered ∧ [v, u].Sublist ordered) ∨
      ∃ cycle, sortRecords records table = .error (.circularDependency cycle) := by
  cases hsort : sortRecords records table with
  | ok ordered => exact Or.inl ⟨ordered, rfl, sortRecords_pair_sublist hsort hu hv hneeds⟩
  | error reason =>
    obtain ⟨cycle, -, rfl⟩ := (sortRecords_eq_error_iff hdistinct).mp hsort
    exact Or.inr ⟨_, rfl⟩

/-- A name that is bound by imports of a source, and noted because it is read while the source is
loaded. It becomes a need exactly when one of the imports binds it by itself. It is noted with the
first import that binds it, and this one is marked, exactly when the first one binds it by itself
and not only as the name of the whole module. Then, if it is a default binding or one by `require`
and the module has a record, this record comes before that of the source, whatever else is noted
there, or there is a cycle. -/
theorem addDependency_noted_iff (path : Text) (operations : List Operation)
    (hfirst : (after path operations).binder? name = some i)
    (hline : (after path operations).imports[i]? = some line) :
    let record := after path operations
    let noted := record.addDependency name
    (noted.needs name = true ↔ ∃ other ∈ record.imports, name ∈ other.names) ∧
      ((noted.needs name = true ∧ noted.depends.lookup name = some i ∧
          noted.imports[i]? = some { line with isStrong := true }) ↔ name ∈ line.names) ∧
      (name ∈ line.names → line.isRequire = true ∨ line.isDefaultBinding name = true →
        ∀ (names : List Text) (records : List FileRecord) (table : SymbolTable) (v : FileRecord),
          (records.map (·.path)).Nodup → names.foldl addDependency noted ∈ records →
          v ∈ records → line.resolvedPath = some v.path →
            (∃ ordered, sortRecords records table = .ok ordered ∧
                [v, names.foldl addDependency noted].Sublist ordered) ∨
              ∃ cycle, sortRecords records table = .error (.circularDependency cycle)) := by
  intro record noted
  have htracks : record.Tracks := tracks_after path operations
  have hnoted : record.importOf? name = some i →
      noted.depends.lookup name = some i ∧
        noted.imports[i]? = some { line with isStrong := true } :=
    fun himport => htracks.lookup_addDependency himport hline
  refine ⟨?_, ?_, ?_⟩
  · rw [needs_addDependency, and_iff_right rfl, importOf?_isSome_iff, or_iff_right_of_imp]
    intro hneeds
    obtain ⟨j, hj⟩ := needs_iff.mp hneeds
    rw [← importOf?_isSome_iff, htracks.first _ hj]
    rfl
  · rw [← importOf?_eq_iff_of_binder? hfirst hline]
    constructor
    · rintro ⟨-, hlookup, -⟩
      have himport := (htracks.addDependency name).importOf?_eq_of_lookup hlookup
      rwa [importOf?_addDependency] at himport
    · intro himport
      refine ⟨?_, hnoted himport⟩
      rw [needs, (hnoted himport).1]
      rfl
  · intro hname hmodule names records table v hdistinct hu hv hpath
    obtain ⟨hlookup, hmarked⟩ := hnoted ((importOf?_eq_iff_of_binder? hfirst hline).mpr hname)
    refine sortRecords_sublist_or_cycle hdistinct hu hv
      ⟨name, { line with isStrong := true }, ?_, ?_⟩
    · exact mem_dependencies_foldl_addDependency (mem_dependencies_of_lookup hlookup hmarked) rfl
    · rw [sourceOf_strong table hmodule, hpath]

/-- A name that is bound as a default binding behind the name of another module. -/
theorem addDependency_noted_default :
    let whole : ImportLine :=
      { modulePath := "./w".toList, resolvedPath := some "/w.ts".toList
        namespaceName := some ['W'] }
    let line : ImportLine :=
      { modulePath := "./b".toList, resolvedPath := some "/b.ts".toList, names := [['B'], ['C']]
        hasDefault := true }
    let record := after "/a.ts".toList [.imports whole, .imports line]
    let noted := record.addDependency ['B']
    let provider : FileRecord := { path := "/b.ts".toList }
    record.binder? ['B'] = some 1 ∧ record.imports[1]? = some line ∧
      line.isDefaultBinding ['B'] = true ∧ noted.needs ['B'] = true ∧
      noted.depends.lookup ['B'] = some 1 ∧
      noted.imports[1]? = some { line with isStrong := true } ∧
      ∃ ordered, sortRecords [noted, provider] .empty = .ok ordered ∧
        [provider, noted].Sublist ordered := by
  intro whole line record noted provider
  have hsort : sortRecords [noted, provider] .empty = .ok [provider, noted] := by rfl
  have hfirst : record.binder? ['B'] = some 1 := by rfl
  have hline : record.imports[1]? = some line := by rfl
  obtain ⟨-, hnoted, hbefore⟩ := addDependency_noted_iff "/a.ts".toList
    [.imports whole, .imports line] hfirst hline
  obtain ⟨hneeds, hlookup, hmarked⟩ := hnoted.mpr (by decide)
  refine ⟨hfirst, hline, rfl, hneeds, hlookup, hmarked, ?_⟩
  apply (hbefore (by decide) (Or.inr rfl) [] [noted, provider] .empty provider (by decide)
    List.mem_cons_self (by simp) rfl).resolve_right
  rintro ⟨cycle, hcycle⟩
  rw [hsort] at hcycle
  cases hcycle

/-- The name of a whole module: an import binds it, and yet it cannot be noted. So the module may
come behind a source that needs it while it is loaded. -/
theorem addDependency_loses_namespace :
    let whole : ImportLine :=
      { modulePath := "./w".toList, resolvedPath := some "/w.ts".toList
        namespaceName := some ['W'] }
    let record := after "/a.ts".toList [.imports whole]
    let noted := record.addDependency ['W']
    let provider : FileRecord := { path := "/w.ts".toList }
    record.binder? ['W'] = some 0 ∧ record.imports[0]? = some whole ∧
      noted.needs ['W'] = false ∧ noted.imports[0]? = some whole ∧ whole.isStrong = false ∧
      whole.resolvedPath = some provider.path ∧
      sortRecords [noted, provider] .empty = .ok [noted, provider] := by
  intro whole record noted provider
  exact ⟨rfl, rfl, rfl, rfl, rfl, rfl, rfl⟩

end Dependency

end Disentangle
