import Disentangle.Import.Redirect

/-!
Which imports are led through the index, and that this agrees with where their bindings are said to
come from.
-/

namespace Disentangle.ImportLine

variable {line : ImportLine} {table : SymbolTable} {name : Text}

/-- An import is led through the index when it binds something, all of it by names that are owned,
and a default import only by a name that the imported module itself owns. -/
theorem routesToIndex_iff :
    line.routesToIndex table = true ↔
      line.namespaceName = none ∧ line.isRequire = false ∧ line.names ≠ [] ∧
        ∀ name ∈ line.names, ∃ owner, table.owner? (line.exportedName name) = some owner ∧
          (line.isDefaultBinding name = true → line.resolvedPath = some owner) := by
  simp only [routesToIndex, Bool.and_eq_true, Option.isNone_iff_eq_none, Bool.not_eq_true',
    List.isEmpty_eq_false_iff, List.all_eq_true, and_assoc]
  refine and_congr_right fun _ => and_congr_right fun _ => and_congr_right fun _ => ?_
  refine forall₂_congr fun name _ => ?_
  cases table.owner? (line.exportedName name) with
  | none => simp
  | some owner => cases hdefault : line.isDefaultBinding name <;> simp

/-- An import that is led through the index asks for names that are owned. -/
theorem exists_owner?_of_routesToIndex (hroutes : line.routesToIndex table = true)
    (hname : name ∈ line.names) :
    ∃ owner, table.owner? (line.exportedName name) = some owner := by
  obtain ⟨-, -, -, hcovered⟩ := routesToIndex_iff.mp hroutes
  obtain ⟨owner, howner, -⟩ := hcovered name hname
  exact ⟨owner, howner⟩

/-- What is bound by an import that is led through the index comes from the owner of its exported
name, also when the order of the records is worked out. -/
theorem sourceOf_of_routesToIndex (hroutes : line.routesToIndex table = true)
    (hname : name ∈ line.names) :
    ∃ owner, table.owner? (line.exportedName name) = some owner ∧
      line.sourceOf table name = some owner := by
  obtain ⟨-, hrequire, -, hcovered⟩ := routesToIndex_iff.mp hroutes
  obtain ⟨owner, howner, hdefault⟩ := hcovered name hname
  refine ⟨owner, howner, ?_⟩
  rw [sourceOf, hrequire, Bool.false_or]
  split
  next hbinding => exact hdefault hbinding
  next => exact howner

end Disentangle.ImportLine
