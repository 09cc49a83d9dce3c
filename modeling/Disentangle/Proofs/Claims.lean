import Disentangle.SymbolTable

/-!
What claims do to a table. A claim that succeeds makes its path the owner of its name and leaves
every other name with the owner that it had.
-/

namespace Disentangle.SymbolTable

variable {table table' : SymbolTable} {path : Text}

@[simp] theorem owner?_empty (name : Text) : empty.owner? name = none := rfl

theorem owner?_append (owners : List (Text × Text)) (name path n : Text) :
    owner? ⟨owners ++ [(name, path)]⟩ n =
      (owner? ⟨owners⟩ n).or (if n = name then some path else none) := by
  have hlast : [(name, path)].lookup n = if n = name then some path else none := by
    rw [List.lookup_cons, List.lookup_nil]
    by_cases h : n = name
    · simp [h]
    · simp [h, beq_false_of_ne h]
  rw [owner?, List.lookup_append, hlast, owner?]

/-- After a claim the owners are those from before, and the claimed name belongs to the path. -/
theorem owner?_claim_iff {name : Text} (h : table.claim path name = .ok table') (n p : Text) :
    table'.owner? n = some p ↔ table.owner? n = some p ∨ n = name ∧ p = path := by
  rw [claim] at h
  cases howner : table.owner? name with
  | some owner =>
    rw [howner] at h
    simp only at h
    split at h
    next hsame =>
      cases h
      constructor
      · exact Or.inl
      · rintro (h | ⟨rfl, rfl⟩)
        · exact h
        · rw [howner, hsame]
    next => cases h
  | none =>
    rw [howner] at h
    cases h
    rw [owner?_append]
    by_cases hn : n = name
    · subst hn
      rw [howner]
      simp [eq_comm]
    · simp [hn]

/-- After several claims of one path the owners are those from before, and all claimed names
belong to the path. -/
theorem owner?_claimAll_iff {names : List Text} (h : table.claimAll path names = .ok table')
    (n p : Text) :
    table'.owner? n = some p ↔ table.owner? n = some p ∨ n ∈ names ∧ p = path := by
  induction names generalizing table with
  | nil =>
    cases h
    simp
  | cons name rest ih =>
    rw [claimAll] at h
    split at h
    next middle hclaim =>
      rw [ih h, owner?_claim_iff hclaim, List.mem_cons, or_assoc, or_and_right]
    next => cases h

end Disentangle.SymbolTable
