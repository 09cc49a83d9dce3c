import Disentangle.Proofs.TypeScript.Source

/-!
Where the statements of a source come from. Each of them is read in the text from its first token
on, and only a statement that begins with the word `import` is read as an import.
-/

namespace Disentangle.TypeScript

open Disentangle.TypeScript.Parser Grammar

namespace Parser

variable {α β : Type} {P : α → Prop} {p q : Parser α}

/-- What a parser yields has the property `P`. -/
def Yields (P : α → Prop) (p : Parser α) : Prop :=
  ∀ c a c', p c = some (a, c') → P a

theorem yields_pure {a : α} (h : P a) : Yields P (pure a) := fun _ _ _ hread =>
  (pure_eq_some_iff.mp hread).1 ▸ h

theorem yields_failure : Yields P failure := fun _ _ _ hread =>
  (failure_eq_some_iff.mp hread).elim

theorem yields_bind {p : Parser β} {f : β → Parser α} (h : ∀ b, Yields P (f b)) :
    Yields P (p >>= f) := fun _ _ _ hread => by
  obtain ⟨b, d, -, hrest⟩ := bind_eq_some_iff.mp hread
  exact h b d _ _ hrest

theorem yields_orElse (hp : Yields P p) (hq : Yields P q) : Yields P (p <|> q) :=
  fun c a c' hread => (orElse_eq_some_iff.mp hread).elim (hp c a c') fun h => hq c a c' h.2

end Parser

/-- A statement that imports nothing. -/
def Statement.IsNoImport (statement : Statement) : Prop :=
  ∀ found, statement ≠ .imports found

theorem Statement.isNoImport_other : Statement.other.IsNoImport := fun _ => Statement.noConfusion

theorem Statement.isNoImport_declares (exported isDefault : Bool) (found : Option Declaration) :
    ((found.map (Statement.declares exported isDefault)).getD .other).IsNoImport := by
  intro statement
  cases found <;> exact Statement.noConfusion

section Statements

variable {g : Grammar} {c c' : Cursor} {statement : ImportStatement}

theorem defaultExport_yields : Yields Statement.IsNoImport g.defaultExport := by
  unfold defaultExport
  dsimp only
  repeat' first
    | exact yields_pure Statement.isNoImport_other
    | exact yields_pure (Statement.isNoImport_declares _ _ _)
    | exact yields_pure fun _ => Statement.noConfusion
    | with_reducible refine yields_bind fun _ => ?_
    | with_reducible refine yields_orElse ?_ ?_
    | split

theorem exportStatement_yields : Yields Statement.IsNoImport g.exportStatement := by
  unfold exportStatement
  dsimp only
  repeat' first
    | exact yields_failure
    | exact defaultExport_yields
    | exact yields_pure Statement.isNoImport_other
    | exact yields_pure (Statement.isNoImport_declares _ _ _)
    | with_reducible refine yields_bind fun _ => ?_
    | with_reducible refine yields_orElse ?_ ?_
    | split

/-- Only a statement that begins with the word `import` is read as an import. -/
theorem token_of_wholeStatement (h : g.wholeStatement c = some (.imports statement, c')) :
    c.token = .word "import".toList := by
  by_contra hword
  unfold wholeStatement at h
  rw [get_bind] at h
  obtain ⟨p, hp, h⟩ : ∃ p : Parser Statement, p = _ ∧ p c = some (.imports statement, c') :=
    ⟨_, rfl, h⟩
  refine (?_ : Yields Statement.IsNoImport p) _ _ _ h statement rfl
  rw [hp]
  unfold wholeStatement.decorated wholeStatement.plain
  repeat' first
    | exact exportStatement_yields
    | exact yields_pure Statement.isNoImport_other
    | exact yields_pure (Statement.isNoImport_declares _ _ _)
    | with_reducible refine yields_bind fun _ => ?_
    | with_reducible refine yields_orElse ?_ ?_
    | split
  -- What is left is the branch of imports, which asks for the word.
  next w htoken _ _ himport _ _ =>
    simp only [Bool.and_eq_true, decide_eq_true_eq] at himport
    exact absurd (himport.1.1 ▸ htoken) hword

theorem readsImport_of_readStatement {jsx : Bool} {here : Text} {width : Nat}
    (h : readStatement jsx here = some (.imports statement, width)) :
    ∃ c', ReadsImport (deepEnough jsx here) (Cursor.reading 0 here) c' statement := by
  unfold readStatement at h
  split at h
  · cases h
  next found c hwhole =>
    cases h
    obtain ⟨c', hread, -⟩ :=
      (wholeStatement_eq_some_iff (token_of_wholeStatement hwhole)).mp hwhole
    exact ⟨c', hread⟩

end Statements

section Reading

variable {jsx : Bool} {n p : Nat} {t text : Text} {located : Located}

/-- Each statement of a reading is read where it begins. -/
theorem readStatement_of_mem_readFrom (h : located ∈ (readFrom jsx n p t).statements) :
    p ≤ located.start ∧ ∃ width, located.stop = located.start + width ∧
      readStatement jsx (t.drop (located.start - p)) = some (located.statement, width) := by
  induction n generalizing p t with
  | zero => cases h
  | succ n ih =>
    obtain ⟨gap, hgap⟩ : (skipTrivia t.length.succ false t).2 <:+ t := skipTrivia_suffix
    rw [readFrom] at h
    generalize (skipTrivia t.length.succ false t).2 = here at hgap h
    subst hgap
    have hstart : p + ((gap ++ here).length - here.length) = p + gap.length := by
      rw [List.length_append, Nat.add_sub_cancel]
    rw [hstart] at h
    dsimp only at h
    split at h
    · cases h
    split at h
    · cases h
    · cases h
    next statement width _ hread =>
      rcases List.mem_cons.mp h with rfl | h
      · refine ⟨Nat.le_add_right _ _, width, rfl, ?_⟩
        dsimp only
        rw [Nat.add_sub_cancel_left, List.drop_left]
        exact hread
      · obtain ⟨hle, width', hstop, hread'⟩ := ih h
        refine ⟨by omega, width', hstop, ?_⟩
        have hplace : located.start - p =
            gap.length + (width + (located.start - (p + gap.length + width))) := by omega
        rw [hplace, ← List.drop_drop, List.drop_left, ← List.drop_drop]
        exact hread'

theorem readStatement_of_mem_readSource (h : located ∈ (readSource jsx text).statements) :
    ∃ width, located.stop = located.start + width ∧
      readStatement jsx (text.drop located.start) = some (located.statement, width) := by
  obtain ⟨hle, width, hstop, hread⟩ := readStatement_of_mem_readFrom h
  refine ⟨width, hstop, ?_⟩
  rwa [List.drop_drop, Nat.add_sub_cancel' hle] at hread

end Reading

end Disentangle.TypeScript
