import Disentangle.Proofs.TypeScript.Statement

/-!
Whole sources, read statement by statement. Blanks and comments before a text make no difference to
what is read in it, and what stands before it only moves its statements.
-/

namespace Disentangle.TypeScript

/-- What is read of the text `t` that begins after `position` characters. -/
def readAll (jsx : Bool) (position : Nat) (t : Text) : Reading :=
  readFrom jsx (t.length + 1) position t

section Reading

variable {jsx breaks complete : Bool} {n m p q : Nat} {t gap written rest : Text}
  {statement : Statement} {statements : List Located}

theorem readFrom_fuel (hn : t.length < n) (hm : t.length < m) :
    readFrom jsx n p t = readFrom jsx m p t := by
  induction n generalizing m p t with
  | zero => omega
  | succ n ih =>
    obtain ⟨m, rfl⟩ := Nat.exists_eq_add_one_of_ne_zero (by omega : m ≠ 0)
    rw [readFrom, readFrom]
    have hle : (skipTrivia t.length.succ false t).2.length ≤ t.length :=
      skipTrivia_suffix.length_le
    generalize (skipTrivia t.length.succ false t).2 = here at hle
    dsimp only
    by_cases hnil : here = []
    · rw [if_pos hnil, if_pos hnil]
    rw [if_neg hnil, if_neg hnil]
    split
    · rfl
    · rfl
    next width hwidth _ =>
      have hpos := List.length_pos_iff.mpr hnil
      have hdrop : (here.drop width).length < here.length := by
        rw [List.length_drop]
        exact Nat.sub_lt hpos (Nat.pos_of_ne_zero hwidth)
      rw [ih (m := m) (by omega) (by omega)]

/-- Blanks and comments are passed over before anything is read. -/
theorem readFrom_trivia (hgap : Trivia breaks gap) :
    readFrom jsx n p (gap ++ t) = readFrom jsx n (p + gap.length) t := by
  cases n with
  | zero => rfl
  | succ n =>
    have hskip : (skipTrivia (gap ++ t).length.succ false (gap ++ t)).2 =
        (skipTrivia t.length.succ false t).2 := by
      rw [hgap.skip_append (Nat.lt_succ_self _) (Nat.lt_succ_self _),
        ← Bool.or_false (false || breaks), skipTrivia_or]
    have hle : (skipTrivia t.length.succ false t).2.length ≤ t.length :=
      skipTrivia_suffix.length_le
    rw [readFrom, readFrom, hskip]
    generalize (skipTrivia t.length.succ false t).2 = here at hle
    have hstart : p + ((gap ++ t).length - here.length) =
        p + gap.length + (t.length - here.length) := by
      rw [List.length_append]
      omega
    rw [hstart]

theorem readAll_trivia (hgap : Trivia breaks gap) :
    readAll jsx p (gap ++ t) = readAll jsx (p + gap.length) t := by
  unfold readAll
  rw [readFrom_trivia hgap]
  exact readFrom_fuel (by rw [List.length_append]; omega) (Nat.lt_succ_self _)

theorem readFrom_position :
    (readFrom jsx n p t).complete = (readFrom jsx n q t).complete ∧
      (readFrom jsx n p t).statements.map (·.statement) =
        (readFrom jsx n q t).statements.map (·.statement) := by
  induction n generalizing p q t with
  | zero => exact ⟨rfl, rfl⟩
  | succ n ih =>
    rw [readFrom, readFrom]
    generalize (skipTrivia t.length.succ false t).2 = here
    dsimp only
    by_cases hnil : here = []
    · rw [if_pos hnil, if_pos hnil]
      exact ⟨rfl, rfl⟩
    rw [if_neg hnil, if_neg hnil]
    split
    · exact ⟨rfl, rfl⟩
    · exact ⟨rfl, rfl⟩
    next width _ _ =>
      obtain ⟨hcomplete, hstatements⟩ :=
        @ih (p + (t.length - here.length) + width) (q + (t.length - here.length) + width)
          (here.drop width)
      exact ⟨hcomplete, congrArg (List.cons _) hstatements⟩

/-- Where a text begins makes no difference to which statements it has. -/
theorem readAll_position :
    (readAll jsx p t).complete = (readAll jsx q t).complete ∧
      (readAll jsx p t).statements.map (·.statement) =
        (readAll jsx q t).statements.map (·.statement) :=
  readFrom_position

/-- A reading begins with a statement if that is read at the front of the text, and goes on behind
it. -/
theorem readAll_eq_cons_iff (hbegins : Begins (written ++ rest)) (hne : written ≠ []) :
    readAll jsx p (written ++ rest) =
        ⟨⟨p, p + written.length, statement⟩ :: statements, complete⟩ ↔
      readStatement jsx (written ++ rest) = some (statement, written.length) ∧
        readAll jsx (p + written.length) rest = ⟨statements, complete⟩ := by
  have hpos := List.length_pos_iff.mpr hne
  have hfuel : readFrom jsx (written ++ rest).length (p + written.length) rest =
      readAll jsx (p + written.length) rest :=
    readFrom_fuel (by rw [List.length_append]; omega) (Nat.lt_succ_self _)
  rw [readAll, readFrom, skipTrivia_begins hbegins]
  dsimp only
  rw [if_neg (by simp [hne]), Nat.sub_self, Nat.add_zero]
  constructor
  · intro h
    split at h
    · cases h
    · cases h
    next found width _ hread =>
      simp only [Reading.mk.injEq, List.cons.injEq, Located.mk.injEq, Nat.add_left_cancel_iff,
        true_and] at h
      obtain ⟨⟨⟨rfl, rfl⟩, hstatements⟩, hcomplete⟩ := h
      rw [List.drop_left, hfuel] at hstatements hcomplete
      exact ⟨hread, by rw [← hstatements, ← hcomplete]⟩
  · rintro ⟨hread, hrest⟩
    rw [hread]
    split
    next hnone => cases hnone
    next hzero =>
      simp only [Option.some.injEq, Prod.mk.injEq] at hzero
      exact absurd hzero.2 hpos.ne'
    next hsome =>
      cases hsome
      rw [List.drop_left, hfuel, hrest]

/-- Where an import statement stands first, no line names an interpreter. -/
theorem readSource_import (hgap : Trivia breaks gap) (t : Text) :
    readSource jsx (gap ++ ("import ".toList ++ t)) =
      readAll jsx 0 (gap ++ ("import ".toList ++ t)) := by
  have hstart : bodyStart (gap ++ ("import ".toList ++ t)) = 0 := by
    unfold bodyStart
    dsimp only
    rw [(reading_trivia hgap).2.1, (reading_import t).2]
    rfl
  unfold readSource readAll
  rw [hstart, List.drop_zero]

end Reading

end Disentangle.TypeScript
