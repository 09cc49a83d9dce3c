import Disentangle.Proofs.TypeScript.Token
import Disentangle.TypeScript.Cursor

/-!
How tokens are spelled in a text. A cursor at the beginning of a text that spells tokens passes over
them one by one; conversely a text is spelled by the tokens of an import statement that a cursor
has passed over. What spells tokens spells them before any other text as well, as long as that
does not go on with the last of them.
-/

namespace Disentangle.TypeScript

/-- The text spells the tokens, each behind blanks and comments, where `rest` follows. -/
inductive Spells (rest : Text) : Text → List Token → Prop where
  | nil : Spells rest [] []
  | cons {breaks : Bool} {gap later : Text} {token : Token} {tokens : List Token}
      (hgap : Trivia breaks gap) (hplain : token.IsPlain) (hends : token.EndsBefore (later ++ rest))
      (h : Spells rest later tokens) : Spells rest (gap ++ (token.text ++ later)) (token :: tokens)

/-- A cursor passes over tokens and comes to another one. -/
def Passes : Cursor → List Token → Cursor → Prop
  | c, [], c' => c' = c
  | c, token :: tokens, c' => c.token = token ∧ Passes c.next tokens c'

section Passing

variable {c c' : Cursor} {tokens more : List Token}

theorem passes_append :
    Passes c (tokens ++ more) c' ↔ ∃ d, Passes c tokens d ∧ Passes d more c' := by
  induction tokens generalizing c with
  | nil => simp [Passes]
  | cons token tokens ih => simp [Passes, ih, and_assoc]

theorem passes_singleton {token : Token} :
    Passes c [token] c' ↔ c.token = token ∧ c' = c.next := Iff.rfl

end Passing

section Spelling

variable {rest rest' t u gap later : Text} {token : Token} {tokens more : List Token} {p : Nat}
  {breaks : Bool} {c' : Cursor}

theorem Token.IsPlain.text_ne_nil (h : token.IsPlain) : token.text ≠ [] := by
  match token, h with
  | .word (c :: name), _ => exact List.cons_ne_nil c name
  | .string quote body, _ => exact List.cons_ne_nil _ _
  | .sign symbol, hsign =>
    obtain ⟨c, rfl, -⟩ := exists_of_mem_importSigns hsign
    exact List.cons_ne_nil c []

theorem reading_eq (hgap : Trivia breaks gap) (htoken : token.IsImportToken)
    (hread : readToken (token.text ++ later) = (token, later)) :
    Cursor.reading p (gap ++ (token.text ++ later)) =
      { token := token, start := p + gap.length, here := token.text ++ later
        stop := p + gap.length + token.text.length, after := later
        previousStop := p, gap := gap ++ (token.text ++ later), fresh := breaks } := by
  unfold Cursor.reading
  rw [hgap.skip (begins_of_readToken hread htoken) (Nat.lt_succ_self _), Bool.false_or]
  simp [hread]

/-- A cursor stands at a token of an import statement where that token is written behind blanks and
comments. -/
theorem exists_of_reading (h : (Cursor.reading p t).token = token)
    (htoken : token.IsImportToken) :
    ∃ breaks gap later, Trivia breaks gap ∧ t = gap ++ (token.text ++ later) ∧
      token.text ≠ [] ∧ readToken (token.text ++ later) = (token, later) := by
  generalize hskip : skipTrivia t.length.succ false t = skipped
  obtain ⟨fresh, here⟩ := skipped
  have hread : readToken here = (token, (readToken here).2) := by
    unfold Cursor.reading at h
    rw [hskip] at h
    exact Prod.ext h rfl
  generalize (readToken here).2 = after at hread
  obtain ⟨hne, rfl⟩ := readToken_append hread htoken
  have hbegins := begins_of_readToken hread htoken
  have hslash : (token.text ++ after).head? ≠ some '/' := fun hhead => (hbegins _ hhead).2 rfl
  obtain ⟨breaks, gap, hgap, rfl, -, -⟩ :=
    exists_trivia (Nat.lt_succ_self _) hskip (by simp [hne]) hslash
  exact ⟨breaks, gap, after, hgap, rfl, hne, hread⟩

/-- Where a text begins with no blank and no comment, its first token is read at once. -/
theorem reading_begins {p : Nat} (h : Begins t) :
    (Cursor.reading p t).token = (readToken t).1 ∧ (Cursor.reading p t).here = t ∧
      (Cursor.reading p t).fresh = false := by
  have hskip : skipTrivia t.length.succ false t = (false, t) := skipTrivia_begins h
  unfold Cursor.reading
  rw [hskip]
  exact ⟨rfl, rfl, rfl⟩

/-- Blanks and comments do not change what is read behind them. -/
theorem reading_trivia (hgap : Trivia breaks gap) :
    (Cursor.reading p (gap ++ t)).token = (Cursor.reading 0 t).token ∧
      (Cursor.reading p (gap ++ t)).here = (Cursor.reading 0 t).here ∧
      (Cursor.reading p (gap ++ t)).fresh = (breaks || (Cursor.reading 0 t).fresh) := by
  have hskip : skipTrivia (gap ++ t).length.succ false (gap ++ t) =
      skipTrivia t.length.succ (false || breaks) t :=
    hgap.skip_append (Nat.lt_succ_self _) (Nat.lt_succ_self _)
  rw [Bool.false_or, ← Bool.or_false breaks, skipTrivia_or] at hskip
  unfold Cursor.reading
  rw [hskip]
  exact ⟨rfl, rfl, rfl⟩

theorem Spells.passes (h : Spells rest t tokens) :
    Passes (Cursor.reading p (t ++ rest)) tokens (Cursor.reading (p + t.length) rest) := by
  induction h generalizing p with
  | nil => rfl
  | @cons breaks gap later token tokens hgap hplain hends h ih =>
    have hread := readToken_plain hplain hends
    rw [List.append_assoc, List.append_assoc, reading_eq hgap hplain.isImportToken hread]
    refine ⟨rfl, ?_⟩
    have hnext := @ih (p + gap.length + token.text.length)
    simpa [Cursor.next, Nat.add_assoc] using hnext

theorem Spells.length_le (h : Spells rest t tokens) : tokens.length ≤ t.length := by
  induction h with
  | nil => exact le_rfl
  | cons hgap hplain hends h ih =>
    have hpos := List.length_pos_iff.mpr hplain.text_ne_nil
    simp only [List.length_cons, List.length_append]
    omega

theorem Spells.append (h : Spells (u ++ rest) t tokens) (h' : Spells rest u more) :
    Spells rest (t ++ u) (tokens ++ more) := by
  induction h with
  | nil => exact h'
  | cons hgap hplain hends h ih =>
    rw [List.append_assoc, List.append_assoc]
    exact .cons hgap hplain (by rwa [List.append_assoc]) ih

/-- Tokens are spelled by a text whatever follows. -/
theorem Spells.before (h : Spells rest t tokens)
    (hends : ∀ token ∈ tokens.getLast?, token.EndsBefore rest') : Spells rest' t tokens := by
  induction h with
  | nil => exact .nil
  | @cons breaks gap later token tokens hgap hplain hends' h ih =>
    cases h with
    | nil => exact .cons hgap hplain (hends token rfl) .nil
    | @cons breaks' gap' later' token' tokens' hgap' hplain' hends'' h =>
      -- The head of the text behind a token that is not the last one belongs to that text.
      obtain ⟨c, front, hfront⟩ : ∃ c front, gap' ++ (token'.text ++ later') = c :: front := by
        apply List.exists_cons_of_ne_nil
        simp [hplain'.text_ne_nil]
      refine .cons hgap hplain (hends'.of_head ?_) (ih ?_)
      · rw [hfront]
        rfl
      · simpa using hends

/-- A text ends with the last token that it spells. -/
theorem Spells.exists_last (h : Spells rest t tokens) (hlast : tokens.getLast? = some token) :
    ∃ front, t = front ++ token.text := by
  induction h with
  | nil => cases hlast
  | @cons breaks gap later first tokens hgap hplain hends h ih =>
    cases h with
    | nil =>
      obtain rfl : first = token := Option.some.inj hlast
      exact ⟨gap, by rw [List.append_nil]⟩
    | cons =>
      obtain ⟨front, hfront⟩ := ih (by rwa [List.getLast?_cons_cons] at hlast)
      exact ⟨gap ++ (first.text ++ front), by rw [hfront]; simp only [List.append_assoc]⟩

/-- A cursor has passed over the tokens of an import statement as far as they are spelled. -/
theorem exists_of_passes (h : Passes (Cursor.reading p t) tokens c')
    (htokens : ∀ token ∈ tokens, token.IsImportToken) :
    ∃ front rest, t = front ++ rest ∧ c' = Cursor.reading (p + front.length) rest ∧
      ('\\' ∉ front → rest.head? ≠ some '\\' → Spells rest front tokens) := by
  induction tokens generalizing p t with
  | nil => exact ⟨[], t, rfl, h, fun _ _ => .nil⟩
  | cons token tokens ih =>
    rw [List.forall_mem_cons] at htokens
    obtain ⟨htoken, htokens⟩ := htokens
    obtain ⟨hfirst, hnext⟩ := h
    obtain ⟨breaks, gap, later, hgap, rfl, hne, hread⟩ := exists_of_reading hfirst htoken
    rw [reading_eq hgap htoken hread] at hnext
    obtain ⟨front, rest, rfl, rfl, hspells⟩ := ih hnext htokens
    refine ⟨gap ++ (token.text ++ front), rest, by simp, by simp [Nat.add_assoc], ?_⟩
    intro hescape hrest
    simp only [List.mem_append, not_or] at hescape
    obtain ⟨-, htext, hfront⟩ := hescape
    have hhead : (front ++ rest).head? ≠ some '\\' := by
      intro hhead
      cases front with
      | nil => exact hrest hhead
      | cons c front =>
        cases hhead
        exact hfront List.mem_cons_self
    obtain ⟨hplain, hends⟩ := readToken_isPlain hread htoken htext hhead
    exact .cons hgap hplain hends (hspells hfront hrest)

theorem length_here_le : (Cursor.reading p t).here.length ≤ t.length := by
  unfold Cursor.reading
  exact skipTrivia_suffix.length_le

/-- Every token takes a character. -/
theorem Passes.length_le (h : Passes (Cursor.reading p t) tokens c')
    (htokens : ∀ token ∈ tokens, token.IsImportToken) :
    tokens.length ≤ (Cursor.reading p t).here.length := by
  induction tokens generalizing p t with
  | nil => exact Nat.zero_le _
  | cons token tokens ih =>
    rw [List.forall_mem_cons] at htokens
    obtain ⟨htoken, htokens⟩ := htokens
    obtain ⟨hfirst, hnext⟩ := h
    obtain ⟨breaks, gap, later, hgap, rfl, hne, hread⟩ := exists_of_reading hfirst htoken
    rw [reading_eq hgap htoken hread] at hnext ⊢
    have hle : tokens.length ≤ later.length := (ih hnext htokens).trans length_here_le
    have hpos := List.length_pos_iff.mpr hne
    simp only [List.length_cons, List.length_append]
    omega

end Spelling

end Disentangle.TypeScript
