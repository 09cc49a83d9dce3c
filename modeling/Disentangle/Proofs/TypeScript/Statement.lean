import Disentangle.Proofs.TypeScript.Attributes

/-!
Import statements in a text. How such a statement is read depends on the statement alone, and, where
no semicolon ends it, on whether the next line goes on with it.
-/

namespace Disentangle.TypeScript

open Disentangle.TypeScript.Parser Grammar

/-- The text spells an import statement up to its last token, where `rest` follows. -/
inductive SpellsImport (rest : Text) : Text → ImportStatement → Prop where
  | intro {front back : List Token} {typeOnly breaks : Bool} {form : ImportForm} {quote : Char}
      {before gap body behind : Text} (htokens : ImportTokens front typeOnly form back)
      (hfront : Spells (gap ++ ((Token.string quote body).text ++ (behind ++ rest))) before front)
      (hgap : Trivia breaks gap) (hplain : (Token.string quote body).IsPlain)
      (hback : Spells rest behind back) :
      SpellsImport rest (before ++ (gap ++ ((Token.string quote body).text ++ behind)))
        ⟨typeOnly, form, (before ++ gap).length⟩

/-- A statement without a semicolon may end here. -/
def Cursor.endsStatement (c : Cursor) : Bool :=
  c.token = .finish || c.token = .sign ['\x7d'] || (c.fresh && !continuesLine false c.here)

section Reading

variable {rest rest' t gap : Text} {statement : ImportStatement} {g : Grammar} {c c' : Cursor}
  {breaks : Bool}

theorem Spells.endsBefore {tokens : List Token} (h : Spells rest t tokens) :
    ∀ token ∈ tokens.getLast?, token.EndsBefore rest := by
  induction h with
  | nil => simp
  | @cons breaks gap later token tokens hgap hplain hends h ih =>
    cases h with
    | nil => simpa using hends
    | cons => simpa using ih

/-- An import statement is spelled by a text whatever follows. -/
theorem SpellsImport.before (h : SpellsImport rest t statement) (rest' : Text) :
    SpellsImport rest' t statement := by
  obtain @⟨front, back, typeOnly, breaks, form, quote, before, gap, body, behind,
    htokens, hfront, hgap, hplain, hback⟩ := h
  refine .intro htokens (hfront.before ?_) hgap hplain (hback.before ?_)
  · intro token htoken
    refine (hfront.endsBefore token htoken).of_head ?_
    cases gap <;> simp [Token.text]
  · rcases htokens.back_cases with ⟨rfl, -⟩ | ⟨rfl, -⟩
    · simp
    · intro token htoken
      cases htoken
      exact fun _ _ => rfl

theorem SpellsImport.readsImport (h : SpellsImport rest t statement)
    (hattributes : g.importAttributesIfAny (Cursor.reading t.length rest) = some ((), c')) :
    ReadsImport g (Cursor.reading 0 (t ++ rest)) c' statement := by
  obtain @⟨front, back, typeOnly, breaks, form, quote, before, gap, body, behind,
    htokens, hfront, hgap, hplain, hback⟩ := h
  have hends : (Token.string quote body).EndsBefore (behind ++ rest) := fun _ _ => rfl
  have hread := readToken_plain hplain hends
  have hmodule : Spells rest (gap ++ ((Token.string quote body).text ++ behind))
      (.string quote body :: back) := .cons hgap hplain hends hback
  have hbefore := hfront.passes (p := 0)
  have hbehind := hmodule.passes (p := before.length)
  have hlength : before.length + (gap ++ ((Token.string quote body).text ++ behind)).length =
      (before ++ (gap ++ ((Token.string quote body).text ++ behind))).length := by simp
  rw [hlength] at hbehind
  simp only [List.append_assoc, Nat.zero_add] at hbefore hbehind ⊢
  have hstart : (before ++ gap).length = (Cursor.reading before.length
      (gap ++ ((Token.string quote body).text ++ (behind ++ rest)))).start := by
    rw [reading_eq hgap hplain.isImportToken hread, List.length_append]
  rw [hstart]
  exact .intro htokens hbefore hbehind hattributes

/-- The place behind the literal that names the module, and the parenthesis behind that. -/
def ImportStatement.behind (statement : ImportStatement) (here : Text) : Cursor :=
  let behind := (Cursor.reading statement.moduleAt (here.drop statement.moduleAt)).next
  match statement.form with
  | .require _ => behind.next
  | _ => behind

theorem behind_eq {here after : Text} {e : Cursor} {p : Nat} {front back : List Token}
    {typeOnly : Bool} {form : ImportForm} {quote : Char} {body : Text}
    (htokens : ImportTokens front typeOnly form back)
    (hliteral : readToken ((Token.string quote body).text ++ after) = (.string quote body, after))
    (hdrop : here.drop p = (Token.string quote body).text ++ after)
    (hback : Passes (Cursor.reading (p + (Token.string quote body).text.length) after) back e) :
    (ImportStatement.mk typeOnly form p).behind here = e := by
  have htoken : (Token.string quote body).IsImportToken := trivial
  have hread := reading_eq (p := p) .nil htoken hliteral
  unfold ImportStatement.behind
  dsimp only
  rw [List.nil_append] at hread
  rw [hdrop, hread]
  rcases htokens.back_cases with ⟨rfl, hform⟩ | ⟨rfl, name, rfl⟩
  · cases hback
    cases form with
    | require name => exact absurd rfl (hform name)
    | _ => rfl
  · obtain ⟨-, rfl⟩ := hback
    rfl

theorem exists_of_readsImport {here : Text}
    (h : ReadsImport g (Cursor.reading 0 here) c' statement) :
    ∃ t rest, here = t ++ rest ∧ statement.behind here = Cursor.reading t.length rest ∧
      g.importAttributesIfAny (Cursor.reading t.length rest) = some ((), c') ∧
      ('\\' ∉ t → rest.head? ≠ some '\\' → SpellsImport rest t statement) := by
  obtain @⟨front, back, typeOnly, form, d, e, quote, body, htokens, hfront, hmodule, hread⟩ := h
  obtain ⟨before, later, rfl, rfl, hbefore⟩ := exists_of_passes hfront htokens.isImportToken
  obtain ⟨hstring, hback⟩ := hmodule
  have htoken : (Token.string quote body).IsImportToken := trivial
  obtain ⟨breaks, gap, after, hgap, rfl, hne, hliteral⟩ := exists_of_reading hstring htoken
  have hstart : 0 + before.length + gap.length = (before ++ gap).length := by simp
  rw [reading_eq hgap htoken hliteral] at hback ⊢
  dsimp only [Cursor.next] at hback ⊢
  rw [hstart] at hback ⊢
  have hdrop : (before ++ (gap ++ ((Token.string quote body).text ++ after))).drop
      (before ++ gap).length = (Token.string quote body).text ++ after := by
    rw [← List.append_assoc, List.drop_left]
  have hbehind := behind_eq htokens hliteral hdrop hback
  obtain ⟨behind, rest, rfl, rfl, hspells⟩ := exists_of_passes hback htokens.isImportToken_back
  have hlength : (before ++ gap).length + (Token.string quote body).text.length + behind.length =
      (before ++ (gap ++ ((Token.string quote body).text ++ behind))).length := by
    simp [Nat.add_assoc]
  rw [hlength] at hbehind hread
  refine ⟨before ++ (gap ++ ((Token.string quote body).text ++ behind)), rest, by simp, hbehind,
    hread, ?_⟩
  · intro hescape hrest
    simp only [List.mem_append, not_or] at hescape
    obtain ⟨hbeforeEscape, hgapEscape, htextEscape, hbehindEscape⟩ := hescape
    have hafter : (behind ++ rest).head? ≠ some '\\' := by
      intro hhead
      cases behind with
      | nil => exact hrest hhead
      | cons c behind =>
        cases hhead
        exact hbehindEscape List.mem_cons_self
    obtain ⟨hplain, -⟩ := readToken_isPlain hliteral htoken htextEscape hafter
    have hlater : (gap ++ ((Token.string quote body).text ++ (behind ++ rest))).head? ≠
        some '\\' := by
      intro hhead
      cases gap with
      | nil =>
        cases hhead
        exact htextEscape List.mem_cons_self
      | cons c gap =>
        cases hhead
        exact hgapEscape List.mem_cons_self
    exact .intro htokens (hbefore hbeforeEscape hlater) hgap hplain (hspells hbehindEscape hrest)

theorem atStatementEnd_eq : atStatementEnd false c = some (c.endsStatement, c) := by
  have hpure : some (c.endsStatement, c) = (pure c.endsStatement : Parser Bool) c := rfl
  unfold atStatementEnd
  rw [get_bind, hpure]
  refine congrFun ?_ c
  unfold Cursor.endsStatement
  split
  next h =>
    rw [h]
    rfl
  next h =>
    rw [h]
    rfl
  next hfinish hbrace =>
    rw [decide_eq_false hfinish, decide_eq_false hbrace]
    rfl

theorem statementEnd_eq_some_iff {u : Unit} :
    statementEnd false c = some (u, c') ↔
      c.token = .sign [';'] ∧ c' = c.next ∨
        c.token ≠ .sign [';'] ∧ c.endsStatement = true ∧ c' = c := by
  have hsemicolon : ";".toList = [';'] := rfl
  unfold statementEnd acceptSign
  rw [hsemicolon]
  by_cases h : c.token = .sign [';']
  · rw [accept_bind_of_eq h]
    simp [h, pure_eq_some_iff]
  · rw [accept_bind_of_ne h, if_neg Bool.false_ne_true, bind_eq_some_iff]
    simp only [atStatementEnd_eq, h, false_and, false_or, not_false_eq_true, true_and, ne_eq]
    constructor
    · rintro ⟨found, d, hfound, hend⟩
      cases hfound
      cases hends : c.endsStatement with
      | true =>
        rw [hends] at hend
        exact ⟨rfl, (pure_eq_some_iff.mp hend).2⟩
      | false =>
        rw [hends] at hend
        exact (failure_eq_some_iff.mp hend).elim
    · rintro ⟨hends, rfl⟩
      refine ⟨true, c', by rw [hends], rfl⟩

theorem controlStatement?_import : g.controlStatement? "import".toList = none := by
  rfl

/-- No import begins like a call or like a member of `import`. -/
theorem ReadsImport.next_token (h : ReadsImport g c c' statement) :
    c.token = .word "import".toList ∧ c.next.token ≠ .sign ['('] ∧ c.next.token ≠ .sign ['.'] := by
  obtain ⟨htokens, hfront, hmodule, -⟩ := h
  cases htokens with
  | unmarked hclause =>
    refine ⟨hfront.1, ?_⟩
    cases hclause with
    | effect =>
      obtain ⟨-, rfl⟩ := hfront
      simp [hmodule.1]
    | require => simp [hfront.2.1]
    | bindings hbindings => cases hbindings <;> simp [hfront.2.1]
  | type | typeof => exact ⟨hfront.1, by simp [hfront.2.1]⟩

/-- A statement is an import if it is read as one from the word `import` on. -/
theorem wholeStatement_eq_some_iff (himport : c.token = .word "import".toList) :
    g.wholeStatement c = some (.imports statement, c') ↔
      ∃ d, ReadsImport g c d statement ∧ statementEnd false d = some ((), c') := by
  unfold wholeStatement
  rw [get_bind, himport]
  dsimp only
  rw [controlStatement?_import]
  dsimp only
  by_cases hnext : c.next.token ≠ .sign ['('] ∧ c.next.token ≠ .sign ['.']
  · rw [if_pos (by simpa using hnext)]
    constructor
    · intro h
      obtain ⟨found, d, hread, h⟩ := bind_eq_some_iff.mp h
      obtain ⟨_, _, hend, hpure⟩ := bind_eq_some_iff.mp h
      obtain ⟨hfound, rfl⟩ := pure_eq_some_iff.mp hpure
      cases found with
      | none => cases hfound
      | some found =>
        cases hfound
        exact ⟨d, importStatement_eq_some_iff.mp hread, hend⟩
    · rintro ⟨d, hread, hend⟩
      have hsome := importStatement_eq_some_iff.mpr hread
      exact bind_eq_some_iff.mpr ⟨_, d, hsome, bind_eq_some_iff.mpr ⟨(), c', hend, rfl⟩⟩
  · have hcolon : c.next.token ≠ .sign [':'] := by
      intro h
      simp [h] at hnext
    have hdeclares : mustDeclare "import".toList c.next.token = false := rfl
    rw [if_neg (by simpa using hnext), if_neg hcolon, if_neg (by decide), if_neg (by decide),
      if_neg (by decide), hdeclares, if_neg Bool.false_ne_true, orElse_eq_some_iff]
    -- What is left is an expression that begins with `import`.
    constructor
    · rintro (h | ⟨-, h⟩)
      · obtain ⟨found, d, -, hpure⟩ := bind_eq_some_iff.mp h
        have hfound := (pure_eq_some_iff.mp hpure).1
        cases found <;> cases hfound
      · obtain ⟨_, d, -, hpure⟩ := bind_eq_some_iff.mp h
        cases (pure_eq_some_iff.mp hpure).1
    · rintro ⟨d, hread, -⟩
      exact absurd hread.next_token.2 hnext

/-- No import ends with a semicolon before its semicolon. -/
theorem SpellsImport.getLast? (h : SpellsImport rest t statement) :
    ∃ front c, t = front ++ [c] ∧ c ≠ ';' := by
  obtain @⟨front, back, typeOnly, breaks, form, quote, before, gap, body, behind,
    htokens, hfront, hgap, hplain, hback⟩ := h
  rcases htokens.back_cases with ⟨rfl, -⟩ | ⟨rfl, -⟩
  · cases hback
    refine ⟨before ++ (gap ++ quote :: body), quote, by simp [Token.text], ?_⟩
    rcases hplain.1 with rfl | rfl <;> decide
  · cases hback with
    | @cons _ gap' later _ _ hgap' hplain' hends' hlater =>
      cases hlater
      exact ⟨before ++ (gap ++ ((Token.string quote body).text ++ gap')), ')',
        by simp [Token.text], by decide⟩

theorem reading_semicolon {p : Nat} (hgap : Trivia breaks gap) (rest : Text) :
    Cursor.reading p (gap ++ ';' :: rest) =
      { token := .sign [';'], start := p + gap.length, here := ';' :: rest
        stop := p + gap.length + 1, after := rest
        previousStop := p, gap := gap ++ ';' :: rest, fresh := breaks } := by
  have hplain : (Token.sign [';']).IsPlain := by simp [Token.IsPlain, importSigns]
  have hread : readToken ((Token.sign [';']).text ++ rest) = (.sign [';'], rest) :=
    readToken_plain hplain fun _ _ => rfl
  exact reading_eq hgap hplain.isImportToken hread

theorem token_ne_semicolon {p : Nat} (h : (Cursor.reading p t).endsStatement = true) :
    (Cursor.reading p t).token ≠ .sign [';'] := by
  intro htoken
  have hsign : (Token.sign [';']).IsImportToken := by simp [Token.IsImportToken, importSigns]
  obtain ⟨breaks, gap, later, hgap, rfl, -, hread⟩ := exists_of_reading htoken hsign
  rw [reading_eq hgap hsign hread] at h
  simp [Cursor.endsStatement, Token.text, continuesLine] at h

/-- A text is over, or its block is, only where it says so. -/
theorem readToken_ne_end {c : Char} (hc : c ≠ '\x7d') :
    (readToken (c :: t)).1 ≠ .finish ∧ (readToken (c :: t)).1 ≠ .sign ['\x7d'] := by
  constructor
  · intro h
    unfold readToken at h
    dsimp only at h
    repeat' split at h
    all_goals cases h
  · intro h
    obtain ⟨hsign, -⟩ := of_readToken_sign (Prod.ext h rfl)
    obtain ⟨⟨rest, hrest⟩, -⟩ := of_readSign_single hsign (by decide)
    exact hc (List.cons.inj hrest).1

/-- No statement ends where a backslash follows it directly. -/
theorem head?_ne_backslash_of_endsStatement {p : Nat}
    (h : (Cursor.reading p t).endsStatement = true) : t.head? ≠ some '\\' := by
  intro hhead
  obtain ⟨rest, rfl⟩ := List.head?_eq_some_iff.mp hhead
  have hbegins : Begins ('\\' :: rest) := begins_cons.mpr ⟨by delta isBlank; decide, by decide⟩
  obtain ⟨htoken, -, hfresh⟩ := reading_begins (p := p) hbegins
  obtain ⟨hfinish, hbrace⟩ := readToken_ne_end (t := rest) (c := '\\') (by decide)
  simp [Cursor.endsStatement, htoken, hfresh, hfinish, hbrace] at h

end Reading

/-- The text does not go on with an import on the line before it. -/
def beginsStatement (t : Text) : Bool :=
  let c := Cursor.reading 0 t
  c.token = .finish || c.token = .sign ['\x7d'] || !continuesLine false c.here

section Lines

variable {breaks : Bool} {gap t : Text} {p : Nat}

theorem beginsStatement_trivia (hgap : Trivia breaks gap) :
    beginsStatement (gap ++ t) = beginsStatement t := by
  obtain ⟨htoken, hhere, -⟩ := reading_trivia (p := 0) (t := t) hgap
  unfold beginsStatement
  dsimp only
  rw [htoken, hhere]

/-- Behind a line break an import without a semicolon ends where the text does not go on with it. -/
theorem endsStatement_trivia (hgap : Trivia true gap) :
    (Cursor.reading p (gap ++ t)).endsStatement = beginsStatement t := by
  obtain ⟨htoken, hhere, hfresh⟩ := reading_trivia (p := p) (t := t) hgap
  unfold Cursor.endsStatement beginsStatement
  rw [htoken, hhere, hfresh]
  rfl

theorem atAttributes_trivia (hgap : Trivia true gap) :
    (Cursor.reading p (gap ++ t)).atAttributes = false := by
  unfold Cursor.atAttributes
  rw [(reading_trivia hgap).2.2]
  simp

theorem reading_import (t : Text) :
    (Cursor.reading 0 ("import ".toList ++ t)).token = .word "import".toList ∧
      (Cursor.reading 0 ("import ".toList ++ t)).here = "import ".toList ++ t := by
  have hplain : (Token.word "import".toList).IsPlain := by
    unfold Token.IsPlain
    decide +kernel
  have hends : (Token.word "import".toList).EndsBefore (' ' :: t) := by
    intro c hc
    cases hc
    decide
  have hread := reading_eq (p := 0) .nil hplain.isImportToken (readToken_plain hplain hends)
  have hwhole : [] ++ ((Token.word "import".toList).text ++ ' ' :: t) = "import ".toList ++ t := rfl
  rw [hwhole] at hread
  rw [hread]
  exact ⟨rfl, rfl⟩

theorem beginsStatement_import (t : Text) : beginsStatement ("import ".toList ++ t) = true := by
  unfold beginsStatement
  dsimp only
  rw [(reading_import t).2]
  exact Bool.or_true _

end Lines

section Statements

variable {rest rest' written : Text} {statement : ImportStatement} {jsx : Bool}

/-- The text is an import statement where `rest` follows: up to its semicolon, or with the comments
behind it where a line ends it. -/
inductive SpellsStatement (rest : Text) : Text → ImportStatement → Prop where
  | closed {breaks : Bool} {t gap : Text} {statement : ImportStatement}
      (h : SpellsImport (gap ++ ';' :: rest) t statement) (hgap : Trivia breaks gap) :
      SpellsStatement rest (t ++ (gap ++ [';'])) statement
  | unclosed {t comments : Text} {statement : ImportStatement}
      (h : SpellsImport (comments ++ rest) t statement)
      (hends : (Cursor.reading t.length (comments ++ rest)).endsStatement = true)
      (hattributes : (Cursor.reading t.length (comments ++ rest)).atAttributes = false)
      (hcomments : comments.length =
        trailingComments ((comments ++ rest).length + 1) (comments ++ rest)) :
      SpellsStatement rest (t ++ comments) statement

/-- The text is an import statement with attributes where `rest` follows. -/
inductive SpellsWhole (rest attributes : Text) : Text → ImportStatement → Prop where
  | closed {breaks : Bool} {t gap : Text} {statement : ImportStatement}
      (h : SpellsImport (attributes ++ (gap ++ ';' :: rest)) t statement)
      (hattributes : SpellsAttributes (gap ++ ';' :: rest) attributes) (hgap : Trivia breaks gap) :
      SpellsWhole rest attributes (t ++ (attributes ++ (gap ++ [';']))) statement
  | unclosed {t comments : Text} {statement : ImportStatement}
      (h : SpellsImport (attributes ++ (comments ++ rest)) t statement)
      (hattributes : SpellsAttributes (comments ++ rest) attributes)
      (hends : (Cursor.reading 0 (comments ++ rest)).endsStatement = true)
      (hcomments : comments.length =
        trailingComments ((comments ++ rest).length + 1) (comments ++ rest)) :
      SpellsWhole rest attributes (t ++ (attributes ++ comments)) statement

theorem spellsWhole_nil_iff :
    SpellsWhole rest [] written statement ↔ SpellsStatement rest written statement := by
  constructor
  · intro h
    cases h with
    | closed h _ hgap => exact .closed h hgap
    | unclosed h hattributes hends hcomments =>
      exact .unclosed h hends (spellsAttributes_nil_iff.mp hattributes) hcomments
  · intro h
    cases h with
    | closed h hgap =>
      exact .closed h (.absent (by rw [reading_semicolon hgap]; rfl)) hgap
    | unclosed h hends hattributes hcomments =>
      exact .unclosed h (.absent hattributes) hends hcomments

theorem trailingComments_le {n : Nat} {t : Text} : trailingComments n t ≤ t.length := by
  fun_induction trailingComments n t with
  | case2 n rest =>
    have hle := (List.takeWhile_sublist (fun c => !isLineEnd c) (l := rest)).length_le
    simp only [List.length_cons]
    omega
  | case3 n rest after hafter ih =>
    obtain ⟨body, rfl, -⟩ := exists_of_afterBlockComment hafter
    simp only [List.length_cons, List.length_append]
    omega
  | case6 n c rest _ _ _ count hcount ih =>
    rw [hcount] at ih
    simp only [List.length_cons]
    omega
  | case1 | case4 | case5 | case7 | case8 => exact Nat.zero_le _

/-- No import ends with a semicolon before its semicolon, and no attributes do. -/
theorem SpellsImport.append_getLast? {t attributes : Text}
    (h : SpellsImport (attributes ++ rest) t statement)
    (hattributes : SpellsAttributes rest attributes) :
    ∃ front c, t ++ attributes = front ++ [c] ∧ c ≠ ';' := by
  rcases hattributes.getLast? with rfl | ⟨front, rfl⟩
  · rw [List.append_nil]
    exact h.getLast?
  · exact ⟨t ++ front, '\x7d', (List.append_assoc _ _ _).symm, by decide⟩

theorem head?_drop_last (front : Text) (c : Char) :
    ((front ++ [c] ++ rest).drop ((front ++ [c]).length - 1)).head? = some c := by
  rw [List.append_assoc, List.length_append, List.length_singleton, Nat.add_sub_cancel,
    List.drop_left]
  rfl

theorem statementStop_closed (front : Text) :
    statementStop (front ++ [';'] ++ rest) (Cursor.reading (front ++ [';']).length rest)
      (.imports statement) = (front ++ [';']).length :=
  if_pos (head?_drop_last front ';')

theorem statementStop_open (front : Text) {c : Char} (hc : c ≠ ';') :
    statementStop (front ++ [c] ++ rest) (Cursor.reading (front ++ [c]).length rest)
      (.imports statement) =
      (front ++ [c]).length + trailingComments (rest.length + 1) rest := by
  refine if_neg (fun h => hc ?_)
  rw [show (Cursor.reading (front ++ [c]).length rest).previousStop = (front ++ [c]).length
    from rfl, head?_drop_last] at h
  exact Option.some.inj h

theorem SpellsWhole.readStatement_eq {attributes : Text}
    (h : SpellsWhole rest attributes written statement) :
    readStatement jsx (written ++ rest) = some (.imports statement, written.length) := by
  unfold readStatement
  obtain ⟨depth, hdepth⟩ : ∃ depth, Grammar.deepEnough jsx (written ++ rest) =
      Grammar.ofDepth jsx (depth + 1) := ⟨_, rfl⟩
  rw [hdepth]
  cases h with
  | @closed breaks t gap _ h hattributes hgap =>
    have hread := h.readsImport (hattributes.importAttributesIfAny jsx depth)
    have hclosed : statementEnd false (Cursor.reading (t.length + attributes.length)
        (gap ++ ';' :: rest)) =
        some ((), Cursor.reading (t.length + attributes.length + gap.length + 1) rest) :=
      statementEnd_eq_some_iff.mpr (.inl (by rw [reading_semicolon hgap]; exact ⟨rfl, rfl⟩))
    have hwhole := (wholeStatement_eq_some_iff hread.next_token.1).mpr ⟨_, hread, hclosed⟩
    have hstop : statementStop (t ++ attributes ++ gap ++ [';'] ++ rest) _
        (.imports statement) = _ := statementStop_closed (t ++ attributes ++ gap)
    simp only [List.append_assoc, List.cons_append, List.nil_append, List.length_append,
      List.length_singleton, Nat.add_assoc] at hwhole hstop ⊢
    rw [hwhole]
    dsimp only
    rw [hstop]
  | @unclosed t comments _ h hattributes hends hcomments =>
    have hread := h.readsImport (hattributes.importAttributesIfAny jsx depth)
    rw [← List.append_assoc, ← List.length_append] at hread
    have hopen : statementEnd false (Cursor.reading (t ++ attributes).length (comments ++ rest)) =
        some ((), Cursor.reading (t ++ attributes).length (comments ++ rest)) :=
      statementEnd_eq_some_iff.mpr (.inr ⟨token_ne_semicolon hends, hends, rfl⟩)
    have hwhole := (wholeStatement_eq_some_iff hread.next_token.1).mpr ⟨_, hread, hopen⟩
    obtain ⟨front, last, hfront, hlast⟩ := h.append_getLast? hattributes
    rw [← List.append_assoc t, List.append_assoc _ comments, hwhole]
    dsimp only
    rw [hfront, statementStop_open front hlast, ← hcomments, ← List.length_append]

theorem SpellsStatement.readStatement_eq (h : SpellsStatement rest written statement) :
    readStatement jsx (written ++ rest) = some (.imports statement, written.length) :=
  (spellsWhole_nil_iff.mpr h).readStatement_eq

theorem head?_append_ne_backslash {front back : Text} (hfront : '\\' ∉ front)
    (hback : back.head? ≠ some '\\') : (front ++ back).head? ≠ some '\\' := by
  cases front with
  | nil => exact hback
  | cons c front =>
    intro hc
    cases hc
    exact hfront List.mem_cons_self

/-- An import that a semicolon ends, stops behind that. -/
theorem exists_of_semicolon (statement : ImportStatement) {t later : Text}
    (h : (Cursor.reading t.length later).token = .sign [';']) :
    ∃ breaks gap rest, Trivia breaks gap ∧ later = gap ++ ';' :: rest ∧
      statementStop (t ++ later) (Cursor.reading t.length later).next (.imports statement) =
        (t ++ (gap ++ [';'])).length := by
  have hsign : (Token.sign [';']).IsImportToken := by simp [Token.IsImportToken, importSigns]
  obtain ⟨breaks, gap, rest, hgap, rfl, -, -⟩ := exists_of_reading h hsign
  refine ⟨breaks, gap, rest, hgap, rfl, ?_⟩
  have hlater : gap ++ ((Token.sign [';']).text ++ rest) = gap ++ ';' :: rest := rfl
  have hnext : (Cursor.reading t.length (gap ++ ';' :: rest)).next =
      Cursor.reading (t ++ gap ++ [';']).length rest := by
    rw [reading_semicolon hgap, List.length_append, List.length_append]
    rfl
  have hsplit : t ++ (gap ++ ';' :: rest) = t ++ gap ++ [';'] ++ rest := by simp
  rw [hlater, hnext, hsplit, statementStop_closed, List.append_assoc]

/-- An import without a semicolon stops behind the comments on its last line. -/
theorem exists_of_trailingComments (statement : ImportStatement) (t later : Text) :
    ∃ comments rest, later = comments ++ rest ∧
      statementStop (t ++ later) (Cursor.reading t.length later) (.imports statement) =
        (t ++ comments).length ∧
      ((∃ front c, t = front ++ [c] ∧ c ≠ ';') →
        comments.length = trailingComments (later.length + 1) later) := by
  by_cases hlast : ((t ++ later).drop (t.length - 1)).head? = some ';'
  · refine ⟨[], later, rfl, ?_, ?_⟩
    · rw [List.append_nil]
      exact if_pos hlast
    · rintro ⟨front, c, rfl, hc⟩
      exact absurd (Option.some.inj ((head?_drop_last front c).symm.trans hlast)) hc
  · refine ⟨later.take (trailingComments (later.length + 1) later), later.drop _,
      (List.take_append_drop _ _).symm, ?_, fun _ => ?_⟩
    · rw [List.length_append, List.length_take, Nat.min_eq_left trailingComments_le]
      exact if_neg hlast
    · rw [List.length_take, Nat.min_eq_left trailingComments_le]

/-- An import statement with plain attributes, or with none, lies within the text in which it is
read, and that spells it if it has no backslashes. -/
theorem exists_of_readStatement {here : Text} {width : Nat}
    (h : readStatement jsx here = some (.imports statement, width))
    (himport : (Cursor.reading 0 here).token = .word "import".toList)
    (hplain : (statement.behind here).hasPlainAttributes = true) :
    ∃ attributes written rest, here = written ++ rest ∧ width = written.length ∧
      ((statement.behind here).atAttributes = false → attributes = []) ∧
      ('\\' ∉ written → SpellsWhole rest attributes written statement) := by
  unfold readStatement at h
  obtain ⟨depth, hdepth⟩ : ∃ depth, Grammar.deepEnough jsx here =
      Grammar.ofDepth jsx (depth + 1) := ⟨_, rfl⟩
  rw [hdepth] at h
  split at h
  · cases h
  next found c hwhole =>
    simp only [Option.some.injEq, Prod.mk.injEq] at h
    obtain ⟨rfl, rfl⟩ := h
    obtain ⟨d, hread, hend⟩ := (wholeStatement_eq_some_iff himport).mp hwhole
    obtain ⟨t, behind, rfl, hbehind, hattributes, hspells⟩ := exists_of_readsImport hread
    rw [hbehind] at hplain ⊢
    obtain ⟨attributes, later, rfl, rfl, hnone, hattributes⟩ :=
      exists_spellsAttributes hplain hattributes
    have hspelled (hescape : '\\' ∉ t ++ attributes) (hhead : later.head? ≠ some '\\') :
        SpellsImport (attributes ++ later) t statement ∧ SpellsAttributes later attributes := by
      rw [List.mem_append, not_or] at hescape
      exact ⟨hspells hescape.1 (head?_append_ne_backslash hescape.2 hhead),
        hattributes hescape.2 hhead⟩
    rw [← List.length_append] at hend
    rw [← List.append_assoc t]
    refine ⟨attributes, ?_⟩
    rcases statementEnd_eq_some_iff.mp hend with ⟨hsemicolon, rfl⟩ | ⟨-, hends, rfl⟩
    · obtain ⟨breaks, gap, rest, hgap, rfl, hstop⟩ :=
        exists_of_semicolon statement hsemicolon
      refine ⟨_, rest, ?_, hstop, hnone, fun hescape => ?_⟩
      · simp only [List.append_assoc, List.singleton_append]
      · rw [List.mem_append, not_or] at hescape
        have hgapEscape : '\\' ∉ gap := fun hmem => hescape.2 (List.mem_append_left _ hmem)
        obtain ⟨himports, hattributes⟩ :=
          hspelled hescape.1 (head?_append_ne_backslash hgapEscape (by simp))
        rw [List.append_assoc]
        exact .closed himports hattributes hgap
    · obtain ⟨comments, rest, rfl, hstop, hcomments⟩ :=
        exists_of_trailingComments statement (t ++ attributes) later
      refine ⟨_, rest, (List.append_assoc _ _ _).symm, hstop, hnone, fun hescape => ?_⟩
      rw [List.mem_append, not_or] at hescape
      obtain ⟨himports, hattributes⟩ :=
        hspelled hescape.1 (head?_ne_backslash_of_endsStatement hends)
      rw [List.append_assoc]
      exact .unclosed himports hattributes hends
        (hcomments (himports.append_getLast? hattributes))

/-- An import statement with the rest of its line is read in the same way before any other text
that does not go on with it. -/
theorem SpellsWhole.before {behind attributes : Text}
    (h : SpellsWhole (behind ++ rest) attributes written statement) (hbehind : Trivia true behind)
    (hbegins : beginsStatement rest = true → beginsStatement rest' = true) :
    SpellsWhole (behind ++ rest') attributes written statement := by
  cases h with
  | closed h hattributes hgap =>
    refine .closed (h.before _) (hattributes.before fun _ => ?_) hgap
    rw [reading_semicolon hgap]
    rfl
  | @unclosed t comments _ h hattributes hends hcomments =>
    have htrivia := hbehind.of_trailingComments (fun hnil => absurd hnil hbehind.ne_nil) hcomments
    have hreach := htrivia.trailingComments_eq (x := rest) (y := rest')
      (Nat.lt_succ_self _) (Nat.lt_succ_self _)
    simp only [List.append_assoc] at hreach
    rw [← List.append_assoc, endsStatement_trivia htrivia] at hends
    refine .unclosed (h.before _) (hattributes.before fun _ => ?_) ?_ (hcomments.trans hreach)
    · rw [← List.append_assoc]
      exact atAttributes_trivia htrivia
    · rw [← List.append_assoc, endsStatement_trivia htrivia]
      exact hbegins hends

end Statements

end Disentangle.TypeScript
