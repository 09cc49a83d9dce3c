import Disentangle.Proofs.TypeScript.Located

/-!
Statements in a text that changes behind them or in the literal of an import. An import statement
without backslashes whose attributes are names and literals is read alike with any other literal in
the same quotes, and before any other text that begins a statement like the one that was there.
-/

namespace Disentangle.TypeScript

open Disentangle.TypeScript.Parser Grammar

section Plain

variable {jsx : Bool} {here : Text}

/-- Whether the statement at the front of a text is an import without backslashes whose attributes,
if it has any, are names and literals. -/
def isPlainImport (jsx : Bool) (here : Text) : Bool :=
  match readStatement jsx here with
  | some (.imports statement, width) =>
    (statement.behind here).hasPlainAttributes && !(here.take width).contains '\\'
  | _ => false

theorem exists_spellsWhole (h : isPlainImport jsx here = true) :
    ∃ attributes written rest statement, here = written ++ rest ∧
      readStatement jsx here = some (.imports statement, written.length) ∧
      SpellsWhole rest attributes written statement := by
  unfold isPlainImport at h
  split at h
  next statement width hread =>
    rw [Bool.and_eq_true, Bool.not_eq_true'] at h
    obtain ⟨hplain, hcontains⟩ := h
    obtain ⟨c', hreads⟩ := readsImport_of_readStatement hread
    obtain ⟨attributes, written, rest, rfl, rfl, -, hspells⟩ :=
      exists_of_readStatement hread hreads.next_token.1 hplain
    have hescape : '\\' ∉ written := fun hmem => by
      rw [List.take_left, List.contains_iff_mem.mpr hmem] at hcontains
      cases hcontains
    exact ⟨attributes, written, rest, statement, rfl, hread, hspells hescape⟩
  next => cases h

end Plain

section Exchange

variable {rest written attributes t : Text} {statement : ImportStatement}

/-- Every import begins with the word. -/
theorem exists_import_of_spells {tokens back : List Token} {typeOnly : Bool} {form : ImportForm}
    (htokens : ImportTokens tokens typeOnly form back) (h : Spells rest t tokens) :
    ∃ breaks gap later, Trivia breaks gap ∧ t = gap ++ ("import".toList ++ later) := by
  cases htokens with
  | unmarked | type | typeof =>
    cases h with
    | cons hgap => exact ⟨_, _, _, hgap, rfl⟩

/-- The literal of an import can be exchanged for another one in the same quotes. -/
theorem SpellsImport.exchange (h : SpellsImport rest t statement) :
    ∃ left quote body right, t = left ++ ((Token.string quote body).text ++ right) ∧
      left.length = statement.moduleAt ∧ (Token.string quote body).IsPlain ∧
      (∃ breaks gap later, Trivia breaks gap ∧ left = gap ++ ("import".toList ++ later)) ∧
      ∀ body', (Token.string quote body').IsPlain →
        SpellsImport rest (left ++ ((Token.string quote body').text ++ right)) statement := by
  obtain @⟨front, back, typeOnly, breaks, form, quote, before, gap, body, behind,
    htokens, hfront, hgap, hplain, hback⟩ := h
  refine ⟨before ++ gap, quote, body, behind, by simp only [List.append_assoc], rfl, hplain, ?_,
    fun body' hplain' => ?_⟩
  · obtain ⟨breaks, gap', later, hgap', rfl⟩ := exists_import_of_spells htokens hfront
    exact ⟨breaks, gap', later ++ gap, hgap', by simp only [List.append_assoc]⟩
  · have hfront' : Spells (gap ++ ((Token.string quote body').text ++ (behind ++ rest)))
        before front := by
      refine hfront.before fun token htoken => (hfront.endsBefore token htoken).of_head ?_
      cases gap <;> simp [Token.text]
    rw [List.append_assoc]
    exact .intro htokens hfront' hgap hplain' hback

theorem SpellsWhole.exchange (h : SpellsWhole rest attributes written statement) :
    ∃ left quote body right, written = left ++ ((Token.string quote body).text ++ right) ∧
      left.length = statement.moduleAt ∧ (Token.string quote body).IsPlain ∧
      (∃ breaks gap later, Trivia breaks gap ∧ left = gap ++ ("import".toList ++ later)) ∧
      ∀ body', (Token.string quote body').IsPlain →
        SpellsWhole rest attributes (left ++ ((Token.string quote body').text ++ right))
          statement := by
  cases h with
  | @closed breaks t gap _ h hattributes hgap =>
    obtain ⟨left, quote, body, right, rfl, hleft, hplain, himport, hexchange⟩ := h.exchange
    refine ⟨left, quote, body, right ++ (attributes ++ (gap ++ [';'])),
      by simp only [List.append_assoc], hleft, hplain, himport, fun body' hplain' => ?_⟩
    have hclosed := SpellsWhole.closed (hexchange body' hplain') hattributes hgap
    simpa only [List.append_assoc] using hclosed
  | @unclosed t comments _ h hattributes hends hcomments =>
    obtain ⟨left, quote, body, right, rfl, hleft, hplain, himport, hexchange⟩ := h.exchange
    refine ⟨left, quote, body, right ++ (attributes ++ comments),
      by simp only [List.append_assoc], hleft, hplain, himport, fun body' hplain' => ?_⟩
    have hopen := SpellsWhole.unclosed (hexchange body' hplain') hattributes hends hcomments
    simpa only [List.append_assoc] using hopen

end Exchange

section Resuming

variable {rest rest' written attributes here here' : Text} {statement : ImportStatement}
  {jsx : Bool}

/-- Two texts begin statements alike, as far as a line before them can tell. -/
structure BeginsAlike (here here' : Text) : Prop where
  begins : Begins here
  brace : here.head? ≠ some '\x7d'
  ne_nil : here ≠ []
  take : here'.take 2 = here.take 2
  line : beginsStatement here' = beginsStatement here

/-- A text that may stand for another one behind a statement: it is the same, or the same blanks and
comments stand before statements that begin alike. -/
inductive Resumes : Text → Text → Prop where
  | same (t : Text) : Resumes t t
  | statement {breaks : Bool} {gap here here' : Text} (hgap : Trivia breaks gap)
      (h : BeginsAlike here here') : Resumes (gap ++ here) (gap ++ here')

theorem BeginsAlike.head? (h : BeginsAlike here here') : here'.head? = here.head? := by
  have htake := congrArg List.head? h.take
  rwa [List.head?_take, List.head?_take, if_neg (by decide), if_neg (by decide)] at htake

theorem BeginsAlike.begins' (h : BeginsAlike here here') : Begins here' := by
  unfold Begins
  rw [h.head?]
  exact h.begins

/-- An import statement is read alike before whatever resumes the text behind it. -/
theorem SpellsWhole.resumes (h : SpellsWhole rest attributes written statement)
    (hrest : Resumes rest rest') : SpellsWhole rest' attributes written statement := by
  cases hrest with
  | same => exact h
  | @statement breaks gap here here' hgap hbegins =>
    cases h with
    | closed h hattributes hgap =>
      refine .closed (h.before _) (hattributes.before fun _ => ?_) hgap
      rw [reading_semicolon hgap]
      rfl
    | @unclosed t comments _ h hattributes hends hcomments =>
      -- A statement goes on behind this one, so a line break stands between them.
      obtain ⟨c, later, rfl⟩ := List.exists_cons_of_ne_nil hbegins.ne_nil
      have hc := begins_cons.mp hbegins.begins
      have hbrace : c ≠ '\x7d' := fun heq => hbegins.brace (by rw [heq]; rfl)
      have hline : isLineEnd c = false := by
        rw [Bool.eq_false_iff]
        intro hline
        rw [isBlank_of_isLineEnd hline] at hc
        exact Bool.false_ne_true hc.1.symm
      have htrivia := hgap.of_trailingComments (fun _ => ⟨c, later, rfl, hline⟩) hcomments
      obtain ⟨hfinish, hend⟩ := readToken_ne_end (t := later) hbrace
      obtain ⟨htoken, hhere, hfresh⟩ := reading_begins (p := 0) hbegins.begins
      obtain ⟨htoken', -, hfresh'⟩ := reading_trivia (p := 0) (t := c :: later) htrivia
      rw [List.append_assoc] at htoken' hfresh'
      have hbreaks : breaks = true := by
        rw [Cursor.endsStatement, htoken', hfresh', htoken, hfresh] at hends
        simp only [hfinish, hend, decide_false, Bool.false_or, Bool.or_false,
          Bool.and_eq_true] at hends
        exact hends.1
      subst hbreaks
      exact (SpellsWhole.unclosed h hattributes hends hcomments).before hgap
        fun h => hbegins.line.trans h

/-- What is read at the front of a text, and whether that begins a statement, is so in every text
that begins with `front`. -/
structure IsSettled (jsx : Bool) (here front : Text) : Prop where
  begins : Begins here
  brace : here.head? ≠ some '\x7d'
  statement : ∀ rest, readStatement jsx (front ++ rest) = readStatement jsx here
  line : ∀ rest, beginsStatement (front ++ rest) = beginsStatement here

end Resuming

section Directives

variable {jsx : Bool} {c : Cursor} {depth : Nat} {quote : Char} {body rest more : Text}

/-- A literal is a statement of its own where a semicolon follows. -/
theorem wholeStatement_string (h : c.token = .string quote body)
    (hend : c.next.token = .sign [';']) :
    (ofDepth jsx (depth + 1)).wholeStatement c = some (.other, c.next.next) := by
  have hvalue : (ofDepth jsx (depth + 1)).expression .statement c = some (.other, c.next) :=
    wholeExpression_string h (.inr (.inr hend))
  have hsequence : (ofDepth jsx (depth + 1)).sequence .statement c = some (.other, c.next) := by
    refine bind_eq_some_iff.mpr ⟨[.other], c.next, ?_, rfl⟩
    refine bind_eq_some_iff.mpr ⟨.other, c.next, hvalue, ?_⟩
    refine bind_eq_some_iff.mpr ⟨[], c.next, many_eq_nil ?_, rfl⟩
    unfold acceptSign
    rw [accept_bind_of_ne (by rw [hend]; decide)]
    rfl
  have hclosed : statementEnd true c.next = some ((), c.next.next) := by
    have hsign : ";".toList = [';'] := rfl
    unfold statementEnd acceptSign
    rw [hsign, accept_bind_of_eq hend]
    rfl
  unfold wholeStatement
  rw [get_bind, h]
  refine bind_eq_some_iff.mpr ⟨(), c.next.next, ?_, rfl⟩
  exact bind_eq_some_iff.mpr ⟨(), c.next, discard_eq_some_iff.mpr ⟨_, hsequence⟩, hclosed⟩

theorem readStatement_directive (hplain : (Token.string quote body).IsPlain) :
    readStatement jsx ((Token.string quote body).text ++ ';' :: rest) =
      some (.other, (Token.string quote body).text.length + 1) := by
  have hread : readToken ((Token.string quote body).text ++ ';' :: rest) = (_, ';' :: rest) :=
    readToken_plain hplain fun _ _ => rfl
  have hliteral := reading_eq (p := 0) .nil hplain.isImportToken hread
  have hsemicolon (p : Nat) := reading_semicolon (p := p) .nil rest
  rw [List.nil_append] at hliteral
  simp only [List.nil_append, List.length_nil, Nat.add_zero] at hsemicolon
  generalize hhere : (Token.string quote body).text ++ ';' :: rest = here at hliteral ⊢
  have hend : (Cursor.reading 0 here).next.token = .sign [';'] := by
    rw [hliteral, Cursor.next, hsemicolon]
  have hwhole : (deepEnough jsx here).wholeStatement (Cursor.reading 0 here) = _ :=
    wholeStatement_string (by rw [hliteral]) hend
  unfold readStatement
  rw [hwhole, hliteral, Cursor.next, Cursor.next, hsemicolon]
  simp [statementStop, Cursor.reading]

/-- A directive is settled with its semicolon. -/
theorem isSettled_directive (hplain : (Token.string quote body).IsPlain) :
    IsSettled jsx ((Token.string quote body).text ++ ';' :: rest)
      ((Token.string quote body).text ++ ';' :: more) := by
  have hbegins (rest : Text) : Begins ((Token.string quote body).text ++ ';' :: rest) :=
    begins_of_readToken (readToken_plain hplain fun _ _ => rfl) hplain.isImportToken
  refine ⟨hbegins rest, ?_, fun later => ?_, fun later => ?_⟩
  · rcases hplain.1 with rfl | rfl <;> simp [Token.text]
  · rw [List.append_assoc, List.cons_append, readStatement_directive hplain,
      readStatement_directive hplain]
  · have hline (rest : Text) :
        beginsStatement ((Token.string quote body).text ++ ';' :: rest) = true := by
      unfold beginsStatement
      dsimp only
      rw [(reading_begins (hbegins rest)).2.1]
      rcases hplain.1 with rfl | rfl <;> exact Bool.or_true _
    rw [List.append_assoc, List.cons_append, hline, hline]

end Directives

section Reading

variable {jsx broken broken' : Bool} {n m p : Nat} {t x here : Text}

/-- What stands behind blanks and comments does not begin with them. -/
theorem skipTrivia_skipTrivia (hn : t.length < n) (hm : x.length < m)
    (h : skipTrivia n broken t = (broken', x)) : skipTrivia m false x = (false, x) := by
  obtain ⟨m, rfl⟩ := Nat.exists_eq_add_one_of_ne_zero (by omega : m ≠ 0)
  fun_induction skipTrivia n broken t with
  | case1 => simp at hn
  | case2 broken n rest ih =>
    have hle : (rest.dropWhile fun c => !isLineEnd c).length ≤ rest.length :=
      (List.dropWhile_suffix _).length_le
    simp only [List.length_cons] at hn
    exact ih (by omega) h
  | case3 broken n rest after hafter ih =>
    obtain ⟨body, rfl, -⟩ := exists_of_afterBlockComment hafter
    simp only [List.length_cons, List.length_append] at hn
    exact ih (by omega) h
  | case4 broken n rest hafter =>
    cases h
    rw [skipTrivia, hafter]
  | case5 broken n c rest _ _ _ ih => exact ih (by simpa using hn) h
  | case6 broken n c rest hline hblock hblank =>
    cases h
    rw [skipTrivia.eq_4 _ _ _ _ hline hblock, if_neg hblank]
  | case7 =>
    cases h
    rfl

theorem begins_import (later : Text) : Begins ("import".toList ++ later) := by
  have hword : "import".toList = 'i' :: "mport".toList := rfl
  rw [hword, List.cons_append]
  exact begins_cons.mpr ⟨by delta isBlank; decide, by decide⟩

theorem beginsAlike_import (later later' : Text) :
    BeginsAlike ("import".toList ++ later) ("import".toList ++ later') := by
  have hline (later : Text) : beginsStatement ("import".toList ++ later) = true := by
    unfold beginsStatement
    dsimp only
    rw [(reading_begins (begins_import later)).2.1]
    exact Bool.or_true _
  have hword : "import".toList = 'i' :: 'm' :: "port".toList := rfl
  exact ⟨begins_import later, by rw [hword]; simp, by rw [hword]; simp, by rw [hword]; rfl,
    (hline later').trans (hline later).symm⟩

/-- Blanks and comments that have been passed over are not found again. -/
theorem eq_nil_of_skipTrivia {gap later : Text} {breaks : Bool} (hgap : Trivia breaks gap)
    (h : ∀ m, (gap ++ ("import".toList ++ later)).length < m →
      skipTrivia m false (gap ++ ("import".toList ++ later)) =
        (false, gap ++ ("import".toList ++ later))) : gap = [] := by
  have hskip := (hgap.skip (begins_import later) (Nat.lt_succ_self _)).symm.trans
    (h _ (Nat.lt_succ_self _))
  exact List.append_left_eq_self.mp (Prod.mk.inj hskip).2.symm

/-- A plain import that stands at the front of a text: the literal that names its module can be
exchanged, and the statement begins with the word. -/
theorem exists_exchange (hplain : isPlainImport jsx here = true)
    (hskip : ∀ m, here.length < m → skipTrivia m false here = (false, here)) :
    ∃ left quote body right rest attributes statement,
      here = left ++ ((Token.string quote body).text ++ right) ++ rest ∧
      readStatement jsx here = some (.imports statement,
        (left ++ ((Token.string quote body).text ++ right)).length) ∧
      left.length = statement.moduleAt ∧ (Token.string quote body).IsPlain ∧
      (∃ later, left = "import".toList ++ later) ∧
      ∀ body', (Token.string quote body').IsPlain →
        SpellsWhole rest attributes (left ++ ((Token.string quote body').text ++ right))
          statement := by
  obtain ⟨attributes, written, rest, statement, rfl, hread, hspells⟩ := exists_spellsWhole hplain
  obtain ⟨left, quote, body, right, rfl, hleft, hbody, ⟨breaks, gap, later, hgap, rfl⟩,
    hexchange⟩ := hspells.exchange
  -- Blanks before the statement would have been passed over.
  have hnil : gap = [] := by
    simp only [List.append_assoc] at hskip
    exact eq_nil_of_skipTrivia hgap hskip
  exact ⟨_, quote, body, right, rest, attributes, statement, rfl, hread, hleft, hbody,
    ⟨later, by rw [hnil, List.nil_append]⟩, hexchange⟩

/-- A complete reading is empty, or it begins with the statement that is read behind blanks and
comments. -/
theorem readAll_cases (h : (readAll jsx p t).complete = true) :
    (readAll jsx p t).statements = [] ∨
      ∃ gap here statement width, t = gap ++ here ∧
        (∀ m, here.length < m → skipTrivia m false here = (false, here)) ∧
        (Begins here → ∃ breaks, Trivia breaks gap) ∧
        readStatement jsx here = some (statement, width) ∧ here ≠ [] ∧ width ≠ 0 ∧
        readAll jsx p t =
          ⟨⟨p + gap.length, p + gap.length + width, statement⟩ ::
              (readAll jsx (p + gap.length + width) (here.drop width)).statements,
            (readAll jsx (p + gap.length + width) (here.drop width)).complete⟩ := by
  generalize hskip : skipTrivia t.length.succ false t = skipped
  obtain ⟨fresh, here⟩ := skipped
  have hsuffix : here <:+ t := by
    have hsuffix : (skipTrivia t.length.succ false t).2 <:+ t := skipTrivia_suffix
    rwa [hskip] at hsuffix
  obtain ⟨gap, rfl⟩ := hsuffix
  have hstart : (gap ++ here).length - here.length = gap.length := by
    rw [List.length_append, Nat.add_sub_cancel]
  unfold readAll at h ⊢
  rw [readFrom, hskip] at h ⊢
  dsimp only at h ⊢
  rw [hstart] at h ⊢
  by_cases hnil : here = []
  · rw [if_pos hnil]
    exact .inl rfl
  rw [if_neg hnil] at h ⊢
  split at h
  · cases h
  · cases h
  next statement width hwidth hread =>
    refine .inr ⟨gap, here, statement, width, rfl,
      fun m hm => skipTrivia_skipTrivia (Nat.lt_succ_self _) hm hskip, fun hbegins => ?_, hread,
      hnil, hwidth, ?_⟩
    · have hhead : here.head? ≠ some '/' := fun hhead => (hbegins _ hhead).2 rfl
      obtain ⟨breaks, gap', hgap', heq, -, -⟩ :=
        exists_trivia (Nat.lt_succ_self _) hskip hnil hhead
      exact ⟨breaks, (List.append_cancel_right_eq _ _ _).mp heq ▸ hgap'⟩
    · have hdrop : (here.drop width).length < (gap ++ here).length := by
        have hpos := List.length_pos_iff.mpr hnil
        rw [List.length_drop, List.length_append]
        have hpos' := Nat.pos_of_ne_zero hwidth
        omega
      rw [readFrom_fuel hdrop (Nat.lt_succ_self _)]

/-- The statement at the front of a text is read first, behind blanks and comments. -/
theorem readAll_cons {gap written rest : Text} {breaks : Bool} {statement : Statement}
    (hgap : Trivia breaks gap) (hbegins : Begins (written ++ rest)) (hne : written ≠ [])
    (hread : readStatement jsx (written ++ rest) = some (statement, written.length)) :
    readAll jsx p (gap ++ (written ++ rest)) =
      ⟨⟨p + gap.length, p + gap.length + written.length, statement⟩ ::
          (readAll jsx (p + gap.length + written.length) rest).statements,
        (readAll jsx (p + gap.length + written.length) rest).complete⟩ := by
  rw [readAll_trivia hgap]
  exact (readAll_eq_cons_iff hbegins hne).mpr ⟨hread, rfl⟩

end Reading

section Body

variable {breaks : Bool} {t t' gap line rest : Text}

theorem Resumes.head? (h : Resumes t t') : t'.head? = t.head? := by
  cases h with
  | same => rfl
  | @statement _ gap _ _ _ h =>
    cases gap with
    | nil => exact h.head?
    | cons c gap => rfl

theorem begins_interpreter (t : Text) : Begins ('#' :: '!' :: t) :=
  begins_cons.mpr ⟨by delta isBlank; decide, by decide⟩

/-- Statements begin behind the line that names an interpreter. -/
theorem bodyStart_interpreter (hgap : Trivia breaks gap)
    (hline : ∀ c ∈ line, isLineEnd c = false) (hrest : ∀ c ∈ rest.head?, isLineEnd c = true) :
    bodyStart (gap ++ ('#' :: '!' :: (line ++ rest))) = (gap ++ '#' :: '!' :: line).length := by
  generalize hhere : '#' :: '!' :: (line ++ rest) = here
  have hskip : skipTrivia (gap ++ here).length.succ false (gap ++ here) = (false || breaks, here) :=
    hgap.skip (hhere ▸ begins_interpreter _) (Nat.lt_succ_self _)
  have htake : (line ++ rest).takeWhile (fun c => !isLineEnd c) = line := by
    rw [List.takeWhile_append_of_pos (by simpa using hline)]
    cases rest with
    | nil => rw [List.takeWhile_nil, List.append_nil]
    | cons c rest =>
      rw [List.takeWhile_cons_of_neg (by simp [hrest c rfl]), List.append_nil]
  unfold bodyStart Cursor.reading
  rw [hskip]
  subst hhere
  change 0 + ((gap ++ _).length - _) + 2 + ((line ++ rest).takeWhile _).length = _
  rw [htake, List.length_append, Nat.add_sub_cancel, List.length_append]
  simp only [List.length_cons]
  omega

/-- Statements begin at the front of a text, or behind a line that names an interpreter. -/
theorem bodyStart_cases (t : Text) :
    (bodyStart t = 0 ∧ ∀ rest, (Cursor.reading 0 t).here ≠ '#' :: '!' :: rest) ∨
      ∃ breaks gap line rest, Trivia breaks gap ∧ t = gap ++ ('#' :: '!' :: (line ++ rest)) ∧
        (∀ c ∈ line, isLineEnd c = false) ∧ ∀ c ∈ rest.head?, isLineEnd c = true := by
  by_cases hhere : ∃ rest, (Cursor.reading 0 t).here = '#' :: '!' :: rest
  · obtain ⟨rest, hhere⟩ := hhere
    generalize hskip : skipTrivia t.length.succ false t = skipped
    obtain ⟨fresh, here⟩ := skipped
    obtain rfl : here = '#' :: '!' :: rest := by
      rw [← hhere, Cursor.reading, hskip]
    obtain ⟨breaks, gap, hgap, rfl, -, -⟩ :=
      exists_trivia (Nat.lt_succ_self _) hskip (by simp) (by simp)
    obtain ⟨line, later, rfl, -, -, hline, hend⟩ := exists_line rest
    exact .inr ⟨breaks, gap, line, later, hgap, rfl, hline, hend⟩
  · refine .inl ⟨?_, not_exists.mp hhere⟩
    unfold bodyStart
    dsimp only
    split
    next rest heq => exact absurd ⟨rest, heq⟩ hhere
    next => rfl

theorem bodyStart_le (t : Text) : bodyStart t ≤ t.length := by
  rcases bodyStart_cases t with ⟨hzero, -⟩ | ⟨_, gap, line, rest, hgap, rfl, hline, hrest⟩
  · rw [hzero]
    exact Nat.zero_le _
  · rw [bodyStart_interpreter hgap hline hrest]
    simp only [List.length_append, List.length_cons]
    omega

/-- The statements of a source are read from where they begin. -/
theorem readSource_eq (jsx : Bool) (t : Text) :
    readSource jsx t = readAll jsx (bodyStart t) (t.drop (bodyStart t)) :=
  readFrom_fuel (by rw [List.length_drop]; omega) (Nat.lt_succ_self _)

/-- What resumes a text behind the place where statements begin does not change this place. -/
theorem bodyStart_resumes (h : Resumes (t.drop (bodyStart t)) t') :
    bodyStart (t.take (bodyStart t) ++ t') = bodyStart t := by
  rcases bodyStart_cases t with ⟨hzero, hhere⟩ | ⟨breaks, gap, line, rest, hgap, rfl, hline, hrest⟩
  · rw [hzero] at h ⊢
    rw [List.drop_zero] at h
    rw [List.take_zero, List.nil_append]
    cases h with
    | same => exact hzero
    | @statement breaks gap here here' hgap halike =>
      have hfront (x : Text) (hx : Begins x) : (Cursor.reading 0 (gap ++ x)).here = x :=
        (reading_trivia hgap).2.1.trans (reading_begins hx).2.1
      rcases bodyStart_cases (gap ++ here') with ⟨hzero', -⟩ | ⟨_, gap', line, rest, hgap', heq, -⟩
      · exact hzero'
      · have hinterpreter : here' = '#' :: '!' :: (line ++ rest) := by
          rw [← hfront here' halike.begins', heq, (reading_trivia hgap').2.1,
            (reading_begins (begins_interpreter _)).2.1]
        have htake := halike.take
        rw [hinterpreter] at htake
        have hhere' : here = '#' :: '!' :: here.drop 2 := by
          rw [← List.take_append_drop 2 here, ← htake]
          simp
        exact absurd ((hfront here halike.begins).trans hhere') (hhere _)
  · have hsplit : gap ++ ('#' :: '!' :: (line ++ rest)) = gap ++ '#' :: '!' :: line ++ rest := by
      simp
    rw [bodyStart_interpreter hgap hline hrest, hsplit, List.drop_left] at h
    rw [bodyStart_interpreter hgap hline hrest, hsplit, List.take_left]
    have hresult : gap ++ '#' :: '!' :: line ++ t' = gap ++ ('#' :: '!' :: (line ++ t')) := by simp
    rw [hresult]
    exact bodyStart_interpreter hgap hline (h.head?.symm ▸ hrest)

end Body

end Disentangle.TypeScript
