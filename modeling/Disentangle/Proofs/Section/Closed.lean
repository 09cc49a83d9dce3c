import Disentangle.Proofs.Section.Joints

/-!
Import sections that stand on their own. A section that is closed, which is to say that its scanner
is outside of literals, block comments and braces at its end, is cut out of any text as it was cut
out of the text that it comes from, together with the line breaks behind it.
-/

namespace Disentangle

namespace Section

variable {c d : Char} {p t rest breaks behind : Text} {state state' : ImportState} {depth : Int}

/-- The state of a scanner of imports after two characters that open or close a comment. -/
def ImportState.pair? : ImportState → Char → Char → Option ImportState
  | .inBlock, '*', '/' => some .plain
  | .plain, '/', '/' => some .inLine
  | .plain, '/', '*' => some .inBlock
  | _, _, _ => none

/-- The state of a scanner of imports and its number of open braces after another character. -/
def importStep (state : ImportState) (depth : Int) (c : Char) : ImportState × Int :=
  match state with
  | .inLiteral literal =>
    (match literal.step c with
      | some literal => .inLiteral literal
      | none => .plain, depth)
  | .inBlock => (.inBlock, depth)
  | .inLine => (if isLineBreak c then .plain else .inLine, depth)
  | .plain =>
    (if isQuote c then .inLiteral ⟨c, false⟩ else .plain,
      if c = '{' then depth + 1 else if c = '}' then depth - 1 else depth)

/-- Where a scanner of imports is after the whole of a text: its state, and the number of open
braces. -/
def importStop : ImportState → Int → Text → ImportState × Int
  | state, depth, [] => (state, depth)
  | state, depth, [c] => importStep state depth c
  | state, depth, c :: d :: rest =>
    match state.pair? c d with
    | some state' => importStop state' depth rest
    | none => importStop (importStep state depth c).1 (importStep state depth c).2 (d :: rest)

/-- Whether a scanner of imports is outside of literals, block comments and braces. -/
def isClosedAt : ImportState × Int → Bool
  | (.plain, depth) | (.inLine, depth) => depth ≤ 0
  | _ => false

/-- A text behind which the scanner of imports is outside of literals, block comments and braces. -/
def IsClosed (t : Text) : Prop :=
  isClosedAt (importStop .plain 0 t) = true

instance (t : Text) : Decidable (IsClosed t) :=
  inferInstanceAs (Decidable (isClosedAt (importStop .plain 0 t) = true))

section Steps

theorem importSpan_pair (h : state.pair? c d = some state') :
    importSpan state depth (c :: d :: rest) =
      (c :: d :: (importSpan state' depth rest).1, (importSpan state' depth rest).2) := by
  unfold ImportState.pair? at h
  split at h <;> cases h <;> rfl

/-- No comment begins or ends with a line break. -/
theorem pair?_of_break (h : isLineBreak c = true ∨ isLineBreak d = true) :
    state.pair? c d = none := by
  unfold ImportState.pair?
  split
  · rcases h with h | h <;> cases h
  · rcases h with h | h <;> cases h
  · rcases h with h | h <;> cases h
  · rfl

/-- In a plain place the scanner of imports looks two characters ahead. -/
theorem importSpan_plain_cons (hpair : ∀ d ∈ rest.head?, ImportState.plain.pair? c d = none) :
    importSpan .plain depth (c :: rest) =
      if isLineBreak c then
        if depth ≤ 0 then breakSpan (c :: rest)
        else (c :: (importSpan .plain depth rest).1, (importSpan .plain depth rest).2)
      else
        (c :: (importSpan (importStep .plain depth c).1 (importStep .plain depth c).2 rest).1,
          (importSpan (importStep .plain depth c).1 (importStep .plain depth c).2 rest).2) := by
  rw [importSpan.eq_8 _ _ _ _ (by simp) (by simp) (by simp) _ _ (by simp)]
  · rfl
  · rintro later - rfl rfl
    cases hpair '/' rfl
  · rintro later - rfl rfl
    cases hpair '*' rfl

/-- An import statement ends with a line that closes its braces. -/
theorem importSpan_stop (hbreak : isLineBreak c = true)
    (hclosed : isClosedAt (state, depth) = true) :
    importSpan state depth (c :: rest) = breakSpan (c :: rest) := by
  cases state with
  | plain =>
    rw [importSpan_plain_cons fun d _ => pair?_of_break (Or.inl hbreak), if_pos hbreak,
      if_pos (of_decide_eq_true hclosed)]
  | inLine => rw [importSpan, if_pos hbreak, if_pos (of_decide_eq_true hclosed)]
  | inLiteral | inBlock => cases hclosed

theorem importStep_plain_break (hbreak : isLineBreak c = true) :
    importStep .plain depth c = (.plain, depth) := by
  simp only [isLineBreak, Bool.or_eq_true, decide_eq_true_eq] at hbreak
  rcases hbreak with rfl | rfl <;> rfl

/-- Elsewhere it goes on behind the next character. -/
theorem importSpan_step (hpair : ∀ d ∈ rest.head?, state.pair? c d = none)
    (hopen : isLineBreak c = true → isClosedAt (state, depth) = false) :
    importSpan state depth (c :: rest) =
      (c :: (importSpan (importStep state depth c).1 (importStep state depth c).2 rest).1,
        (importSpan (importStep state depth c).1 (importStep state depth c).2 rest).2) := by
  cases state with
  | inLiteral literal => rfl
  | inBlock =>
    rw [importSpan.eq_4]
    · rfl
    · rintro later rfl rfl
      cases hpair '/' rfl
  | plain =>
    rw [importSpan_plain_cons hpair]
    by_cases hbreak : isLineBreak c = true
    · rw [if_pos hbreak, if_neg (of_decide_eq_false (hopen hbreak)), importStep_plain_break hbreak]
    · rw [if_neg hbreak]
  | inLine =>
    rw [importSpan, importStep]
    by_cases hbreak : isLineBreak c = true
    · rw [if_pos hbreak, if_neg (of_decide_eq_false (hopen hbreak)), if_pos hbreak]
    · rw [if_neg hbreak, if_neg hbreak]

/-- A scanner of imports whose literals are closed by no line break. -/
def ImportState.WellQuoted : ImportState → Prop
  | .inLiteral literal => isLineBreak literal.quote = false
  | _ => True

theorem Literal.quote_of_step {literal literal' : Literal} (h : literal.step c = some literal') :
    literal'.quote = literal.quote := by
  unfold Literal.step at h
  split at h
  · cases h; rfl
  split at h
  · cases h; rfl
  split at h
  · cases h
  · cases h; rfl

theorem Literal.eq_quote_of_step {literal : Literal} (h : literal.step c = none) :
    c = literal.quote := by
  unfold Literal.step at h
  split at h
  · cases h
  split at h
  · cases h
  split at h
  · assumption
  · cases h

theorem wellQuoted_step (h : state.WellQuoted) : (importStep state depth c).1.WellQuoted := by
  cases state with
  | plain =>
    unfold importStep
    dsimp only
    split
    next hquote =>
      simp only [isQuote, Bool.or_eq_true, decide_eq_true_eq] at hquote
      rcases hquote with (rfl | rfl) | rfl <;> rfl
    next => trivial
  | inLiteral literal =>
    unfold importStep
    dsimp only
    split
    next heq =>
      have hother : isLineBreak literal.quote = false := h
      rw [← Literal.quote_of_step heq] at hother
      exact hother
    next => trivial
  | inLine =>
    unfold importStep
    dsimp only
    split <;> trivial
  | inBlock => trivial

theorem wellQuoted_pair (h : state.pair? c d = some state') : state'.WellQuoted := by
  unfold ImportState.pair? at h
  split at h <;> cases h <;> trivial

/-- A line break that does not end the statement is not its last character. -/
theorem not_isClosedAt_step (hquote : state.WellQuoted) (hbreak : isLineBreak c = true)
    (hopen : isClosedAt (state, depth) = false) :
    isClosedAt (importStep state depth c) = false := by
  cases state with
  | plain =>
    rw [importStep_plain_break hbreak]
    exact hopen
  | inLiteral literal =>
    rw [importStep]
    cases hstep : literal.step c with
    | some => rfl
    | none =>
      have hother : isLineBreak literal.quote = false := hquote
      rw [← Literal.eq_quote_of_step hstep, hbreak] at hother
      cases hother
  | inLine =>
    unfold importStep
    rw [if_pos hbreak]
    exact hopen
  | inBlock => rfl

end Steps

/-- What follows the line breaks behind `p` does not go on with its line. -/
def EndsBefore (p breaks behind : Text) : Prop :=
  p.endsLine = true ∨ breaks ≠ [] ∨ behind = []

theorem EndsBefore.tail (h : EndsBefore (c :: p) breaks behind)
    (hlast : p = [] → isLineBreak c = false) : EndsBefore p breaks behind := by
  refine h.imp_left fun hends => ?_
  cases p with
  | nil =>
    have hbreak : isLineBreak c = true := by simpa [Text.endsLine] using hends
    rw [hlast rfl] at hbreak
    cases hbreak
  | cons d p => simpa [Text.endsLine] using hends

theorem importSpan_ne_nil (hne : t ≠ []) : (importSpan state depth t).1 ≠ [] := by
  fun_induction importSpan state depth t with
  | case1 => exact absurd rfl hne
  | case7 _ _ _ _ _ _ _ _ _ hbreak => simp [breakSpan, hbreak]
  | _ => exact List.cons_ne_nil _ _

theorem breakSpan_append (hbreaks : ∀ c ∈ breaks, isLineBreak c = true)
    (hbehind : BeginsLine behind) : breakSpan (breaks ++ behind) = (breaks, behind) := by
  rw [breakSpan, List.takeWhile_append_of_pos hbreaks, List.dropWhile_append_of_pos hbreaks]
  cases behind with
  | nil => simp
  | cons c rest =>
    have hother : isLineBreak c = false := hbehind c rfl
    simp [hother]

/-- What the scanner of imports takes of `t` it takes again where it left it, together with the line
breaks behind it, if it was closed where nothing was left. -/
def Resumes (breaks behind : Text) (state : ImportState) (depth : Int) (t : Text) : Prop :=
  state.WellQuoted →
    ((importSpan state depth t).2 = [] → isClosedAt (importStop state depth t) = true) →
    EndsBefore (importSpan state depth t).1 breaks behind →
    importSpan state depth ((importSpan state depth t).1 ++ (breaks ++ behind)) =
      ((importSpan state depth t).1 ++ breaks, behind)

section Resuming

variable (hbreaks : ∀ c ∈ breaks, isLineBreak c = true) (hbehind : BeginsLine behind)
include hbreaks hbehind

theorem resumes_nil : Resumes breaks behind state depth [] := by
  intro _ hclosed hends
  have hstop : isClosedAt (state, depth) = true := by simpa [importSpan, importStop] using hclosed
  cases breaks with
  | nil =>
    obtain rfl : behind = [] := by simpa [EndsBefore, importSpan, Text.endsLine] using hends
    simp [importSpan]
  | cons c breaks =>
    have hspan := breakSpan_append hbreaks hbehind
    simp only [importSpan, List.nil_append]
    rw [List.cons_append, importSpan_stop (hbreaks c List.mem_cons_self) hstop]
    exact hspan

omit hbehind in
/-- What the scanner of imports has taken begins as the text did, so `c` does not open or close a
comment in front of it either. -/
theorem pair?_of_taken (hpair : ∀ d ∈ rest.head?, state.pair? c d = none)
    (hends : EndsBefore (importSpan state' depth rest).1 breaks behind) :
    ∀ d ∈ ((importSpan state' depth rest).1 ++ (breaks ++ behind)).head?,
      state.pair? c d = none := by
  intro d hd
  have hwhole := importSpan_append state' depth rest
  cases htaken : (importSpan state' depth rest).1 with
  | cons e taken =>
    rw [htaken] at hwhole hd
    refine hpair d ?_
    rw [← hwhole]
    exact hd
  | nil =>
    rw [htaken] at hends hd
    cases breaks with
    | cons e breaks =>
      cases hd
      exact pair?_of_break (Or.inr (hbreaks d List.mem_cons_self))
    | nil =>
      obtain rfl : behind = [] := by simpa [EndsBefore, Text.endsLine] using hends
      cases hd

omit hbreaks hbehind in
theorem Resumes.pair (hpair : state.pair? c d = some state')
    (h : Resumes breaks behind state' depth rest) :
    Resumes breaks behind state depth (c :: d :: rest) := by
  intro _ hclosed hends
  have hstop : importStop state depth (c :: d :: rest) = importStop state' depth rest := by
    rw [importStop, hpair]
  have hbreak : isLineBreak d = false := by
    rw [← Bool.not_eq_true]
    intro hbreak
    rw [pair?_of_break (Or.inr hbreak)] at hpair
    cases hpair
  rw [importSpan_pair hpair] at hclosed hends ⊢
  rw [hstop] at hclosed
  have hends : EndsBefore (d :: (importSpan state' depth rest).1) breaks behind :=
    hends.tail fun hnil => absurd hnil (List.cons_ne_nil _ _)
  have hspan := h (wellQuoted_pair hpair) hclosed (hends.tail fun _ => hbreak)
  rw [List.cons_append, List.cons_append, importSpan_pair hpair, hspan]
  rfl

theorem resumes_stop (hbreak : isLineBreak c = true) (houtside : isClosedAt (state, depth) = true) :
    Resumes breaks behind state depth (c :: rest) := by
  intro _ _ _
  have htaken : (breakSpan (c :: rest)).1 = c :: rest.takeWhile isLineBreak := by
    simp [breakSpan, hbreak]
  have hall : ∀ d ∈ (breakSpan (c :: rest)).1 ++ breaks, isLineBreak d = true := by
    intro d hd
    rcases List.mem_append.mp hd with hd | hd
    · exact List.mem_takeWhile_imp hd
    · exact hbreaks d hd
  have hspan := breakSpan_append hall hbehind
  rw [List.append_assoc, htaken, List.cons_append, List.cons_append] at hspan
  rw [importSpan_stop hbreak houtside, htaken, List.cons_append, List.cons_append,
    importSpan_stop hbreak houtside]
  exact hspan

theorem Resumes.step (hpair : ∀ d ∈ rest.head?, state.pair? c d = none)
    (hstop : importStop state depth (c :: rest) =
      importStop (importStep state depth c).1 (importStep state depth c).2 rest)
    (h : Resumes breaks behind (importStep state depth c).1 (importStep state depth c).2 rest) :
    Resumes breaks behind state depth (c :: rest) := by
  intro hquote hclosed hends
  by_cases hstops : isLineBreak c = true ∧ isClosedAt (state, depth) = true
  · exact resumes_stop hbreaks hbehind hstops.1 hstops.2 hquote hclosed hends
  -- The scanner goes on behind `c` here, and so it does where it meets `c` again.
  have hopen : isLineBreak c = true → isClosedAt (state, depth) = false := by
    intro hbreak
    rw [← Bool.not_eq_true]
    exact fun houtside => hstops ⟨hbreak, houtside⟩
  rw [importSpan_step hpair hopen] at hclosed hends ⊢
  rw [hstop] at hclosed
  have hlast : (importSpan (importStep state depth c).1 (importStep state depth c).2 rest).1 = [] →
      rest = [] := by
    intro hnil
    by_contra hne
    exact importSpan_ne_nil hne hnil
  have hends := hends.tail fun hnil => by
    obtain rfl := hlast hnil
    rw [← Bool.not_eq_true]
    intro hbreak
    have hstep := hclosed rfl
    rw [importStop, not_isClosedAt_step hquote hbreak (hopen hbreak)] at hstep
    cases hstep
  have hspan := h (wellQuoted_step hquote) hclosed hends
  rw [List.cons_append, importSpan_step (pair?_of_taken hbreaks hpair hends) hopen, hspan]
  rfl

end Resuming

/-- In whichever state the scanner of imports begins, it takes again what it has taken. -/
theorem resumes (hbreaks : ∀ c ∈ breaks, isLineBreak c = true) (hbehind : BeginsLine behind)
    (state : ImportState) (depth : Int) (t : Text) : Resumes breaks behind state depth t := by
  fun_induction importStop state depth t with
  | case1 => exact resumes_nil hbreaks hbehind
  | case2 state depth c =>
    exact Resumes.step hbreaks hbehind (by simp) rfl (resumes_nil hbreaks hbehind)
  | case3 state depth c d rest state' hpair ih => exact ih.pair hpair
  | case4 state depth c d rest hpair ih =>
    refine Resumes.step hbreaks hbehind ?_ ?_ ih
    · intro e he
      cases he
      exact hpair
    · rw [importStop, hpair]

/-- A closed text that ends a line, and is taken as a whole where it stands alone, is taken so
wherever it stands. -/
theorem isImportLine_of_isClosed (hspan : (importSpan .plain 0 t).1 = t) (hclosed : IsClosed t)
    (hends : t.endsLine = true) : IsImportLine t := by
  intro rest hrest
  have htaken := resumes (List.forall_mem_nil _) hrest .plain 0 t trivial (fun _ => hclosed)
  rw [hspan, List.nil_append, List.append_nil] at htaken
  exact htaken (Or.inl hends)

/-- An import section as the scanner of imports cuts it out of some text. -/
structure IsCut (s : Section) : Prop where
  kind : s.kind = .imports
  mark : importMark <+: s.text
  span : ∃ t, (importSpan .plain 0 t).1 = s.text

theorem isCut_first (himports : (first c rest).1.kind = .imports) : IsCut (first c rest).1 := by
  obtain ⟨hmark, hfirst⟩ := first_imports himports
  obtain ⟨t, ht⟩ := List.isPrefixOf_iff_prefix.mp hmark
  have hpasses : Passes 0 importMark 0 := passes_inner (List.all_eq_true.mp rfl)
  rw [hfirst]
  refine ⟨rfl, ?_, c :: rest, rfl⟩
  dsimp only
  rw [← ht, hpasses t]
  exact List.prefix_append _ _

theorem IsCut.text_ne_nil {s : Section} (hs : s.IsCut) : s.text ≠ [] := by
  obtain ⟨t, ht⟩ := hs.mark
  rw [← ht]
  exact List.cons_ne_nil _ _

end Section

namespace Text

open Section

variable {s : Section} {t breaks behind : Text}

theorem isCut_of_mem_sections (hs : s ∈ t.sections) (himports : s.kind = .imports) : s.IsCut := by
  have hall : ∀ s ∈ t.sections, s.kind = .imports → s.IsCut :=
    forall_mem_sections (fun _ _ => isCut_first) t
  exact hall s hs himports

/-- Only the last section of a text can be an import that does not end a line. -/
theorem pairwise_sections (t : Text) :
    t.sections.Pairwise fun s _ => s.kind = .imports → s.text.endsLine = true := by
  refine pairwise_sections_of_first (fun c rest hleft himports => ?_) t
  rw [(first_imports himports).2] at hleft ⊢
  exact importSpan_endsLine .plain 0 (c :: rest) hleft

/-- A closed import section is cut out wherever it stands, with the line breaks behind it. -/
theorem sections_closed (hs : s.IsCut) (hclosed : IsClosed s.text)
    (hbreaks : ∀ c ∈ breaks, isLineBreak c = true) (hbehind : BeginsLine behind)
    (hends : EndsBefore s.text breaks behind) :
    sections (s.text ++ (breaks ++ behind)) =
      ⟨.imports, s.text ++ breaks⟩ :: behind.sections := by
  obtain ⟨u, hu⟩ := hs.span
  have hwhole := importSpan_append .plain 0 u
  have hspan := resumes hbreaks hbehind .plain 0 u trivial
  rw [hu] at hspan hwhole
  rw [← List.append_assoc] at hspan ⊢
  refine sections_of_importSpan (hs.mark.trans (List.prefix_append _ _)) (hspan ?_ hends)
  intro hnone
  rw [hnone, List.append_nil] at hwhole
  rw [← hwhole]
  exact hclosed

end Text

end Disentangle
