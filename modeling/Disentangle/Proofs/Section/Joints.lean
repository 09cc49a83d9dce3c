import Disentangle.Proofs.Section.Cover

/-!
What the scanners make of a text from which the imports have been taken out. Pieces that were cut
apart by an import come to stand next to each other, and one scanner may now go on over what were
several sections: code takes in the blanks behind it, comments run together. But code that an import
follows ends a line, and code that a comment follows ends where the comment begins, so nothing new
begins at such a joint, and no import is found in what is left.
-/

namespace Disentangle

namespace Section

variable {c : Char} {p q t w rest left : Text} {atLineStart : Bool} {literal : Option Literal}

section Comments

theorem ne_of_isSpace {d : Char} (hspace : isSpace c = true) (hd : isSpace d = false) : c ≠ d := by
  rintro rfl
  rw [hspace] at hd
  cases hd

/-- In a comment the scanner of comments passes over the next character. -/
theorem commentSpan_ne_nil_of_inBlock (hne : t ≠ []) : (commentSpan .inBlock t).1 ≠ [] := by
  cases t with
  | nil => exact absurd rfl hne
  | cons c rest =>
    rw [commentSpan.eq_def]
    split <;> simp_all

theorem commentSpan_space (hspace : isSpace c = true) :
    commentSpan .between (c :: rest) =
      (c :: (commentSpan .between rest).1, (commentSpan .between rest).2) := by
  have hslash : c ≠ '/' := ne_of_isSpace hspace (by decide)
  rw [commentSpan.eq_7 _ _ (by simp [hslash]) (by simp [hslash]), if_pos hspace]

/-- The scanner of comments takes all that opens a comment. -/
theorem opensComment_commentSpan (h : opensComment t = true) :
    opensComment ((commentSpan .between t).1 ++ w) = true := by
  unfold opensComment at h
  split at h
  next => simp [commentSpan, opensComment]
  next => simp [commentSpan, opensComment]
  next => cases h

/-- What the scanner of comments has taken it takes again, whatever stands where something was left,
and goes on there between comments. -/
theorem commentSpan_append_of_left (state : CommentState) (t w : Text)
    (hleft : (commentSpan state t).2 = [] → w = []) :
    commentSpan state ((commentSpan state t).1 ++ w) =
      ((commentSpan state t).1 ++ (commentSpan .between w).1, (commentSpan .between w).2) := by
  fun_induction commentSpan state t with
  | case1 =>
    obtain rfl := hleft rfl
    simp [commentSpan]
  | case3 c rest hnot passed left heq ih =>
    rw [heq] at ih
    have hwhole := commentSpan_append .inBlock rest
    rw [heq] at hwhole
    -- What is taken begins as the text does, so the comment does not end here either.
    have hnext : ∀ later, c = '*' → passed ++ w = '/' :: later → False := by
      rintro later hstar hslash
      cases passed with
      | nil =>
        have hrest : rest = [] := by
          by_contra hne
          have hpassed := commentSpan_ne_nil_of_inBlock hne
          rw [heq] at hpassed
          exact hpassed rfl
        have hnone : left = [] := by rw [← hrest, ← hwhole, List.nil_append]
        rw [hleft hnone] at hslash
        cases hslash
      | cons d more =>
        cases hslash
        exact hnot _ hstar hwhole.symm
    rw [List.cons_append, commentSpan.eq_3 _ _ hnext, ih hleft]
    rfl
  | case2 rest passed left heq ih | case4 c rest passed left heq ih
  | case5 rest passed left heq ih | case6 rest passed left heq ih =>
    rw [heq] at ih
    simp only [List.cons_append, commentSpan, ih hleft]
  | case7 c rest hline hblock hspace passed left heq ih =>
    rw [heq] at ih
    rw [List.cons_append, commentSpan_space hspace, ih hleft]
    rfl
  | case8 c rest hline hblock hspace => rfl

/-- Comments that something follows are comments whatever follows. -/
theorem isComment_commentSpan (hleft : (commentSpan .between t).2 ≠ []) :
    IsComment (commentSpan .between t).1 :=
  fun w => commentSpan_append_of_left .between t w fun hnone => absurd hnone hleft

end Comments

section Code

/-- Whether code ends before a text. -/
def endsCode (atLineStart : Bool) (t : Text) : Bool :=
  (atLineStart && importMark.isPrefixOf t) || opensComment t

theorem codeSpan_of_endsCode (h : endsCode atLineStart (c :: rest) = true) :
    codeSpan none atLineStart (c :: rest) = ([], c :: rest) := by
  unfold endsCode at h
  rw [codeSpan, if_pos h]

theorem codeSpan_of_not_endsCode (h : endsCode atLineStart (c :: rest) = false) :
    codeSpan none atLineStart (c :: rest) =
      (c :: (codeSpan (literalAt? c) (isLineBreak c) rest).1,
        (codeSpan (literalAt? c) (isLineBreak c) rest).2) := by
  unfold endsCode at h
  rw [codeSpan, h, if_neg Bool.false_ne_true]

/-- Behind every part of `p` code ends before `w` as it does before `left`. -/
def Alike (p left w : Text) : Prop :=
  ∀ q, q ≠ [] → q <:+ p → ∀ atLineStart,
    endsCode atLineStart (q ++ w) = endsCode atLineStart (q ++ left)

theorem Alike.tail (h : Alike (c :: p) left w) : Alike p left w :=
  fun q hne hq => h q hne (hq.trans (List.suffix_cons c p))

/-- The scanner of code passes over blanks. -/
theorem codeSpan_space (hspace : isSpace c = true) :
    codeSpan none atLineStart (c :: rest) =
      (c :: (codeSpan none (isLineBreak c) rest).1, (codeSpan none (isLineBreak c) rest).2) := by
  have hmark : c ≠ 'i' := ne_of_isSpace hspace (by decide)
  have hslash : c ≠ '/' := ne_of_isSpace hspace (by decide)
  have hends : endsCode atLineStart (c :: rest) = false := by
    have hprefix : importMark.isPrefixOf (c :: rest) = false := by
      rw [← Bool.not_eq_true]
      exact fun h => hmark (eq_of_importMark_isPrefixOf h)
    have hopens : opensComment (c :: rest) = false := by
      rw [← Bool.not_eq_true]
      exact fun h => hslash (eq_slash_of_opensComment h)
    rw [endsCode, hprefix, hopens, Bool.and_false, Bool.or_false]
  have hquote : literalAt? c = none := by
    have hsingle : c ≠ '\'' := ne_of_isSpace hspace (by decide)
    have hdouble : c ≠ '"' := ne_of_isSpace hspace (by decide)
    have htemplate : c ≠ '`' := ne_of_isSpace hspace (by decide)
    simp [literalAt?, isQuote, hsingle, hdouble, htemplate]
  rw [codeSpan_of_not_endsCode hends, hquote]

theorem codeSpan_of_opensComment (h : opensComment t = true) :
    codeSpan none atLineStart t = ([], t) := by
  cases t with
  | nil => rfl
  | cons c rest => exact codeSpan_of_endsCode (by rw [endsCode, h, Bool.or_true])

/-- What the scanner of code has taken it takes again where something alike follows, and goes on
there outside of literals. -/
theorem codeSpan_append_of_alike (literal : Option Literal) (atLineStart : Bool) (t w : Text)
    (hleft : (codeSpan literal atLineStart t).2 = [] → w = [])
    (h : Alike (codeSpan literal atLineStart t).1 (codeSpan literal atLineStart t).2 w) :
    ∃ lineStart, codeSpan literal atLineStart ((codeSpan literal atLineStart t).1 ++ w) =
      ((codeSpan literal atLineStart t).1 ++ (codeSpan none lineStart w).1,
        (codeSpan none lineStart w).2) := by
  fun_induction codeSpan literal atLineStart t with
  | case1 =>
    obtain rfl := hleft rfl
    exact ⟨true, by simp [codeSpan]⟩
  | case2 literal _ c rest passed left heq ih =>
    rw [heq] at ih
    obtain ⟨lineStart, hspan⟩ := ih hleft h.tail
    refine ⟨lineStart, ?_⟩
    rw [List.cons_append, codeSpan, hspan]
    rfl
  | case3 atLineStart c rest hends => exact ⟨atLineStart, rfl⟩
  | case4 atLineStart c rest hends passed left heq ih =>
    have hwhole := codeSpan_append (literalAt? c) (isLineBreak c) rest
    rw [heq] at hwhole ih
    obtain ⟨lineStart, hspan⟩ := ih hleft h.tail
    have hnot : endsCode atLineStart (c :: (passed ++ w)) = false := by
      rw [← Bool.not_eq_true]
      have halike := h (c :: passed) (List.cons_ne_nil _ _) List.suffix_rfl atLineStart
      rw [List.cons_append, List.cons_append, hwhole] at halike
      rw [halike]
      exact hends
    refine ⟨lineStart, ?_⟩
    rw [List.cons_append, codeSpan_of_not_endsCode hnot, hspan]
    rfl

/-- A word is no beginning of a text by what stands behind a character that is not its own. -/
theorem isPrefixOf_append_of_not_mem {word : Text} {d : Char} (hd : d ∈ q) (hword : d ∉ word) :
    word.isPrefixOf (q ++ w) = word.isPrefixOf q := by
  induction q generalizing word with
  | nil => cases hd
  | cons c q ih =>
    cases word with
    | nil => rfl
    | cons a word =>
      rw [List.cons_append, List.isPrefixOf, List.isPrefixOf]
      rcases List.mem_cons.mp hd with rfl | hd
      · have hne : (a == d) = false := beq_false_of_ne (List.ne_of_not_mem_cons hword).symm
        rw [hne, Bool.false_and, Bool.false_and]
      · rw [ih hd (List.not_mem_of_not_mem_cons hword)]

/-- Two characters show whether a comment begins, and one does if it is not a slash. -/
theorem opensComment_append (h : 2 ≤ q.length ∨ ∃ d ∈ q.head?, d ≠ '/') :
    opensComment (q ++ w) = opensComment q := by
  match q with
  | [] => simp at h
  | [d] =>
    have hd : d ≠ '/' := by simpa using h
    simp [opensComment, hd]
  | d :: e :: later =>
    unfold opensComment
    split <;> simp_all

theorem endsCode_append {d : Char} (hd : d ∈ q) (hmark : d ∉ importMark)
    (hopens : 2 ≤ q.length ∨ ∃ d ∈ q.head?, d ≠ '/') :
    endsCode atLineStart (q ++ w) = endsCode atLineStart q := by
  rw [endsCode, endsCode, isPrefixOf_append_of_not_mem hd hmark, opensComment_append hopens]

/-- A slash is as good as another. -/
theorem alike_of_slash (p later later' : Text) : Alike p ('/' :: later) ('/' :: later') := by
  intro q hne _ atLineStart
  have hlength : 2 ≤ (q ++ ['/']).length := by
    have hpos := List.length_pos_iff.mpr hne
    rw [List.length_append, List.length_singleton]
    omega
  have hslash (t : Text) : endsCode atLineStart (q ++ '/' :: t) =
      endsCode atLineStart (q ++ ['/']) := by
    rw [List.append_cons]
    exact endsCode_append (List.mem_append_right q (List.mem_singleton_self '/')) (by decide)
      (Or.inl hlength)
  exact (hslash later').trans (hslash later).symm

/-- Behind the end of a line nothing goes on that began before it. -/
theorem alike_of_endsLine (h : p.endsLine = true) (left w : Text) : Alike p left w := by
  intro q hne hsuffix atLineStart
  obtain ⟨front, rfl⟩ := hsuffix
  obtain ⟨q, d, rfl⟩ := List.eq_nil_or_concat q |>.resolve_left hne
  rw [List.concat_eq_append] at h ⊢
  have hbreak : isLineBreak d = true := by simpa [Text.endsLine] using h
  have hslash : d ≠ '/' := by
    rintro rfl
    exact absurd hbreak (by decide)
  have hmark : d ∉ importMark := by
    intro hd
    have hword : ∀ e ∈ importMark, (!isLineBreak e) = true := List.all_eq_true.mp rfl
    have hnot := hword d hd
    rw [hbreak] at hnot
    cases hnot
  have hopens : 2 ≤ (q ++ [d]).length ∨ ∃ e ∈ (q ++ [d]).head?, e ≠ '/' := by
    cases q with
    | nil => exact Or.inr ⟨d, rfl, hslash⟩
    | cons e q => exact Or.inl (by simp)
  rw [endsCode_append (by simp) hmark hopens, endsCode_append (by simp) hmark hopens]

/-- Code ends before a comment or behind a line break. -/
theorem codeSpan_endsLine (literal : Option Literal) (atLineStart : Bool) (t : Text)
    (hleft : (codeSpan literal atLineStart t).2 ≠ [])
    (hopens : opensComment (codeSpan literal atLineStart t).2 = false) :
    (codeSpan literal atLineStart t).1.endsLine = true ∨
      (codeSpan literal atLineStart t).1 = [] ∧ literal = none ∧ atLineStart = true := by
  fun_induction codeSpan literal atLineStart t with
  | case1 => exact absurd rfl hleft
  | case2 literal _ c rest passed left heq ih =>
    rw [heq] at ih
    rcases ih hleft hopens with hends | ⟨-, -, hfalse⟩
    · exact Or.inl (endsLine_append (t := [c]) hends)
    · cases hfalse
  | case3 atLineStart c rest hends =>
    rw [hopens, Bool.or_false, Bool.and_eq_true] at hends
    exact Or.inr ⟨rfl, rfl, hends.1⟩
  | case4 atLineStart c rest hends passed left heq ih =>
    rw [heq] at ih
    rcases ih hleft hopens with hends | ⟨rfl, -, hbreak⟩
    · exact Or.inl (endsLine_append (t := [c]) hends)
    · exact Or.inl hbreak

end Code

section Imports

theorem beginsLine_breakSpan (t : Text) : BeginsLine (breakSpan t).2 := by
  intro c hc
  have hnot := List.head?_dropWhile_not isLineBreak t
  rw [breakSpan] at hc
  rw [Option.mem_def.mp hc] at hnot
  exact hnot

/-- The line breaks behind an import go with it. -/
theorem beginsLine_importSpan (state : ImportState) (depth : Int) (t : Text) :
    BeginsLine (importSpan state depth t).2 := by
  fun_induction importSpan state depth t with
  | case1 =>
    intro c hc
    cases hc
  | case7 => exact beginsLine_breakSpan _
  | case9 state depth c rest _ _ _ _ _ _ passed left heq ihLine ihPlain =>
    cases state with
    | inLine =>
      dsimp only at heq
      rwa [heq] at ihLine
    | _ =>
      dsimp only at heq
      rwa [heq] at ihPlain
  | _ => simp_all

/-- An import at the front of a text is what the scanner of imports makes of the whole text. -/
theorem first_imports (himports : (first c rest).1.kind = .imports) :
    importMark.isPrefixOf (c :: rest) = true ∧
      first c rest = (⟨.imports, (importSpan .plain 0 (c :: rest)).1⟩,
        (importSpan .plain 0 (c :: rest)).2) := by
  unfold first at himports ⊢
  split at himports
  · cases himports
  next hcomment =>
    split at himports
    next hmark =>
      obtain rfl := eq_of_importMark_isPrefixOf hmark
      rw [if_neg hcomment, if_pos hmark, importSpan_plain (by decide) (by decide)]
      exact ⟨hmark, rfl⟩
    next => cases himports

end Imports

end Section

namespace Text

open Section

variable {c : Char} {t w rest : Text}

/-- Comments at the front of a text are no imports. -/
theorem hasNoImports_commentSpan :
    HasNoImports (commentSpan .between t).2 ↔ t.HasNoImports := by
  have hsame : importSectionsFrom 0 t = [] ↔
      importSectionsFrom (0 + (commentSpan .between t).1.length)
        (commentSpan .between t).2 = [] := by
    rw [importSectionsFrom_commentSpan]
  rw [importSectionsFrom_eq_nil_iff, importSectionsFrom_eq_nil_iff] at hsame
  exact hsame.symm

/-- Code at the front of a text is no import. -/
theorem hasNoImports_codeSpan (hspace : isSpace c = false)
    (hcode : endsCode true (c :: rest) = false) :
    HasNoImports (codeSpan none true (c :: rest)).2 ↔ HasNoImports (c :: rest) := by
  have hends := Bool.or_eq_false_iff.mp hcode
  have hsections : sections (c :: rest) =
      ⟨.code, (codeSpan none true (c :: rest)).1⟩ ::
        sections (codeSpan none true (c :: rest)).2 := by
    rw [codeSpan_of_not_endsCode hcode, sections_cons]
    have hmark : importMark.isPrefixOf (c :: rest) = false := hends.1
    simp [first, hspace, hends.2, hmark]
  unfold HasNoImports
  rw [hsections, List.forall_mem_cons]
  simp

/-- Comments stay free of imports where a text free of them follows. -/
theorem HasNoImports.commentSpan_append (hw : w.HasNoImports)
    (hleft : (commentSpan .between t).2 = [] → w = []) :
    HasNoImports ((commentSpan .between t).1 ++ w) := by
  rw [← hasNoImports_commentSpan, commentSpan_append_of_left .between t w hleft,
    hasNoImports_commentSpan]
  exact hw

/-- A text in which no import is found, also where code goes on into it. -/
structure StaysFree (t : Text) : Prop where
  alone : t.HasNoImports
  behindCode : ∀ atLineStart, HasNoImports (codeSpan none atLineStart t).2

theorem staysFree_nil : StaysFree [] where
  alone := List.forall_mem_nil _
  behindCode := fun _ => List.forall_mem_nil _

/-- Code takes in the blanks behind it, and stops before a comment. -/
theorem StaysFree.commentSpan_append (hw : w.StaysFree)
    (hleft : (commentSpan .between t).2 = [] → w = []) :
    StaysFree ((commentSpan .between t).1 ++ w) where
  alone := hw.alone.commentSpan_append hleft
  behindCode := by
    induction t with
    | nil => simpa [commentSpan] using hw.behindCode
    | cons c rest ih =>
      intro atLineStart
      by_cases hspace : isSpace c = true
      · rw [commentSpan_space hspace] at hleft ⊢
        rw [List.cons_append, codeSpan_space hspace]
        exact ih hleft _
      by_cases hopens : opensComment (c :: rest) = true
      · have hfree := hw.alone.commentSpan_append hleft
        rwa [codeSpan_of_opensComment (opensComment_commentSpan hopens)]
      · rw [commentSpan_of_not (by simp [beginsComment, hspace, hopens]), List.nil_append]
        exact hw.behindCode atLineStart

/-- Code that ends where it ended before stays free of imports where a text free of them follows. -/
theorem StaysFree.codeSpan_append (hw : w.StaysFree) (hspace : isSpace c = false)
    (hcode : endsCode true (c :: rest) = false)
    (hleft : (codeSpan none true (c :: rest)).2 = [] → w = [])
    (halike : Alike (codeSpan none true (c :: rest)).1 (codeSpan none true (c :: rest)).2 w) :
    StaysFree ((codeSpan none true (c :: rest)).1 ++ w) := by
  obtain ⟨lineStart, hspan⟩ := codeSpan_append_of_alike none true (c :: rest) w hleft halike
  have hwhole := Section.codeSpan_append none true (c :: rest)
  obtain ⟨p, hp⟩ : ∃ p, (codeSpan none true (c :: rest)).1 = c :: p :=
    ⟨_, by rw [codeSpan_of_not_endsCode hcode]⟩
  have hends := halike _ (by simp [hp]) List.suffix_rfl true
  rw [hwhole, hcode] at hends
  rw [hp, List.cons_append] at hends hspan ⊢
  have hfree : HasNoImports (codeSpan none true (c :: (p ++ w))).2 := by
    rw [hspan]
    exact hw.behindCode lineStart
  refine ⟨(hasNoImports_codeSpan hspace hends).mp hfree, fun atLineStart => ?_⟩
  have hother : endsCode atLineStart (c :: (p ++ w)) = false := by
    cases atLineStart with
    | true => exact hends
    | false => exact (Bool.or_eq_false_iff.mp hends).2
  rw [codeSpan_of_not_endsCode hends] at hfree
  rw [codeSpan_of_not_endsCode hother]
  exact hfree

/-- Code ends before what is left of a text as it does before the text. -/
theorem alike_withoutImports (hcode : endsCode true (c :: rest) = false) :
    Alike (codeSpan none true (c :: rest)).1 (codeSpan none true (c :: rest)).2
      (withoutImports (codeSpan none true (c :: rest)).2) := by
  cases hnone : (codeSpan none true (c :: rest)).2 with
  | nil => exact fun _ _ _ _ => rfl
  | cons d left =>
    cases hopens : opensComment (d :: left) with
    | true =>
      obtain rfl := eq_slash_of_opensComment hopens
      have htaken : (commentSpan .between ('/' :: left)).1 ≠ [] :=
        commentSpan_ne_nil (by rw [beginsComment, hopens, Bool.or_true])
      obtain ⟨e, taken, hspan⟩ := List.exists_cons_of_ne_nil htaken
      have hwhole := Section.commentSpan_append .between ('/' :: left)
      rw [hspan] at hwhole
      obtain rfl : e = '/' := (List.cons.inj hwhole).1
      rw [withoutImports_commentSpan, hspan]
      exact alike_of_slash _ _ _
    | false =>
      have hends := codeSpan_endsLine none true (c :: rest)
      rw [hnone] at hends
      rcases hends (List.cons_ne_nil _ _) hopens with hends | ⟨hnil, -⟩
      · exact alike_of_endsLine hends _ _
      · rw [codeSpan_of_not_endsCode hcode] at hnil
        cases hnil

/-- No import is found in what is left of a text without its imports. -/
theorem staysFree_withoutImports (t : Text) : t.withoutImports.StaysFree := by
  induction t using sections_induction with
  | nil => exact staysFree_nil
  | cons c rest hleft =>
    cases hcomment : beginsComment (c :: rest) with
    | true =>
      have hfirst : (first c rest).2 = (commentSpan .between (c :: rest)).2 :=
        congrArg Prod.snd (if_pos hcomment)
      rw [hfirst] at hleft
      rw [withoutImports_commentSpan]
      exact hleft.commentSpan_append fun hnone => by rw [hnone]; rfl
    | false =>
      have hends := Bool.or_eq_false_iff.mp hcomment
      cases hmark : importMark.isPrefixOf (c :: rest) with
      | true =>
        have himports : (first c rest).1.kind = .imports := by
          simp [first, hends.1, hends.2, hmark]
        rw [withoutImports, sections_cons, List.filter_cons_of_neg (by simp [himports])]
        exact hleft
      | false =>
        have hcode : endsCode true (c :: rest) = false := by
          rw [endsCode, hmark, hends.2, Bool.and_false, Bool.or_false]
        have hfirst : first c rest = (⟨.code, (codeSpan none true (c :: rest)).1⟩,
            (codeSpan none true (c :: rest)).2) := by
          simp [first, hends.1, hends.2, hmark, codeSpan_of_not_endsCode hcode]
        rw [hfirst] at hleft
        rw [withoutImports, sections_cons, hfirst, List.filter_cons_of_pos (by simp),
          List.flatMap_cons]
        exact hleft.codeSpan_append hends.1 hcode (fun hnone => by rw [hnone]; rfl)
          (alike_withoutImports hcode)

/-- Without its imports a text that begins with no line break begins with none. -/
theorem beginsLine_withoutImports (h : BeginsLine t) : BeginsLine t.withoutImports := by
  induction t using sections_induction with
  | nil => exact h
  | cons c rest ih =>
    rw [withoutImports, sections_cons]
    by_cases himports : (first c rest).1.kind = .imports
    · rw [List.filter_cons_of_neg (by simp [himports])]
      refine ih ?_
      rw [(first_imports himports).2]
      exact beginsLine_importSpan .plain 0 (c :: rest)
    · obtain ⟨d, more, htext⟩ := List.exists_cons_of_ne_nil (first_text_ne_nil c rest)
      have hwhole := first_append c rest
      rw [htext] at hwhole
      obtain rfl : d = c := (List.cons.inj hwhole).1
      rw [List.filter_cons_of_pos (by simp [himports]), List.flatMap_cons, htext]
      exact h

end Text

end Disentangle
