import Disentangle.Proofs.Section.Leading
import Mathlib.Data.List.Chain

/-!
The sections of a text are told apart by what they hold. Only imports begin as imports do; comments
do not stand beside comments, nor code beside code; code that an import follows ends a line; and
code holds nothing, outside of its literals, at which the scanner of code would have stopped.
-/

namespace Disentangle

namespace Section

variable {c d : Char} {t q w rest : Text} {atLineStart : Bool} {literal : Option Literal}

/-- The literal that is open behind a piece of code, where `literal` is open before it. -/
def literalBehind : Option Literal → Text → Option Literal
  | literal, [] => literal
  | none, c :: rest => literalBehind (literalAt? c) rest
  | some literal, c :: rest => literalBehind (literal.step c) rest

/-- Wherever no literal is open in the code, no comment begins, and no import behind a line
break. -/
def IsPlainCode (t : Text) : Prop :=
  ∀ front rest, t = front ++ rest → literalBehind none front = none →
    opensComment rest = false ∧ (Text.endsLine front = true → ¬ importMark <+: rest)

/-- A section that holds what its kind says. -/
structure IsCanonical (s : Section) : Prop where
  importMark_iff : importMark <+: s.text ↔ s.kind = .imports
  plain : s.kind = .code → IsPlainCode s.text

/-- Whether a section may stand in front of another one. -/
structure Precedes (s next : Section) : Prop where
  comment : s.kind = .comment → next.kind ≠ .comment
  code : s.kind = .code → next.kind ≠ .code
  endsLine : s.kind = .code → next.kind = .imports → s.text.endsLine = true

section Code

theorem endsCode_nil (atLineStart : Bool) : endsCode atLineStart [] = false := by
  cases atLineStart <;> rfl

/-- Code that ends before a text ends before every longer one. -/
theorem endsCode_append_of_endsCode (h : endsCode atLineStart q = true) (w : Text) :
    endsCode atLineStart (q ++ w) = true := by
  rw [endsCode, Bool.or_eq_true, Bool.and_eq_true, List.isPrefixOf_iff_prefix] at h ⊢
  rcases h with ⟨hline, hmark⟩ | hopens
  · exact Or.inl ⟨hline, hmark.trans (List.prefix_append q w)⟩
  · right
    unfold opensComment at hopens
    split at hopens
    next => rfl
    next => rfl
    next => cases hopens

theorem isLineBreak_of_isQuote (h : isQuote c = true) : isLineBreak c = false := by
  simp only [isQuote, Bool.or_eq_true, decide_eq_true_eq] at h
  rcases h with (rfl | rfl) | rfl <;> rfl

theorem isLineBreak_quote_of_literalAt? {opened : Literal} (h : literalAt? c = some opened) :
    isLineBreak opened.quote = false := by
  unfold literalAt? at h
  split at h
  next hquote =>
    cases h
    exact isLineBreak_of_isQuote hquote
  next => cases h

theorem endsLine_cons (c : Char) (front : Text) :
    Text.endsLine (c :: front) = if front = [] then isLineBreak c else Text.endsLine front := by
  cases front with
  | nil => rfl
  | cons d more => simp [Text.endsLine]

/-- The induction is on the scan. No line break closes a literal, so a line begins behind a
character exactly where the scanner says so. -/
theorem endsCode_of_codeSpan (literal : Option Literal) (atLineStart : Bool) (t : Text)
    (hquote : ∀ opened ∈ literal, isLineBreak opened.quote = false) (front rest : Text)
    (hspan : (codeSpan literal atLineStart t).1 = front ++ rest)
    (houtside : literalBehind literal front = none) :
    endsCode (if front = [] then atLineStart else Text.endsLine front) rest = false := by
  fun_induction codeSpan literal atLineStart t generalizing front rest with
  | case1 | case3 =>
    obtain ⟨rfl, rfl⟩ := List.append_eq_nil_iff.mp hspan.symm
    exact endsCode_nil _
  | case2 literal _ c later passed left heq ih =>
    rw [heq] at ih
    cases front with
    | nil => cases houtside
    | cons d front =>
      obtain ⟨rfl, hpassed⟩ := List.cons.inj hspan
      have hclosed : literal.step c = none → isLineBreak c = false := fun hstep =>
        Literal.eq_quote_of_step hstep ▸ hquote literal rfl
      have hstep := ih (fun opened hopened => by
        rw [Literal.quote_of_step hopened]
        exact hquote literal rfl) front rest hpassed houtside
      rw [if_neg (List.cons_ne_nil _ _), endsLine_cons]
      split
      next hfront =>
        rw [hfront] at houtside hstep
        rw [hclosed houtside]
        exact hstep
      next hfront => rwa [if_neg hfront] at hstep
  | case4 atLineStart c later hends passed left heq ih =>
    have hwhole := codeSpan_append (literalAt? c) (isLineBreak c) later
    rw [heq] at ih hwhole
    cases front with
    | nil =>
      rw [List.nil_append] at hspan
      rw [if_pos rfl, ← hspan, ← Bool.not_eq_true]
      intro hcode
      have hlonger := endsCode_append_of_endsCode hcode left
      rw [List.cons_append, hwhole] at hlonger
      exact hends hlonger
    | cons d front =>
      obtain ⟨rfl, hpassed⟩ := List.cons.inj hspan
      have hrest := ih (fun opened hopened => isLineBreak_quote_of_literalAt? hopened) front rest
        hpassed houtside
      rwa [if_neg (List.cons_ne_nil _ _), endsLine_cons]

/-- What the scanner of code passes over is plain. -/
theorem isPlainCode_codeSpan (t : Text) : IsPlainCode (codeSpan none true t).1 := by
  intro front rest hspan houtside
  have hends := endsCode_of_codeSpan none true t (by simp) front rest hspan houtside
  rw [endsCode, Bool.or_eq_false_iff] at hends
  refine ⟨hends.2, fun hline hmark => ?_⟩
  have hfront : front ≠ [] := by
    rintro rfl
    cases hline
  rw [if_neg hfront, hline, Bool.true_and, List.isPrefixOf_iff_prefix.mpr hmark] at hends
  cases hends.1

/-- Behind code stands an import or a comment. -/
theorem endsCode_codeSpan (literal : Option Literal) (atLineStart : Bool) (t : Text)
    (hleft : (codeSpan literal atLineStart t).2 ≠ []) :
    endsCode true (codeSpan literal atLineStart t).2 = true := by
  fun_induction codeSpan literal atLineStart t with
  | case1 => exact absurd rfl hleft
  | case2 literal _ c later passed left heq ih
  | case4 atLineStart c later hends passed left heq ih =>
    rw [heq] at ih
    exact ih hleft
  | case3 atLineStart c later hends =>
    rw [Bool.or_eq_true, Bool.and_eq_true] at hends
    rw [endsCode, Bool.true_and, Bool.or_eq_true]
    exact hends.imp And.right id

end Code

section First

/-- A section of comments is what the scanner of comments passes over. -/
theorem first_comment (hcomment : (first c rest).1.kind = .comment) :
    first c rest = (⟨.comment, (commentSpan .between (c :: rest)).1⟩,
      (commentSpan .between (c :: rest)).2) := by
  unfold first at hcomment ⊢
  split at hcomment
  next hbegins => rw [if_pos hbegins]
  next =>
    split at hcomment
    · cases hcomment
    · cases hcomment

/-- A section of code is what the scanner of code passes over at the beginning of a line. -/
theorem first_code (hcode : (first c rest).1.kind = .code) :
    first c rest = (⟨.code, (codeSpan none true (c :: rest)).1⟩,
      (codeSpan none true (c :: rest)).2) := by
  unfold first at hcode ⊢
  split at hcode
  · cases hcode
  next hcomment =>
    split at hcode
    · cases hcode
    next hmark =>
      rw [Bool.or_eq_true, not_or, Bool.not_eq_true, Bool.not_eq_true] at hcomment
      rw [if_neg (by simp [hcomment]), if_neg hmark,
        codeSpan_cons (eq_false_of_ne_true hmark) hcomment.2]

theorem kind_first_of_endsCode (h : endsCode true (c :: rest) = true) :
    (first c rest).1.kind ≠ .code := by
  intro hcode
  have hnone : (first c rest).1.text = [] := by rw [first_code hcode, codeSpan_of_endsCode h]
  exact first_text_ne_nil c rest hnone

theorem isCanonical_first (c : Char) (rest : Text) : (first c rest).1.IsCanonical where
  importMark_iff := by
    constructor
    · intro hmark
      have hwhole := hmark.trans (List.prefix_append _ (first c rest).2)
      rw [first_append] at hwhole
      exact kind_first_of_importMark (List.isPrefixOf_iff_prefix.mpr hwhole)
    · exact fun himports => (isCut_first himports).mark
  plain hcode := by
    rw [first_code hcode]
    exact isPlainCode_codeSpan (c :: rest)

/-- The section behind the first one. -/
theorem precedes_first (hleft : (first c rest).2 = d :: w) :
    (first c rest).1.Precedes (first d w).1 where
  comment hcomment := by
    have hstops := beginsComment_commentSpan .between (c :: rest)
    rw [first_comment hcomment] at hleft
    dsimp only at hleft
    rw [hleft] at hstops
    exact kind_first_ne_comment hstops
  code hcode := by
    rw [first_code hcode] at hleft
    dsimp only at hleft
    have hends := endsCode_codeSpan none true (c :: rest) (by simp [hleft])
    rw [hleft] at hends
    exact kind_first_of_endsCode hends
  endsLine hcode himports := by
    have hmark := (first_imports himports).1
    obtain rfl := eq_of_importMark_isPrefixOf hmark
    have hne := first_text_ne_nil c rest
    rw [first_code hcode] at hleft hne ⊢
    dsimp only at hleft hne ⊢
    rcases codeSpan_endsLine none true (c :: rest) (by simp [hleft]) (by rw [hleft]; rfl) with
      hline | ⟨hnone, -, -⟩
    · exact hline
    · exact absurd hnone hne

end First

end Section

namespace Text

open Section

/-- The sections of any text are canonical. A section begins as an import does exactly if it is one;
comments and comments, code and code never stand side by side; code in front of an import ends a
line; and outside of its literals code opens no comment and begins no import behind a line break. -/
theorem sections_canonical (t : Text) :
    (∀ s ∈ t.sections, s.IsCanonical) ∧ t.sections.IsChain Precedes := by
  induction hn : t.length using Nat.strongRecOn generalizing t with
  | ind n ih =>
    cases t with
    | nil => exact ⟨by simp [sections, cut], .nil⟩
    | cons c rest =>
      obtain ⟨hcanonical, hchain⟩ := ih _ (hn ▸ length_first_lt c rest) _ rfl
      rw [sections_cons]
      refine ⟨List.forall_mem_cons.mpr ⟨isCanonical_first c rest, hcanonical⟩,
        List.isChain_cons.mpr ⟨?_, hchain⟩⟩
      cases hleft : (first c rest).2 with
      | nil =>
        intro next hnext
        cases hnext
      | cons d w =>
        rw [sections_cons]
        rintro next ⟨⟩
        exact precedes_first hleft

-- What opens a comment in a literal does not end the code.
example :
    sections "x = '//';\nimport a;\n\n/* import */y".toList =
      [⟨.code, "x = '//';\n".toList⟩, ⟨.imports, "import a;\n\n".toList⟩,
        ⟨.comment, "/* import */".toList⟩, ⟨.code, ['y']⟩] := by
  decide

end Text

end Disentangle
