import Disentangle.Proofs.Section.Gathered

/-!
Texts whose imports lead. To put the imports of a text in front of all else leaves the text as it is
exactly if they stand there already: what the first other section begins with is no import, so it
shows when an import comes to stand in its place. The three parts of a source are the source under
the same condition, except for comments that the source begins with, which are its header.
-/

namespace Disentangle

namespace Section

/-- Imports stand before everything else. -/
def ImportsLead (sections : List Section) : Prop :=
  sections.Pairwise fun s later => later.kind = .imports → s.kind = .imports

instance (sections : List Section) : Decidable (ImportsLead sections) :=
  inferInstanceAs (Decidable (sections.Pairwise _))

variable {c : Char} {s : Section} {rest : List Section}

theorem importsLead_iff_getElem? {sections : List Section} :
    ImportsLead sections ↔
      ∀ (i j : Nat) (s later : Section), i < j → sections[i]? = some s →
        sections[j]? = some later → later.kind = .imports → s.kind = .imports := by
  rw [ImportsLead, List.pairwise_iff_getElem]
  constructor
  · intro h i j s later hij hs hlater
    obtain ⟨hi, rfl⟩ := List.getElem?_eq_some_iff.mp hs
    obtain ⟨hj, rfl⟩ := List.getElem?_eq_some_iff.mp hlater
    exact h i j hi hj hij
  · intro h i j hi hj hij
    exact h i j _ _ hij (List.getElem?_eq_getElem hi) (List.getElem?_eq_getElem hj)

theorem importsLead_of_forall_ne (h : ∀ s ∈ rest, s.kind ≠ .imports) : ImportsLead rest :=
  List.pairwise_of_forall_mem_list fun _ _ later hlater himports =>
    absurd himports (h later hlater)

theorem importsLead_cons_of_imports (hs : s.kind = .imports) :
    ImportsLead (s :: rest) ↔ ImportsLead rest := by
  rw [ImportsLead, List.pairwise_cons, and_iff_right fun _ _ _ => hs]
  rfl

theorem importsLead_append_of_imports {front : List Section}
    (h : ∀ s ∈ front, s.kind = .imports) :
    ImportsLead (front ++ rest) ↔ ImportsLead rest := by
  induction front with
  | nil => rfl
  | cons s front ih =>
    obtain ⟨hs, hfront⟩ := List.forall_mem_cons.mp h
    rw [List.cons_append, importsLead_cons_of_imports hs, ih hfront]

theorem importsLead_cons_of_ne (hs : s.kind ≠ .imports) :
    ImportsLead (s :: rest) ↔ ∀ later ∈ rest, later.kind ≠ .imports := by
  rw [ImportsLead, List.pairwise_cons]
  constructor
  · exact fun h later hlater himports => hs (h.1 later hlater himports)
  · exact fun h => ⟨fun later hlater himports => absurd himports (h later hlater),
      importsLead_of_forall_ne h⟩

/-- A text that begins as an import does begins with an import section. -/
theorem kind_first_of_importMark {rest : Text} (hmark : importMark.isPrefixOf (c :: rest) = true) :
    (first c rest).1.kind = .imports := by
  obtain rfl := eq_of_importMark_isPrefixOf hmark
  have hends : (isSpace 'i' || opensComment ('i' :: rest)) = false := rfl
  rw [first, hends, if_neg Bool.false_ne_true, if_pos hmark]

end Section

namespace Text

open Section

variable {c : Char} {rest t : Text}

/-- An import at the front of a text is the first of its imports and leaves nothing without them. -/
theorem importsOf_of_imports (himports : (first c rest).1.kind = .imports) :
    importsOf (c :: rest) = (first c rest).1 :: importsOf (first c rest).2 ∧
      withoutImports (c :: rest) = withoutImports (first c rest).2 := by
  unfold importsOf withoutImports
  rw [sections_cons]
  exact ⟨List.filter_cons_of_pos (by simp [himports]),
    by rw [List.filter_cons_of_neg (by simp [himports])]⟩

theorem importsOf_eq_nil_iff : importsOf t = [] ↔ t.HasNoImports := by
  simp [importsOf, HasNoImports, List.filter_eq_nil_iff]

/-- Behind its imports a text is the same only if it has none or begins with one. -/
theorem kind_first_of_imports_append
    (h : (importsOf (c :: rest)).flatMap (·.text) ++ withoutImports (c :: rest) = c :: rest) :
    HasNoImports (c :: rest) ∨ (first c rest).1.kind = .imports := by
  cases hall : importsOf (c :: rest) with
  | nil => exact Or.inl (importsOf_eq_nil_iff.mp hall)
  | cons s more =>
    have hs : s ∈ importsOf (c :: rest) := by simp [hall]
    obtain ⟨behind, hmark⟩ := (isCut_of_mem_importsOf hs).mark
    rw [hall, List.flatMap_cons, ← hmark, List.append_assoc, List.append_assoc] at h
    exact Or.inr (kind_first_of_importMark (List.isPrefixOf_iff_prefix.mpr ⟨_, h⟩))

/-- To put the imports of a text in front of it changes it unless they lead. -/
theorem imports_append_withoutImports_eq_iff (t : Text) :
    (importsOf t).flatMap (·.text) ++ t.withoutImports = t ↔ ImportsLead t.sections := by
  induction t using sections_induction with
  | nil => exact iff_of_true rfl .nil
  | cons c rest ih =>
    by_cases himports : (first c rest).1.kind = .imports
    · obtain ⟨hall, hwithout⟩ := importsOf_of_imports himports
      rw [sections_cons, importsLead_cons_of_imports himports, ← ih, hall, hwithout,
        List.flatMap_cons, List.append_assoc, ← first_append c rest, List.append_cancel_left_eq]
    · constructor
      · intro h
        exact importsLead_of_forall_ne
          ((kind_first_of_imports_append h).resolve_right himports)
      · intro hlead
        rw [sections_cons, importsLead_cons_of_ne himports] at hlead
        have hfree : HasNoImports (c :: rest) := by
          rw [HasNoImports, sections_cons, List.forall_mem_cons]
          exact ⟨himports, hlead⟩
        rw [importsOf_eq_nil_iff.mpr hfree, withoutImports_eq_self hfree]
        rfl

/-- Behind comments at its front a text has all its imports. -/
theorem importsOf_commentSpan (t : Text) : importsOf (commentSpan .between t).2 = importsOf t := by
  have hheader : (headerOf (commentSpan .between t).1).filter (·.kind = .imports) = [] := by
    rw [List.filter_eq_nil_iff]
    intro s hs
    simp [kind_of_mem_headerOf hs]
  unfold importsOf
  rw [sections_header t, List.filter_append, hheader, List.nil_append]

/-- The parts of a text in a row are the text if behind its header the imports lead. -/
theorem whole_parts_eq_iff_importsLead (t : Text) :
    t.parts.whole = t ↔ ImportsLead (sections (commentSpan .between t).2) := by
  rw [← imports_append_withoutImports_eq_iff, importsOf_commentSpan, Parts.whole, parts_eq,
    List.append_assoc]
  have hwhole := Section.commentSpan_append .between t
  conv => lhs; rhs; rw [← hwhole]
  rw [List.append_cancel_left_eq]

/-- Comments at the front of a text are its first section, and behind them stands something else. -/
theorem sections_cases (t : Text) :
    (∃ comments, t.sections = ⟨.comment, comments⟩ :: sections (commentSpan .between t).2 ∧
      t.parts.header = comments) ∨
    (∀ s ∈ t.sections.head?, s.kind ≠ .comment) ∧ (commentSpan .between t).2 = t ∧
      t.parts.header = [] := by
  rw [parts_eq]
  cases hbegins : beginsComment t with
  | true => exact Or.inl ⟨_, sections_comment hbegins, rfl⟩
  | false =>
    rw [commentSpan_of_not hbegins]
    refine Or.inr ⟨fun s hs => ?_, rfl, rfl⟩
    cases t with
    | nil => cases hs
    | cons c rest =>
      rw [sections_cons] at hs
      cases hs
      exact kind_first_ne_comment hbegins

/-- The three parts of a text in a row are the text exactly if no import section stands behind a
section other than imports and comments that the text begins with. The header is the first section
if that is one of comments, and empty otherwise. -/
theorem whole_parts_eq_iff (t : Text) :
    (t.parts.whole = t ↔
      ∀ (i j : Nat) (s later : Section), i < j → t.sections[i]? = some s →
        t.sections[j]? = some later → later.kind = .imports →
          s.kind = .imports ∨ i = 0 ∧ s.kind = .comment) ∧
    t.parts.header =
      match t.sections with
      | ⟨.comment, comments⟩ :: _ => comments
      | _ => [] := by
  rw [whole_parts_eq_iff_importsLead, importsLead_iff_getElem?]
  rcases sections_cases t with ⟨comments, hsections, hheader⟩ | ⟨hfirst, hleft, hheader⟩
  · rw [hsections]
    refine ⟨⟨fun h i j s later hij hs hlater himports => ?_,
      fun h i j s later hij hs hlater himports => ?_⟩, hheader⟩
    · obtain ⟨j, rfl⟩ := Nat.exists_eq_succ_of_ne_zero (Nat.ne_zero_of_lt hij)
      cases i with
      | zero =>
        cases hs
        exact Or.inr ⟨rfl, rfl⟩
      | succ i => exact Or.inl (h i j s later (Nat.lt_of_succ_lt_succ hij) hs hlater himports)
    · have hnext := h (i + 1) (j + 1) s later (Nat.succ_lt_succ hij) hs hlater himports
      exact hnext.resolve_right fun hzero => Nat.succ_ne_zero i hzero.1
  · rw [hleft]
    refine ⟨⟨fun h i j s later hij hs hlater himports =>
      Or.inl (h i j s later hij hs hlater himports),
      fun h i j s later hij hs hlater himports => ?_⟩, ?_⟩
    · refine (h i j s later hij hs hlater himports).resolve_right ?_
      rintro ⟨rfl, hcomment⟩
      exact hfirst s (by rw [List.head?_eq_getElem?, hs]; rfl) hcomment
    · rw [hheader]
      split
      next comments rest hsections =>
        rw [hsections] at hfirst
        exact absurd rfl (hfirst _ rfl)
      next => rfl

end Text

end Disentangle
