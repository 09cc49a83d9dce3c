import Disentangle.Proofs.Section.Closed

/-!
A source with its imports gathered behind its header. If they are closed the result is cut as the
source was: the same header, the same imports in the same order, and the rest of the source, in
which no import appears. So gathering them once more changes nothing.
-/

namespace Disentangle

open Section

attribute [ext] Parts

namespace Section

variable {c : Char} {t rest : Text}

/-- The comments at the front of a text as sections. -/
def headerOf (comments : Text) : List Section :=
  if comments.isEmpty then [] else [⟨.comment, comments⟩]

theorem flatMap_headerOf (comments : Text) : (headerOf comments).flatMap (·.text) = comments := by
  unfold headerOf
  split
  next hnil => simpa using hnil.symm
  next => simp

/-- A text that begins with neither blanks nor a comment begins with no line break. -/
theorem beginsLine_of_not (h : beginsComment t = false) : BeginsLine t := by
  rintro c hc
  obtain ⟨rest, rfl⟩ := List.head?_eq_some_iff.mp hc
  have hspace := (Bool.or_eq_false_iff.mp h).1
  unfold isSpace at hspace
  unfold isLineBreak
  simp_all

/-- Behind comments there is something else. -/
theorem beginsComment_commentSpan (state : CommentState) (t : Text) :
    beginsComment (commentSpan state t).2 = false := by
  fun_induction commentSpan state t with
  | case1 => rfl
  | case8 c rest hline hblock hspace =>
    have hopens : opensComment (c :: rest) = false := by
      unfold opensComment
      split
      next later heq =>
        cases heq
        exact (hline later rfl rfl).elim
      next later heq =>
        cases heq
        exact (hblock later rfl rfl).elim
      next => rfl
    rw [beginsComment, hopens, Bool.or_false]
    exact eq_false_of_ne_true hspace
  | _ => simp_all

theorem kind_first_ne_comment (h : beginsComment (c :: rest) = false) :
    (first c rest).1.kind ≠ .comment := by
  have hends := Bool.or_eq_false_iff.mp h
  unfold first
  rw [hends.1, hends.2, Bool.or_false, if_neg Bool.false_ne_true]
  split
  · intro h
    cases h
  · intro h
    cases h

end Section

namespace Text

variable {t w imports body : Text}

theorem sections_header (t : Text) :
    t.sections = headerOf (commentSpan .between t).1 ++ sections (commentSpan .between t).2 := by
  cases h : beginsComment t with
  | false => rw [commentSpan_of_not h]; rfl
  | true =>
    have hne := commentSpan_ne_nil h
    rw [sections_comment h, headerOf, if_neg (by simpa using hne), List.singleton_append]

theorem kind_of_mem_headerOf {comments : Text} {s : Section} (hs : s ∈ headerOf comments) :
    s.kind = .comment := by
  unfold headerOf at hs
  split at hs
  · cases hs
  · cases List.mem_singleton.mp hs
    rfl

/-- The comments before anything else are the first section of a text. -/
theorem span_comment (t : Text) :
    t.sections.takeWhile (·.kind = .comment) = headerOf (commentSpan .between t).1 ∧
      t.sections.dropWhile (·.kind = .comment) = sections (commentSpan .between t).2 := by
  have hheader : ∀ s ∈ headerOf (commentSpan .between t).1, decide (s.kind = .comment) = true :=
    fun s hs => decide_eq_true (kind_of_mem_headerOf hs)
  have hstops := beginsComment_commentSpan .between t
  rw [sections_header t, List.takeWhile_append_of_pos hheader, List.dropWhile_append_of_pos hheader]
  cases hleft : (commentSpan .between t).2 with
  | nil => exact ⟨List.append_nil _, rfl⟩
  | cons c rest =>
    rw [hleft] at hstops
    have hkind := kind_first_ne_comment hstops
    rw [sections_cons, List.takeWhile_cons_of_neg (by simpa using hkind),
      List.dropWhile_cons_of_neg (by simpa using hkind), List.append_nil]
    exact ⟨rfl, rfl⟩

/-- Other text behind the same comments. -/
theorem commentSpan_header_append (hleft : (commentSpan .between t).2 ≠ [])
    (hw : beginsComment w = false) :
    commentSpan .between ((commentSpan .between t).1 ++ w) = ((commentSpan .between t).1, w) := by
  rw [isComment_commentSpan hleft, commentSpan_of_not hw, List.append_nil]

/-- A source with its imports gathered behind its header. -/
def gatherImports (t : Text) : Text :=
  t.parts.header ++ closeLine t.parts.imports t.parts.body ++ t.parts.body

/-- The imports of a text as sections. -/
def importsOf (t : Text) : List Section :=
  t.sections.filter (·.kind = .imports)

theorem parts_eq (t : Text) :
    t.parts =
      ⟨(commentSpan .between t).1, (importsOf t).flatMap (·.text),
        withoutImports (commentSpan .between t).2⟩ := by
  have hheader : t.parts.header = (commentSpan .between t).1 := by
    rw [← flatMap_headerOf (commentSpan .between t).1, ← (span_comment t).1,
      ← map_snd_positioned 0 t.sections, List.takeWhile_map, List.flatMap_map]
    rfl
  have hbody := header_append_body t
  rw [withoutImports_commentSpan, hheader] at hbody
  exact Parts.ext hheader (imports_parts t) (List.append_cancel_left hbody)

/-- An import section begins with a letter. -/
theorem begins_of_isCut {s : Section} (hs : s.IsCut) (w : Text) :
    beginsComment (s.text ++ w) = false ∧ BeginsLine (s.text ++ w) := by
  obtain ⟨t, ht⟩ := hs.mark
  rw [← ht]
  refine ⟨rfl, fun c hc => ?_⟩
  cases hc
  rfl

/-- Import sections that each end a line are cut out one after another. -/
theorem sections_imports {sections : List Section} (hcut : ∀ s ∈ sections, s.IsCut)
    (hclosed : ∀ s ∈ sections, IsClosed s.text)
    (hlines : ∀ s ∈ sections, s.text.endsLine = true) (hw : BeginsLine w) :
    Text.sections (sections.flatMap (·.text) ++ w) = sections ++ w.sections := by
  induction sections with
  | nil => rfl
  | cons s rest ih =>
    obtain ⟨hs, hcut⟩ := List.forall_mem_cons.mp hcut
    obtain ⟨hsclosed, hclosed⟩ := List.forall_mem_cons.mp hclosed
    obtain ⟨hsline, hlines⟩ := List.forall_mem_cons.mp hlines
    have hnext : BeginsLine (rest.flatMap (·.text) ++ w) := by
      cases rest with
      | nil => exact hw
      | cons s' rest =>
        rw [List.flatMap_cons, List.append_assoc]
        exact (begins_of_isCut (hcut s' List.mem_cons_self) _).2
    have hcons := sections_closed hs hsclosed (List.forall_mem_nil _) hnext (Or.inl hsline)
    rw [List.nil_append, List.append_nil, ih hcut hclosed hlines] at hcons
    rw [List.flatMap_cons, List.append_assoc, hcons, ← hs.kind]
    rfl

/-- The line break that closes the line of the last import. -/
def closing (imports body : Text) : Text :=
  if imports.isEmpty || body.isEmpty || imports.endsLine then [] else ['\n']

theorem closeLine_eq (imports body : Text) :
    closeLine imports body = imports ++ closing imports body := by
  unfold closeLine closing
  split
  · exact (List.append_nil _).symm
  · rfl

theorem closing_of_ne_nil {imports body : Text} (h : closing imports body ≠ []) :
    imports.endsLine = false ∧ body ≠ [] ∧ closing imports body = ['\n'] := by
  unfold closing at h ⊢
  split at h
  · exact absurd rfl h
  next hopen =>
    rw [if_neg hopen]
    simp only [Bool.or_eq_true, not_or, Bool.not_eq_true] at hopen
    exact ⟨hopen.2, by simpa using hopen.1.2, rfl⟩

theorem closing_endsBefore (imports body : Text) (hne : imports ≠ []) :
    EndsBefore imports (closing imports body) body := by
  unfold closing EndsBefore
  split
  next h => simp_all [or_comm]
  next => simp

theorem isCut_of_mem_importsOf {s : Section} (hs : s ∈ importsOf t) : s.IsCut := by
  obtain ⟨hs, himports⟩ := List.mem_filter.mp hs
  exact isCut_of_mem_sections hs (of_decide_eq_true himports)

section Gathering

variable {front : List Section} {last : Section}

/-- Each import of a text ends a line, apart from one with which the text ends. -/
theorem endsLine_importsOf (himports : importsOf t = front ++ [last]) :
    (∀ s ∈ front, s.text.endsLine = true) ∧
      (last.text.endsLine = false → t.sections.getLast? = some last) := by
  have hkinds : ∀ s ∈ front ++ [last], s.kind = .imports := by
    rw [← himports]
    exact fun s hs => (isCut_of_mem_importsOf hs).kind
  constructor
  · intro s hs
    have hlines := (pairwise_sections t).filter (·.kind = .imports)
    change (importsOf t).Pairwise _ at hlines
    rw [himports, List.pairwise_append] at hlines
    exact hlines.2.2 s hs last (List.mem_singleton_self last)
      (hkinds s (List.mem_append_left _ hs))
  · intro hopen
    have hmem : last ∈ importsOf t := by simp [himports]
    obtain ⟨earlier, later, hsections⟩ := List.append_of_mem (List.mem_filter.mp hmem).1
    have hlines := pairwise_sections t
    rw [hsections, List.pairwise_append, List.pairwise_cons] at hlines
    cases later with
    | nil => rw [hsections, List.getLast?_concat]
    | cons s later =>
      have hends := hlines.2.1.1 s List.mem_cons_self (hkinds last (by simp))
      rw [hopen] at hends
      cases hends

theorem closing_flatMap (himports : importsOf t = front ++ [last]) (body : Text) :
    closing ((importsOf t).flatMap (·.text)) body = closing last.text body := by
  have hmem : last ∈ importsOf t := by simp [himports]
  have hne : last.text ≠ [] := (isCut_of_mem_importsOf hmem).text_ne_nil
  have hends : endsLine (front.flatMap (·.text) ++ last.text) = last.text.endsLine := by
    unfold endsLine
    rw [List.getLast?_append, List.getLast?_eq_some_getLast hne, Option.some_or]
  rw [himports, List.flatMap_append, List.flatMap_singleton, closing, closing, hends]
  simp [hne]

/-- Something stands behind the header of a source with imports. -/
theorem commentSpan_ne_nil_of_importsOf (himports : importsOf t ≠ []) :
    (commentSpan .between t).2 ≠ [] := by
  intro hnone
  refine himports (List.filter_eq_nil_iff.mpr fun s hs => ?_)
  rw [sections_header, hnone] at hs
  rcases List.mem_append.mp hs with hcomment | hother
  · simp [kind_of_mem_headerOf hcomment]
  · cases hother

theorem beginsLine_body (t : Text) : BeginsLine t.parts.body := by
  rw [parts_eq]
  exact beginsLine_withoutImports (beginsLine_of_not (beginsComment_commentSpan .between t))

/-- Behind the header of a source with imports the gathered imports begin. -/
theorem commentSpan_gatherImports (himports : importsOf t = front ++ [last]) :
    commentSpan .between (gatherImports t) =
      ((commentSpan .between t).1,
        front.flatMap (·.text) ++
          (last.text ++ (closing last.text t.parts.body ++ t.parts.body))) := by
  have hleft : (commentSpan .between t).2 ≠ [] :=
    commentSpan_ne_nil_of_importsOf (by simp [himports])
  have hwhole : gatherImports t = (commentSpan .between t).1 ++ (front.flatMap (·.text) ++
      (last.text ++ (closing last.text t.parts.body ++ t.parts.body))) := by
    rw [gatherImports, closeLine_eq, parts_eq]
    dsimp only
    rw [closing_flatMap himports, himports]
    simp
  have hcut : ∀ s ∈ front ++ [last], s.IsCut := by
    rw [← himports]
    exact fun s hs => isCut_of_mem_importsOf hs
  rw [hwhole]
  refine commentSpan_header_append hleft ?_
  cases front with
  | nil => exact (begins_of_isCut (hcut last (by simp)) _).1
  | cons s front =>
    rw [List.flatMap_cons, List.append_assoc]
    exact (begins_of_isCut (hcut s (by simp)) _).1

/-- A source whose imports are closed is cut, when they are gathered, into its header, its imports,
and the sections of its body. -/
theorem sections_gatherImports (himports : importsOf t = front ++ [last])
    (hclosed : ∀ s ∈ importsOf t, IsClosed s.text) :
    (gatherImports t).sections =
      headerOf (commentSpan .between t).1 ++
        (front ++ ⟨.imports, last.text ++ closing last.text t.parts.body⟩ ::
          t.parts.body.sections) := by
  have hcut : ∀ s ∈ importsOf t, s.IsCut := fun s hs => isCut_of_mem_importsOf hs
  rw [himports, List.forall_mem_append, List.forall_mem_singleton] at hcut hclosed
  have hbreaks : ∀ c ∈ closing last.text t.parts.body, isLineBreak c = true := by
    unfold closing
    split
    · exact List.forall_mem_nil _
    · exact List.forall_mem_singleton.mpr rfl
  have hends := closing_endsBefore last.text t.parts.body hcut.2.text_ne_nil
  rw [sections_header, commentSpan_gatherImports himports,
    sections_imports hcut.1 hclosed.1 (endsLine_importsOf himports).1
      (begins_of_isCut hcut.2 _).2,
    sections_closed hcut.2 hclosed.2 hbreaks (beginsLine_body t) hends]

/-- The body of a source holds no import. -/
theorem hasNoImports_body (t : Text) : HasNoImports t.parts.body := by
  rw [parts_eq]
  exact (staysFree_withoutImports _).alone

/-- Imports that stand together, picked out of a list of sections. -/
theorem filter_imports {header imports rest : List Section}
    (hheader : ∀ s ∈ header, s.kind ≠ .imports) (himports : ∀ s ∈ imports, s.kind = .imports)
    (hrest : ∀ s ∈ rest, s.kind ≠ .imports) :
    (header ++ (imports ++ rest)).filter (·.kind = .imports) = imports ∧
      (header ++ (imports ++ rest)).filter (·.kind ≠ .imports) = header ++ rest := by
  constructor
  · rw [List.filter_append, List.filter_append, List.filter_eq_nil_iff.mpr (by simpa using hheader),
      List.filter_eq_self.mpr (by simpa using himports),
      List.filter_eq_nil_iff.mpr (by simpa using hrest), List.nil_append, List.append_nil]
  · rw [List.filter_append, List.filter_append, List.filter_eq_self.mpr (by simpa using hheader),
      List.filter_eq_nil_iff.mpr (by simpa using himports),
      List.filter_eq_self.mpr (by simpa using hrest), List.nil_append]

/-- Gathering the closed imports of a source changes none of its parts, apart from the line break
behind the last import. -/
theorem parts_gatherImports (himports : importsOf t = front ++ [last])
    (hclosed : ∀ s ∈ importsOf t, IsClosed s.text) :
    (gatherImports t).parts =
      ⟨t.parts.header, closeLine t.parts.imports t.parts.body, t.parts.body⟩ := by
  have hkinds : ∀ s ∈ front ++ [⟨.imports, last.text ++ closing last.text t.parts.body⟩],
      s.kind = .imports := by
    rw [List.forall_mem_append, List.forall_mem_singleton]
    refine ⟨fun s hs => ?_, rfl⟩
    exact (isCut_of_mem_importsOf (t := t) (by simp [himports, hs])).kind
  have hcomments : ∀ s ∈ headerOf (commentSpan .between t).1, s.kind ≠ .imports := by
    intro s hs
    simp [kind_of_mem_headerOf hs]
  have hsections := sections_gatherImports himports hclosed
  rw [List.append_cons front] at hsections
  obtain ⟨hpicked, hothers⟩ := filter_imports hcomments hkinds (hasNoImports_body t)
  rw [← hsections] at hpicked hothers
  have hheader : (gatherImports t).parts.header = t.parts.header := by
    rw [parts_eq, commentSpan_gatherImports himports, parts_eq]
  have hgathered : (gatherImports t).parts.imports = closeLine t.parts.imports t.parts.body := by
    rw [imports_parts, hpicked, closeLine_eq, imports_parts, ← importsOf, closing_flatMap himports,
      himports]
    simp
  have hbody : (gatherImports t).parts.body = t.parts.body := by
    have hwhole := header_append_body (gatherImports t)
    rw [withoutImports, hothers, List.flatMap_append, flatMap_headerOf, flatMap_sections,
      hheader] at hwhole
    rw [parts_eq t] at hwhole ⊢
    exact List.append_cancel_left hwhole
  exact Parts.ext hheader hgathered hbody

end Gathering

/-- Closing a line that is closed changes nothing. -/
theorem closeLine_closeLine (imports body : Text) :
    closeLine (closeLine imports body) body = closeLine imports body := by
  unfold closeLine
  split
  next => rfl
  next => rw [if_pos (by simp [endsLine, isLineBreak])]

theorem hasNoImports_of_importsOf (hnone : importsOf t = []) : t.HasNoImports := by
  intro s hs himports
  have hmem : s ∈ importsOf t := List.mem_filter.mpr ⟨hs, decide_eq_true himports⟩
  rw [hnone] at hmem
  cases hmem

theorem gatherImports_eq_self (hnone : importsOf t = []) : gatherImports t = t := by
  have hfree := hasNoImports_of_importsOf hnone
  rw [gatherImports, imports_parts, ← importsOf, hnone]
  simp [closeLine, header_append_body, withoutImports_eq_self hfree]

/-- Gathering closed imports once more changes nothing. -/
theorem gatherImports_gatherImports (hclosed : ∀ s ∈ importsOf t, IsClosed s.text) :
    gatherImports (gatherImports t) = gatherImports t := by
  rcases List.eq_nil_or_concat (importsOf t) with hnone | ⟨front, last, himports⟩
  · rw [gatherImports_eq_self hnone, gatherImports_eq_self hnone]
  · rw [List.concat_eq_append] at himports
    conv => lhs; rw [gatherImports, parts_gatherImports himports hclosed]
    dsimp only
    rw [closeLine_closeLine, gatherImports]

end Text

end Disentangle
