import Disentangle.Proofs.Section.Leading

/-!
A source with its imports moved to its top, and moved there once more. Each import that something
follows is closed, so it is cut out of the new text as it was cut out of the old one. Only an import
with which the source ends may be open. In front of the rest its scanner goes on into code and
comments, and what it leaves begins in the middle of them: an import that nothing but a literal or a
comment held is now an import of the source.
-/

namespace Disentangle

namespace Section

variable {c : Char} {t rest : Text} {state : ImportState} {depth : Int}

theorem isClosedAt_importStep_break (hbreak : isLineBreak c = true)
    (hclosed : isClosedAt (state, depth) = true) :
    isClosedAt (importStep state depth c) = true := by
  cases state with
  | plain => rwa [importStep_plain_break hbreak]
  | inLine =>
    rw [importStep, if_pos hbreak]
    exact hclosed
  | inLiteral | inBlock => cases hclosed

/-- Line breaks leave the scanner of imports outside of literals, block comments and braces. -/
theorem isClosedAt_importStop_breaks (hbreaks : ∀ c ∈ t, isLineBreak c = true)
    (hclosed : isClosedAt (state, depth) = true) :
    isClosedAt (importStop state depth t) = true := by
  fun_induction importStop state depth t with
  | case1 => exact hclosed
  | case2 state depth c =>
    exact isClosedAt_importStep_break (hbreaks c List.mem_cons_self) hclosed
  | case3 state depth c d rest state' hpair ih =>
    rw [pair?_of_break (Or.inl (hbreaks c List.mem_cons_self))] at hpair
    cases hpair
  | case4 state depth c d rest hpair ih =>
    obtain ⟨hc, hrest⟩ := List.forall_mem_cons.mp hbreaks
    exact ih hrest (isClosedAt_importStep_break hc hclosed)

/-- The scanner of imports takes the next character. -/
theorem exists_importSpan_cons (state : ImportState) (depth : Int) (c : Char) (rest : Text) :
    ∃ taken, (importSpan state depth (c :: rest)).1 = c :: taken := by
  have hne : (importSpan state depth (c :: rest)).1 ≠ [] :=
    importSpan_ne_nil (List.cons_ne_nil c rest)
  obtain ⟨d, taken, htaken⟩ := List.exists_cons_of_ne_nil hne
  have hwhole := importSpan_append state depth (c :: rest)
  rw [htaken, List.cons_append] at hwhole
  exact ⟨taken, by rw [htaken, (List.cons.inj hwhole).1]⟩

/-- The scanner of imports stops only outside of literals, block comments and braces. -/
theorem isClosedAt_importSpan (state : ImportState) (depth : Int) (t : Text)
    (hleft : (importSpan state depth t).2 ≠ []) :
    isClosedAt (importStop state depth (importSpan state depth t).1) = true := by
  fun_induction importStop state depth t with
  | case1 => exact absurd rfl hleft
  | case2 state depth c =>
    refine absurd ?_ hleft
    obtain ⟨taken, htaken⟩ := exists_importSpan_cons state depth c []
    have hwhole := importSpan_append state depth [c]
    rw [htaken, List.cons_append] at hwhole
    exact (List.append_eq_nil_iff.mp (List.cons.inj hwhole).2).2
  | case3 state depth c d rest state' hpair ih =>
    rw [importSpan_pair hpair] at hleft ⊢
    rw [importStop, hpair]
    exact ih hleft
  | case4 state depth c d rest hpair ih =>
    by_cases hstops : isLineBreak c = true ∧ isClosedAt (state, depth) = true
    · rw [importSpan_stop hstops.1 hstops.2]
      exact isClosedAt_importStop_breaks (fun d hd => List.mem_takeWhile_imp hd) hstops.2
    · have hopen : isLineBreak c = true → isClosedAt (state, depth) = false :=
        fun hbreak => eq_false_of_ne_true fun hclosed => hstops ⟨hbreak, hclosed⟩
      have hnext : ∀ e ∈ (d :: rest).head?, state.pair? c e = none := by
        rintro e he
        cases he
        exact hpair
      obtain ⟨taken, htaken⟩ := exists_importSpan_cons (importStep state depth c).1
        (importStep state depth c).2 d rest
      rw [importSpan_step hnext hopen] at hleft ⊢
      have hstop := ih hleft
      rw [htaken] at hstop ⊢
      rw [importStop, hpair]
      exact hstop

end Section

namespace Text

open Section

variable {t : Text} {front : List Section} {last : Section}

theorem exists_importsOf_concat (h : importsOf t ≠ []) :
    ∃ front last, importsOf t = front ++ [last] := by
  obtain ⟨front, last, himports⟩ := (List.eq_nil_or_concat (importsOf t)).resolve_left h
  exact ⟨front, last, by rw [himports, List.concat_eq_append]⟩

/-- Only the last section of a text can be an import that is not closed. -/
theorem pairwise_isClosed (t : Text) :
    t.sections.Pairwise fun s _ => s.kind = .imports → Section.IsClosed s.text := by
  refine pairwise_sections_of_first (fun c rest hleft himports => ?_) t
  rw [(first_imports himports).2] at hleft ⊢
  exact isClosedAt_importSpan .plain 0 (c :: rest) hleft

/-- A text that begins with an import is that import and what its scanner leaves. -/
theorem sections_of_importMark (hmark : importMark <+: t) :
    t.sections =
      ⟨.imports, (importSpan .plain 0 t).1⟩ :: sections (importSpan .plain 0 t).2 := by
  cases t with
  | nil => exact absurd (List.prefix_nil.mp hmark) (by decide)
  | cons c rest =>
    have hkind := kind_first_of_importMark (List.isPrefixOf_iff_prefix.mpr hmark)
    rw [sections_cons, (first_imports hkind).2]

theorem hoistImports_eq (t : Text) :
    t.hoistImports =
      closeLine ((importsOf t).flatMap (·.text)) t.withoutImports ++ t.withoutImports := by
  simp [hoistImports, importsOf, withoutImports]

/-- Nothing comes in with the imports but line breaks. -/
theorem mem_hoistImports {c : Char} (h : c ∈ t.hoistImports) : c ∈ t ∨ c = '\n' := by
  have hsections : ∀ s ∈ t.sections, c ∈ s.text → c ∈ t := by
    intro s hs hc
    rw [← flatMap_sections t]
    exact List.mem_flatMap_of_mem hs hc
  rw [hoistImports_eq, closeLine_eq] at h
  rcases List.mem_append.mp h with himports | hrest
  · rcases List.mem_append.mp himports with hkept | hclosing
    · obtain ⟨s, hs, hc⟩ := List.mem_flatMap.mp hkept
      exact .inl (hsections s (List.mem_filter.mp hs).1 hc)
    · rw [(closing_of_ne_nil (List.ne_nil_of_mem hclosing)).2.2] at hclosing
      exact .inr (List.mem_singleton.mp hclosing)
  · obtain ⟨s, hs, hc⟩ := List.mem_flatMap.mp hrest
    exact .inl (hsections s (List.mem_filter.mp hs).1 hc)

/-- What is left of a source when its last import has come to stand in front of all else and its
scanner has gone on from there. -/
def leftBehindImports (t : Text) : Text :=
  match (importsOf t).getLast? with
  | none => []
  | some last => (importSpan .plain 0 (closeLine last.text t.withoutImports ++ t.withoutImports)).2

theorem hoistImports_of_importsOf (himports : importsOf t = front ++ [last]) :
    t.hoistImports =
      front.flatMap (·.text) ++ (closeLine last.text t.withoutImports ++ t.withoutImports) := by
  rw [hoistImports_eq, closeLine_eq, closeLine_eq, closing_flatMap himports, himports]
  simp

/-- A source with its imports on top begins with these imports, and only the last of them may go on
farther than it did. -/
theorem sections_hoistImports (himports : importsOf t = front ++ [last]) :
    ∃ taken, t.hoistImports.sections =
      front ++ ⟨.imports, taken⟩ :: sections t.leftBehindImports := by
  have hcut : ∀ s ∈ front ++ [last], s.IsCut := by
    rw [← himports]
    exact fun s hs => isCut_of_mem_importsOf hs
  obtain ⟨hcuts, hlast⟩ := List.forall_mem_append.mp hcut
  have hlast := hlast last (List.mem_singleton_self last)
  have hclosed : ∀ s ∈ front, IsClosed s.text := by
    have hpairs := (pairwise_isClosed t).filter (·.kind = .imports)
    change (importsOf t).Pairwise _ at hpairs
    rw [himports, List.pairwise_append] at hpairs
    exact fun s hs => hpairs.2.2 s hs last (List.mem_singleton_self last) (hcuts s hs).kind
  have hmark : importMark <+: closeLine last.text t.withoutImports ++ t.withoutImports := by
    rw [closeLine_eq, List.append_assoc]
    exact hlast.mark.trans (List.prefix_append _ _)
  have hbegins : BeginsLine (closeLine last.text t.withoutImports ++ t.withoutImports) := by
    rw [closeLine_eq, List.append_assoc]
    exact (begins_of_isCut hlast _).2
  have hleft : t.leftBehindImports =
      (importSpan .plain 0 (closeLine last.text t.withoutImports ++ t.withoutImports)).2 := by
    rw [leftBehindImports, himports, List.getLast?_concat]
  have hsections := sections_imports hcuts hclosed (endsLine_importsOf himports).1 hbegins
  rw [sections_of_importMark hmark, ← hleft] at hsections
  exact ⟨_, hoistImports_of_importsOf himports ▸ hsections⟩

/-- Behind imports that lead no line break is missing. -/
theorem closing_eq_nil_of_importsLead (hlead : ImportsLead t.sections) :
    closing ((importsOf t).flatMap (·.text)) t.withoutImports = [] := by
  by_contra hne
  obtain ⟨hopen, hrest, -⟩ := closing_of_ne_nil hne
  obtain ⟨front, last, himports⟩ := exists_importsOf_concat (t := t) fun hnone => hne (by
    rw [hnone]
    rfl)
  -- The last import does not end its line, so the text ends with it.
  have hlast : t.sections.getLast? = some last := by
    rw [closing_flatMap himports] at hne
    exact (endsLine_importsOf himports).2 (closing_of_ne_nil hne).1
  obtain ⟨earlier, hsections⟩ := List.getLast?_eq_some_iff.mp hlast
  have hkind : last.kind = .imports :=
    (isCut_of_mem_importsOf (t := t) (by simp [himports])).kind
  have hall : ∀ s ∈ t.sections, s.kind = .imports := by
    rw [ImportsLead, hsections, List.pairwise_append] at hlead
    rw [hsections, List.forall_mem_append]
    exact ⟨fun s hs => hlead.2.2 s hs last (List.mem_singleton_self last) hkind, by simpa⟩
  refine hrest ?_
  rw [withoutImports, List.filter_eq_nil_iff.mpr fun s hs => by simp [hall s hs]]
  rfl

/-- Nothing of a text is lost between its imports and what it is without them. -/
theorem length_imports_append (t : Text) :
    ((importsOf t).flatMap (·.text) ++ t.withoutImports).length = t.length := by
  have hlength := length_parts t
  have hheader := header_append_body t
  rw [← hheader, List.length_append, List.length_append, importsOf, ← imports_parts]
  omega

/-- A source stays as it is when its imports are moved to its top exactly if they lead. -/
theorem hoistImports_eq_self_iff (t : Text) : t.hoistImports = t ↔ ImportsLead t.sections := by
  have hclosing : t.hoistImports = t ∨ ImportsLead t.sections →
      closing ((importsOf t).flatMap (·.text)) t.withoutImports = [] := by
    rintro (hsame | hlead)
    · have hlength := congrArg List.length hsame
      rw [hoistImports_eq, closeLine_eq, ← length_imports_append t] at hlength
      simp only [List.length_append] at hlength
      exact List.length_eq_zero_iff.mp (by omega)
    · exact closing_eq_nil_of_importsLead hlead
  rw [← imports_append_withoutImports_eq_iff] at hclosing ⊢
  constructor
  · intro hsame
    have hnone := hclosing (Or.inl hsame)
    rwa [hoistImports_eq, closeLine_eq, hnone, List.append_nil] at hsame
  · intro hlead
    rwa [hoistImports_eq, closeLine_eq, hclosing (Or.inr hlead), List.append_nil]

/-- To move the imports of a source to its top once more leaves it as it is exactly if, behind what
the last import has taken in of the rest, no import stands behind something else. -/
theorem hoistImports_again_iff (t : Text) :
    t.hoistImports.hoistImports = t.hoistImports ↔
      ImportsLead (sections t.leftBehindImports) := by
  rw [hoistImports_eq_self_iff]
  by_cases hnone : importsOf t = []
  · have hfree := importsOf_eq_nil_iff.mp hnone
    have hsame : t.hoistImports = t := by
      rw [hoistImports_eq_self_iff]
      exact importsLead_of_forall_ne hfree
    rw [hsame, leftBehindImports, hnone]
    exact iff_of_true (importsLead_of_forall_ne hfree) .nil
  · obtain ⟨front, last, himports⟩ := exists_importsOf_concat hnone
    obtain ⟨taken, hsections⟩ := sections_hoistImports himports
    have hkinds : ∀ s ∈ front, s.kind = .imports := fun s hs =>
      (isCut_of_mem_importsOf (t := t) (by simp [himports, hs])).kind
    rw [hsections, importsLead_append_of_imports hkinds, importsLead_cons_of_imports rfl]

/-- Line breaks are comments. -/
theorem isComment_of_breaks {breaks : Text} (hbreaks : ∀ c ∈ breaks, isLineBreak c = true) :
    IsComment breaks := by
  induction breaks with
  | nil => exact isComment_nil
  | cons c breaks ih =>
    obtain ⟨hc, hbreaks⟩ := List.forall_mem_cons.mp hbreaks
    have hspace : isSpace c = true := by
      simp only [isLineBreak, Bool.or_eq_true, decide_eq_true_eq] at hc
      rcases hc with rfl | rfl <;> rfl
    intro rest
    rw [List.cons_append, commentSpan_space hspace, ih hbreaks rest]
    rfl

/-- A closed import takes nothing of the rest but line breaks, so it leaves no import. -/
theorem hasNoImports_leftBehindImports (himports : importsOf t = front ++ [last])
    (hclosed : IsClosed last.text) : HasNoImports t.leftBehindImports := by
  have hlast : last.IsCut := isCut_of_mem_importsOf (t := t) (by simp [himports])
  obtain ⟨breaks, behind, hrest, hbreaks, hbehind⟩ : ∃ breaks behind,
      t.withoutImports = breaks ++ behind ∧ (∀ c ∈ breaks, isLineBreak c = true) ∧
        BeginsLine behind :=
    ⟨_, _, List.takeWhile_append_dropWhile.symm, fun c hc => List.mem_takeWhile_imp hc,
      beginsLine_breakSpan t.withoutImports⟩
  have hfree : HasNoImports behind := by
    have hwhole : importSectionsFrom 0 t.withoutImports = [] :=
      importSectionsFrom_eq_nil_iff.mpr (staysFree_withoutImports t).alone
    rwa [hrest, importSectionsFrom_comment (isComment_of_breaks hbreaks),
      importSectionsFrom_eq_nil_iff] at hwhole
  have hlines : ∀ c ∈ closing last.text t.withoutImports ++ breaks, isLineBreak c = true := by
    rw [List.forall_mem_append]
    refine ⟨fun c hc => ?_, hbreaks⟩
    rw [(closing_of_ne_nil (List.ne_nil_of_mem hc)).2.2] at hc
    rw [List.mem_singleton.mp hc]
    rfl
  have hends : EndsBefore last.text (closing last.text t.withoutImports ++ breaks) behind := by
    refine (closing_endsBefore last.text t.withoutImports hlast.text_ne_nil).imp_right ?_
    rintro (hclosing | hnone)
    · exact Or.inl (List.append_ne_nil_of_left_ne_nil hclosing breaks)
    · exact Or.inr (List.append_eq_nil_iff.mp (hrest.symm.trans hnone)).2
  have hsections := sections_closed hlast hclosed hlines hbehind hends
  have hwhole : last.text ++ (closing last.text t.withoutImports ++ breaks ++ behind) =
      closeLine last.text t.withoutImports ++ t.withoutImports := by
    rw [closeLine_eq, List.append_assoc, List.append_assoc, ← hrest]
  have hmark : importMark <+: closeLine last.text t.withoutImports ++ t.withoutImports :=
    hwhole ▸ hlast.mark.trans (List.prefix_append _ _)
  rw [hwhole, sections_of_importMark hmark] at hsections
  rw [leftBehindImports, himports, List.getLast?_concat, HasNoImports,
    (List.cons.inj hsections).2]
  exact hfree

/-- The imports of a source stay on top of it if it does not end with an import that is open. -/
theorem hoistImports_again_of_closed
    (hclosed : ∀ s ∈ t.sections.getLast?, s.kind = .imports → IsClosed s.text) :
    t.hoistImports.hoistImports = t.hoistImports := by
  rw [hoistImports_again_iff]
  by_cases hnone : importsOf t = []
  · rw [leftBehindImports, hnone]
    exact .nil
  obtain ⟨front, last, himports⟩ := exists_importsOf_concat hnone
  refine importsLead_of_forall_ne (hasNoImports_leftBehindImports himports ?_)
  have hmem : last ∈ importsOf t := by simp [himports]
  have hkind := (isCut_of_mem_importsOf hmem).kind
  obtain ⟨earlier, later, hsections⟩ := List.append_of_mem (List.mem_filter.mp hmem).1
  rcases List.eq_nil_or_concat later with rfl | ⟨more, s, rfl⟩
  · exact hclosed last (by rw [hsections, List.getLast?_concat]; rfl) hkind
  · have hpairs := pairwise_isClosed t
    rw [hsections, List.pairwise_append, List.pairwise_cons] at hpairs
    exact hpairs.2.1.1 s (by simp) hkind

end Text

end Disentangle
