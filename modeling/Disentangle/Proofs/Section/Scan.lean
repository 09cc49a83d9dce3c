import Disentangle.Section.Parts
import Mathlib.Data.List.TakeWhile

/-!
The sections of a text. Each scanner cuts a text in two, so the sections of a text are the text,
cut into pieces. A text that begins with whole comments or with the whole line of an import
statement begins with these as sections, whatever follows.
-/

namespace Disentangle

namespace Section

variable {c : Char} {n m start : Nat} {t u rest : Text}

theorem commentSpan_append (state : CommentState) (t : Text) :
    (commentSpan state t).1 ++ (commentSpan state t).2 = t := by
  fun_induction commentSpan state t <;> simp_all

theorem codeSpan_append (literal : Option Literal) (atLineStart : Bool) (t : Text) :
    (codeSpan literal atLineStart t).1 ++ (codeSpan literal atLineStart t).2 = t := by
  fun_induction codeSpan literal atLineStart t <;> simp_all

theorem importSpan_append (state : ImportState) (depth : Int) (t : Text) :
    (importSpan state depth t).1 ++ (importSpan state depth t).2 = t := by
  fun_induction importSpan state depth t with
  | case9 state => cases state <;> simp_all
  | _ => simp_all [breakSpan]

/-- Whether a section of comments begins here. -/
def beginsComment (t : Text) : Bool :=
  match t with
  | [] => false
  | c :: rest => isSpace c || opensComment (c :: rest)

theorem commentSpan_ne_nil (h : beginsComment t = true) : (commentSpan .between t).1 ≠ [] := by
  unfold beginsComment at h
  split at h
  · cases h
  next c rest =>
    by_cases hopens : opensComment (c :: rest) = true
    · unfold opensComment at hopens
      split at hopens
      next heq =>
        cases heq
        simp [commentSpan]
      next heq =>
        cases heq
        simp [commentSpan]
      next => cases hopens
    · rw [Bool.or_eq_true, or_iff_left hopens] at h
      rw [commentSpan.eq_7]
      · simp [h]
      · rintro later rfl rfl
        exact hopens rfl
      · rintro later rfl rfl
        exact hopens rfl

theorem commentSpan_of_not (h : beginsComment t = false) : commentSpan .between t = ([], t) := by
  unfold beginsComment at h
  split at h
  · rfl
  next c rest =>
    rw [Bool.or_eq_false_iff] at h
    rw [commentSpan.eq_7]
    · rw [if_neg (by simp [h.1])]
    · rintro later rfl rfl
      exact absurd h.2 (by simp [opensComment])
    · rintro later rfl rfl
      exact absurd h.2 (by simp [opensComment])

theorem first_append (c : Char) (rest : Text) :
    (first c rest).1.text ++ (first c rest).2 = c :: rest := by
  unfold first
  split
  · exact commentSpan_append .between (c :: rest)
  split
  · exact congrArg (c :: ·) (importSpan_append .plain 0 rest)
  · exact congrArg (c :: ·) (codeSpan_append (literalAt? c) (isLineBreak c) rest)

theorem first_text_ne_nil (c : Char) (rest : Text) : (first c rest).1.text ≠ [] := by
  unfold first
  split
  next h => exact commentSpan_ne_nil h
  split
  · exact List.cons_ne_nil _ _
  · exact List.cons_ne_nil _ _

theorem length_first_lt (c : Char) (rest : Text) :
    (first c rest).2.length < (c :: rest).length := by
  have hlength := congrArg List.length (first_append c rest)
  have hpos := List.length_pos_iff.mpr (first_text_ne_nil c rest)
  rw [List.length_append] at hlength
  omega

theorem cut_fuel (hn : t.length ≤ n) (hm : t.length ≤ m) : cut n t = cut m t := by
  induction n generalizing m t with
  | zero =>
    rw [List.length_eq_zero_iff.mp (Nat.le_zero.mp hn)]
    cases m <;> rfl
  | succ n ih =>
    match t, m, hm with
    | [], 0, _ | [], _ + 1, _ => rfl
    | c :: rest, m + 1, hm =>
      have hlt := length_first_lt c rest
      rw [cut, cut]
      dsimp only
      rw [ih (m := m) (by omega) (by omega)]

/-- Blanks and whole comments. -/
def IsComment (t : Text) : Prop :=
  ∀ rest, commentSpan .between (t ++ rest) =
    (t ++ (commentSpan .between rest).1, (commentSpan .between rest).2)

/-- A text that begins with no line break. -/
def BeginsLine (t : Text) : Prop :=
  ∀ c ∈ t.head?, isLineBreak c = false

/-- A text with which a section of imports ends. -/
def IsImportLine (t : Text) : Prop :=
  ∀ rest, BeginsLine rest → importSpan .plain 0 (t ++ rest) = (t, rest)

theorem isComment_nil : IsComment [] := fun _ => rfl

theorem IsComment.append (ht : IsComment t) (hu : IsComment u) : IsComment (t ++ u) := by
  intro rest
  rw [List.append_assoc, ht, hu, List.append_assoc]

/-- In an import statement the scanner passes over the text; between its beginning and its end the
number of open braces goes from `depth` to `depth'`. -/
def Passes (depth : Int) (t : Text) (depth' : Int) : Prop :=
  ∀ rest, importSpan .plain depth (t ++ rest) =
    (t ++ (importSpan .plain depth' rest).1, (importSpan .plain depth' rest).2)

/-- A character that neither ends a line nor opens or closes anything. -/
def isInner (c : Char) : Bool :=
  !isLineBreak c && !isQuote c && c ≠ '/' && c ≠ '{' && c ≠ '}'

section Passing

variable {depth depth' depth'' : Int} {quote : Char}

theorem Passes.append (ht : Passes depth t depth') (hu : Passes depth' u depth'') :
    Passes depth (t ++ u) depth'' := by
  intro rest
  rw [List.append_assoc, ht, hu, List.append_assoc]

theorem Passes.isImportLine (ht : Passes 0 t 0) (hu : IsImportLine u) : IsImportLine (t ++ u) := by
  intro rest hrest
  rw [List.append_assoc, ht, hu rest hrest]

theorem importSpan_plain (hbreak : isLineBreak c = false) (hslash : c ≠ '/') :
    importSpan .plain depth (c :: rest) =
      (c :: (importSpan (if isQuote c then .inLiteral ⟨c, false⟩ else .plain)
          (if c = '{' then depth + 1 else if c = '}' then depth - 1 else depth) rest).1,
        (importSpan (if isQuote c then .inLiteral ⟨c, false⟩ else .plain)
          (if c = '{' then depth + 1 else if c = '}' then depth - 1 else depth) rest).2) := by
  rw [importSpan.eq_8 _ _ _ _ (by simp) (by simp) (by simp) (by simp [hslash]) (by simp [hslash])
    (by simp), if_neg (by simp [hbreak])]

theorem passes_inner (h : ∀ c ∈ t, isInner c = true) : Passes depth t depth := by
  induction t with
  | nil => exact fun _ => rfl
  | cons c t ih =>
    obtain ⟨hc, ht⟩ := List.forall_mem_cons.mp h
    simp only [isInner, Bool.and_eq_true, Bool.not_eq_true', decide_eq_true_eq] at hc
    obtain ⟨⟨⟨⟨hbreak, hquote⟩, hslash⟩, hopen⟩, hclose⟩ := hc
    intro rest
    rw [List.cons_append, importSpan_plain hbreak hslash, if_neg hopen, if_neg hclose, hquote]
    rw [if_neg Bool.false_ne_true, ih ht]
    rfl

theorem passes_open : Passes depth ['{'] (depth + 1) := by
  intro rest
  rw [List.singleton_append, importSpan_plain (by decide) (by decide)]
  rfl

theorem passes_close : Passes depth ['}'] (depth - 1) := by
  intro rest
  rw [List.singleton_append, importSpan_plain (by decide) (by decide)]
  rfl

theorem importSpan_inLiteral (hquote : isQuote quote = true)
    (ht : ∀ c ∈ t, c ≠ quote ∧ c ≠ '\\') :
    importSpan (.inLiteral ⟨quote, false⟩) depth (t ++ quote :: rest) =
      (t ++ quote :: (importSpan .plain depth rest).1, (importSpan .plain depth rest).2) := by
  induction t with
  | nil =>
    have hstep : Literal.step ⟨quote, false⟩ quote = none := by
      have hescape : quote ≠ '\\' := by
        rintro rfl
        exact absurd hquote (by decide)
      simp [Literal.step, hescape]
    rw [List.nil_append, importSpan, hstep]
    rfl
  | cons c t ih =>
    obtain ⟨⟨hother, hescape⟩, ht⟩ := List.forall_mem_cons.mp ht
    have hstep : Literal.step ⟨quote, false⟩ c = some ⟨quote, false⟩ := by
      simp [Literal.step, hother, hescape]
    rw [List.cons_append, importSpan, hstep, ih ht]
    rfl

theorem passes_literal (hquote : isQuote quote = true) (ht : ∀ c ∈ t, c ≠ quote ∧ c ≠ '\\') :
    Passes depth (quote :: t ++ [quote]) depth := by
  intro rest
  have hplain : isLineBreak quote = false ∧ quote ≠ '/' ∧ quote ≠ '\x7b' ∧ quote ≠ '\x7d' := by
    simp only [isQuote, Bool.or_eq_true, decide_eq_true_eq] at hquote
    rcases hquote with (rfl | rfl) | rfl <;> decide
  obtain ⟨hbreak, hslash, hopen, hclose⟩ := hplain
  rw [List.append_assoc, List.cons_append, List.singleton_append, importSpan_plain hbreak hslash,
    if_pos hquote, if_neg hopen, if_neg hclose, importSpan_inLiteral hquote ht]
  simp

end Passing

theorem endsLine_append (hu : u.endsLine = true) : Text.endsLine (t ++ u) = true := by
  unfold Text.endsLine at hu ⊢
  rw [List.getLast?_append]
  cases hlast : u.getLast? with
  | none =>
    rw [hlast] at hu
    cases hu
  | some c =>
    rw [hlast] at hu
    exact hu

theorem endsLine_of_forall (hne : t ≠ []) (h : ∀ c ∈ t, isLineBreak c = true) :
    t.endsLine = true := by
  unfold Text.endsLine
  rw [List.getLast?_eq_some_getLast hne]
  exact h _ (List.getLast_mem hne)

/-- A section of imports that something follows ends a line. -/
theorem importSpan_endsLine (state : ImportState) (depth : Int) (t : Text)
    (h : (importSpan state depth t).2 ≠ []) : (importSpan state depth t).1.endsLine = true := by
  fun_induction importSpan state depth t with
  | case1 => exact absurd rfl h
  | case2 literal depth c rest passed left heq ih | case4 depth c rest _ passed left heq ih =>
    rw [heq] at ih
    exact endsLine_append (t := [c]) (ih h)
  | case3 depth rest passed left heq ih =>
    rw [heq] at ih
    exact endsLine_append (t := ['*', '/']) (ih h)
  | case5 depth rest passed left heq ih =>
    rw [heq] at ih
    exact endsLine_append (t := ['/', '/']) (ih h)
  | case6 depth rest passed left heq ih =>
    rw [heq] at ih
    exact endsLine_append (t := ['/', '*']) (ih h)
  | case7 state depth c rest _ _ _ _ _ hbreak =>
    exact endsLine_of_forall (by simp [breakSpan, hbreak]) fun d hd => List.mem_takeWhile_imp hd
  | case8 state depth c rest _ _ _ _ _ _ _ passed left heq ih =>
    rw [heq] at ih
    exact endsLine_append (t := [c]) (ih h)
  | case9 state depth c rest _ _ _ _ _ _ passed left heq ihLine ihPlain =>
    refine endsLine_append (t := [c]) ?_
    cases state with
    | inLine =>
      dsimp only at heq
      rw [heq] at ihLine
      exact ihLine h
    | _ =>
      dsimp only at heq
      rw [heq] at ihPlain
      exact ihPlain h

theorem IsImportLine.endsLine (h : IsImportLine t) : t.endsLine = true := by
  have hspan := h ['x'] (by intro c hc; cases hc; rfl)
  have hends := importSpan_endsLine .plain 0 (t ++ ['x'])
  rw [hspan] at hends
  exact hends (List.cons_ne_nil _ _)

end Section

/-- The comments at the front of a text hold none of its import sections. -/
theorem Parts.filter_imports_dropWhile_comment (sections : List (Nat × Section)) :
    (sections.dropWhile (·.2.kind = .comment)).filter (·.2.kind = .imports) =
      sections.filter (·.2.kind = .imports) := by
  induction sections with
  | nil => rfl
  | cons s rest ih =>
    rw [List.dropWhile_cons]
    split
    next hcomment =>
      have hkind : s.2.kind = .comment := of_decide_eq_true hcomment
      rw [ih, List.filter_cons_of_neg (by simp [hkind])]
    next => rfl

namespace Text

open Section

variable {c : Char} {start : Nat} {t rest : Text}

theorem sections_cons (c : Char) (rest : Text) :
    sections (c :: rest) = (first c rest).1 :: sections (first c rest).2 := by
  have hlt := length_first_lt c rest
  unfold sections
  rw [List.length_cons, cut]
  exact congrArg (List.cons _) (cut_fuel (Nat.le_of_lt_succ hlt) (Nat.le_refl _))

/-- Induction over the sections of a text, from what its first section leaves to the whole. -/
@[elab_as_elim]
theorem sections_induction {motive : Text → Prop} (nil : motive [])
    (cons : ∀ c rest, motive (first c rest).2 → motive (c :: rest)) (t : Text) : motive t := by
  generalize hn : t.length = n
  induction n using Nat.strongRecOn generalizing t with
  | ind n ih =>
    cases t with
    | nil => exact nil
    | cons c rest => exact cons c rest (ih _ (hn ▸ length_first_lt c rest) _ rfl)

/-- What holds of a section wherever it is the first one holds of all sections of a text. -/
theorem forall_mem_sections {P : Section → Prop} (hfirst : ∀ c rest, P (first c rest).1)
    (t : Text) : ∀ s ∈ t.sections, P s := by
  induction t using sections_induction with
  | nil =>
    intro s hs
    cases hs
  | cons c rest ih =>
    rw [sections_cons]
    exact List.forall_mem_cons.mpr ⟨hfirst c rest, ih⟩

/-- What holds of a first section that leaves something holds of all sections but the last. -/
theorem pairwise_sections_of_first {P : Section → Prop}
    (hfirst : ∀ c rest, (first c rest).2 ≠ [] → P (first c rest).1) (t : Text) :
    t.sections.Pairwise fun s _ => P s := by
  induction t using sections_induction with
  | nil => exact .nil
  | cons c rest ih =>
    rw [sections_cons]
    refine .cons (fun later hlater => hfirst c rest ?_) ih
    intro hnone
    rw [hnone] at hlater
    cases hlater

/-- The sections of a text are the text. -/
theorem flatMap_sections (t : Text) : t.sections.flatMap (·.text) = t := by
  induction t using sections_induction with
  | nil => rfl
  | cons c rest ih => rw [sections_cons, List.flatMap_cons, ih, first_append]

/-- The import sections of a text that begins after `start` characters. -/
def importSectionsFrom (start : Nat) (t : Text) : List (Nat × Section) :=
  (positioned start t.sections).filter (·.2.kind = .imports)

/-- What is left of a text without its import sections. -/
def withoutImports (t : Text) : Text :=
  (t.sections.filter (·.kind ≠ .imports)).flatMap (·.text)

theorem sections_comment (h : beginsComment t = true) :
    t.sections = ⟨.comment, (commentSpan .between t).1⟩ ::
      sections (commentSpan .between t).2 := by
  cases t with
  | nil => cases h
  | cons c rest =>
    have hfirst : first c rest = (⟨.comment, (commentSpan .between (c :: rest)).1⟩,
        (commentSpan .between (c :: rest)).2) := if_pos h
    rw [sections_cons, hfirst]

/-- Comments at the front of a text hold no import. -/
theorem importSectionsFrom_commentSpan (start : Nat) (t : Text) :
    importSectionsFrom start t =
      importSectionsFrom (start + (commentSpan .between t).1.length)
        (commentSpan .between t).2 := by
  cases h : beginsComment t with
  | false => rw [commentSpan_of_not h, List.length_nil, Nat.add_zero]
  | true =>
    unfold importSectionsFrom
    rw [sections_comment h, positioned, List.filter_cons_of_neg (by simp)]

theorem withoutImports_commentSpan (t : Text) :
    t.withoutImports =
      (commentSpan .between t).1 ++ withoutImports (commentSpan .between t).2 := by
  cases h : beginsComment t with
  | false => rw [commentSpan_of_not h, List.nil_append]
  | true =>
    unfold withoutImports
    rw [sections_comment h, List.filter_cons_of_pos (by simp), List.flatMap_cons]

theorem importSectionsFrom_comment (h : IsComment t) (start : Nat) (rest : Text) :
    importSectionsFrom start (t ++ rest) = importSectionsFrom (start + t.length) rest := by
  rw [importSectionsFrom_commentSpan, h, importSectionsFrom_commentSpan (start + t.length) rest,
    List.length_append, Nat.add_assoc]

theorem withoutImports_comment (h : IsComment t) (rest : Text) :
    withoutImports (t ++ rest) = t ++ rest.withoutImports := by
  rw [withoutImports_commentSpan, h, withoutImports_commentSpan rest, List.append_assoc]

/-- Where the scanner of imports takes a text that begins with an import, that text is a section. -/
theorem sections_of_importSpan (hmark : importMark <+: t)
    (hspan : importSpan .plain 0 (t ++ rest) = (t, rest)) :
    sections (t ++ rest) = ⟨.imports, t⟩ :: rest.sections := by
  obtain ⟨t, rfl⟩ := hmark
  change importSpan .plain 0 ('i' :: ("mport ".toList ++ t ++ rest)) =
    ('i' :: ("mport ".toList ++ t), rest) at hspan
  rw [importSpan_plain (by decide) (by decide)] at hspan
  have hrest : importSpan .plain 0 ("mport ".toList ++ t ++ rest) = ("mport ".toList ++ t, rest) :=
    Prod.ext (List.cons.inj (Prod.mk.inj hspan).1).2 (Prod.mk.inj hspan).2
  have hfirst : first 'i' ("mport ".toList ++ t ++ rest) =
      (⟨.imports, importMark ++ t⟩, rest) := by
    have hspace : (isSpace 'i' || opensComment ('i' :: ("mport ".toList ++ t ++ rest))) = false :=
      rfl
    have hmark : importMark.isPrefixOf ('i' :: ("mport ".toList ++ t ++ rest)) = true :=
      List.isPrefixOf_iff_prefix.mpr ⟨t ++ rest, rfl⟩
    unfold first
    rw [hspace, if_neg Bool.false_ne_true, if_pos hmark, hrest]
    rfl
  have hsections := sections_cons 'i' ("mport ".toList ++ t ++ rest)
  rw [hfirst] at hsections
  exact hsections

theorem sections_importLine (hmark : importMark <+: t) (h : IsImportLine t)
    (hrest : BeginsLine rest) : sections (t ++ rest) = ⟨.imports, t⟩ :: rest.sections :=
  sections_of_importSpan hmark (h rest hrest)

theorem importSectionsFrom_importLine (hmark : importMark <+: t) (h : IsImportLine t)
    (hrest : BeginsLine rest) (start : Nat) :
    importSectionsFrom start (t ++ rest) =
      (start, ⟨.imports, t⟩) :: importSectionsFrom (start + t.length) rest := by
  unfold importSectionsFrom
  rw [sections_importLine hmark h hrest, positioned, List.filter_cons_of_pos (by simp)]

theorem withoutImports_importLine (hmark : importMark <+: t) (h : IsImportLine t)
    (hrest : BeginsLine rest) : withoutImports (t ++ rest) = rest.withoutImports := by
  unfold withoutImports
  rw [sections_importLine hmark h hrest, List.filter_cons_of_neg (by simp)]

/-- Comments before the first import are the header. -/
theorem header_parts {header : Text} (hheader : IsComment header) (hmark : importMark <+: t)
    (h : IsImportLine t) (hrest : BeginsLine rest) :
    (parts (header ++ (t ++ rest))).header = header := by
  have hspan : commentSpan .between (t ++ rest) = ([], t ++ rest) := by
    obtain ⟨t, rfl⟩ := hmark
    exact commentSpan_of_not rfl
  have hwhole := hheader (t ++ rest)
  rw [hspan, List.append_nil] at hwhole
  unfold parts partsWith Parts.ofSections
  dsimp only
  cases hbegins : beginsComment (header ++ (t ++ rest)) with
  | false =>
    rw [commentSpan_of_not hbegins] at hwhole
    obtain rfl := (Prod.mk.inj hwhole).1
    rw [List.nil_append, sections_importLine hmark h hrest]
    rfl
  | true =>
    rw [sections_comment hbegins, hwhole, sections_importLine hmark h hrest]
    simp [positioned]

theorem map_snd_positioned (start : Nat) (sections : List Section) :
    (positioned start sections).map Prod.snd = sections := by
  induction sections generalizing start with
  | nil => rfl
  | cons s rest ih => rw [positioned, List.map_cons, ih]

/-- The header and the body of a text are what is left of it without its imports. -/
theorem header_append_body (t : Text) : t.parts.header ++ t.parts.body = t.withoutImports := by
  have hcode : t.withoutImports =
      ((positioned 0 t.sections).filter fun s => !decide (s.2.kind = .imports)).flatMap
        (·.2.text) := by
    unfold withoutImports
    conv => lhs; rw [← map_snd_positioned 0 t.sections]
    rw [List.filter_map, List.flatMap_map]
    simp [Function.comp_def]
  unfold parts partsWith Parts.ofSections
  dsimp only
  rw [hcode, ← List.flatMap_append]
  generalize positioned 0 t.sections = sections
  congr 1
  have hcomments : ∀ s ∈ sections.takeWhile (fun s => decide (s.2.kind = .comment)),
      (!decide (s.2.kind = .imports)) = true := by
    intro s hs
    have hkind := List.mem_takeWhile_imp hs
    simp only [decide_eq_true_eq] at hkind
    simp [hkind]
  rw [← List.filter_eq_self.mpr hcomments, ← List.filter_append, List.takeWhile_append_dropWhile]

/-- A text without import sections. -/
def HasNoImports (t : Text) : Prop :=
  ∀ s ∈ t.sections, s.kind ≠ .imports

instance (t : Text) : Decidable t.HasNoImports :=
  List.decidableBAll (fun s : Section => s.kind ≠ SectionKind.imports) t.sections

theorem importSectionsFrom_eq_nil_iff : importSectionsFrom start t = [] ↔ t.HasNoImports := by
  unfold importSectionsFrom HasNoImports
  rw [List.filter_eq_nil_iff]
  conv => rhs; rw [← map_snd_positioned start t.sections]
  rw [List.forall_mem_map]
  simp

theorem withoutImports_eq_self (h : t.HasNoImports) : t.withoutImports = t := by
  unfold withoutImports
  rw [List.filter_eq_self.mpr, flatMap_sections]
  intro s hs
  exact decide_eq_true (h s hs)

end Text

end Disentangle
