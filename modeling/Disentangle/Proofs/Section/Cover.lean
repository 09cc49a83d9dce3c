import Disentangle.Proofs.Section.Scan
import Disentangle.Section.Checked

/-!
The sections of a text are all of it. The scanners get on with every text: blanks, comments and
imports have scanners of their own, and the scanner of code stops only where one of these begins.
So the sections stand one behind the other from the first character to the last, and the parts of a
source hold each character once.
-/

namespace Disentangle

namespace Section

variable {c : Char} {t rest : Text} {s : Section} {sections : List Section}

/-- Sections fill a text from `start` to `stop`: each has at least one character, holds what stands
at its place, and begins where the one before it ends. -/
inductive Fills (t : Text) : Nat → Nat → List (Nat × Section) → Prop
  | done (stop : Nat) : Fills t stop stop []
  | step {start stop : Nat} {s : Section} {rest : List (Nat × Section)} (hne : s.text ≠ [])
      (hslice : t.slice start (start + s.text.length) = s.text)
      (hrest : Fills t (start + s.text.length) stop rest) : Fills t start stop ((start, s) :: rest)

namespace Fills

variable {start stop : Nat} {found : List (Nat × Section)} {placed : Nat × Section}

theorem le_of_mem (h : Fills t start stop found) (hplaced : placed ∈ found) :
    start ≤ placed.1 := by
  induction h with
  | done => cases hplaced
  | step _ _ _ ih =>
    rcases List.mem_cons.mp hplaced with rfl | hplaced
    · exact Nat.le_refl _
    · exact (Nat.le_add_right _ _).trans (ih hplaced)

theorem slice_of_mem (h : Fills t start stop found) (hplaced : placed ∈ found) :
    t.slice placed.1 (placed.1 + placed.2.text.length) = placed.2.text := by
  induction h with
  | done => cases hplaced
  | step _ hslice _ ih =>
    rcases List.mem_cons.mp hplaced with rfl | hplaced
    · exact hslice
    · exact ih hplaced

/-- No two sections begin at one place. -/
theorem pairwise (h : Fills t start stop found) :
    found.Pairwise fun s later => s.1 < later.1 := by
  induction h with
  | done => exact .nil
  | @step start stop s rest hne _ hrest ih =>
    refine List.pairwise_cons.mpr ⟨fun later hlater => ?_, ih⟩
    have hle := hrest.le_of_mem hlater
    have hpos := List.length_pos_iff.mpr hne
    exact Nat.lt_of_lt_of_le (Nat.lt_add_of_pos_right hpos) hle

end Fills

/-- Where neither blanks nor a comment begin, the scanner of comments stays. -/
theorem commentSpan_ne_nil_iff (hspace : isSpace c = false) :
    (commentSpan .between (c :: rest)).1 ≠ [] ↔ opensComment (c :: rest) = true := by
  have hbegins : beginsComment (c :: rest) = opensComment (c :: rest) := by
    simp [beginsComment, hspace]
  rw [← hbegins]
  constructor
  · intro hne
    by_contra hnot
    rw [Bool.not_eq_true] at hnot
    exact hne (congrArg Prod.fst (commentSpan_of_not hnot))
  · exact commentSpan_ne_nil

theorem eq_slash_of_opensComment (h : opensComment (c :: rest) = true) : c = '/' := by
  unfold opensComment at h
  split at h
  next heq => exact (List.cons.inj heq).1
  next heq => exact (List.cons.inj heq).1
  next => cases h

theorem eq_of_importMark_isPrefixOf (h : importMark.isPrefixOf (c :: rest) = true) : c = 'i' := by
  obtain ⟨t, ht⟩ := List.isPrefixOf_iff_prefix.mp h
  exact (List.cons.inj ht).1.symm

/-- The scanner of code passes over the first character of code. -/
theorem codeSpan_cons (hmark : importMark.isPrefixOf (c :: rest) = false)
    (hopens : opensComment (c :: rest) = false) :
    codeSpan none true (c :: rest) =
      (c :: (codeSpan (literalAt? c) (isLineBreak c) rest).1,
        (codeSpan (literalAt? c) (isLineBreak c) rest).2) := by
  rw [codeSpan, if_neg (by simp [hmark, hopens])]

/-- What the scanners find is the section at the front of the text, which is not empty. -/
theorem attempt_eq_first (c : Char) (rest : Text) : attempt c rest = first c rest := by
  unfold attempt first
  dsimp only
  cases hspace : isSpace c with
  | true => rw [if_pos rfl, Bool.true_or, if_pos rfl]
  | false =>
    rw [if_neg Bool.false_ne_true, Bool.false_or]
    cases hmark : importMark.isPrefixOf (c :: rest) with
    | true =>
      obtain rfl := eq_of_importMark_isPrefixOf hmark
      have hopens : opensComment ('i' :: rest) = false := rfl
      rw [if_pos rfl, hopens, if_neg Bool.false_ne_true, if_pos rfl,
        importSpan_plain (by decide) (by decide)]
      rfl
    | false =>
      cases hopens : opensComment (c :: rest) with
      | true =>
        have hcomment : c = '/' ∧ (commentSpan .between (c :: rest)).1 ≠ [] :=
          ⟨eq_slash_of_opensComment hopens, (commentSpan_ne_nil_iff hspace).mpr hopens⟩
        rw [if_neg Bool.false_ne_true, if_pos hcomment, if_pos rfl]
      | false =>
        have hcode : ¬ (c = '/' ∧ (commentSpan .between (c :: rest)).1 ≠ []) := by
          rw [commentSpan_ne_nil_iff hspace, hopens]
          simp
        rw [if_neg Bool.false_ne_true, if_neg hcode, if_neg Bool.false_ne_true,
          if_neg Bool.false_ne_true, codeSpan_cons hmark hopens]

/-- The cut with a check never fails, and finds the sections of the text. -/
theorem scan_eq_positioned (path : Option Text) (start : Nat) (t : Text) :
    scan path start t = .ok (positioned start t.sections) := by
  induction t using Text.sections_induction generalizing start with
  | nil => rw [scan]; rfl
  | cons c rest ih =>
    rw [scan, attempt_eq_first, if_pos (length_first_lt c rest), ih, Text.sections_cons, positioned]
    rfl

theorem text_ne_nil_of_mem_sections (hs : s ∈ t.sections) : s.text ≠ [] :=
  Text.forall_mem_sections (P := fun s => s.text ≠ []) first_text_ne_nil t s hs

/-- Sections put one behind the other fill the text that they make up, wherever it stands. -/
theorem fills_positioned (front back : Text) (hne : ∀ s ∈ sections, s.text ≠ []) :
    Fills (front ++ sections.flatMap (·.text) ++ back) front.length
      (front.length + (sections.flatMap (·.text)).length) (positioned front.length sections) := by
  induction sections generalizing front with
  | nil => exact .done _
  | cons s rest ih =>
    obtain ⟨hs, hrest⟩ := List.forall_mem_cons.mp hne
    have htail := ih (front ++ s.text) hrest
    rw [List.flatMap_cons, positioned]
    refine .step hs ?_ ?_
    · simp [Text.slice]
    · simpa [Nat.add_assoc] using htail

end Section

namespace Text

open Section

theorem fills_sections (t : Text) : Fills t 0 t.length (positioned 0 t.sections) := by
  have hfills := fills_positioned [] [] fun s (hs : s ∈ t.sections) =>
    text_ne_nil_of_mem_sections hs
  rw [flatMap_sections] at hfills
  simpa using hfills

/-- The imports of a text are its import sections, one after another. -/
theorem imports_parts (t : Text) :
    t.parts.imports = (t.sections.filter (·.kind = .imports)).flatMap (·.text) := by
  have hkept : t.parts.imports =
      ((positioned 0 t.sections).filter (·.2.kind = .imports)).flatMap (·.2.text) := by
    unfold parts partsWith Parts.ofSections
    rw [← Parts.filter_imports_dropWhile_comment]
  rw [hkept]
  conv => rhs; rw [← map_snd_positioned 0 t.sections]
  rw [List.filter_map, List.flatMap_map]
  rfl

/-- The parts of a text have all its characters. -/
theorem length_parts (t : Text) :
    t.parts.header.length + t.parts.imports.length + t.parts.body.length = t.length := by
  have hperm := List.filter_append_perm (fun s : Section => s.kind = .imports) t.sections
  have hlength := (hperm.flatMap_right (·.text)).length_eq
  have hbody := congrArg List.length (header_append_body t)
  rw [List.flatMap_append, List.length_append, flatMap_sections, ← imports_parts] at hlength
  rw [List.length_append, withoutImports] at hbody
  simp only [decide_not] at hbody
  omega

/-- Any text is cut into sections, and the scanners get on with all of it. The sections fill the
text from its beginning to its end, and they are those that the parts are made of: the imports are
the import sections in their order, header and body the other sections in theirs, and together they
have as many characters as the text. -/
theorem scan_fills_text (path : Option Text) (t : Text) :
    ∃ found, scan path 0 t = .ok found ∧ found.map Prod.snd = t.sections ∧
      Fills t 0 t.length found ∧ t.parts = Parts.ofSections (fun _ written => written) found ∧
      t.parts.imports = (t.sections.filter (·.kind = .imports)).flatMap (·.text) ∧
      t.parts.header ++ t.parts.body =
        (t.sections.filter (·.kind ≠ .imports)).flatMap (·.text) ∧
      t.parts.header.length + t.parts.imports.length + t.parts.body.length = t.length := by
  exact ⟨_, scan_eq_positioned path 0 t, map_snd_positioned 0 t.sections, fills_sections t, rfl,
    imports_parts t, header_append_body t, length_parts t⟩

end Text

end Disentangle
