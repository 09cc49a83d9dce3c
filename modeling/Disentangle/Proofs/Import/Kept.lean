import Disentangle.Proofs.Claims
import Disentangle.Proofs.Import.External
import Disentangle.Proofs.Section.Gathered

/-!
Sources of which no import is redirected. Their imports are gathered and nothing else happens to
them, so the source that results is its own result.
-/

namespace Disentangle

open Section

namespace FileRecord

open Text

variable {record : FileRecord} {specifier : Text} {table : SymbolTable} {text : Text}

/-- A table through which no import of a record is led. -/
def RedirectsNone (record : FileRecord) (table : SymbolTable) : Prop :=
  ∀ line ∈ record.imports, line.routesToIndex table = false

/-- Through an empty table no import is led. -/
theorem redirectsNone_empty (record : FileRecord) : record.RedirectsNone .empty := by
  intro line _
  unfold ImportLine.routesToIndex
  cases line.names with
  | nil => simp
  | cons => simp

theorem redirectSection_of_redirectsNone (hnone : record.RedirectsNone table) (offset : Nat)
    (written : Text) : record.redirectSection specifier table offset written = written := by
  unfold redirectSection
  cases hline : record.match? offset written with
  | none => rfl
  | some line =>
    obtain ⟨hfound, -⟩ := Option.filter_eq_some_iff.mp hline
    have hmem : line ∈ record.imports := List.mem_reverse.mp (List.mem_of_find?_eq_some hfound)
    simp [hnone line hmem]

/-- Where no import is redirected the imports are gathered. -/
theorem redirectImports_eq_gatherImports (hnone : record.RedirectsNone table) :
    record.redirectImports specifier table text = text.gatherImports := by
  have himports : record.redirectSections specifier table text.importSections =
      text.parts.imports := by
    unfold redirectSections
    simp only [redirectSection_of_redirectsNone hnone]
    rw [imports_parts, ← map_snd_positioned 0 text.sections, List.filter_map, List.flatMap_map]
    rfl
  rw [redirectImports_eq, himports, gatherImports]

/-- Where no import is redirected, a source whose imports are closed is cut afterwards into the same
header and the same imports, and into sections without imports that make up its body. Only an import
with which the source ended gains a line break, if something is put behind it. The source that
results stays as it is where no import of it is redirected either. -/
theorem redirectImports_kept (record : FileRecord) (specifier : Text) (table : SymbolTable)
    (text : Text) (hnone : record.RedirectsNone table)
    (hclosed : ∀ s ∈ text.sections, s.kind = .imports → IsClosed s.text) :
    ∃ imports rest,
      (record.redirectImports specifier table text).sections =
        text.sections.takeWhile (·.kind = .comment) ++ imports ++ rest ∧
      (imports = text.importsOf ∨
        ∃ front last, text.importsOf = front ++ [last] ∧ text.sections.getLast? = some last ∧
          last.text.endsLine = false ∧ rest ≠ [] ∧
          imports = front ++ [{ last with text := last.text ++ ['\n'] }]) ∧
      (∀ s ∈ rest, s.kind ≠ .imports) ∧
      rest.flatMap (·.text) =
        ((text.sections.dropWhile (·.kind = .comment)).filter (·.kind ≠ .imports)).flatMap
          (·.text) ∧
      ∀ (record' : FileRecord) (specifier' : Text) (table' : SymbolTable),
        record'.RedirectsNone table' →
          record'.redirectImports specifier' table'
              (record.redirectImports specifier table text) =
            record.redirectImports specifier table text := by
  have hclosed : ∀ s ∈ text.importsOf, IsClosed s.text := by
    intro s hs
    obtain ⟨hs, himports⟩ := List.mem_filter.mp hs
    exact hclosed s hs (of_decide_eq_true himports)
  have hagain (record' : FileRecord) (specifier' : Text) (table' : SymbolTable)
      (hnone' : record'.RedirectsNone table') :
      record'.redirectImports specifier' table' text.gatherImports = text.gatherImports := by
    rw [redirectImports_eq_gatherImports hnone', gatherImports_gatherImports hclosed]
  have hbody : text.parts.body.sections.flatMap (·.text) =
      ((text.sections.dropWhile (·.kind = .comment)).filter (·.kind ≠ .imports)).flatMap
        (·.text) := by
    rw [flatMap_sections, (span_comment text).2, parts_eq, withoutImports]
  rw [redirectImports_eq_gatherImports hnone, (span_comment text).1]
  rcases List.eq_nil_or_concat text.importsOf with hnoImports | ⟨front, last, himports⟩
  · refine ⟨[], text.parts.body.sections, ?_, Or.inl hnoImports.symm, hasNoImports_body text,
      hbody, hagain⟩
    have hfree := hasNoImports_commentSpan.mpr (hasNoImports_of_importsOf hnoImports)
    rw [gatherImports_eq_self hnoImports, List.append_nil, parts_eq, withoutImports_eq_self hfree]
    exact sections_header text
  · rw [List.concat_eq_append] at himports
    refine ⟨front ++ [⟨.imports, last.text ++ closing last.text text.parts.body⟩],
      text.parts.body.sections, ?_, ?_, hasNoImports_body text, hbody, hagain⟩
    · rw [sections_gatherImports himports hclosed]
      simp
    have hkind : last.kind = .imports :=
      (isCut_of_mem_importsOf (t := text) (by simp [himports])).kind
    by_cases hkept : closing last.text text.parts.body = []
    · left
      rw [hkept, List.append_nil, himports, ← hkind]
    · obtain ⟨hopen, hfollows, hclosing⟩ := closing_of_ne_nil hkept
      refine Or.inr ⟨front, last, himports, (endsLine_importsOf himports).2 hopen, hopen, ?_, ?_⟩
      · intro hnil
        rw [← flatMap_sections text.parts.body, hnil] at hfollows
        exact hfollows rfl
      · rw [hclosing, hkind]

/-- An import between the code of a source, and one with which the source ends. -/
theorem redirectImports_kept_at_end :
    let text : Text :=
      "// head\nimport A from './a';\nf(A);\nimport B from './b';\ng(B);\nimport './c'".toList
    let record := (Extraction.ofSource ['/'] "/p/x.ts".toList text).record
    let written : Text :=
      "// head\nimport A from './a';\nimport B from './b';\nimport './c'\nf(A);\ng(B);\n".toList
    record.RedirectsNone .empty ∧
      (∀ s ∈ text.sections, s.kind = .imports → IsClosed s.text) ∧
      record.redirectImports "../index".toList .empty text = written ∧
      (∃ imports rest,
        written.sections = text.sections.takeWhile (·.kind = .comment) ++ imports ++ rest ∧
          (∀ s ∈ rest, s.kind ≠ .imports) ∧
          rest.flatMap (·.text) = "f(A);\ng(B);\n".toList) ∧
      record.redirectImports "../index".toList .empty written = written := by
  intro text record written
  have hclosed : ∀ s ∈ text.sections, s.kind = .imports → IsClosed s.text := by decide
  have hnone : record.RedirectsNone .empty := redirectsNone_empty record
  have hwritten : record.redirectImports "../index".toList .empty text = written := by
    rw [redirectImports_eq_gatherImports hnone]
    decide
  obtain ⟨imports, rest, hsections, -, hfree, hbody, hagain⟩ :=
    redirectImports_kept record "../index".toList .empty text hnone hclosed
  have hsame := hagain record "../index".toList .empty hnone
  rw [hwritten] at hsections hsame
  refine ⟨hnone, hclosed, hwritten, ⟨imports, rest, hsections, hfree, ?_⟩, hsame⟩
  rw [hbody]
  decide

end FileRecord

end Disentangle
