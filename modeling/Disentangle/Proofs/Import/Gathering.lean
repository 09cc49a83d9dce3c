import Disentangle.Proofs.Import.Layout
import Disentangle.Proofs.TypeScript.Exchange
import Mathlib.Data.List.Basic
import Mathlib.Data.List.Nodup

/-!
What redirecting makes of a source whose import sections are its import statements. Every import
line of its record is found where its statement stands, so each piece is redirected or left alone as
a whole, and all that is not import is put behind them.
-/

namespace Disentangle

open Text TypeScript Section

/-- Where an import statement begins and stops, and the statement. -/
def TypeScript.Located.import? (located : Located) : Option (Nat × Nat × ImportStatement) :=
  match located.statement with
  | .imports statement => some (located.start, located.stop, statement)
  | _ => none

/-- The import statements of a reading. -/
def TypeScript.Reading.imports (reading : Reading) : List (Nat × Nat × ImportStatement) :=
  reading.statements.filterMap Located.import?

theorem TypeScript.Reading.mem_imports {reading : Reading} {start stop : Nat}
    {statement : ImportStatement} :
    (start, stop, statement) ∈ reading.imports ↔
      ⟨start, stop, .imports statement⟩ ∈ reading.statements := by
  refine List.mem_filterMap.trans ⟨fun ⟨located, hlocated, himport⟩ => ?_,
    fun h => ⟨_, h, rfl⟩⟩
  obtain ⟨start', stop', found⟩ := located
  unfold Located.import? at himport
  cases found with
  | imports found =>
    cases himport
    exact hlocated
  | _ => cases himport

theorem TypeScript.Reading.imports_eq_nil_iff {reading : Reading} :
    reading.imports = [] ↔ ∀ found ∈ reading.statements.map (·.statement), found.IsNoImport := by
  rw [Reading.imports, List.filterMap_eq_nil_iff, List.forall_mem_map]
  refine forall_congr' fun located => forall_congr' fun _ => ?_
  unfold Located.import? Statement.IsNoImport
  cases located.statement <;> simp

/-- Where a text begins makes no difference to whether it has imports. -/
theorem TypeScript.imports_readAll_position {jsx : Bool} {p q : Nat} {t : Text}
    (h : (readAll jsx p t).imports = []) : (readAll jsx q t).imports = [] := by
  rw [Reading.imports_eq_nil_iff] at h ⊢
  rwa [(readAll_position (p := q) (q := p)).2]

namespace ImportLine

/-- The line at another place. -/
def moved (offset : Int) (line : ImportLine) : ImportLine :=
  { line with offset := offset }

variable {cwd path text : Text} {start stop : Nat} {statement : ImportStatement}
  {line : ImportLine}

/-- An import line depends on the text of its statement alone, apart from its place. -/
theorem ofStatement?_eq_map :
    ofStatement? cwd path text start stop statement =
      (ofStatement? cwd path (text.slice start stop) 0 (stop - start) statement).map
        (moved start) := by
  have hslice : (text.slice start stop).slice 0 (stop - start) = text.slice start stop :=
    slice_zero (List.length_take_le _ _)
  unfold ofStatement?
  rw [hslice]
  dsimp only
  split
  · cases statement.form <;> rfl
  · rfl

theorem weak_of_ofStatement? (h : ofStatement? cwd path text start stop statement = some line) :
    line.weak = line := by
  unfold ofStatement? at h
  dsimp only at h
  split at h
  · cases h
    exact weak_withForm _
  · cases h

end ImportLine

namespace FileRecord

variable {record record' : FileRecord} {name cwd path text specifier written : Text}
  {table : SymbolTable} {statements : List Located} {offset : Nat}

/-- An import line is that of a statement. -/
theorem exists_statement_of_mem_importLines {line : ImportLine}
    (h : line ∈ importLines cwd path text statements) :
    ∃ located ∈ statements, ∃ statement, located.statement = .imports statement ∧
      ImportLine.ofStatement? cwd path text located.start located.stop statement = some line := by
  obtain ⟨located, hlocated, hline⟩ := List.mem_filterMap.mp h
  split at hline
  next statement hstatement => exact ⟨located, hlocated, statement, hstatement, hline⟩
  next => cases hline

theorem map_weak_ofStatements :
    (ofStatements cwd path text statements).imports.map ImportLine.weak =
      importLines cwd (Path.standardize cwd path) text statements := by
  refine map_weak_collect.trans ((List.map_congr_left fun line hline => ?_).trans (List.map_id _))
  obtain ⟨located, -, statement, -, hread⟩ := exists_statement_of_mem_importLines hline
  exact ImportLine.weak_of_ofStatement? hread

/-- An import of a source is the line of one of its statements, apart from the mark. -/
theorem weak_mem_importLines {line : ImportLine}
    (h : line ∈ (Extraction.ofSource cwd path text).record.imports) :
    line.weak ∈ importLines cwd (Path.standardize cwd path) text
      (readSource (usesJsx (Path.standardize cwd path)) text).statements := by
  rw [← map_weak_ofStatements, ← Extraction.record_ofSource]
  exact List.mem_map_of_mem h

theorem map_weak_lineAt? :
    (record.lineAt? offset).map ImportLine.weak =
      (record.imports.map ImportLine.weak).reverse.find? (·.offset = (offset : Int)) := by
  unfold lineAt?
  rw [← List.map_reverse, List.find?_map]
  rfl

/-- What becomes of the section `written` where an import line is found for it. -/
def redirectWith (specifier : Text) (table : SymbolTable) (written : Text)
    (line? : Option ImportLine) : Text :=
  match line?.filter fun line => line.text.isPrefixOf written with
  | some line =>
    if line.routesToIndex table then line.redirected specifier ++ written.drop line.text.length
    else written
  | none => written

theorem redirectSection_eq : record.redirectSection specifier table offset written =
    redirectWith specifier table written (record.lineAt? offset) := rfl

theorem redirectWith_some (line : ImportLine) :
    redirectWith specifier table written (some line) =
      if line.text.isPrefixOf written && line.routesToIndex table then
        line.redirected specifier ++ written.drop line.text.length
      else written := by
  unfold redirectWith
  rw [Option.filter_some]
  cases line.text.isPrefixOf written <;> rfl

/-- How an import is redirected does not depend on whether it is needed early. -/
theorem redirectWith_weak (line? : Option ImportLine) :
    redirectWith specifier table written (line?.map ImportLine.weak) =
      redirectWith specifier table written line? := by
  cases line? with
  | none => rfl
  | some line => exact (redirectWith_some line.weak).trans (redirectWith_some line).symm

end FileRecord

namespace ImportPiece

variable {piece : ImportPiece} {pieces : List ImportPiece} {entries : List (Nat × ImportPiece)}
  {body text cwd path : Text}

/-- The import line that a piece makes where it stands first. -/
def importLine? (cwd path : Text) (piece : ImportPiece) : Option ImportLine :=
  ImportLine.ofStatement? cwd path piece.written 0 piece.written.length piece.statement

/-- The import line of a piece, if it can be led through the index. -/
def routed? (cwd path : Text) (table : SymbolTable) (piece : ImportPiece) : Option ImportLine :=
  (piece.importLine? cwd path).filter (·.routesToIndex table)

/-- The piece with its statement redirected where that is possible, and without the comments behind
its line. -/
def redirect (cwd path specifier : Text) (table : SymbolTable) (piece : ImportPiece) :
    ImportPiece :=
  match piece.routed? cwd path table with
  | some line => ⟨line.redirectedStatement, line.redirected specifier, piece.behind, []⟩
  | none => { piece with comments := [] }

/-- The import lines of pieces at given places. -/
def importLines (cwd path : Text) (entries : List (Nat × ImportPiece)) : List ImportLine :=
  entries.filterMap fun entry => (entry.2.importLine? cwd path).map (ImportLine.moved entry.1)

/-- Where the import statements of a source are pieces, its record has their import lines. -/
theorem importLines_of_imports {reading : Reading}
    (himports : reading.imports = entries.map fun entry =>
      (entry.1, entry.1 + entry.2.written.length, entry.2.statement))
    (hwritten : ∀ entry ∈ entries, entry.2.written <+: text.drop entry.1) :
    FileRecord.importLines cwd path text reading.statements = importLines cwd path entries := by
  have hread : FileRecord.importLines cwd path text reading.statements =
      reading.imports.filterMap fun found =>
        ImportLine.ofStatement? cwd path text found.1 found.2.1 found.2.2 := by
    unfold FileRecord.importLines Reading.imports
    rw [List.filterMap_filterMap]
    refine List.filterMap_congr fun located _ => ?_
    unfold Located.import?
    cases located.statement <;> rfl
  rw [hread, himports, List.filterMap_map]
  refine List.filterMap_congr fun entry hentry => ?_
  have hslice : text.slice entry.1 (entry.1 + entry.2.written.length) = entry.2.written := by
    rw [slice, Nat.add_sub_cancel_left]
    exact (List.prefix_iff_eq_take.mp (hwritten entry hentry)).symm
  dsimp only [Function.comp_apply]
  rw [ImportLine.ofStatement?_eq_map, hslice, Nat.add_sub_cancel_left]
  rfl

theorem Spelled.exists_spells (h : Spelled body pieces) (hpiece : piece ∈ pieces) :
    ∃ rest, piece.SpelledBefore rest := by
  induction pieces with
  | nil => cases hpiece
  | cons first others ih =>
    rcases List.mem_cons.mp hpiece with rfl | hpiece
    · exact ⟨_, h.1⟩
    · exact ih h.2 hpiece

/-- A spelled statement makes an import line. -/
theorem exists_importLine (cwd path : Text) {t : Text} (h : piece.SpelledBefore t) :
    ∃ line, piece.importLine? cwd path = some line ∧ line.text = piece.written := by
  obtain ⟨attributes, hspells⟩ := h
  obtain ⟨left, quote, body, right, hwritten, hleft, hplain, -⟩ := hspells.exchange
  have hdrop : piece.written.drop piece.statement.moduleAt =
      (Token.string quote body).text ++ right := by
    rw [hwritten, ← hleft, List.drop_left]
  unfold importLine? ImportLine.ofStatement?
  dsimp only
  rw [slice_zero le_rfl, hdrop, readToken_plain hplain fun _ _ => rfl]
  dsimp only
  cases piece.statement.form <;> exact ⟨_, rfl, rfl⟩

section Redirecting

variable {specifier : Text} {table : SymbolTable} {record : FileRecord}
  {entry : Nat × ImportPiece}

/-- The import line of a piece is found where the piece stands. -/
theorem find?_importLines {importLine : ImportLine} (hplaces : (entries.map Prod.fst).Nodup)
    (hentry : entry ∈ entries) (hline : entry.2.importLine? cwd path = some importLine) :
    (importLines cwd path entries).reverse.find? (·.offset = (entry.1 : Int)) =
      some (importLine.moved entry.1) := by
  have hmem : importLine.moved entry.1 ∈ importLines cwd path entries :=
    List.mem_filterMap.mpr ⟨entry, hentry, by rw [hline, Option.map_some]⟩
  cases hfound : (importLines cwd path entries).reverse.find? (·.offset = (entry.1 : Int)) with
  | none =>
    rw [List.find?_eq_none] at hfound
    exact absurd (decide_eq_true rfl) (hfound _ (List.mem_reverse.mpr hmem))
  | some found =>
    have hoffset : found.offset = entry.1 := by simpa using List.find?_some hfound
    obtain ⟨entry', hentry', hfound'⟩ :=
      List.mem_filterMap.mp (List.mem_reverse.mp (List.mem_of_find?_eq_some hfound))
    obtain ⟨line', hline', rfl⟩ := Option.map_eq_some_iff.mp hfound'
    obtain rfl := List.inj_on_of_nodup_map hplaces hentry hentry' (Int.ofNat.inj hoffset).symm
    rw [hline] at hline'
    cases hline'
    rfl

/-- The section of a piece becomes the line of the redirected piece. -/
theorem redirectSection_piece {t : Text} (hplaces : (entries.map Prod.fst).Nodup)
    (hrecord : record.imports.map ImportLine.weak = importLines cwd path entries)
    (hentry : entry ∈ entries) (hspelled : entry.2.SpelledBefore t) :
    record.redirectSection specifier table entry.1 entry.2.line =
      (entry.2.redirect cwd path specifier table).line := by
  obtain ⟨importLine, hline, htext⟩ := exists_importLine cwd path hspelled
  rw [FileRecord.redirectSection_eq, ← FileRecord.redirectWith_weak, FileRecord.map_weak_lineAt?,
    hrecord, find?_importLines hplaces hentry hline, FileRecord.redirectWith_some]
  have hbegins : importLine.text.isPrefixOf entry.2.line = true := by
    rw [htext]
    exact List.isPrefixOf_iff_prefix.mpr (List.prefix_append _ _)
  have hdrop : entry.2.line.drop importLine.text.length = entry.2.behind := by
    rw [htext, line, List.drop_left]
  change (if importLine.text.isPrefixOf entry.2.line && importLine.routesToIndex table then
    importLine.redirected specifier ++ entry.2.line.drop importLine.text.length
    else entry.2.line) = _
  rw [hbegins, Bool.true_and, hdrop]
  unfold redirect routed?
  rw [hline, Option.filter_some]
  cases importLine.routesToIndex table <;> rfl

theorem redirectSections_pieces (hplaces : (entries.map Prod.fst).Nodup)
    (hspelled : ∀ entry ∈ entries, ∃ t, entry.2.SpelledBefore t)
    (hrecord : record.imports.map ImportLine.weak = importLines cwd path entries) :
    record.redirectSections specifier table
        (entries.map fun entry => (entry.1, entry.2.cutOut)) =
      ((entries.map Prod.snd).map (redirect cwd path specifier table)).flatMap line := by
  unfold FileRecord.redirectSections
  rw [List.flatMap_map, List.map_map, List.flatMap_map]
  apply List.flatMap_congr
  intro entry hentry
  obtain ⟨t, ht⟩ := hspelled entry hentry
  exact redirectSection_piece hplaces hrecord hentry ht

@[simp] theorem behind_redirect :
    (piece.redirect cwd path specifier table).behind = piece.behind := by
  unfold redirect
  split <;> rfl

@[simp] theorem comments_redirect :
    (piece.redirect cwd path specifier table).comments = [] := by
  unfold redirect
  split <;> rfl

theorem endsLine_lines (hne : pieces ≠ [])
    (hends : ∀ piece ∈ pieces, piece.behind.endsLine = true) :
    endsLine (pieces.flatMap line) = true := by
  rw [← List.dropLast_append_getLast hne, List.flatMap_append, List.flatMap_singleton]
  exact endsLine_append (endsLine_append (hends _ (List.getLast_mem hne)))

/-- Redirecting the imports of a source whose import sections are pieces redirects these, and puts
the body behind them. -/
theorem redirectImports_pieces (hplaces : (entries.map Prod.fst).Nodup)
    (hsections : text.importSections = entries.map fun entry => (entry.1, entry.2.cutOut))
    (hends : ∀ entry ∈ entries, entry.2.behind.endsLine = true)
    (hspelled : ∀ entry ∈ entries, ∃ t, entry.2.SpelledBefore t) (hne : entries ≠ [])
    (hrecord : record.imports.map ImportLine.weak = importLines cwd path entries) :
    record.redirectImports specifier table text =
      text.parts.header ++
        source ((entries.map Prod.snd).map (redirect cwd path specifier table))
          text.parts.body := by
  have hends : endsLine (((entries.map Prod.snd).map (redirect cwd path specifier
      table)).flatMap line) = true := by
    refine endsLine_lines (by simpa using hne) ?_
    rw [List.forall_mem_map, List.forall_mem_map]
    intro entry hentry
    rw [behind_redirect]
    exact hends entry hentry
  rw [FileRecord.redirectImports_eq, hsections, redirectSections_pieces hplaces hspelled hrecord,
    closeLine, hends, Bool.or_true, if_pos rfl, List.append_assoc, source]
  congr 2
  refine List.flatMap_congr fun redirected hredirected => ?_
  obtain ⟨piece, -, rfl⟩ := List.mem_map.mp hredirected
  rw [whole, comments_redirect, List.append_nil]

/-- The line of a piece that is routed binds something. -/
theorem names_ne_nil_of_routed {importLine : ImportLine}
    (h : piece.routed? cwd path table = some importLine) : importLine.names ≠ [] := by
  have hroutes := (Option.filter_eq_some_iff.mp h).2
  exact (ImportLine.routesToIndex_iff.mp hroutes).2.2.1

theorem importMark_prefix_redirected (importLine : ImportLine) :
    importMark <+: importLine.redirected specifier := by
  unfold ImportLine.redirected
  simp only [List.append_assoc]
  split
  · exact ⟨"type ".toList ++ _, rfl⟩
  · exact List.prefix_append _ _

/-- A redirected piece takes up whole lines as before. -/
theorem TakesLines.redirect (h : piece.TakesLines) (hspecifier : specifier.IsQuotable)
    (hnames : ∀ importLine ∈ piece.routed? cwd path table, importLine.HasPlainNames) :
    (piece.redirect cwd path specifier table).StandsApart := by
  have hblank : ∃ breaks, Trivia breaks [] := ⟨false, .nil⟩
  have hapart : BeginsLine [] := fun c hc => by cases hc
  unfold ImportPiece.redirect
  split
  next importLine hrouted =>
    have hpasses := ImportLine.passes_redirected (hnames importLine hrouted) hspecifier
    exact ⟨⟨importMark_prefix_redirected importLine, hpasses.isImportLine h.behind, h.behind,
      h.ends⟩, isComment_nil, hblank, hapart⟩
  next => exact ⟨⟨h.mark, h.line, h.behind, h.ends⟩, isComment_nil, hblank, hapart⟩

/-- A redirected piece is spelled as its statement, before any text that does not go on with it. -/
theorem SpelledBefore.redirect {t rest : Text} (h : piece.SpelledBefore t)
    (hends : Trivia true piece.behind)
    (hbegins : beginsStatement t = true → beginsStatement rest = true)
    (hspecifier : specifier.IsQuotable)
    (hnames : ∀ importLine ∈ piece.routed? cwd path table, importLine.HasPlainNames) :
    (piece.redirect cwd path specifier table).SpelledBefore rest := by
  unfold ImportPiece.redirect
  split
  next importLine hrouted =>
    exact ⟨[], spellsWhole_nil_iff.mpr (ImportLine.spellsStatement_redirected
      (names_ne_nil_of_routed hrouted) (hnames importLine hrouted) hspecifier _)⟩
  next =>
    obtain ⟨attributes, hspells⟩ := h
    exact ⟨attributes, hspells.before hends hbegins⟩

/-- Pieces that are spelled where they stand are spelled one behind the other as well, when they are
redirected, if the body goes on with the last of them no more than what stood behind it. -/
theorem spelled_redirect (hlines : ∀ entry ∈ entries, entry.2.TakesLines)
    (hspelled : ∀ entry ∈ entries,
      entry.2.SpelledBefore (text.drop (entry.1 + entry.2.line.length)))
    (hbegins : ∀ entry ∈ entries.getLast?,
      beginsStatement (text.drop (entry.1 + entry.2.line.length)) = true →
        beginsStatement body = true)
    (hspecifier : specifier.IsQuotable)
    (hnames : ∀ entry ∈ entries, ∀ importLine ∈ entry.2.routed? cwd path table,
      importLine.HasPlainNames) :
    Spelled body ((entries.map Prod.snd).map (redirect cwd path specifier table)) := by
  induction entries with
  | nil => trivial
  | cons entry rest ih =>
    obtain ⟨hline, hlines⟩ := List.forall_mem_cons.mp hlines
    obtain ⟨hentry, hspelled⟩ := List.forall_mem_cons.mp hspelled
    obtain ⟨hname, hnames⟩ := List.forall_mem_cons.mp hnames
    have hrest : Spelled body ((rest.map Prod.snd).map (redirect cwd path specifier table)) := by
      refine ih hlines hspelled (fun last hlast => hbegins last ?_) hnames
      rw [List.getLast?_cons, Option.mem_def.mp hlast]
      rfl
    refine ⟨hentry.redirect hline.ends (fun h => ?_) hspecifier hname, hrest⟩
    rw [comments_redirect, List.nil_append]
    cases rest with
    | nil => exact hbegins entry rfl h
    | cons next rest =>
      have hnext := (hlines next List.mem_cons_self).redirect hspecifier
        (hnames next List.mem_cons_self)
      obtain ⟨t, ht⟩ := hnext.exists_import _
      rw [List.map_cons, List.map_cons, source_cons', ht]
      exact beginsStatement_import t

theorem redirect_of_routed {importLine : ImportLine}
    (h : piece.routed? cwd path table = some importLine) :
    piece.redirect cwd path specifier table =
      ⟨importLine.redirectedStatement, importLine.redirected specifier, piece.behind, []⟩ := by
  rw [redirect, h]

theorem redirect_of_not_routed (h : piece.routed? cwd path table = none) :
    piece.redirect cwd path specifier table = { piece with comments := [] } := by
  rw [redirect, h]

/-- A redirected piece makes the import line that its redirected statement makes. -/
theorem routed?_redirect (hspecifier : specifier.IsQuotable) :
    (piece.redirect cwd path specifier table).routed? cwd path table =
      (piece.routed? cwd path table).map (·.redirectedLine cwd path specifier) := by
  cases h : piece.routed? cwd path table with
  | none =>
    rw [redirect_of_not_routed h]
    exact h
  | some importLine =>
    have hroutes := (Option.filter_eq_some_iff.mp h).2
    rw [redirect_of_routed h, routed?, importLine?, ImportLine.ofStatement?_redirected hspecifier,
      Option.filter_some, ImportLine.routesToIndex_redirectedLine hroutes]
    rfl

/-- Redirecting a redirected piece changes nothing in its line. -/
theorem line_redirect_redirect (hspecifier : specifier.IsQuotable) :
    ((piece.redirect cwd path specifier table).redirect cwd path specifier table).line =
      (piece.redirect cwd path specifier table).line := by
  have hrouted : (piece.redirect cwd path specifier table).routed? cwd path table =
      (piece.routed? cwd path table).map (·.redirectedLine cwd path specifier) :=
    routed?_redirect hspecifier
  cases h : piece.routed? cwd path table with
  | none =>
    rw [h] at hrouted
    rw [redirect_of_not_routed hrouted]
    rfl
  | some importLine =>
    rw [h] at hrouted
    rw [redirect_of_routed hrouted, redirect_of_routed h, line,
      ImportLine.redirected_redirectedLine]
    rfl

end Redirecting

end ImportPiece

end Disentangle
