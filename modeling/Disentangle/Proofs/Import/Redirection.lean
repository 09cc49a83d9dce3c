import Disentangle.Path.Specifier
import Disentangle.Proofs.Import.Agreement

/-!
Redirecting a source for which the parser and the cut into sections agree on its imports. The source
that results is of the same kind, so it stays well formed, every import that can be led through the
index is, and a second pass finds nothing to do. A statement that is broken over lines outside of
braces is torn apart.
-/

namespace Disentangle

open Text TypeScript Section

/-- A source that begins with comments and with imports on lines of their own, as the parser finds
them, and goes on with code that holds no imports. -/
structure ImportsLead (jsx : Bool) (text header : Text) (pieces : List ImportPiece)
    (body : Text) : Prop where
  text_eq : text = header ++ ImportPiece.source pieces body
  comment : IsComment header
  blank : ∃ breaks, Trivia breaks header
  lines : ∀ piece ∈ pieces, piece.StandsApart
  escapes : ∀ piece ∈ pieces, '\\' ∉ piece.written
  attributes : ∀ entry ∈ ImportPiece.placed header.length pieces,
    (entry.2.statement.behind (text.drop entry.1)).hasPlainAttributes = true
  begins : BeginsLine body
  code : body.HasNoImports
  statements : ∃ others complete,
    readSource jsx text = ⟨ImportPiece.locate header.length pieces ++ others, complete⟩ ∧
      (Reading.mk others complete).imports = []

namespace ImportsLead

open ImportPiece

variable {jsx : Bool} {text header body : Text} {pieces : List ImportPiece}

/-- The code behind the imports is read as it is where it stands alone. -/
theorem readAll_body (h : ImportsLead jsx text header pieces body) (hne : pieces ≠ []) :
    (readAll jsx 0 text.parts.body).imports = [] ∧
      (readAll jsx 0 text.parts.body).complete = (readSource jsx text).complete := by
  obtain ⟨others, complete, hread, hothers⟩ := h.statements
  obtain ⟨_, hblank⟩ := blank_comments h.lines
  obtain rfl := h.text_eq
  rw [readSource_lead h.blank h.lines hne] at hread
  have hbody := ImportPiece.readAll_body h.lines hread
  rw [(parts_source h.comment h.lines h.begins h.code hne).2, readAll_trivia hblank,
    readSource_lead h.blank h.lines hne, hread]
  rw [← hbody] at hothers
  refine ⟨imports_readAll_position hothers, ?_⟩
  rw [(readAll_position (q := header.length + (pieces.flatMap whole).length)).1, hbody]

/-- Behind the last import stand its comments and the code. -/
theorem drop_last {start : Nat} {last : Nat × ImportPiece}
    (hdrop : text.drop start = source pieces body) (hlast : last ∈ (placed start pieces).getLast?) :
    text.drop (last.1 + last.2.line.length) = last.2.comments ++ body := by
  induction pieces generalizing start with
  | nil => cases hlast
  | cons piece rest ih =>
    rw [source_cons] at hdrop
    have hbehind : text.drop (start + piece.line.length) = piece.comments ++ source rest body := by
      rw [← List.drop_drop, hdrop, List.drop_left]
    cases rest with
    | nil =>
      obtain rfl : (start, piece) = last := Option.some.inj hlast
      exact hbehind
    | cons next rest =>
      have hnext : text.drop (start + piece.whole.length) = source (next :: rest) body := by
        rw [whole, List.length_append, ← Nat.add_assoc, ← List.drop_drop, hbehind, List.drop_left]
      rw [placed, placed, List.getLast?_cons_cons] at hlast
      exact ih hnext hlast

/-- Where its imports lead a source, the parser and the cut agree on them. -/
theorem importsAgree (h : ImportsLead jsx text header pieces body) :
    ImportsAgree jsx text (placed header.length pieces) where
  sections := by
    rw [h.text_eq]
    exact importSections_source h.comment h.lines h.begins h.code
  statements := by
    obtain ⟨others, complete, hread, hothers⟩ := h.statements
    rw [hread, imports_locate, hothers, List.append_nil]
  lines := fun _ hentry => (h.lines _ (mem_of_mem_placed hentry)).toTakesLines
  escapes := fun _ hentry => h.escapes _ (mem_of_mem_placed hentry)
  attributes := h.attributes
  header := by
    intro hne
    have hne : pieces ≠ [] := by
      rintro rfl
      exact hne rfl
    rw [h.text_eq, (parts_source h.comment h.lines h.begins h.code hne).1]
    exact h.blank
  body := by
    intro hne
    refine (h.readAll_body ?_).1
    rintro rfl
    exact hne rfl
  begins := by
    intro last hlast hbegins
    have hmem := mem_of_mem_placed (List.mem_of_mem_getLast? hlast)
    have hdrop : text.drop header.length = source pieces body := by
      rw [h.text_eq, List.drop_left]
    obtain ⟨_, hblank⟩ := (h.lines _ hmem).blank
    obtain ⟨_, hblanks⟩ := blank_comments h.lines
    rw [drop_last hdrop hlast, beginsStatement_trivia hblank] at hbegins
    rwa [h.text_eq, (parts_source h.comment h.lines h.begins h.code
      (List.ne_nil_of_mem hmem)).2, beginsStatement_trivia hblanks]

end ImportsLead

namespace ImportLine

variable {line found : ImportLine} {table : SymbolTable} {offset : Int}

/-- Where a line stands and what is computed from it has no part in whether it can be led through
the index. -/
theorem routesToIndex_of_weak (h : line.weak = found.moved offset) :
    line.routesToIndex table = found.routesToIndex table := by
  change line.weak.routesToIndex table = (found.moved offset).routesToIndex table
  rw [h]

theorem exportedName_of_weak (h : line.weak = found.moved offset) {name : Text} :
    line.exportedName name = found.exportedName name := by
  change line.weak.exportedName name = (found.moved offset).exportedName name
  rw [h]

theorem hasPlainNames_of_weak (h : line.weak = found.moved offset) :
    line.HasPlainNames ↔ found.HasPlainNames := by
  change line.weak.HasPlainNames ↔ (found.moved offset).HasPlainNames
  rw [h]

end ImportLine

namespace ImportsAgree

open ImportPiece

variable {jsx : Bool} {text cwd path specifier : Text} {entries : List (Nat × ImportPiece)}
  {table : SymbolTable} {line : ImportLine}

/-- A source without imports stays as it is. -/
theorem redirectImports_eq_self (record : FileRecord) (specifier : Text) (table : SymbolTable)
    (h : ImportsAgree jsx text []) : record.redirectImports specifier table text = text := by
  have hnone : text.HasNoImports := importSectionsFrom_eq_nil_iff.mp h.sections
  have hsections : text.importSections = [] := h.sections
  have hclose : closeLine [] text.parts.body = [] := rfl
  rw [FileRecord.redirectImports_eq, hsections]
  change text.parts.header ++ closeLine [] text.parts.body ++ text.parts.body = text
  rw [hclose, List.append_nil, header_append_body, withoutImports_eq_self hnone]

section Records

variable (h : ImportsAgree (usesJsx (Path.standardize cwd path)) text entries)
include h

/-- An import that can be led through the index is that of a piece which is redirected. -/
theorem exists_routed (hline : line ∈ (Extraction.ofSource cwd path text).record.imports)
    (hroutes : line.routesToIndex table = true) :
    ∃ entry ∈ entries, ∃ found,
      entry.2.routed? cwd (Path.standardize cwd path) table = some found ∧
        line.weak = found.moved entry.1 := by
  obtain ⟨entry, hentry, found, hfound, -, hweak⟩ := h.found.exists_entry hline
  rw [ImportLine.routesToIndex_of_weak hweak] at hroutes
  refine ⟨entry, hentry, found, ?_, hweak⟩
  rw [routed?, hfound, Option.filter_some, hroutes]
  rfl

/-- An import that cannot be led through the index is that of a piece which stays. -/
theorem exists_of_not_routed (hline : line ∈ (Extraction.ofSource cwd path text).record.imports)
    (hroutes : line.routesToIndex table = false) :
    ∃ entry ∈ entries, entry.2.written = line.text ∧
      entry.2.routed? cwd (Path.standardize cwd path) table = none := by
  obtain ⟨entry, hentry, found, hfound, htext, hweak⟩ := h.found.exists_entry hline
  refine ⟨entry, hentry, htext.symm.trans (congrArg ImportLine.text hweak).symm, ?_⟩
  rw [ImportLine.routesToIndex_of_weak hweak] at hroutes
  rw [routed?, hfound, Option.filter_some, hroutes]
  rfl

/-- The names of the pieces that are redirected are plain if those of the imports in the record
are. -/
theorem hasPlainNames_of_routed
    (hnames : ∀ line ∈ (Extraction.ofSource cwd path text).record.imports,
      line.routesToIndex table = true → line.HasPlainNames) :
    ∀ entry ∈ entries, ∀ line ∈ entry.2.routed? cwd (Path.standardize cwd path) table,
      line.HasPlainNames := by
  intro entry hentry found hfound
  obtain ⟨hline, hroutes⟩ := Option.filter_eq_some_iff.mp hfound
  obtain ⟨line, hmem, hweak⟩ := h.found.exists_line hentry hline
  rw [← ImportLine.hasPlainNames_of_weak hweak]
  exact hnames line hmem ((ImportLine.routesToIndex_of_weak hweak).trans hroutes)

end Records

end ImportsAgree

/-- The source at `path` with its imports led through the index as its own record says. -/
def Extraction.redirectImports (cwd path specifier : Text) (table : SymbolTable)
    (text : Text) : Text :=
  (Extraction.ofSource cwd path text).record.redirectImports specifier table text

section Results

/-- A piece with the end of its line and nothing else behind it. -/
def ImportPiece.onLine (written : Text) (statement : ImportStatement) : ImportPiece :=
  ⟨statement, written, ['\n'], []⟩

theorem isImportLine_newline : IsImportLine ['\n'] :=
  isImportLine_of_isClosed (by decide) (by decide) (by decide)

theorem ImportPiece.takesLines_onLine {written : Text} (statement : ImportStatement)
    (hmark : importMark <+: written)
    (hspan : (importSpan .plain 0 (written ++ ['\n'])).1 = written ++ ['\n'])
    (hclosed : IsClosed (written ++ ['\n'])) : (onLine written statement).TakesLines where
  mark := hmark
  line := isImportLine_of_isClosed hspan hclosed (endsLine_append rfl)
  behind := isImportLine_newline
  ends := .blank '\n' (isBlank_of_isLineEnd rfl) .nil

/-- An import of an owned name and, behind code, one with attributes. -/
theorem importsAgree_of_code_between :
    let text : Text :=
      "// app\n".toList ++ "import \x7b A \x7d from './a';\n".toList ++ "f(A);\n".toList ++
        "import b from './b' with \x7b type: 'json' \x7d;\n".toList ++ "g(b);\n".toList
    ImportsAgree false text
      [(7, .onLine "import \x7b A \x7d from './a';".toList
          ⟨false, .bindings none none [(['A'], ['A'])], 18⟩),
        (38, .onLine "import b from './b' with \x7b type: 'json' \x7d;".toList
          ⟨false, .bindings (some ['b']) none [], 14⟩)] := by
  intro text
  generalize hentries : [(7, _), (38, _)] = entries
  have hfacts : text.importSections = entries.map (fun entry => (entry.1, entry.2.cutOut)) ∧
      (readSource false text).imports = entries.map (fun entry =>
        (entry.1, entry.1 + entry.2.written.length, entry.2.statement)) ∧
      (∀ entry ∈ entries, '\\' ∉ entry.2.written ∧
        (entry.2.statement.behind (text.drop entry.1)).hasPlainAttributes = true) ∧
      text.parts.header = "// app\n".toList ∧ (readAll false 0 text.parts.body).imports = [] ∧
      beginsStatement text.parts.body = true := by
    subst hentries
    decide +kernel
  obtain ⟨hsections, hstatements, hplain, hheader, hbody, hbegins⟩ := hfacts
  have hwords : (" app".toList.all fun c => !isLineEnd c) = true := by decide
  have hblank : Trivia true "// app\n".toList :=
    .line " app".toList '\n'
      (fun c hc => (Bool.not_eq_true' _).mp (List.all_eq_true.mp hwords c hc)) rfl
      (.blank '\n' (isBlank_of_isLineEnd rfl) .nil)
  refine ⟨hsections, hstatements, ?_, fun entry hentry => (hplain entry hentry).1,
    fun entry hentry => (hplain entry hentry).2, fun _ => ⟨true, hheader ▸ hblank⟩,
    fun _ => hbody, fun _ _ _ => hbegins⟩
  rw [← hentries, List.forall_mem_cons, List.forall_mem_singleton]
  exact ⟨ImportPiece.takesLines_onLine _ (by decide) (by decide) (by decide),
    ImportPiece.takesLines_onLine _ (by decide) (by decide) (by decide)⟩

variable {cwd path text : Text} {entries : List (Nat × ImportPiece)}

/-- Redirecting the imports of a well-formed source gives a well-formed source again, if the parser
and the cut agree on its imports and what is left behind them is well formed. Every import that
cannot be led through the index stands there as it was written, and redirecting once more changes
nothing. -/
theorem redirectImports_stable (specifier : Text) (table : SymbolTable)
    (hagree : ImportsAgree (usesJsx (Path.standardize cwd path)) text entries)
    (hcomplete : (Extraction.ofSource cwd path text).complete = true)
    (hbody : entries ≠ [] →
      (readAll (usesJsx (Path.standardize cwd path)) 0 text.parts.body).complete = true)
    (hspecifier : specifier.IsQuotable)
    (hnames : ∀ line ∈ (Extraction.ofSource cwd path text).record.imports,
      line.routesToIndex table = true → line.HasPlainNames) :
    let result := Extraction.redirectImports cwd path specifier table text
    (Extraction.ofSource cwd path result).complete = true ∧
      (∀ line ∈ (Extraction.ofSource cwd path text).record.imports,
        line.routesToIndex table = false → line.text <:+: result) ∧
      Extraction.redirectImports cwd path specifier table result = result := by
  intro result
  rcases eq_or_ne entries [] with rfl | hne
  · have hresult : result = text := hagree.redirectImports_eq_self _ _ _
    have hnone : (Extraction.ofSource cwd path text).record.imports = [] :=
      List.map_eq_nil_iff.mp hagree.found.imports_eq
    rw [hresult, hnone]
    exact ⟨hcomplete, List.forall_mem_nil _, hresult⟩
  have hresult : result = _ := hagree.found.redirectImports_eq hne
  have hleads := hagree.leads hne hspecifier (hagree.hasPlainNames_of_routed hnames)
  have hne' : (entries.map Prod.snd).map
      (ImportPiece.redirect cwd (Path.standardize cwd path) specifier table) ≠ [] := by
    simpa using hne
  refine ⟨?_, ?_, ?_⟩
  · rw [hresult]
    exact (hleads.complete_eq hne').trans (hbody hne)
  · intro line hline hroutes
    obtain ⟨entry, hentry, hwritten, hnone⟩ := hagree.exists_of_not_routed hline hroutes
    have hkept := List.mem_map_of_mem
      (f := ImportPiece.redirect cwd (Path.standardize cwd path) specifier table)
      (List.mem_map_of_mem (f := Prod.snd) hentry)
    rw [ImportPiece.redirect_of_not_routed hnone] at hkept
    rw [hresult, ← hwritten]
    exact (ImportPiece.written_infix_source hkept).trans (List.suffix_append _ _).isInfix
  · rw [hresult]
    refine (hleads.redirectImports_eq hne').trans ?_
    rw [ImportPiece.source_redirect_redirect hspecifier]

/-- Code stands between two imports, of which one asks for an owned name and the other one has
attributes. -/
theorem redirectImports_stable_code_between :
    let path : Text := "/p/app.ts".toList
    let table : SymbolTable := ⟨[(['A'], "/p/a.ts".toList)]⟩
    let text : Text :=
      "// app\n".toList ++ "import \x7b A \x7d from './a';\n".toList ++ "f(A);\n".toList ++
        "import b from './b' with \x7b type: 'json' \x7d;\n".toList ++ "g(b);\n".toList
    let result : Text :=
      "// app\n".toList ++ "import \x7b A \x7d from \"./index\";\n".toList ++
        "import b from './b' with \x7b type: 'json' \x7d;\n".toList ++ "f(A);\n".toList ++
          "g(b);\n".toList
    Extraction.redirectImports ['/'] path "./index".toList table text = result ∧
      (Extraction.ofSource ['/'] path result).complete = true ∧
      "import b from './b' with \x7b type: 'json' \x7d;".toList <:+: result ∧
      Extraction.redirectImports ['/'] path "./index".toList table result = result := by
  intro path table text result
  have hjsx : usesJsx (Path.standardize ['/'] path) = false := by decide
  have hfacts : (Extraction.ofSource ['/'] path text).complete = true ∧
      (readAll false 0 text.parts.body).complete = true ∧
      Extraction.redirectImports ['/'] path "./index".toList table text = result ∧
      (∀ line ∈ (Extraction.ofSource ['/'] path text).record.imports,
        line.routesToIndex table = true → line.HasPlainNames) ∧
      ∃ line ∈ (Extraction.ofSource ['/'] path text).record.imports,
        line.text = "import b from './b' with \x7b type: 'json' \x7d;".toList ∧
          line.routesToIndex table = false := by
    decide +kernel
  obtain ⟨hcomplete, hbody, hresult, hnames, line, hline, htext, hroutes⟩ := hfacts
  obtain ⟨hwell, hkept, hagain⟩ := redirectImports_stable "./index".toList table
    (hjsx ▸ importsAgree_of_code_between) hcomplete (fun _ => hjsx ▸ hbody) (by decide) hnames
  have hstands := htext ▸ hkept line hline hroutes
  rw [hresult] at hwell hagain hstands
  exact ⟨hresult, hwell, hstands, hagain⟩

/-- A default import broken before `from` is torn apart: its first line is put together with the
next import, and the source is no longer well formed. -/
theorem redirectImports_tears_broken_line :
    let path : Text := "/p/src/app.ts".toList
    let text : Text :=
      "import A\n".toList ++ "  from './a';\n".toList ++ "import \x7b B \x7d from './b';\n".toList
    let result := Extraction.redirectImports ['/'] path "../index".toList ⟨[]⟩ text
    (Extraction.ofSource ['/'] path text).complete = true ∧
      (Extraction.ofSource ['/'] path result).complete = false ∧
      ∃ line ∈ (Extraction.ofSource ['/'] path text).record.imports,
        line.routesToIndex ⟨[]⟩ = false ∧ ¬ line.text <:+: result := by
  decide +kernel

/-- If the parser and the cut agree on the imports of a source, every import that can be led through
the index is: it then binds the same names from the index, and afterwards no import that could be
led through the index names another module. -/
theorem redirectImports_complete (specifier : Text) (table : SymbolTable)
    (hagree : ImportsAgree (usesJsx (Path.standardize cwd path)) text entries)
    (hspecifier : specifier.IsQuotable)
    (hnames : ∀ line ∈ (Extraction.ofSource cwd path text).record.imports,
      line.routesToIndex table = true → line.HasPlainNames) :
    let after := Extraction.ofSource cwd path
      (Extraction.redirectImports cwd path specifier table text)
    (∀ line ∈ (Extraction.ofSource cwd path text).record.imports,
      line.routesToIndex table = true →
        ∃ line' ∈ after.record.imports, line'.modulePath = specifier ∧ line'.names = line.names ∧
          ∀ name ∈ line.names, line'.exportedName name = line.exportedName name) ∧
      ∀ line' ∈ after.record.imports, line'.routesToIndex table = true →
        line'.modulePath = specifier := by
  intro after
  rcases eq_or_ne entries [] with rfl | hne
  · have hresult : Extraction.redirectImports cwd path specifier table text = text :=
      hagree.redirectImports_eq_self _ _ _
    have hnone : (Extraction.ofSource cwd path text).record.imports = [] :=
      List.map_eq_nil_iff.mp hagree.found.imports_eq
    have hafter : after.record.imports = [] := by
      change (Extraction.ofSource cwd path (Extraction.redirectImports cwd path specifier table
        text)).record.imports = []
      rw [hresult, hnone]
    rw [hnone, hafter]
    exact ⟨List.forall_mem_nil _, List.forall_mem_nil _⟩
  have hresult : Extraction.redirectImports cwd path specifier table text = _ :=
    hagree.found.redirectImports_eq hne
  have hleads := hagree.leads hne hspecifier (hagree.hasPlainNames_of_routed hnames)
  have hfound := hleads.found (by simpa using hne)
  rw [← hresult] at hfound
  constructor
  · intro line hline hroutes
    obtain ⟨entry, hentry, found, hrouted, hweak⟩ := hagree.exists_routed hline hroutes
    have hredirected : (entry.2.redirect cwd (Path.standardize cwd path) specifier table).routed?
        cwd (Path.standardize cwd path) table = _ := ImportPiece.routed?_redirect hspecifier
    rw [hrouted] at hredirected
    have hpiece := List.mem_map_of_mem
      (f := ImportPiece.redirect cwd (Path.standardize cwd path) specifier table)
      (List.mem_map_of_mem (f := Prod.snd) hentry)
    obtain ⟨entry', hentry', heq⟩ := ImportPiece.exists_mem_placed hpiece
    rw [← heq] at hredirected
    obtain ⟨line', hline', hweak'⟩ :=
      hfound.exists_line hentry' (Option.filter_eq_some_iff.mp hredirected).1
    refine ⟨line', hline', congrArg ImportLine.modulePath hweak',
      (congrArg ImportLine.names hweak').trans (congrArg ImportLine.names hweak).symm, ?_⟩
    intro name hname
    have hmem : name ∈ found.names := congrArg ImportLine.names hweak ▸ hname
    rw [ImportLine.exportedName_of_weak hweak', ImportLine.exportedName_of_weak hweak]
    exact ImportLine.exportedName_redirectedLine hmem
  · intro line' hline' hroutes
    obtain ⟨entry', hentry', found', hfound', -, hweak⟩ := hfound.exists_entry hline'
    obtain ⟨piece, hpiece, heq⟩ := List.mem_map.mp (ImportPiece.mem_of_mem_placed hentry')
    rw [ImportLine.routesToIndex_of_weak hweak] at hroutes
    have hredirected : (piece.redirect cwd (Path.standardize cwd path) specifier table).routed? cwd
        (Path.standardize cwd path) table = _ := ImportPiece.routed?_redirect hspecifier
    rw [heq, ImportPiece.routed?, hfound', Option.filter_some, hroutes] at hredirected
    obtain ⟨found, -, rfl⟩ := Option.map_eq_some_iff.mp hredirected.symm
    exact congrArg ImportLine.modulePath hweak

/-- Of two imports with code between them one is led through the index. -/
theorem redirectImports_complete_code_between :
    let path : Text := "/p/app.ts".toList
    let table : SymbolTable := ⟨[(['A'], "/p/a.ts".toList)]⟩
    let text : Text :=
      "// app\n".toList ++ "import \x7b A \x7d from './a';\n".toList ++ "f(A);\n".toList ++
        "import b from './b' with \x7b type: 'json' \x7d;\n".toList ++ "g(b);\n".toList
    let before := Extraction.ofSource ['/'] path text
    let after := Extraction.ofSource ['/'] path
      (Extraction.redirectImports ['/'] path "./index".toList table text)
    (∃ line ∈ before.record.imports,
      line.modulePath = "./a".toList ∧ line.routesToIndex table = true) ∧
      (∃ line' ∈ after.record.imports,
        line'.modulePath = "./index".toList ∧ line'.names = [['A']]) ∧
      ∀ line' ∈ after.record.imports, line'.routesToIndex table = true →
        line'.modulePath = "./index".toList := by
  intro path table text before after
  have hjsx : usesJsx (Path.standardize ['/'] path) = false := by decide
  have hfacts : (∀ line ∈ before.record.imports,
        line.routesToIndex table = true → line.HasPlainNames) ∧
      ∃ line ∈ before.record.imports, line.modulePath = "./a".toList ∧
        line.names = [['A']] ∧ line.routesToIndex table = true := by
    decide +kernel
  obtain ⟨hplain, line, hline, hmodule, hnames, hroutes⟩ := hfacts
  obtain ⟨hredirected, hall⟩ := redirectImports_complete "./index".toList table
    (hjsx ▸ importsAgree_of_code_between) (by decide) hplain
  obtain ⟨line', hline', hmodule', hnames', -⟩ := hredirected line hline hroutes
  exact ⟨⟨line, hline, hmodule, hroutes⟩, ⟨line', hline', hmodule', hnames'.trans hnames⟩, hall⟩

/-- An import broken before `from`, and one without a blank behind its first word: both could be
led through the index, and both still name the file afterwards. -/
theorem redirectImports_misses_broken_line :
    let path : Text := "/p/src/app.ts".toList
    let table : SymbolTable := ⟨[(['A'], "/p/src/a.ts".toList)]⟩
    ∀ text ∈ ["import \x7b A \x7d\n  from './a';\n".toList,
        "import\x7b A \x7d from './a';\n".toList],
      (Extraction.ofSource ['/'] path text).complete = true ∧
        ∃ line ∈ (Extraction.ofSource ['/'] path
            (Extraction.redirectImports ['/'] path "../index".toList table text)).record.imports,
          line.routesToIndex table = true ∧ line.modulePath = "./a".toList := by
  decide +kernel

end Results

end Disentangle
