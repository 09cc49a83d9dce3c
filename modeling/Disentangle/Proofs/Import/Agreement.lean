import Disentangle.Proofs.Import.Gathering
import Disentangle.Proofs.Section.Gathered

/-!
Sources for which the parser and the cut into sections agree on where an import begins and ends.
Redirecting the imports of such a source gives one that begins with its imports, each on lines of
its own, and there the two agree
again. -/

namespace Disentangle

open Text TypeScript Section

namespace Text

theorem nodup_importSections (t : Text) : (t.importSections.map Prod.fst).Nodup := by
  have hpairwise : t.importSections.Pairwise fun s later => s.1 < later.1 :=
    (fills_sections t).pairwise.filter _
  rw [List.nodup_iff_pairwise_ne, List.pairwise_map]
  exact hpairwise.imp fun hlt => Nat.ne_of_lt hlt

theorem prefix_of_mem_importSections {t : Text} {s : Nat × Section} (hs : s ∈ t.importSections) :
    s.2.text <+: t.drop s.1 := by
  have hslice := (fills_sections t).slice_of_mem (List.mem_filter.mp hs).1
  rw [slice, Nat.add_sub_cancel_left] at hslice
  exact hslice ▸ List.take_prefix _ _

theorem map_snd_importSections (t : Text) : t.importSections.map Prod.snd = t.importsOf := by
  conv => rhs; rw [importsOf, ← map_snd_positioned 0 t.sections, List.filter_map]
  rfl

/-- The comments before an import are whole. -/
theorem isComment_header {t : Text} (himports : t.importSections ≠ []) :
    IsComment t.parts.header := by
  rw [parts_eq]
  refine isComment_commentSpan (commentSpan_ne_nil_of_importsOf ?_)
  rw [← map_snd_importSections]
  simpa using himports

end Text

/-- The parser and the cut find the same imports in a source, each on lines of its own, without
backslashes, and with attributes that are names and literals. Without them the source is comments
and code: its imports are found by both, and the code that comes to stand behind the last of them
goes on with it no more than what stood there. -/
structure ImportsAgree (jsx : Bool) (text : Text) (entries : List (Nat × ImportPiece)) : Prop where
  sections : text.importSections = entries.map fun entry => (entry.1, entry.2.cutOut)
  statements : (readSource jsx text).imports = entries.map fun entry =>
    (entry.1, entry.1 + entry.2.written.length, entry.2.statement)
  lines : ∀ entry ∈ entries, entry.2.TakesLines
  escapes : ∀ entry ∈ entries, '\\' ∉ entry.2.written
  attributes : ∀ entry ∈ entries,
    (entry.2.statement.behind (text.drop entry.1)).hasPlainAttributes = true
  header : entries ≠ [] → ∃ breaks, Trivia breaks text.parts.header
  body : entries ≠ [] → (readAll jsx 0 text.parts.body).imports = []
  begins : ∀ entry ∈ entries.getLast?,
    beginsStatement (text.drop (entry.1 + entry.2.line.length)) = true →
      beginsStatement text.parts.body = true

namespace ImportPiece

/-- The import sections of a source and its import statements are pieces at given places. -/
structure Found (jsx : Bool) (text : Text) (entries : List (Nat × ImportPiece)) : Prop where
  sections : text.importSections = entries.map fun entry => (entry.1, entry.2.cutOut)
  statements : (readSource jsx text).imports = entries.map fun entry =>
    (entry.1, entry.1 + entry.2.written.length, entry.2.statement)
  lines : ∀ entry ∈ entries, entry.2.TakesLines
  spelled : ∀ entry ∈ entries, ∃ rest, entry.2.SpelledBefore rest

/-- The pieces are spelled as their statements behind a header, and the code behind them holds no
imports, for the parser and for the cut into sections. -/
structure Leads (jsx : Bool) (header : Text) (pieces : List ImportPiece) (body : Text) : Prop where
  comment : IsComment header
  blank : ∃ breaks, Trivia breaks header
  lines : ∀ piece ∈ pieces, piece.StandsApart
  begins : BeginsLine body
  code : body.HasNoImports
  spelled : Spelled body pieces
  others : (readAll jsx 0 body).imports = []

variable {jsx : Bool} {header text body cwd path specifier : Text} {pieces : List ImportPiece}
  {entries : List (Nat × ImportPiece)} {entry : Nat × ImportPiece} {table : SymbolTable}
  {line : ImportLine}

/-- A piece stands in a source where its section does. -/
theorem line_prefix_of_sections
    (hsections : text.importSections = entries.map fun entry => (entry.1, entry.2.cutOut))
    (hentry : entry ∈ entries) : entry.2.line <+: text.drop entry.1 := by
  have hmem : (entry.1, entry.2.cutOut) ∈ text.importSections :=
    hsections ▸ List.mem_map_of_mem hentry
  exact prefix_of_mem_importSections hmem

namespace Found

variable (h : Found jsx text entries)
include h

theorem places : (entries.map Prod.fst).Nodup := by
  have hnodup := nodup_importSections text
  rwa [h.sections, List.map_map] at hnodup

theorem written_prefix (hentry : entry ∈ entries) : entry.2.written <+: text.drop entry.1 :=
  (List.prefix_append _ _).trans (line_prefix_of_sections h.sections hentry)

end Found

section Records

variable (h : Found (usesJsx (Path.standardize cwd path)) text entries)
include h

/-- The imports of the record are those of the pieces. -/
theorem Found.imports_eq :
    (Extraction.ofSource cwd path text).record.imports.map ImportLine.weak =
      importLines cwd (Path.standardize cwd path) entries := by
  rw [Extraction.record_ofSource, FileRecord.map_weak_ofStatements]
  exact importLines_of_imports h.statements fun entry hentry => h.written_prefix hentry

theorem Found.redirectImports_eq (hne : entries ≠ []) :
    (Extraction.ofSource cwd path text).record.redirectImports specifier table text =
      text.parts.header ++
        source ((entries.map Prod.snd).map
          (redirect cwd (Path.standardize cwd path) specifier table)) text.parts.body :=
  redirectImports_pieces h.places h.sections
    (fun entry hentry => (h.lines entry hentry).behind.endsLine) h.spelled hne h.imports_eq

/-- Every import line of the record is that of a piece. -/
theorem Found.exists_entry
    (hline : line ∈ (Extraction.ofSource cwd path text).record.imports) :
    ∃ entry ∈ entries, ∃ found,
      entry.2.importLine? cwd (Path.standardize cwd path) = some found ∧
        found.text = entry.2.written ∧ line.weak = found.moved entry.1 := by
  have hmem := List.mem_map_of_mem (f := ImportLine.weak) hline
  rw [h.imports_eq] at hmem
  obtain ⟨entry, hentry, hfound⟩ := List.mem_filterMap.mp hmem
  obtain ⟨found, hfound, heq⟩ := Option.map_eq_some_iff.mp hfound
  obtain ⟨_, hspelled⟩ := h.spelled entry hentry
  obtain ⟨found', hfound', htext⟩ :=
    exists_importLine cwd (Path.standardize cwd path) hspelled
  obtain rfl := Option.some.inj (hfound.symm.trans hfound')
  exact ⟨entry, hentry, found, hfound, htext, heq.symm⟩

/-- Every piece makes an import line of the record. -/
theorem Found.exists_line (hentry : entry ∈ entries) {found : ImportLine}
    (hfound : entry.2.importLine? cwd (Path.standardize cwd path) = some found) :
    ∃ line ∈ (Extraction.ofSource cwd path text).record.imports,
      line.weak = found.moved entry.1 := by
  have hmem : found.moved entry.1 ∈ importLines cwd (Path.standardize cwd path) entries :=
    List.mem_filterMap.mpr ⟨entry, hentry, by rw [hfound, Option.map_some]⟩
  rw [← h.imports_eq] at hmem
  exact List.mem_map.mp hmem

end Records

end ImportPiece

namespace ImportsAgree

open ImportPiece

variable {jsx : Bool} {text cwd path specifier : Text} {entries : List (Nat × ImportPiece)}
  {entry : Nat × ImportPiece} {table : SymbolTable}

/-- What stands behind the line of a piece. -/
theorem drop_eq (h : ImportsAgree jsx text entries) (hentry : entry ∈ entries) :
    text.drop entry.1 =
      entry.2.written ++
        (entry.2.behind ++ text.drop (entry.1 + entry.2.line.length)) := by
  have hline := List.prefix_iff_eq_append.mp (line_prefix_of_sections h.sections hentry)
  rw [List.drop_drop, ImportPiece.line, List.append_assoc] at hline
  exact hline.symm

/-- A piece is spelled where it stands. -/
theorem spelledBefore (h : ImportsAgree jsx text entries) (hentry : entry ∈ entries) :
    entry.2.SpelledBefore (text.drop (entry.1 + entry.2.line.length)) := by
  have hmem : (entry.1, entry.1 + entry.2.written.length, entry.2.statement) ∈
      (readSource jsx text).imports := h.statements ▸ List.mem_map_of_mem hentry
  obtain ⟨width, hstop, hread⟩ := readStatement_of_mem_readSource (Reading.mem_imports.mp hmem)
  obtain rfl := Nat.add_left_cancel hstop
  have hplain := h.attributes entry hentry
  rw [h.drop_eq hentry] at hread hplain
  obtain ⟨t, ht⟩ := (h.lines entry hentry).exists_import
    (entry.2.behind ++ text.drop (entry.1 + entry.2.line.length))
  have hword := (reading_import t).1
  rw [← show importMark = "import ".toList from rfl, ← ht] at hword
  obtain ⟨attributes, written, rest, heq, hlength, -, hspells⟩ :=
    exists_of_readStatement hread hword hplain
  obtain ⟨hwritten, rfl⟩ := List.append_inj heq hlength
  rw [← hwritten] at hspells
  exact ⟨attributes, hspells (h.escapes entry hentry)⟩

theorem found (h : ImportsAgree jsx text entries) : Found jsx text entries where
  sections := h.sections
  statements := h.statements
  lines := h.lines
  spelled := fun _ hentry => ⟨_, h.spelledBefore hentry⟩

/-- When they are redirected the imports lead. -/
theorem leads (h : ImportsAgree jsx text entries) (hne : entries ≠ [])
    (hspecifier : specifier.IsQuotable)
    (hnames : ∀ entry ∈ entries, ∀ line ∈ entry.2.routed? cwd path table, line.HasPlainNames) :
    Leads jsx text.parts.header
      ((entries.map Prod.snd).map (ImportPiece.redirect cwd path specifier table))
      text.parts.body where
  comment := isComment_header (by rw [h.sections]; simpa using hne)
  blank := h.header hne
  lines := by
    rw [List.forall_mem_map, List.forall_mem_map]
    exact fun entry hentry =>
      (h.lines entry hentry).redirect hspecifier (hnames entry hentry)
  begins := beginsLine_body text
  code := hasNoImports_body text
  spelled := spelled_redirect h.lines (fun _ hentry => h.spelledBefore hentry) h.begins
    hspecifier hnames
  others := h.body hne

end ImportsAgree

namespace ImportPiece

variable {jsx complete : Bool} {header body cwd path specifier : Text}
  {pieces : List ImportPiece} {piece : ImportPiece} {table : SymbolTable} {others : List Located}
  {start : Nat}

theorem readSource_lead (hblank : ∃ breaks, Trivia breaks header)
    (hlines : ∀ piece ∈ pieces, piece.StandsApart) (hne : pieces ≠ []) :
    readSource jsx (header ++ source pieces body) =
      readAll jsx header.length (source pieces body) := by
  obtain ⟨piece, rest, rfl⟩ := List.exists_cons_of_ne_nil hne
  obtain ⟨breaks, hblank⟩ := hblank
  obtain ⟨t, ht⟩ := (hlines piece List.mem_cons_self).exists_import
    (piece.behind ++ (piece.comments ++ source rest body))
  have himport : readSource jsx (header ++ ("import ".toList ++ t)) = _ :=
    readSource_import hblank t
  have hmark : importMark = "import ".toList := rfl
  rw [source_cons', ht, hmark, himport, readAll_trivia hblank, Nat.zero_add]

theorem blank_comments (hlines : ∀ piece ∈ pieces, piece.StandsApart) :
    ∃ breaks, Trivia breaks (pieces.flatMap comments) := by
  induction pieces with
  | nil => exact ⟨false, .nil⟩
  | cons piece rest ih =>
    obtain ⟨hpiece, hrest⟩ := List.forall_mem_cons.mp hlines
    obtain ⟨_, hblank⟩ := hpiece.blank
    obtain ⟨_, hblanks⟩ := ih hrest
    rw [List.flatMap_cons]
    exact ⟨_, hblank.append hblanks⟩

theorem imports_locate :
    (Reading.mk (locate start pieces ++ others) complete).imports =
      (placed start pieces).map (fun entry =>
        (entry.1, entry.1 + entry.2.written.length, entry.2.statement)) ++
          (Reading.mk others complete).imports := by
  unfold Reading.imports
  dsimp only
  rw [List.filterMap_append, locate, List.filterMap_map, ← List.filterMap_eq_map]
  rfl

/-- The import sections of a source that begins with its imports. -/
theorem importSections_source (hheader : IsComment header)
    (hlines : ∀ piece ∈ pieces, piece.StandsApart) (hbody : BeginsLine body)
    (hcode : body.HasNoImports) :
    importSections (header ++ source pieces body) =
      (placed header.length pieces).map fun entry => (entry.1, entry.2.cutOut) := by
  change importSectionsFrom 0 (header ++ source pieces body) = _
  rw [importSectionsFrom_comment hheader, Nat.zero_add, importSectionsFrom_source hlines hbody,
    importSectionsFrom_eq_nil_iff.mpr hcode, List.append_nil]

/-- The parts of a source that begins with its imports. The comments between them are put before
the code. -/
theorem parts_source (hheader : IsComment header)
    (hlines : ∀ piece ∈ pieces, piece.StandsApart) (hbody : BeginsLine body)
    (hcode : body.HasNoImports) (hne : pieces ≠ []) :
    (parts (header ++ source pieces body)).header = header ∧
      (parts (header ++ source pieces body)).body = pieces.flatMap comments ++ body := by
  have hheaderPart : (parts (header ++ source pieces body)).header = header := by
    obtain ⟨piece, rest, rfl⟩ := List.exists_cons_of_ne_nil hne
    obtain ⟨hpiece, hrest⟩ := List.forall_mem_cons.mp hlines
    rw [source_cons]
    exact header_parts hheader hpiece.mark_line hpiece.line
      (beginsLine_append hpiece.apart (beginsLine_source hrest hbody))
  refine ⟨hheaderPart, ?_⟩
  have hwhole := header_append_body (header ++ source pieces body)
  rw [hheaderPart, withoutImports_comment hheader, withoutImports_source hlines hbody,
    withoutImports_eq_self hcode] at hwhole
  exact List.append_cancel_left hwhole

theorem map_snd_placed : (placed start pieces).map Prod.snd = pieces := by
  induction pieces generalizing start with
  | nil => rfl
  | cons piece rest ih => rw [placed, List.map_cons, ih]

theorem mem_of_mem_placed {entry : Nat × ImportPiece} (h : entry ∈ placed start pieces) :
    entry.2 ∈ pieces := by
  have hmem := List.mem_map_of_mem (f := Prod.snd) h
  rwa [map_snd_placed] at hmem

theorem exists_mem_placed (hpiece : piece ∈ pieces) :
    ∃ entry ∈ placed start pieces, entry.2 = piece := by
  have hplaced : (placed start pieces).map Prod.snd = pieces := map_snd_placed
  exact List.mem_map.mp (hplaced.symm ▸ hpiece)

namespace Leads

variable (h : Leads jsx header pieces body)
include h

theorem readSource_eq (hne : pieces ≠ []) :
    ∃ p, readSource jsx (header ++ source pieces body) =
      ⟨locate header.length pieces ++ (readAll jsx p body).statements,
        (readAll jsx p body).complete⟩ := by
  rw [readSource_lead h.blank h.lines hne, readAll_source h.lines h.spelled]
  exact ⟨_, rfl⟩

/-- A source that begins with its imports is well formed if the code behind them is. -/
theorem complete_eq (hne : pieces ≠ []) :
    (readSource jsx (header ++ source pieces body)).complete = (readAll jsx 0 body).complete := by
  obtain ⟨p, hread⟩ := h.readSource_eq hne
  rw [hread]
  exact readAll_position.1

theorem found (hne : pieces ≠ []) :
    Found jsx (header ++ source pieces body) (placed header.length pieces) where
  sections := importSections_source h.comment h.lines h.begins h.code
  statements := by
    obtain ⟨p, hread⟩ := h.readSource_eq hne
    have hothers : (readAll jsx p body).imports = [] := imports_readAll_position h.others
    rw [hread, imports_locate]
    exact (congrArg _ hothers).trans (List.append_nil _)
  lines := fun _ hentry => (h.lines _ (mem_of_mem_placed hentry)).toTakesLines
  spelled := fun _ hentry => h.spelled.exists_spells (mem_of_mem_placed hentry)

end Leads

theorem placed_ne_nil (hne : pieces ≠ []) : placed start pieces ≠ [] := by
  obtain ⟨piece, rest, rfl⟩ := List.exists_cons_of_ne_nil hne
  exact List.cons_ne_nil _ _

/-- Redirecting a source that begins with its imports redirects these, and puts the comments between
them before the code. -/
theorem Leads.redirectImports_eq (hne : pieces ≠ [])
    (h : Leads (usesJsx (Path.standardize cwd path)) header pieces body) :
    (Extraction.ofSource cwd path (header ++ source pieces body)).record.redirectImports specifier
        table (header ++ source pieces body) =
      header ++ source (pieces.map (redirect cwd (Path.standardize cwd path) specifier table))
        (pieces.flatMap comments ++ body) := by
  obtain ⟨hheader, hbody⟩ := parts_source h.comment h.lines h.begins h.code hne
  rw [(h.found hne).redirectImports_eq (placed_ne_nil hne), hheader, hbody, map_snd_placed]

/-- A redirected source is left as it is by a second pass. -/
theorem source_redirect_redirect (hspecifier : specifier.IsQuotable) :
    source ((pieces.map (redirect cwd path specifier table)).map
        (redirect cwd path specifier table))
        ((pieces.map (redirect cwd path specifier table)).flatMap comments ++ body) =
      source (pieces.map (redirect cwd path specifier table)) body := by
  unfold source
  simp only [List.flatMap_map, whole, comments_redirect, List.append_nil,
    line_redirect_redirect hspecifier]
  simp

/-- Every piece stands in its source in one piece. -/
theorem written_infix_source (hpiece : piece ∈ pieces) : piece.written <:+: source pieces body := by
  obtain ⟨earlier, later, rfl⟩ := List.append_of_mem hpiece
  refine ⟨earlier.flatMap whole, piece.behind ++ (piece.comments ++ source later body), ?_⟩
  simp [source, whole, ImportPiece.line]

end ImportPiece

end Disentangle
