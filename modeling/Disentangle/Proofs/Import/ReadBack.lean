import Disentangle.Proofs.Import.Simultaneous
import Disentangle.Proofs.TypeScript.Binding
import Disentangle.Proofs.TypeScript.Exchange

/-!
Imports that are pointed at other modules, read back. The text that comes out is well formed and has
the same imports in the same order, each of the module that it was given, as long as the literal
that is exchanged in a statement is the one that names its
module. -/

namespace Disentangle

open Text TypeScript

/-- A path that can stand in quotes of either kind as it is. -/
def Text.IsUnquoted (t : Text) : Prop :=
  ∀ c ∈ t, c ≠ '"' ∧ c ≠ '\'' ∧ c ≠ '\\' ∧ c ≠ '\n' ∧ c ≠ '\r'

instance (t : Text) : Decidable t.IsUnquoted :=
  List.decidableBAll (fun c => c ≠ '"' ∧ c ≠ '\'' ∧ c ≠ '\\' ∧ c ≠ '\n' ∧ c ≠ '\r') t

theorem Text.IsUnquoted.isPlain {t : Text} (h : t.IsUnquoted) {quote : Char}
    (hquote : quote = '"' ∨ quote = '\'') : (Token.string quote t).IsPlain := by
  refine ⟨hquote, fun c hc => ?_⟩
  obtain ⟨hdouble, hsingle, hrest⟩ := h c hc
  rcases hquote with rfl | rfl
  · exact ⟨hdouble, hrest⟩
  · exact ⟨hsingle, hrest⟩

section Exchanged

variable {written : ImportLine → Text} {p : Nat} {t t' front rest : Text}
  {lines earlier later : List ImportLine} {line : ImportLine}

/-- Lines that are kept leave the text as it is. -/
theorem Exchanged.eq_of_kept (h : Exchanged written p t lines t')
    (hkept : ∀ line ∈ lines, written line = line.text) : t' = t := by
  induction h with
  | rest => rfl
  | line _ _ ih =>
    obtain ⟨hline, hkept⟩ := List.forall_mem_cons.mp hkept
    rw [hline, ih hkept]

/-- What stands before all lines is kept. -/
theorem Exchanged.of_front (h : Exchanged written p (front ++ rest) lines t')
    (hlines : ∀ line ∈ lines, p + front.length ≤ line.start) :
    ∃ rest', t' = front ++ rest' ∧ Exchanged written (p + front.length) rest lines rest' := by
  generalize ht : front ++ rest = t at h
  cases h with
  | rest => exact ⟨rest, ht.symm, .rest _ _⟩
  | @line _ gap behind result line lines hoffset h =>
    have hle := hlines line List.mem_cons_self
    rw [ImportLine.start, hoffset] at hle
    obtain ⟨gap, rfl⟩ : front <+: gap := by
      refine List.prefix_of_prefix_length_le (ht ▸ List.prefix_append front rest)
        (List.prefix_append gap _) ?_
      omega
    rw [List.append_assoc, List.append_cancel_left_eq] at ht
    subst ht
    refine ⟨gap ++ (written line ++ result), List.append_assoc _ _ _, .line ?_ ?_⟩
    · rw [hoffset, List.length_append]
      omega
    · rwa [List.length_append, ← Nat.add_assoc] at h

/-- Up to the first line that is changed the text is the same. -/
theorem Exchanged.exists_common (h : Exchanged written p t (earlier ++ line :: later) t')
    (hearlier : ∀ line ∈ earlier, written line = line.text) :
    ∃ front rest rest', t = front ++ (line.text ++ rest) ∧ t' = front ++ (written line ++ rest') ∧
      p + front.length = line.start := by
  induction earlier generalizing p t t' with
  | nil =>
    cases h with
    | @line _ gap behind result _ _ hoffset =>
      exact ⟨gap, behind, result, rfl, rfl, (ImportLine.start_eq hoffset).symm⟩
  | cons first earlier ih =>
    obtain ⟨hfirst, hearlier⟩ := List.forall_mem_cons.mp hearlier
    cases h with
    | @line _ gap behind result _ _ hoffset h =>
      obtain ⟨front, rest, rest', rfl, rfl, hplace⟩ := ih h hearlier
      refine ⟨gap ++ (first.text ++ front), rest, rest', ?_, ?_, ?_⟩
      · simp only [List.append_assoc]
      · rw [hfirst]
        simp only [List.append_assoc]
      · rw [← hplace]
        simp only [List.length_append]
        omega

/-- A line that stands first, or what stands there instead of one, is exchanged before the
others. -/
theorem Exchanged.of_first {first? : Option ImportLine} {whole : Text}
    (h : Exchanged written p (front ++ (whole ++ rest)) (first?.toList ++ later) t')
    (hfirst : ∀ first ∈ first?, first.offset = (p + front.length : Nat) ∧ first.text = whole)
    (hlater : ∀ line ∈ later, p + front.length + whole.length ≤ line.start) :
    ∃ rest', t' = front ++ (first?.elim whole written ++ rest') ∧
      Exchanged written (p + front.length + whole.length) rest later rest' := by
  cases first? with
  | none =>
    rw [Option.toList_none, List.nil_append, ← List.append_assoc] at h
    have hlength : p + (front ++ whole).length = p + front.length + whole.length := by
      rw [List.length_append, Nat.add_assoc]
    obtain ⟨rest', rfl, hrest⟩ := h.of_front (hlength ▸ hlater)
    exact ⟨rest', List.append_assoc _ _ _, hlength ▸ hrest⟩
  | some first =>
    obtain ⟨hplace, rfl⟩ := hfirst first rfl
    rw [Option.toList_some, List.singleton_append] at h
    generalize ht : front ++ (first.text ++ rest) = t at h
    cases h with
    | @line _ gap behind result _ _ hoffset h =>
      obtain ⟨rfl, hrest⟩ := List.append_inj ht (by omega)
      obtain rfl := List.append_cancel_left hrest
      exact ⟨result, rfl, h⟩

end Exchanged

namespace ImportLine

variable {resolve : ImportLine → Text} {cwd path text written modulePath : Text}
  {line found : ImportLine} {statement : ImportStatement} {start stop : Nat} {jsx : Bool}

/-- The line whose statement names another module, in a literal in the same quotes at the same
place. -/
def repointed (cwd path modulePath : Text) (quote : Char) (left right : Text) (line : ImportLine) :
    ImportLine :=
  { line with
    modulePath := modulePath
    resolvedPath := Path.resolveImport cwd path modulePath
    text := left ++ (quote :: modulePath ++ [quote] ++ right)
    specifier := quote :: modulePath ++ [quote] }

/-- The line `found` is what `line` becomes, at some place: the literal that is its specifier is
exchanged for one of the module that `resolve` gives, and nothing else. -/
def ReadsBack (resolve : ImportLine → Text) (cwd path : Text) (line found : ImportLine) : Prop :=
  ∃ quote left right offset, line.specifier = quote :: line.modulePath ++ [quote] ∧
    line.text = left ++ (line.specifier ++ right) ∧
    line.pointed resolve = left ++ (quote :: resolve line ++ [quote] ++ right) ∧
    found.weak = (line.repointed cwd path (resolve line) quote left right).weak.moved offset

/-- The literal that is exchanged in the statement of the line is the one that names its module, and
the statement is a plain one. -/
structure IsExchangeable (jsx : Bool) (text : Text) (line : ImportLine) : Prop where
  plain : isPlainImport jsx (text.drop line.start) = true
  literal : lastPositionOf? line.specifier line.text = moduleAt? jsx (text.drop line.start)

instance (jsx : Bool) (text : Text) (line : ImportLine) :
    Decidable (line.IsExchangeable jsx text) :=
  decidable_of_iff
    (isPlainImport jsx (text.drop line.start) = true ∧
      lastPositionOf? line.specifier line.text = moduleAt? jsx (text.drop line.start))
    ⟨fun h => ⟨h.1, h.2⟩, fun h => ⟨h.plain, h.literal⟩⟩

/-- Nothing changes in a line whose statement names its own module again. -/
theorem repointed_self {quote : Char} {left right : Text}
    (hspecifier : line.specifier = quote :: line.modulePath ++ [quote])
    (htext : line.text = left ++ (line.specifier ++ right))
    (hresolved : line.resolvedPath = Path.resolveImport cwd path line.modulePath) :
    line.repointed cwd path line.modulePath quote left right = line := by
  unfold repointed
  rw [← hresolved, ← hspecifier, ← htext]

/-- The line that a statement makes depends on the literal in it only as far as it names a
module. -/
theorem ofStatement?_literal (cwd path : Text) {left : Text} (right : Text) (quote : Char)
    (hleft : left.length = statement.moduleAt) :
    ∃ line : ImportLine, ∀ body', (Token.string quote body').IsPlain →
      ofStatement? cwd path (left ++ ((Token.string quote body').text ++ right)) 0
          (left ++ ((Token.string quote body').text ++ right)).length statement =
        some (line.repointed cwd path body' quote left right) := by
  have hread (body' : Text) (hplain' : (Token.string quote body').IsPlain) :
      readToken (((left ++ ((Token.string quote body').text ++ right)).slice 0
        (left ++ ((Token.string quote body').text ++ right)).length).drop statement.moduleAt) =
        (.string quote body', right) := by
    rw [slice_zero le_rfl, ← hleft, List.drop_left, readToken_plain hplain' fun _ _ => rfl]
  -- The line of the empty literal stands for what the lines have in common.
  refine ⟨(ofStatement? cwd path (left ++ ((Token.string quote []).text ++ right)) 0
    (left ++ ((Token.string quote []).text ++ right)).length statement).getD {},
    fun body' hplain' => ?_⟩
  have hempty : (Token.string quote []).IsPlain := ⟨hplain'.1, by simp⟩
  unfold ofStatement?
  dsimp only
  rw [hread body' hplain', hread [] hempty, slice_zero le_rfl]
  cases statement.form <;> rfl

end ImportLine

section Lines

variable {cwd path text text' here t : Text} {start width n p q : Nat} {jsx : Bool}
  {statement : Statement} {statements : List Located}

/-- The import line of a statement that stands alone in a text. -/
def TypeScript.Statement.line? (cwd path written : Text) : Statement → Option ImportLine
  | .imports statement => ImportLine.ofStatement? cwd path written 0 written.length statement
  | _ => none

/-- An import line does not depend on what stands around its statement. -/
theorem importLines_cons (hdrop : text.drop start = here) :
    FileRecord.importLines cwd path text (⟨start, start + width, statement⟩ :: statements) =
      ((statement.line? cwd path (here.take width)).map (ImportLine.moved start)).toList ++
        FileRecord.importLines cwd path text statements := by
  unfold FileRecord.importLines
  rw [List.filterMap_cons]
  cases statement with
  | imports statement =>
    have hslice : text.slice start (start + width) = here.take width := by
      rw [slice, hdrop, Nat.add_sub_cancel_left]
    have hline : ImportLine.ofStatement? cwd path (here.take width) 0 width statement =
        ImportLine.ofStatement? cwd path (here.take width) 0 (here.take width).length
          statement := by
      unfold ImportLine.ofStatement?
      rw [slice_zero (List.length_take_le _ _), slice_zero le_rfl]
    dsimp only [TypeScript.Statement.line?]
    rw [ImportLine.ofStatement?_eq_map, hslice, Nat.add_sub_cancel_left, hline]
    cases ImportLine.ofStatement? cwd path (here.take width) 0 (here.take width).length
      statement <;> rfl
  | declares | other => rfl

/-- The import lines of a text that stands at two places are the same, apart from where they are. -/
theorem importLines_position (ht : text.drop p = t) (ht' : text'.drop q = t) :
    (FileRecord.importLines cwd path text (readFrom jsx n p t).statements).map
        (ImportLine.moved 0) =
      (FileRecord.importLines cwd path text' (readFrom jsx n q t).statements).map
        (ImportLine.moved 0) := by
  induction n generalizing p q t with
  | zero => rfl
  | succ n ih =>
    have hsuffix : (skipTrivia t.length.succ false t).2 <:+ t := skipTrivia_suffix
    rw [readFrom, readFrom]
    generalize (skipTrivia t.length.succ false t).2 = here at hsuffix
    dsimp only
    by_cases hnil : here = []
    · rw [if_pos hnil, if_pos hnil]
      rfl
    rw [if_neg hnil, if_neg hnil]
    have hhere (text : Text) (p : Nat) (ht : text.drop p = t) :
        text.drop (p + (t.length - here.length)) = here := by
      obtain ⟨gap, rfl⟩ := hsuffix
      rw [← List.drop_drop, ht, List.length_append, Nat.add_sub_cancel, List.drop_left]
    split
    · rfl
    · rfl
    next statement width hwidth hread =>
      have hstart := hhere text p ht
      have hstart' := hhere text' q ht'
      have hrest := ih (p := p + (t.length - here.length) + width)
        (q := q + (t.length - here.length) + width) (t := here.drop width)
        (by rw [← List.drop_drop, hstart]) (by rw [← List.drop_drop, hstart'])
      rw [importLines_cons hstart, importLines_cons hstart', List.map_append, List.map_append,
        hrest]
      cases statement.line? cwd path (here.take width) <;> rfl

end Lines

section Run

variable {resolve : ImportLine → Text} {cwd path text text' t t' : Text} {p q : Nat} {jsx : Bool}
  {lines later : List ImportLine} {statements : List Located} {line : ImportLine}

/-- The line is given another module than it has. -/
def ImportLine.IsGivenAnother (resolve : ImportLine → Text) (line : ImportLine) : Prop :=
  resolve line ≠ line.modulePath

instance (resolve : ImportLine → Text) : DecidablePred (ImportLine.IsGivenAnother resolve) :=
  fun line => inferInstanceAs (Decidable (resolve line ≠ line.modulePath))

/-- How a text is read from `start` on is settled where the line stands with its new module: what
begins there is a plain import, or the same is read whatever follows that line. -/
def ImportLine.IsSettledFrom (resolve : ImportLine → Text) (jsx : Bool) (text : Text) (start : Nat)
    (line : ImportLine) : Prop :=
  isPlainImport jsx (text.drop start) = true ∨
    IsSettled jsx (text.drop start) (text.slice start line.start ++ line.pointed resolve)

/-- A directive stands before the line. -/
theorem ImportLine.IsSettledFrom.of_directive {start : Nat} {quote : Char} {body rest : Text}
    (hdrop : text.drop start = (Token.string quote body).text ++ ';' :: rest)
    (hplain : (Token.string quote body).IsPlain)
    (hoffset : start + (Token.string quote body).text.length + 1 ≤ line.start) :
    line.IsSettledFrom resolve jsx text start := by
  obtain ⟨more, hmore⟩ := Nat.exists_eq_add_of_le hoffset
  have hslice : text.slice start line.start =
      (Token.string quote body).text ++ ';' :: rest.take more := by
    have hwidth : line.start - start = (Token.string quote body).text.length + (more + 1) := by
      omega
    rw [Text.slice, hdrop, hwidth, List.take_length_add_append, List.take_succ_cons]
  right
  rw [hslice, hdrop, List.append_assoc, List.cons_append]
  exact isSettled_directive hplain

/-- What is asked of the lines that `resolve` gives other modules: these can stand in quotes, the
literals that are exchanged are those that name the modules, and what is read before them is settled
where they stand with the new ones. -/
structure IsRetargetable (resolve : ImportLine → Text) (jsx : Bool) (text : Text)
    (statements : List Located) (lines : List ImportLine) : Prop where
  unquoted : ∀ line ∈ lines, line.IsGivenAnother resolve → (resolve line).IsUnquoted
  exchangeable : ∀ line ∈ lines, line.IsGivenAnother resolve → line.IsExchangeable jsx text
  settled : ∀ line ∈ lines, line.IsGivenAnother resolve →
    ∀ located ∈ statements, located.start < line.start →
      line.IsSettledFrom resolve jsx text located.start

theorem IsRetargetable.mono {statements' : List Located} {lines' : List ImportLine}
    (h : IsRetargetable resolve jsx text statements' lines')
    (hstatements : statements ⊆ statements')
    (hlines : lines ⊆ lines') : IsRetargetable resolve jsx text statements lines :=
  ⟨fun line hline => h.unquoted line (hlines hline),
    fun line hline => h.exchangeable line (hlines hline),
    fun line hline hgiven located hlocated =>
      h.settled line (hlines hline) hgiven located (hstatements hlocated)⟩

/-- A line that keeps its module reads back as it is, wherever its text stands. -/
theorem ImportLine.ReadsBack.of_kept {found : ImportLine} (hkept : ¬ line.IsGivenAnother resolve)
    (hline : line.weak ∈ FileRecord.importLines cwd path text statements)
    (hfound : found.moved 0 = line.weak.moved 0) : line.ReadsBack resolve cwd path found := by
  obtain ⟨quote, left, right, hspecifier, htext, hresolved⟩ :=
    exists_literal_of_mem_importLines hline
  have hsame : resolve line = line.modulePath := not_not.mp hkept
  refine ⟨quote, left, right, found.offset, hspecifier, htext, ?_, ?_⟩
  · rw [pointed, if_pos hsame, hsame, ← hspecifier]
    exact htext
  · rw [hsame, repointed_self hspecifier htext hresolved]
    exact congrArg (fun other => moved found.offset other.weak) hfound

/-- Lines that keep their modules read back as they are, wherever the text stands. -/
theorem forall₂_readsBack_of_kept (hkept : ∀ line ∈ lines, ¬ line.IsGivenAnother resolve)
    (ht : text.drop p = t) (ht' : text'.drop q = t)
    (hlines : lines.map ImportLine.weak =
      FileRecord.importLines cwd path text (readAll jsx p t).statements) :
    List.Forall₂ (ImportLine.ReadsBack resolve cwd path) lines
      (FileRecord.importLines cwd path text' (readAll jsx q t).statements) := by
  have hplaces : (lines.map ImportLine.weak).map (ImportLine.moved 0) =
      (FileRecord.importLines cwd path text' (readAll jsx q t).statements).map
        (ImportLine.moved 0) := by
    rw [hlines]
    exact importLines_position ht ht'
  have hmoved : List.Forall₂ (fun line found => line.weak.moved 0 = found.moved 0) lines
      (FileRecord.importLines cwd path text' (readAll jsx q t).statements) := by
    rw [List.map_map] at hplaces
    rw [← List.forall₂_map_right_iff, ← List.forall₂_map_left_iff, List.forall₂_eq_eq_eq]
    exact hplaces
  have hback : ∀ line ∈ lines, ∀ found : ImportLine, line.weak.moved 0 = found.moved 0 →
      line.ReadsBack resolve cwd path found :=
    fun line hline found hfound =>
      .of_kept (hkept line hline) (hlines ▸ List.mem_map_of_mem hline) hfound.symm
  exact ((List.forall₂_and_left _ _).mpr ⟨hback, hmoved⟩).imp fun line found h => h.1 found h.2

/-- The line of the first statement, if there is one, and those of the others. -/
theorem exists_first {first? : Option ImportLine} {others : List ImportLine}
    (h : lines.map ImportLine.weak = first?.toList ++ others) :
    ∃ (given? : Option ImportLine) (later : List ImportLine),
      lines = given?.toList ++ later ∧ given?.map ImportLine.weak = first? ∧
      later.map ImportLine.weak = others := by
  obtain ⟨front, later, rfl, hfront, hlater⟩ := List.map_eq_append_iff.mp h
  cases first? with
  | none => exact ⟨none, later, by rw [List.map_eq_nil_iff.mp hfront]; rfl, rfl, hlater⟩
  | some first =>
    obtain ⟨given, rfl, hgiven⟩ := List.map_eq_singleton_iff.mp hfront
    exact ⟨some given, later, rfl, congrArg some hgiven, hlater⟩

/-- A plain import is read as it was, before whatever resumes the text behind it. -/
theorem readStatement_of_plain {here rest' : Text} {width : Nat} {statement : Statement}
    (hplain : isPlainImport jsx here = true)
    (hskip : ∀ m, here.length < m → skipTrivia m false here = (false, here))
    (hread : readStatement jsx here = some (statement, width))
    (hresumes : Resumes (here.drop width) rest') :
    readStatement jsx (here.take width ++ rest') = some (statement, width) ∧
      BeginsAlike here (here.take width ++ rest') := by
  obtain ⟨left, quote, body, right, rest, attributes, importing, rfl, hread', -, hbody,
    ⟨later, rfl⟩, hexchange⟩ := exists_exchange hplain hskip
  obtain ⟨rfl, rfl⟩ : .imports importing = statement ∧ _ = width := by
    simpa only [Option.some.injEq, Prod.mk.injEq] using hread'.symm.trans hread
  rw [List.drop_left] at hresumes
  rw [List.take_left]
  refine ⟨((hexchange body hbody).resumes hresumes).readStatement_eq, ?_⟩
  simp only [List.append_assoc]
  exact beginsAlike_import _ _

/-- The literal that names the module does not begin an import. -/
theorem pos_of_moduleAt? {here : Text} {i : Nat} (hplain : isPlainImport jsx here = true)
    (h : moduleAt? jsx here = some i) : 0 < i := by
  obtain ⟨attributes, written, rest, statement, rfl, hread, hspells⟩ := exists_spellsWhole hplain
  obtain ⟨left, _, _, _, -, hleft, -, ⟨_, gap, later, -, rfl⟩, -⟩ := hspells.exchange
  rw [moduleAt?, hread] at h
  obtain rfl : statement.moduleAt = i := Option.some.inj h
  rw [← hleft]
  exact List.length_pos_iff.mpr (by simp)

/-- A statement that is settled by the first line that is exchanged behind it is read as it was. -/
theorem readStatement_of_settled {whole rest rest' : Text} {width start : Nat}
    {statement : Statement} {earlier : List ImportLine} {quote : Char}
    (hread : readStatement jsx (whole ++ rest) = some (statement, width)) (hne : whole ≠ [])
    (hdrop : text.drop start = whole ++ rest)
    (hexchanged : Exchanged (ImportLine.pointed resolve) (start + whole.length) rest
      (earlier ++ line :: later) rest')
    (hearlier : ∀ line ∈ earlier, ¬ line.IsGivenAnother resolve)
    (hgiven : line.IsGivenAnother resolve) (hquote : line.specifier.head? = some quote)
    (hexchangeable : line.IsExchangeable jsx text)
    (hsettled : IsSettled jsx (text.drop start)
      (text.slice start line.start ++ line.pointed resolve)) :
    readStatement jsx (whole ++ rest') = some (statement, width) ∧
      BeginsAlike (whole ++ rest) (whole ++ rest') := by
  obtain ⟨_, written, _, statement', -, hread', -⟩ := exists_spellsWhole hexchangeable.plain
  have hi : moduleAt? jsx (text.drop line.start) = some statement'.moduleAt := by
    rw [moduleAt?, hread']
  have hlast := hexchangeable.literal.trans hi
  have hpos := pos_of_moduleAt? hexchangeable.plain hi
  obtain ⟨left, right, htext, hleft⟩ := exists_of_lastPositionOf? hlast
  rw [← hleft] at hlast hpos
  have hpointed := ImportLine.pointed_eq hgiven hquote htext hlast
  obtain ⟨front, behind, behind', rfl, rfl, hplace⟩ := hexchanged.exists_common
    (fun line hline => if_pos (not_not.mp (hearlier line hline)))
  have hslice : text.slice start line.start = whole ++ front := by
    have hwidth : line.start - start = (whole ++ front).length := by
      rw [List.length_append]
      omega
    rw [Text.slice, hdrop, hwidth, ← List.append_assoc, List.take_left]
  rw [hslice, hdrop] at hsettled
  have hwhole : whole ++ (front ++ (line.pointed resolve ++ behind')) =
      whole ++ front ++ line.pointed resolve ++ behind' := by simp only [List.append_assoc]
  -- Up to the literal the line is as it was, and it does not begin with that.
  have htake (tail : Text) : (whole ++ (front ++ (left ++ tail))).take 2 =
      (whole ++ (front ++ left)).take 2 := by
    rw [← List.append_assoc front, ← List.append_assoc whole, List.take_append_of_le_length]
    have hlong := List.length_pos_iff.mpr hne
    simp only [List.length_append]
    omega
  rw [hwhole]
  refine ⟨(hsettled.statement behind').trans hread, hsettled.begins, hsettled.brace, by simp [hne],
    ?_, hsettled.line behind'⟩
  rw [← hwhole, hpointed, htext, List.append_assoc, List.append_assoc left, htake, htake]

theorem text_of_line? {statement : Statement} {written : Text} {found : ImportLine}
    (h : statement.line? cwd path written = some found) : found.text = written := by
  cases statement with
  | imports statement =>
    rw [(of_ofStatement? h).2.1, slice_zero le_rfl]
  | declares | other => cases h

/-- The first statement is read in the new text as it was, and its import line reads back. -/
structure FirstReadsBack (resolve : ImportLine → Text) (cwd path : Text) (jsx : Bool) (here : Text)
    (statement : Statement) (given? : Option ImportLine) (written rest : Text) : Prop where
  ne_nil : written ≠ []
  read : readStatement jsx (written ++ rest) = some (statement, written.length)
  alike : BeginsAlike here (written ++ rest)
  line : ∀ offset, List.Forall₂ (ImportLine.ReadsBack resolve cwd path) given?.toList
    ((statement.line? cwd path written).map (ImportLine.moved offset)).toList

/-- The statement at the front of `here`, the text from `start` on: its import line, if it has one,
and those of the statements behind it. -/
structure FirstStatement (cwd path : Text) (jsx : Bool) (text : Text) (start : Nat) (here : Text)
    (statement : Statement) (width : Nat) (given? : Option ImportLine) (later : List ImportLine) :
    Prop where
  drop : text.drop start = here
  skip : ∀ m, here.length < m → skipTrivia m false here = (false, here)
  read : readStatement jsx here = some (statement, width)
  width_ne : width ≠ 0
  line : given?.map ImportLine.weak =
    (statement.line? cwd path (here.take width)).map (ImportLine.moved start)
  others : later.map ImportLine.weak = FileRecord.importLines cwd path text
    (readAll jsx (start + width) (here.drop width)).statements

namespace FirstStatement

variable {here rest' : Text} {width start : Nat} {statement : Statement}
  {given? : Option ImportLine} {first : ImportLine}
  (h : FirstStatement cwd path jsx text start here statement width given? later)

include h

theorem exists_line (hfirst : first ∈ given?) :
    ∃ found, statement.line? cwd path (here.take width) = some found ∧
      found.moved start = first.weak := by
  have hline := h.line
  rw [Option.mem_def.mp hfirst] at hline
  exact Option.map_eq_some_iff.mp hline.symm

theorem place (hfirst : first ∈ given?) :
    first.offset = (start : Int) ∧ first.text = here.take width := by
  obtain ⟨found, hfound, hmoved⟩ := h.exists_line hfirst
  have htext : first.text = found.text := (congrArg (·.text) hmoved).symm
  exact ⟨(congrArg ImportLine.offset hmoved).symm, htext.trans (text_of_line? hfound)⟩

theorem drop_behind : text.drop (start + width) = here.drop width := by
  rw [← List.drop_drop, h.drop]

theorem stand : StandIn text (start + width) later := by
  rw [← standIn_map_weak, h.others]
  exact importLines_standIn (readFrom_inOrder (by rw [← h.drop_behind, List.length_drop]))

/-- Where some line is given another module, the first statement is a plain import, or it is settled
by the first line that is exchanged behind it. -/
theorem plain_or_settled {stop : Nat} (hretarget : IsRetargetable resolve jsx text
      (⟨start, stop, statement⟩ :: statements) (given?.toList ++ later))
    (hgiven : ¬ ∀ line ∈ given?.toList ++ later, ¬ line.IsGivenAnother resolve) :
    isPlainImport jsx here = true ∨
      (∀ first ∈ given?, ¬ first.IsGivenAnother resolve) ∧ ∃ line earlier more,
        later = earlier ++ line :: more ∧ (∀ other ∈ earlier, ¬ other.IsGivenAnother resolve) ∧
        line.IsGivenAnother resolve ∧
          IsSettled jsx here (text.slice start line.start ++ line.pointed resolve) := by
  by_cases hkept : ∀ first ∈ given?, ¬ first.IsGivenAnother resolve
  · obtain ⟨found, hfound, hagain⟩ : ∃ line ∈ later, line.IsGivenAnother resolve := by
      by_contra hnone
      refine hgiven fun line hline hagain => ?_
      rcases List.mem_append.mp hline with hline | hline
      · exact hkept line (Option.mem_toList.mp hline) hagain
      · exact hnone ⟨line, hline, hagain⟩
    obtain ⟨line, earlier, more, hearlier, hline, hlater, -⟩ :=
      List.exists_of_eraseP (p := (·.IsGivenAnother resolve)) hfound (decide_eq_true hagain)
    have hmem : line ∈ later := hlater ▸ List.mem_append_right _ List.mem_cons_self
    have hbehind : start < line.start :=
      (Nat.lt_add_of_pos_right (Nat.pos_of_ne_zero h.width_ne)).trans_le
        (h.stand.le_start line hmem)
    rw [← h.drop]
    rcases hretarget.settled line (List.mem_append_right _ hmem) (of_decide_eq_true hline) _
        List.mem_cons_self hbehind with hplain | hsettled
    · exact .inl hplain
    · exact .inr ⟨hkept, line, earlier, more, hlater,
        fun other hother hagain => hearlier other hother (decide_eq_true hagain),
        of_decide_eq_true hline, hsettled⟩
  · push Not at hkept
    obtain ⟨first, hfirst, hagain⟩ := hkept
    have hplain := (hretarget.exchangeable first
      (List.mem_append_left _ (Option.mem_toList.mpr hfirst)) hagain).plain
    rw [ImportLine.start_eq (h.place hfirst).1, h.drop] at hplain
    exact .inl hplain

/-- Where some line is given another module, the first statement lies within the text. -/
theorem width_le {stop : Nat} (hretarget : IsRetargetable resolve jsx text
      (⟨start, stop, statement⟩ :: statements) (given?.toList ++ later))
    (hgiven : ¬ ∀ line ∈ given?.toList ++ later, ¬ line.IsGivenAnother resolve) :
    width ≤ here.length := by
  rcases h.plain_or_settled hretarget hgiven with
    hplain | ⟨-, line, earlier, more, rfl, -, hagain, -⟩
  · obtain ⟨_, written, rest, _, rfl, hread, -⟩ := exists_spellsWhole hplain
    obtain ⟨-, rfl⟩ : _ ∧ written.length = width := by simpa using hread.symm.trans h.read
    exact (List.prefix_append written rest).length_le
  · have hmem : line ∈ earlier ++ line :: more := List.mem_append_right _ List.mem_cons_self
    have hle := h.stand.le_start line hmem
    have hplain := (hretarget.exchangeable line (List.mem_append_right _ hmem) hagain).plain
    obtain ⟨_, written, rest, _, hdrop, _, hspells⟩ := exists_spellsWhole hplain
    obtain ⟨left, quote, body, right, rfl, -⟩ := hspells.exchange
    have hlength := congrArg List.length hdrop
    have hhere := congrArg List.length h.drop
    simp only [List.length_append, List.length_drop, Token.text, List.length_cons] at hlength hhere
    omega

/-- A statement without a line that is given another module reads back as it is, if it is read as it
was. -/
theorem readsBack_of_kept (hkept : ∀ first ∈ given?, ¬ first.IsGivenAnother resolve)
    (hne : here.take width ≠ [])
    (hread : readStatement jsx (here.take width ++ rest') =
      some (statement, (here.take width).length))
    (halike : BeginsAlike here (here.take width ++ rest')) :
    FirstReadsBack resolve cwd path jsx here statement given? (here.take width) rest' := by
  refine ⟨hne, hread, halike, fun offset => ?_⟩
  cases hfirst : given? with
  | none =>
    have hline := h.line
    rw [hfirst] at hline
    rw [Option.map_eq_none_iff.mp hline.symm]
    exact .nil
  | some first =>
    obtain ⟨found, hfound, hmoved⟩ := h.exists_line hfirst
    have hmem : first.weak ∈ FileRecord.importLines cwd path text
        [⟨start, start + width, statement⟩] := by
      rw [importLines_cons h.drop, hfound, ← hmoved]
      exact List.mem_cons_self
    have hplace : (found.moved offset).moved 0 = first.weak.moved 0 := by
      rw [← hmoved]
      rfl
    rw [hfound]
    exact .cons (.of_kept (hkept first hfirst) hmem hplace) .nil

/-- A plain import whose literal is exchanged reads back with the module that it was given, before
whatever resumes the text behind it. -/
theorem readsBack_of_given (hfirst : first ∈ given?) (hplain : isPlainImport jsx here = true)
    (hgiven : first.IsGivenAnother resolve) (hunquoted : (resolve first).IsUnquoted)
    (hliteral : lastPositionOf? first.specifier first.text = moduleAt? jsx here)
    (hresumes : Resumes (here.drop width) rest') :
    FirstReadsBack resolve cwd path jsx here statement given? (first.pointed resolve) rest' := by
  obtain ⟨found, hfound, hline⟩ := h.exists_line hfirst
  obtain ⟨left, quote, body, right, rest, attributes, importing, rfl, hread, hleft, hbody,
    ⟨later, hfront⟩, hexchange⟩ := exists_exchange hplain h.skip
  obtain ⟨rfl, rfl⟩ : .imports importing = statement ∧ _ = width := by
    simpa only [Option.some.injEq, Prod.mk.injEq] using hread.symm.trans h.read
  rw [List.drop_left] at hresumes
  rw [List.take_left] at hfound
  obtain ⟨line₀, hline₀⟩ := ImportLine.ofStatement?_literal cwd path right quote hleft
  obtain rfl : line₀.repointed cwd path body quote left right = found :=
    Option.some.inj ((hline₀ body hbody).symm.trans hfound)
  have hmodule : body = first.modulePath := congrArg ImportLine.modulePath hline
  have hspecifier : (Token.string quote body).text = first.specifier :=
    congrArg ImportLine.specifier hline
  have htext : first.text = left ++ (first.specifier ++ right) := by
    rw [← hspecifier]
    exact (congrArg ImportLine.text hline).symm
  have hlast : lastPositionOf? first.specifier first.text = some left.length := by
    rw [hliteral, hleft, moduleAt?, hread]
  have hpointed : first.pointed resolve =
      left ++ ((Token.string quote (resolve first)).text ++ right) :=
    ImportLine.pointed_eq hgiven (by rw [← hspecifier]; rfl) htext hlast
  have hplain' := hunquoted.isPlain hbody.1
  rw [hpointed, Option.mem_def.mp hfirst]
  refine ⟨by simp [Token.text], ((hexchange _ hplain').resumes hresumes).readStatement_eq, ?_,
    fun offset => ?_⟩
  · rw [hfront]
    simp only [List.append_assoc]
    exact beginsAlike_import _ _
  · have hback : (Statement.imports importing).line? cwd path
        (left ++ ((Token.string quote (resolve first)).text ++ right)) = _ := hline₀ _ hplain'
    rw [hback]
    refine .cons ⟨quote, left, right, offset, ?_, htext, hpointed, ?_⟩ .nil
    · rw [← hspecifier, ← hmodule]
      rfl
    · exact congrArg (fun other =>
        ((other.repointed cwd path (resolve first) quote left right).moved offset).weak) hline

/-- The first statement reads back, before whatever resumes the text behind it. -/
theorem readsBack {stop : Nat} (hretarget : IsRetargetable resolve jsx text
      (⟨start, stop, statement⟩ :: statements) (given?.toList ++ later))
    (hgiven : ¬ ∀ line ∈ given?.toList ++ later, ¬ line.IsGivenAnother resolve)
    (hexchanged : Exchanged (ImportLine.pointed resolve) (start + width) (here.drop width) later
      rest')
    (hresumes : Resumes (here.drop width) rest') :
    FirstReadsBack resolve cwd path jsx here statement given?
      (given?.elim (here.take width) (ImportLine.pointed resolve)) rest' := by
  have hcase := h.plain_or_settled hretarget hgiven
  have hwhole : (here.take width).length = width := by
    rw [List.length_take, Nat.min_eq_left (h.width_le hretarget hgiven)]
  have hne : here.take width ≠ [] := by
    rw [← List.length_pos_iff, hwhole]
    exact Nat.pos_of_ne_zero h.width_ne
  by_cases hkept : ∀ first ∈ given?, ¬ first.IsGivenAnother resolve
  · have hwritten : given?.elim (here.take width) (ImportLine.pointed resolve) =
        here.take width := by
      cases hfirst : given? with
      | none => rfl
      | some first =>
        exact (if_pos (not_not.mp (hkept first hfirst))).trans (h.place hfirst).2
    have hread : readStatement jsx (here.take width ++ rest') = some (statement, width) ∧
        BeginsAlike here (here.take width ++ rest') := by
      rcases hcase with hplain | ⟨-, line, earlier, more, rfl, hearlier, hagain, hsettled⟩
      · exact readStatement_of_plain hplain h.skip h.read hresumes
      · have hmem : line ∈ earlier ++ line :: more := List.mem_append_right _ List.mem_cons_self
        obtain ⟨quote, left, right, hspecifier, -⟩ :=
          exists_literal_of_mem_importLines (h.others ▸ List.mem_map_of_mem hmem)
        have hsplit := List.take_append_drop width here
        have hread := readStatement_of_settled (hsplit.symm ▸ h.read) hne (hsplit.symm ▸ h.drop)
          (by rw [hwhole]; exact hexchanged) hearlier hagain (by rw [hspecifier]; rfl)
          (hretarget.exchangeable line (List.mem_append_right _ hmem) hagain)
          (h.drop.symm ▸ hsettled)
        rwa [hsplit] at hread
    rw [hwritten]
    exact h.readsBack_of_kept hkept hne (hwhole.symm ▸ hread.1) hread.2
  · push Not at hkept
    obtain ⟨first, hfirst, hagain⟩ := hkept
    have hmem : first ∈ given?.toList ++ later :=
      List.mem_append_left _ (Option.mem_toList.mpr hfirst)
    obtain ⟨hplain, hliteral⟩ := hretarget.exchangeable first hmem hagain
    rw [ImportLine.start_eq (h.place hfirst).1, h.drop] at hplain hliteral
    have hreads := h.readsBack_of_given hfirst hplain hagain (hretarget.unquoted first hmem hagain)
      hliteral hresumes
    rwa [Option.mem_def.mp hfirst] at hreads ⊢

end FirstStatement

/-- Import lines that are exchanged in a text read back as they are given. The induction is on what
is left of the text; what is read behind a statement tells how it may be resumed. -/
theorem readAll_readsBack (hcomplete : (readAll jsx p t).complete = true) (ht : text.drop p = t)
    (ht' : text'.drop q = t')
    (hlines : lines.map ImportLine.weak =
      FileRecord.importLines cwd path text (readAll jsx p t).statements)
    (hexchanged : Exchanged (ImportLine.pointed resolve) p t lines t')
    (h : IsRetargetable resolve jsx text (readAll jsx p t).statements lines) :
    (readAll jsx q t').complete = true ∧ Resumes t t' ∧
      List.Forall₂ (ImportLine.ReadsBack resolve cwd path) lines
        (FileRecord.importLines cwd path text' (readAll jsx q t').statements) := by
  induction hlength : t.length using Nat.strong_induction_on generalizing p q t t' lines with
  | _ n ih =>
  by_cases hkept : ∀ line ∈ lines, ¬ line.IsGivenAnother resolve
  · obtain rfl := hexchanged.eq_of_kept fun line hline => if_pos (not_not.mp (hkept line hline))
    exact ⟨readAll_position.1.trans hcomplete, .same _,
      forall₂_readsBack_of_kept hkept ht ht' hlines⟩
  obtain hnone | ⟨gap, here, statement, width, rfl, hskip, htrivia, hread, hnil, hwidth, hall⟩ :=
    readAll_cases hcomplete
  · rw [hnone] at hlines
    have hempty : lines = [] := List.map_eq_nil_iff.mp hlines
    exact absurd (by simp [hempty]) hkept
  have hdrop : text.drop (p + gap.length) = here := by rw [← List.drop_drop, ht, List.drop_left]
  rw [hall] at hcomplete h
  rw [hall, importLines_cons hdrop] at hlines
  obtain ⟨given?, later, rfl, hline, hothers⟩ := exists_first hlines
  have hfirst :
      FirstStatement cwd path jsx text (p + gap.length) here statement width given? later :=
    ⟨hdrop, hskip, hread, hwidth, hline, hothers⟩
  have hwhole : (here.take width).length = width := by
    rw [List.length_take, Nat.min_eq_left (hfirst.width_le h hkept)]
  rw [← List.take_append_drop width here] at hexchanged
  obtain ⟨rest', rfl, hrest⟩ := hexchanged.of_first (fun first => hfirst.place)
    (hwhole.symm ▸ hfirst.stand.le_start)
  rw [hwhole] at hrest
  -- What is read behind the statement tells how the text may be resumed there.
  have hshort : (here.drop width).length < n := by
    rw [← hlength, List.length_append, List.length_drop]
    have hpos := List.length_pos_iff.mpr hnil
    omega
  have hdrop' : text'.drop (q + gap.length) =
      given?.elim (here.take width) (ImportLine.pointed resolve) ++ rest' := by
    rw [← List.drop_drop, ht', List.drop_left]
  obtain ⟨hcomplete', hresumes, hback⟩ := ih _ hshort hcomplete hfirst.drop_behind
    (by rw [← List.drop_drop, hdrop', List.drop_left]) hothers hrest
    (h.mono (List.subset_cons_self _ _) (List.subset_append_right _ _)) rfl
  have hstep := hfirst.readsBack h hkept hrest hresumes
  obtain ⟨breaks, hgap⟩ := htrivia hstep.alike.begins
  rw [readAll_cons hgap hstep.alike.begins' hstep.ne_nil hstep.read, importLines_cons hdrop',
    List.take_left]
  exact ⟨hcomplete', .statement hgap hstep.alike, List.rel_append (hstep.line _) hback⟩

end Run

section Result

/-- Import lines that are pointed at other modules read back as they are given: the text that comes
out is well formed, its imports are those of the source in the same order, and each names the module
that it was given. Between their statements nothing changes, and in a statement only the literal
that names the module does. -/
theorem retargetImports_readsBack (resolve : ImportLine → Text) (cwd path text : Text)
    (hcomplete : (Extraction.ofSource cwd path text).complete = true)
    (h : IsRetargetable resolve (usesJsx (Path.standardize cwd path)) text
      (readSource (usesJsx (Path.standardize cwd path)) text).statements
      (Extraction.ofSource cwd path text).record.imports) :
    let before := Extraction.ofSource cwd path text
    let result := before.record.retargetImports resolve text
    let after := Extraction.ofSource cwd path result
    after.complete = true ∧
      List.Forall₂ (ImportLine.ReadsBack resolve cwd (Path.standardize cwd path))
        before.record.imports after.record.imports ∧
      Exchanged (ImportLine.pointed resolve) 0 text before.record.imports result := by
  intro before result after
  have hexchanged : Exchanged (ImportLine.pointed resolve) 0 text before.record.imports result :=
    retargetImports_exchanged resolve cwd path _
  have hlines (text : Text) : (Extraction.ofSource cwd path text).record.imports.map
      ImportLine.weak = FileRecord.importLines cwd (Path.standardize cwd path) text
        (readSource (usesJsx (Path.standardize cwd path)) text).statements := by
    rw [Extraction.record_ofSource, FileRecord.map_weak_ofStatements]
  have hread := hlines text
  have hlength : (text.take (bodyStart text)).length = bodyStart text := by
    rw [List.length_take, Nat.min_eq_left (bodyStart_le text)]
  rw [readSource_eq] at h hread
  have hstand : StandIn text (0 + (text.take (bodyStart text)).length)
      before.record.imports := by
    rw [hlength, Nat.zero_add, ← standIn_map_weak]
    exact hread ▸ importLines_standIn (readFrom_inOrder List.length_drop)
  have hsplit := List.take_append_drop (bodyStart text) text
  have hwhole := hexchanged
  rw [← hsplit] at hwhole
  obtain ⟨rest', hresult, hrest⟩ := hwhole.of_front hstand.le_start
  rw [hlength, Nat.zero_add] at hrest
  have hdrop : result.drop (bodyStart text) = rest' := by
    rw [hresult]
    exact List.drop_left' hlength
  have hreads : (readAll (usesJsx (Path.standardize cwd path)) (bodyStart text)
      (text.drop (bodyStart text))).complete = true := by
    rw [← readSource_eq]
    exact hcomplete
  obtain ⟨hcomplete', hresumes, hback⟩ := readAll_readsBack hreads rfl hdrop hread hrest h
  have hbody : bodyStart result = bodyStart text := by
    rw [hresult]
    exact bodyStart_resumes hresumes
  have hsource : readSource (usesJsx (Path.standardize cwd path)) result =
      readAll (usesJsx (Path.standardize cwd path)) (bodyStart text) rest' := by
    rw [readSource_eq, hbody, hdrop]
  refine ⟨?_, ?_, hexchanged⟩
  · have hafter : after.complete =
        (readSource (usesJsx (Path.standardize cwd path)) result).complete :=
      Extraction.complete_ofSource cwd path result
    rw [hafter, hsource]
    exact hcomplete'
  · rw [← hsource, ← hlines result, List.forall₂_map_right_iff] at hback
    exact hback

/-- Two imports of a source with a line for its interpreter and a directive get other modules, one
keeps its own. -/
theorem retargetImports_readsBack_three_lines :
    let path : Text := "/p/a.ts".toList
    let text : Text :=
      "#!/usr/bin/env node\n".toList ++ "'use strict';\n".toList ++
        "import \x7b A \x7d from './a';  // keep\n".toList ++
        "import lib = require('lib')\n".toList ++
        "import \"./b\" with \x7b type: 'json' \x7d;\n".toList ++ "const s = './a';\n".toList
    let result : Text :=
      "#!/usr/bin/env node\n".toList ++ "'use strict';\n".toList ++
        "import \x7b A \x7d from './lib/a';  // keep\n".toList ++
        "import lib = require('lib')\n".toList ++
        "import \"./lib/b\" with \x7b type: 'json' \x7d;\n".toList ++ "const s = './a';\n".toList
    let resolve (line : ImportLine) : Text :=
      if line.modulePath = "./a".toList then "./lib/a".toList
      else if line.modulePath = "./b".toList then "./lib/b".toList
      else line.modulePath
    let before := Extraction.ofSource ['/'] path text
    let after := Extraction.ofSource ['/'] path (before.record.retargetImports resolve text)
    before.record.imports.map resolve = ["./lib/a".toList, "lib".toList, "./lib/b".toList] ∧
      before.record.retargetImports resolve text = result ∧ after.complete = true ∧
      List.Forall₂ (ImportLine.ReadsBack resolve ['/'] path) before.record.imports
        after.record.imports := by
  intro path text result resolve before after
  have hpath : Path.standardize ['/'] path = path := by decide
  have hjsx : usesJsx path = false := by decide
  have hfacts : before.complete = true ∧
      before.record.imports.map resolve =
        ["./lib/a".toList, "lib".toList, "./lib/b".toList] ∧
      before.record.retargetImports resolve text = result ∧
      (∀ line ∈ before.record.imports, line.IsGivenAnother resolve →
        (resolve line).IsUnquoted ∧ line.IsExchangeable false text) ∧
      ∀ located ∈ (readSource false text).statements, ∀ line ∈ before.record.imports,
        located.start < line.start → isPlainImport false (text.drop located.start) = true ∨
          text.drop located.start = "'use strict'".toList ++ ';' :: text.drop (located.start + 13) ∧
            located.start + 13 ≤ line.start := by
    simp only [before, Extraction.record_ofSource, Extraction.complete_ofSource]
    decide +kernel
  obtain ⟨hcomplete, hgiven, hresult, hlines, hstatements⟩ := hfacts
  have hretargetable : IsRetargetable resolve (usesJsx (Path.standardize ['/'] path)) text
      (readSource (usesJsx (Path.standardize ['/'] path)) text).statements
      before.record.imports := by
    rw [hpath, hjsx]
    refine ⟨fun line hline hagain => (hlines line hline hagain).1,
      fun line hline hagain => (hlines line hline hagain).2,
      fun line hline hagain located hlocated hbehind => ?_⟩
    rcases hstatements located hlocated line hline hbehind with hplain | ⟨hdrop, hoffset⟩
    · exact .inl hplain
    · have hdirective : (Token.string '\'' "use strict".toList).IsPlain :=
        Text.IsUnquoted.isPlain (by decide) (.inr rfl)
      have hfront : text.drop located.start =
          (Token.string '\'' "use strict".toList).text ++ ';' :: _ := hdrop
      exact .of_directive hfront hdirective hoffset
  obtain ⟨hafter, hback, -⟩ := retargetImports_readsBack resolve ['/'] path text hcomplete
    hretargetable
  rw [hpath] at hback
  exact ⟨hgiven, hresult, hafter, hback⟩

/-- A comment behind the literal that names the module reads like the literal: the comment is
exchanged, and the import still names the module that it had. -/
theorem retargetImports_exchanges_comment :
    let path : Text := "/p/a.ts".toList
    let text : Text := "import \x7b A \x7d from './a' /* './a' */;\n".toList
    let resolve (_ : ImportLine) : Text := "./b".toList
    let before := Extraction.ofSource ['/'] path text
    let after := Extraction.ofSource ['/'] path (before.record.retargetImports resolve text)
    before.complete = true ∧ (before.record.imports.map resolve = ["./b".toList] ∧
      Text.IsUnquoted "./b".toList) ∧
      before.record.retargetImports resolve text =
        "import \x7b A \x7d from './a' /* './b' */;\n".toList ∧
      after.complete = true ∧ after.record.imports.map (·.modulePath) = ["./a".toList] := by
  decide +kernel

end Result

end Disentangle
