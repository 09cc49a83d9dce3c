import Disentangle.Extraction
import Disentangle.Proofs.TypeScript.Token
import Mathlib.Data.List.Basic

/-!
Places in syntax trees. A parser counts bytes, everything else counts characters; a span is the same
place for both, and spans that follow one another in the bytes do so in the text. The tree of the
grammar holds what its statements say: there the places are those of the characters that were read.
-/

namespace Disentangle

open Text TypeScript

namespace TypeScript.Span

variable {text : Text}

/-- A span is a part of the text, and its offset counts the characters before it. -/
theorem exists_eq_append (span : Span (Utf8.encode text)) :
    ∃ front back, text = front ++ (span.text ++ back) ∧ span.offset = front.length ∧
      span.start = (Utf8.encode front).length ∧
      span.stop = (Utf8.encode (front ++ span.text)).length := by
  have hfront := Utf8.encode_textOf span.isText_front
  have htext : Utf8.encode span.text = _ := Utf8.encode_textOf span.isText_bytes
  have hstart := congrArg List.length hfront
  have hwidth := congrArg List.length htext
  rw [List.length_take] at hstart
  rw [List.length_take, List.length_drop] at hwidth
  have hle := span.start_le_stop
  have hin := span.stop_le_length
  have hbytes : Utf8.encode text =
      Utf8.encode (Utf8.textOf _ span.isText_front ++ span.text) ++
        (Utf8.encode text).drop span.stop := by
    rw [Utf8.encode_append, hfront, htext, ← List.take_add, Nat.add_sub_cancel' hle,
      List.take_append_drop]
  obtain ⟨back, htext, -⟩ := Utf8.exists_of_encode_eq_append hbytes
  refine ⟨_, back, htext.trans (List.append_assoc _ _ _), rfl, ?_, ?_⟩
  · omega
  · rw [Utf8.encode_append, List.length_append]
    omega

variable (span : Span (Utf8.encode text))

theorem offset_add_length_le : span.offset + span.text.length ≤ text.length := by
  obtain ⟨front, back, htext, hoffset, -⟩ := span.exists_eq_append
  have hlength := congrArg List.length htext
  simp only [List.length_append] at hlength
  omega

/-- The text of a span stands at its offset. -/
theorem text_prefix : span.text <+: text.drop span.offset := by
  obtain ⟨front, back, htext, hoffset, -⟩ := span.exists_eq_append
  exact ⟨back, by rw [hoffset, congrArg (List.drop _) htext, List.drop_left]⟩

theorem start_eq : span.start = Utf8.bytesBefore text span.offset := by
  obtain ⟨front, back, htext, hoffset, hstart, -⟩ := span.exists_eq_append
  rw [hstart, Utf8.bytesBefore, hoffset, congrArg (List.take _) htext, List.take_left]

theorem stop_eq : span.stop = Utf8.bytesBefore text (span.offset + span.text.length) := by
  obtain ⟨front, back, htext, hoffset, -, hstop⟩ := span.exists_eq_append
  rw [← List.append_assoc] at htext
  rw [hstop, Utf8.bytesBefore, hoffset, congrArg (List.take _) htext, ← List.length_append,
    List.take_left]

variable {span} {other : Span (Utf8.encode text)}

/-- What is not behind in the bytes is not behind in the text. -/
theorem le_of_bytesBefore_le {n m : Nat} (hn : n ≤ text.length)
    (h : Utf8.bytesBefore text n ≤ Utf8.bytesBefore text m) : n ≤ m := by
  by_contra hlt
  exact absurd (Utf8.bytesBefore_lt (Nat.lt_of_not_le hlt) hn) (Nat.not_lt.mpr h)

theorem stop_le_start_iff :
    span.stop ≤ other.start ↔ span.offset + span.text.length ≤ other.offset := by
  rw [stop_eq, start_eq]
  exact ⟨le_of_bytesBefore_le span.offset_add_length_le, Utf8.bytesBefore_mono⟩

theorem start_lt_stop_iff : span.start < span.stop ↔ span.text ≠ [] := by
  rw [start_eq, stop_eq, ← List.length_pos_iff]
  constructor
  · intro hlt
    by_contra hnone
    rw [Nat.eq_zero_of_not_pos hnone, Nat.add_zero] at hlt
    exact absurd hlt (Nat.lt_irrefl _)
  · intro hpos
    exact Utf8.bytesBefore_lt (Nat.lt_add_of_pos_right hpos) span.offset_add_length_le

/-- A literal stands in the text of its span. -/
theorem exists_of_literal (literal : Literal span) :
    literal.text ≠ [] ∧ ∃ left right, span.text = left ++ (literal.text ++ right) := by
  have hne := start_lt_stop_iff.mp literal.start_lt_stop
  have hstart := literal.whole_start_le
  have hstop := literal.stop_le_whole
  rw [start_eq, start_eq] at hstart
  rw [stop_eq, stop_eq] at hstop
  have hwhole := span.offset_add_length_le
  have hin := literal.offset_add_length_le
  have hfront := le_of_bytesBefore_le (by omega) hstart
  have hback := le_of_bytesBefore_le hin hstop
  have htext : span.text = (text.drop span.offset).take span.text.length :=
    List.prefix_iff_eq_take.mp span.text_prefix
  have hliteral : literal.text = (text.drop literal.offset).take literal.text.length :=
    List.prefix_iff_eq_take.mp literal.text_prefix
  let before := literal.offset - span.offset
  have hthere : (span.text.drop before).take literal.text.length = literal.text := by
    rw [htext, List.drop_take, List.drop_drop, List.take_take, Nat.add_sub_cancel' hfront,
      Nat.min_eq_left (by omega)]
    exact hliteral.symm
  refine ⟨hne, span.text.take before, (span.text.drop before).drop literal.text.length, ?_⟩
  calc span.text = span.text.take before ++ span.text.drop before :=
        (List.take_append_drop before span.text).symm
    _ = span.text.take before ++ ((span.text.drop before).take literal.text.length ++
          (span.text.drop before).drop literal.text.length) :=
        congrArg (span.text.take before ++ ·) (List.take_append_drop _ _).symm
    _ = span.text.take before ++ (literal.text ++
          (span.text.drop before).drop literal.text.length) := by rw [hthere]

end TypeScript.Span

/-! ### The tree of the grammar -/

namespace TypeScript

variable {text : Text} {start width before : Nat}

theorem Span.text_ofRange : (Span.ofRange text start width).text = (text.drop start).take width :=
  Utf8.textOf_eq _ (Utf8.take_drop_bytesBefore text start width)

theorem Span.offset_ofRange (h : start ≤ text.length) :
    (Span.ofRange text start width).offset = start := by
  have hfront : Utf8.textOf _ (Span.ofRange text start width).isText_front = text.take start :=
    Utf8.textOf_eq _ (Utf8.take_bytesBefore text start)
  rw [Span.offset, hfront, List.length_take, Nat.min_eq_left h]

theorem literalWidth_eq {here after body : Text} {quote : Char}
    (h : readToken here = (.string quote body, after)) :
    literalWidth here = (quote :: body ++ [quote]).length ∧
      here.take (literalWidth here) = quote :: body ++ [quote] := by
  obtain ⟨-, happend⟩ := readToken_append h trivial
  change quote :: body ++ [quote] ++ after = here at happend
  have hwidth : literalWidth here = (quote :: body ++ [quote]).length := by
    rw [literalWidth, h]
    dsimp only
    rw [← happend, List.length_append, Nat.add_sub_cancel]
  exact ⟨hwidth, by rw [hwidth, ← happend, List.take_left]⟩

theorem take_drop_slice {n : Nat}
    (h : n ≤ ((text.slice start (start + width)).drop before).length) :
    ((text.slice start (start + width)).drop before).take n =
      (text.drop (start + before)).take n := by
  rw [slice, Nat.add_sub_cancel_left] at h ⊢
  rw [List.length_drop, List.length_take] at h
  rw [List.drop_take, List.drop_drop, List.take_take, Nat.min_eq_left (by omega)]

/-- A literal is found where a string is read, and it is the string with its quotes. -/
theorem Literal.exists_of_readToken {after body : Text} {quote : Char}
    (h : readToken ((text.slice start (start + width)).drop before) = (.string quote body, after)) :
    ∃ literal, Literal.read? text start width before = some literal ∧
      literal.text = quote :: body ++ [quote] := by
  obtain ⟨hwidth, htake⟩ := literalWidth_eq h
  have hpos : 0 < literalWidth ((text.slice start (start + width)).drop before) := by
    rw [hwidth]
    exact Nat.succ_pos _
  refine ⟨_, dif_pos hpos, ?_⟩
  rw [← htake, take_drop_slice (literalWidth_le _)]
  exact Span.text_ofRange

theorem Literal.read?_eq_none
    (h : ∀ quote body after,
      readToken ((text.slice start (start + width)).drop before) ≠ (.string quote body, after)) :
    Literal.read? text start width before = none := by
  refine dif_neg ?_
  rw [literalWidth]
  split
  next hread => exact absurd hread (h _ _ _)
  next => exact Nat.lt_irrefl 0

/-- The exports that a statement makes. -/
def Statement.exports : Statement → List ExportedSymbol
  | .declares true isDefault declaration => declaration.exports isDefault
  | _ => []

/-- The names that a statement reads while its source is loaded. -/
def Statement.reads : Statement → List Text
  | .declares _ _ declaration => declaration.reads
  | _ => []

theorem Item.exports_ofStatement (statement : Statement) :
    (Item.ofStatement text start width statement).exports = statement.exports := by
  cases statement with
  | imports statement =>
    rw [ofStatement]
    split <;> rfl
  | declares exported isDefault declaration => cases exported <;> rfl
  | other => rfl

theorem Item.reads_ofStatement (statement : Statement) :
    (Item.ofStatement text start width statement).reads = statement.reads := by
  cases statement with
  | imports statement =>
    rw [ofStatement]
    split <;> rfl
  | declares exported isDefault declaration => rfl
  | other => rfl

end TypeScript

section InOrder

variable {jsx : Bool} {n p q length : Nat} {t text : Text} {statements : List Located}
  {located : Located}

/-- Statements that stand one behind the other in a text of the given length, none of them empty. -/
def InOrder (length : Nat) : Nat → List Located → Prop
  | _, [] => True
  | p, located :: rest =>
    p ≤ located.start ∧ located.start < located.stop ∧ located.start < length ∧
      InOrder length located.stop rest

theorem InOrder.mono (h : InOrder length q statements) (hle : p ≤ q) :
    InOrder length p statements := by
  cases statements with
  | nil => trivial
  | cons located rest => exact ⟨hle.trans h.1, h.2⟩

theorem InOrder.of_mem (h : InOrder length p statements) (hlocated : located ∈ statements) :
    located.start < located.stop ∧ located.start < length := by
  induction statements generalizing p with
  | nil => cases hlocated
  | cons first rest ih =>
    obtain ⟨-, hwidth, hlength, hrest⟩ := h
    rcases List.mem_cons.mp hlocated with rfl | hlocated
    · exact ⟨hwidth, hlength⟩
    · exact ih hrest hlocated

/-- Each statement is read from the end of the one before. -/
theorem readFrom_inOrder (hlength : t.length = length - p) :
    InOrder length p (readFrom jsx n p t).statements := by
  induction n generalizing p t with
  | zero => trivial
  | succ n ih =>
    have hle : (skipTrivia t.length.succ false t).2.length ≤ t.length :=
      skipTrivia_suffix.length_le
    rw [readFrom]
    generalize (skipTrivia t.length.succ false t).2 = here at hle
    dsimp only
    by_cases hnil : here = []
    · rw [if_pos hnil]
      trivial
    have hpos := List.length_pos_iff.mpr hnil
    rw [if_neg hnil]
    split
    · trivial
    · trivial
    next width hwidth _ =>
      have hwide : 0 < width := Nat.pos_of_ne_zero hwidth
      refine ⟨Nat.le_add_right _ _, Nat.lt_add_of_pos_right hwide, ?_, ih ?_⟩
      · dsimp only
        omega
      · rw [List.length_drop]
        dsimp only
        omega

theorem readSource_inOrder (jsx : Bool) (text : Text) :
    InOrder text.length 0 (readSource jsx text).statements :=
  InOrder.mono (readFrom_inOrder List.length_drop) (Nat.zero_le _)

end InOrder

/-! ### Records in counts of characters -/

section Records

variable {cwd path text : Text} {statements : List Located} {located : Located}

/-- The import line that a statement makes in the source at `path`, in counts of characters. -/
def ImportLine.ofStatement? (cwd path text : Text) (start stop : Nat)
    (statement : ImportStatement) : Option ImportLine :=
  let written := text.slice start stop
  match readToken (written.drop statement.moduleAt) with
  | (.string quote body, _) =>
    let line : ImportLine :=
      { modulePath := body
        resolvedPath := Path.resolveImport cwd path body
        text := written
        offset := start
        specifier := quote :: body ++ [quote]
        typeOnly := statement.typeOnly }
    some (line.withForm statement.form)
  | _ => none

namespace FileRecord

/-- The import lines among the statements of a source. -/
def importLines (cwd path text : Text) (statements : List Located) : List ImportLine :=
  statements.filterMap fun located =>
    match located.statement with
    | .imports statement =>
      ImportLine.ofStatement? cwd path text located.start located.stop statement
    | _ => none

/-- The exports of the statements, in the order of the text. -/
def exportsOf (statements : List Located) : List ExportedSymbol :=
  statements.flatMap (·.statement.exports)

/-- The record of the source at `path` that holds `statements`. -/
def ofStatements (cwd path text : Text) (statements : List Located) : FileRecord :=
  let path := Path.standardize cwd path
  collect path (importLines cwd path text statements) (exportsOf statements)
    (statements.flatMap (·.statement.reads))

end FileRecord

/-- A node of the grammar makes the import line of its statement. -/
theorem ImportLine.ofNode?_ofLocated (hstop : located.start < located.stop)
    (hlength : located.start < text.length) :
    ofNode? cwd path (SyntaxNode.ofLocated text located) =
      match located.statement with
      | .imports statement => ofStatement? cwd path text located.start located.stop statement
      | _ => none := by
  obtain ⟨start, stop, statement⟩ := located
  dsimp only at hstop hlength
  obtain ⟨width, rfl⟩ := Nat.exists_eq_add_of_le (Nat.le_of_lt hstop)
  unfold SyntaxNode.ofLocated
  dsimp only
  rw [Nat.add_sub_cancel_left]
  cases statement with
  | imports statement =>
    have hspan : (Span.ofRange text start width).text = text.slice start (start + width) := by
      rw [Span.text_ofRange, slice, Nat.add_sub_cancel_left]
    have hoffset : (Span.ofRange text start width).offset = start :=
      Span.offset_ofRange (Nat.le_of_lt hlength)
    unfold ofNode? ofStatement? Item.ofStatement
    dsimp only
    rcases hread : readToken ((text.slice start (start + width)).drop statement.moduleAt) with
      ⟨token, after⟩
    cases token with
    | string quote body =>
      obtain ⟨literal, hliteral, htext⟩ := Literal.exists_of_readToken hread
      rw [hliteral]
      dsimp only
      rw [htext, hspan, hoffset, List.cons_append, List.drop_succ_cons, List.drop_zero,
        List.dropLast_concat]
    | _ => rw [Literal.read?_eq_none fun quote body after h => by cases hread.symm.trans h]
  | _ => rfl

end Records

namespace Extraction

variable (cwd path text : Text)

theorem exported_ofSource : (ofSource cwd path text).exported =
    FileRecord.exportsOf (readSource (usesJsx (Path.standardize cwd path)) text).statements := by
  change ((readSource _ text).statements.map (SyntaxNode.ofLocated text)).flatMap
    (·.item.exports) = _
  rw [List.flatMap_map]
  exact List.flatMap_congr fun located _ => Item.exports_ofStatement located.statement

/-- The record of a source by the grammar is that of its statements. -/
theorem record_ofSource : (ofSource cwd path text).record =
    FileRecord.ofStatements cwd path text
      (readSource (usesJsx (Path.standardize cwd path)) text).statements := by
  let standard := Path.standardize cwd path
  let statements := (readSource (usesJsx standard) text).statements
  have hinOrder := readSource_inOrder (usesJsx standard) text
  have himports : (statements.map (SyntaxNode.ofLocated text)).filterMap
      (ImportLine.ofNode? cwd standard) = FileRecord.importLines cwd standard text statements := by
    rw [List.filterMap_map]
    refine List.filterMap_congr fun located hlocated => ?_
    obtain ⟨hstop, hlength⟩ := hinOrder.of_mem hlocated
    exact ImportLine.ofNode?_ofLocated hstop hlength
  have hreads : (statements.map (SyntaxNode.ofLocated text)).flatMap (·.item.reads) =
      statements.flatMap (·.statement.reads) := by
    rw [List.flatMap_map]
    exact List.flatMap_congr fun located _ => Item.reads_ofStatement located.statement
  change FileRecord.collect standard ((statements.map (SyntaxNode.ofLocated text)).filterMap
    (ImportLine.ofNode? cwd standard)) (ofSource cwd path text).exported
    ((statements.map (SyntaxNode.ofLocated text)).flatMap (·.item.reads)) = _
  rw [himports, hreads, exported_ofSource]
  rfl

theorem complete_ofSource : (ofSource cwd path text).complete =
    (readSource (usesJsx (Path.standardize cwd path)) text).complete := rfl

end Extraction

end Disentangle
