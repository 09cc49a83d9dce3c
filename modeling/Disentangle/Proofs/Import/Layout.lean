import Disentangle.Proofs.Import.External
import Disentangle.Proofs.Import.Redirected

/-!
Sources that begin with imports: comments, then import statements that each take up whole lines,
then code. What such a source says about its imports is what its pieces say, and redirecting the
imports redirects the pieces.
-/

namespace Disentangle

open Text TypeScript Section

/-- An import statement at the top of a source. -/
structure ImportPiece where
  statement : ImportStatement
  /-- The text of the statement. -/
  written : Text
  /-- What is left of its last line, with the line breaks behind it. -/
  behind : Text
  /-- The blanks and comments between this line and what follows. -/
  comments : Text

namespace ImportPiece

def line (piece : ImportPiece) : Text :=
  piece.written ++ piece.behind

def whole (piece : ImportPiece) : Text :=
  piece.line ++ piece.comments

/-- The statement of a piece that begins after `start` characters. -/
def located (start : Nat) (piece : ImportPiece) : Located :=
  ⟨start, start + piece.written.length, .imports piece.statement⟩

/-- The section of a piece. -/
def cutOut (piece : ImportPiece) : Section :=
  ⟨.imports, piece.line⟩

/-- Consecutive pieces with the number of characters before each. -/
def placed (start : Nat) : List ImportPiece → List (Nat × ImportPiece)
  | [] => []
  | piece :: rest => (start, piece) :: placed (start + piece.whole.length) rest

/-- The statements of consecutive pieces. -/
def locate (start : Nat) (pieces : List ImportPiece) : List Located :=
  (placed start pieces).map fun entry => entry.2.located entry.1

/-- The source that consists of imports and a body. -/
def source (pieces : List ImportPiece) (body : Text) : Text :=
  pieces.flatMap whole ++ body

/-- The statement takes up whole lines: it begins one, and behind it on its last line there are
only blanks and comments, for the parser and for the cut into sections alike. -/
structure TakesLines (piece : ImportPiece) : Prop where
  mark : importMark <+: piece.written
  line : IsImportLine piece.line
  behind : IsImportLine piece.behind
  ends : Trivia true piece.behind

/-- Behind its lines there are only blanks and comments as well. -/
structure StandsApart (piece : ImportPiece) : Prop extends TakesLines piece where
  comment : IsComment piece.comments
  blank : ∃ breaks, Trivia breaks piece.comments
  apart : BeginsLine piece.comments

/-- The text of the piece is its statement, where `rest` follows its line. -/
def SpelledBefore (rest : Text) (piece : ImportPiece) : Prop :=
  ∃ attributes, SpellsWhole (piece.behind ++ rest) attributes piece.written piece.statement

/-- The texts of the pieces are their statements, where `body` follows them. -/
def Spelled (body : Text) : List ImportPiece → Prop
  | [] => True
  | piece :: rest => piece.SpelledBefore (piece.comments ++ source rest body) ∧ Spelled body rest

section Source

variable {piece : ImportPiece} {pieces rest : List ImportPiece} {body text : Text} {start : Nat}
  {jsx complete : Bool} {others : List Located}

@[simp] theorem source_nil : source [] body = body := rfl

theorem source_cons : source (piece :: rest) body =
    piece.line ++ (piece.comments ++ source rest body) := by
  simp [source, whole]

theorem source_cons' : source (piece :: rest) body =
    piece.written ++ (piece.behind ++ (piece.comments ++ source rest body)) := by
  rw [source_cons, line, List.append_assoc]

/-- A piece begins with the word `import`, whatever follows. -/
theorem TakesLines.exists_import (h : piece.TakesLines) (t : Text) :
    ∃ t', piece.written ++ t = importMark ++ t' := by
  obtain ⟨t', ht'⟩ := h.mark
  exact ⟨t' ++ t, by rw [← ht', List.append_assoc]⟩

theorem beginsLine_append {t u : Text} (ht : BeginsLine t) (hu : BeginsLine u) :
    BeginsLine (t ++ u) := by
  cases t with
  | nil => exact hu
  | cons c t => exact ht

theorem beginsLine_source (hlines : ∀ piece ∈ pieces, piece.StandsApart) (hbody : BeginsLine body) :
    BeginsLine (source pieces body) := by
  cases pieces with
  | nil => exact hbody
  | cons piece rest =>
    obtain ⟨t, ht⟩ := (hlines piece List.mem_cons_self).exists_import _
    rw [source_cons', ht]
    intro c hc
    cases hc
    rfl

theorem TakesLines.mark_line (h : piece.TakesLines) : importMark <+: piece.line :=
  h.mark.trans (List.prefix_append _ _)

theorem importSectionsFrom_source (hlines : ∀ piece ∈ pieces, piece.StandsApart)
    (hbody : BeginsLine body) :
    importSectionsFrom start (source pieces body) =
      (placed start pieces).map (fun entry => (entry.1, entry.2.cutOut)) ++
        importSectionsFrom (start + (pieces.flatMap whole).length) body := by
  induction pieces generalizing start with
  | nil => simp [placed]
  | cons piece rest ih =>
    obtain ⟨hpiece, hrest⟩ := List.forall_mem_cons.mp hlines
    have hnext := beginsLine_append hpiece.apart (beginsLine_source hrest hbody)
    rw [source_cons, importSectionsFrom_importLine hpiece.mark_line hpiece.line hnext,
      importSectionsFrom_comment hpiece.comment, ih hrest]
    simp [placed, cutOut, whole, Nat.add_assoc]

theorem withoutImports_source (hlines : ∀ piece ∈ pieces, piece.StandsApart)
    (hbody : BeginsLine body) :
    (source pieces body).withoutImports = pieces.flatMap comments ++ body.withoutImports := by
  induction pieces with
  | nil => rfl
  | cons piece rest ih =>
    obtain ⟨hpiece, hrest⟩ := List.forall_mem_cons.mp hlines
    have hnext := beginsLine_append hpiece.apart (beginsLine_source hrest hbody)
    rw [source_cons, withoutImports_importLine hpiece.mark_line hpiece.line hnext,
      withoutImports_comment hpiece.comment, ih hrest]
    simp

theorem TakesLines.begins (h : piece.TakesLines) (t : Text) : Begins (piece.written ++ t) := by
  obtain ⟨t', ht'⟩ := h.exists_import t
  rw [ht']
  intro c hc
  cases hc
  decide +kernel

theorem TakesLines.written_ne_nil (h : piece.TakesLines) : piece.written ≠ [] := by
  obtain ⟨t', ht'⟩ := h.mark
  rw [← ht']
  exact List.cons_ne_nil _ _

/-- What stands between two statements is passed over. -/
theorem StandsApart.readAll_between (h : piece.StandsApart) (t : Text) :
    readAll jsx (start + piece.written.length) (piece.behind ++ (piece.comments ++ t)) =
      readAll jsx (start + piece.whole.length) t := by
  obtain ⟨breaks, hblank⟩ := h.blank
  rw [readAll_trivia h.ends, readAll_trivia hblank]
  congr 1
  simp [whole, ImportPiece.line, Nat.add_assoc]

theorem readAll_source (hlines : ∀ piece ∈ pieces, piece.StandsApart)
    (hspelled : Spelled body pieces) :
    readAll jsx start (source pieces body) =
      ⟨locate start pieces ++
          (readAll jsx (start + (pieces.flatMap whole).length) body).statements,
        (readAll jsx (start + (pieces.flatMap whole).length) body).complete⟩ := by
  induction pieces generalizing start with
  | nil => rfl
  | cons piece rest ih =>
    obtain ⟨hpiece, hrest⟩ := List.forall_mem_cons.mp hlines
    obtain ⟨⟨attributes, hstatement⟩, hspelled⟩ := hspelled
    rw [source_cons', locate, placed, List.map_cons, List.cons_append, List.flatMap_cons,
      List.length_append, ← Nat.add_assoc]
    refine (readAll_eq_cons_iff (hpiece.begins _) hpiece.written_ne_nil).mpr
      ⟨hstatement.readStatement_eq, ?_⟩
    rw [hpiece.readAll_between, ih hrest hspelled, locate]

/-- Where the statements of the pieces are read, the body is read behind them. -/
theorem readAll_body (hlines : ∀ piece ∈ pieces, piece.StandsApart)
    (h : readAll jsx start (source pieces body) =
      ⟨locate start pieces ++ others, complete⟩) :
    readAll jsx (start + (pieces.flatMap whole).length) body = ⟨others, complete⟩ := by
  induction pieces generalizing start with
  | nil => exact h
  | cons piece rest ih =>
    obtain ⟨hpiece, hrest⟩ := List.forall_mem_cons.mp hlines
    rw [source_cons'] at h
    obtain ⟨-, hbetween⟩ := (readAll_eq_cons_iff (hpiece.begins _) hpiece.written_ne_nil).mp h
    rw [hpiece.readAll_between] at hbetween
    rw [List.flatMap_cons, List.length_append, ← Nat.add_assoc]
    exact ih hrest hbetween

end Source

end ImportPiece

end Disentangle
