import Disentangle.Proofs.Utf8
import Disentangle.TypeScript.Source

/-!
Syntax trees. A parser is given the bytes that encode a source and tells places by counts of bytes.
It always has a tree: behind a mistake it goes on with what it can make of the rest. What a tree
says is all that is known of a source, so everything that is done with sources is done for any
parser. The grammar of this library is one; its tree ends at the first
mistake. -/

namespace Disentangle.TypeScript

/-- A range of the bytes of a source that cuts no character in two. -/
structure Span (data : List UInt8) where
  start : Nat
  stop : Nat
  start_le_stop : start ≤ stop
  stop_le_length : stop ≤ data.length
  isText_front : Utf8.IsText (data.take start)
  isText_bytes : Utf8.IsText ((data.drop start).take (stop - start))

namespace Span

variable {data : List UInt8}

def text (span : Span data) : Text :=
  Utf8.textOf _ span.isText_bytes

/-- The number of characters before a span. -/
def offset (span : Span data) : Nat :=
  (Utf8.textOf _ span.isText_front).length

end Span

/-- A literal in the text of a span, with its quotes. -/
structure Literal {data : List UInt8} (whole : Span data) extends Span data where
  whole_start_le : whole.start ≤ start
  stop_le_whole : stop ≤ whole.stop
  start_lt_stop : start < stop

/-- What a mistake has taken from an import. -/
inductive ImportFlaw where
  | moduleMissing
  /-- `require` binds nothing. -/
  | nameMissing
  deriving DecidableEq, Repr

/-- What stands at the top of a source. A name that a mistake has taken is empty, or none. -/
inductive Item {data : List UInt8} (span : Span data) where
  | imports (typeOnly : Bool) (form : ImportForm) (literal : Literal span)
  | flawedImport (flaw : ImportFlaw)
  | declares (exported isDefault : Bool) (declaration : Declaration)
  | other

structure SyntaxNode (data : List UInt8) where
  span : Span data
  item : Item span

/-- The syntax tree of a source: what stands at its top, in the order of the text. -/
structure SyntaxTree (data : List UInt8) where
  nodes : List (SyntaxNode data)
  inOrder : nodes.Pairwise fun a b => a.span.stop ≤ b.span.start
  /-- Whether the source is free of mistakes. -/
  complete : Bool

/-- A parser reads sources with or without JSX elements. -/
abbrev SourceParser :=
  Bool → (text : Text) → SyntaxTree (Utf8.encode text)

/-! ### The tree of the grammar -/

/-- The bytes of the `width` characters behind the first `start` ones. -/
def Span.ofRange (text : Text) (start width : Nat) : Span (Utf8.encode text) where
  start := Utf8.bytesBefore text start
  stop := Utf8.bytesBefore text (start + width)
  start_le_stop := Utf8.bytesBefore_mono (Nat.le_add_right _ _)
  stop_le_length := Utf8.bytesBefore_le text _
  isText_front := Utf8.take_bytesBefore text start ▸ Utf8.isText_encode _
  isText_bytes := Utf8.take_drop_bytesBefore text start width ▸ Utf8.isText_encode _

/-- The number of characters of the literal at the front of a text; zero if none stands there. -/
def literalWidth (here : Text) : Nat :=
  match readToken here with
  | (.string _ _, after) => here.length - after.length
  | _ => 0

theorem literalWidth_le (here : Text) : literalWidth here ≤ here.length := by
  unfold literalWidth
  split
  · exact Nat.sub_le _ _
  · exact Nat.zero_le _

/-- The literal that stands in a range of a text behind `before` characters, if there is one. -/
def Literal.read? (text : Text) (start width before : Nat) :
    Option (Literal (Span.ofRange text start width)) :=
  let here := (text.slice start (start + width)).drop before
  if h : 0 < literalWidth here then
    have hlength : here.length = min width (text.length - start) - before := by
      simp only [here, Text.slice, List.length_drop, List.length_take, Nat.add_sub_cancel_left]
    have htaken := literalWidth_le here
    some
      { Span.ofRange text (start + before) (literalWidth here) with
        whole_start_le := Utf8.bytesBefore_mono (Nat.le_add_right _ _)
        stop_le_whole := Utf8.bytesBefore_mono (by omega)
        start_lt_stop := Utf8.bytesBefore_lt (Nat.lt_add_of_pos_right h) (by omega) }
  else none

/-- What a statement of the grammar is in a tree. -/
def Item.ofStatement (text : Text) (start width : Nat) :
    Statement → Item (Span.ofRange text start width)
  | .imports statement =>
    match Literal.read? text start width statement.moduleAt with
    | some literal => .imports statement.typeOnly statement.form literal
    | none => .flawedImport .moduleMissing
  | .declares exported isDefault declaration => .declares exported isDefault declaration
  | .other => .other

def SyntaxNode.ofLocated (text : Text) (located : Located) : SyntaxNode (Utf8.encode text) :=
  ⟨.ofRange text located.start (located.stop - located.start),
    .ofStatement text _ _ located.statement⟩

/-- Statements are read one behind the other. -/
theorem pairwise_readFrom {jsx : Bool} {n position : Nat} {t : Text} :
    (∀ located ∈ (readFrom jsx n position t).statements,
        position ≤ located.start ∧ located.start ≤ located.stop) ∧
      (readFrom jsx n position t).statements.Pairwise fun a b => a.stop ≤ b.start := by
  induction n generalizing position t with
  | zero => exact ⟨fun _ h => (List.not_mem_nil h).elim, .nil⟩
  | succ n ih =>
    rw [readFrom]
    generalize (skipTrivia t.length.succ false t).2 = here
    dsimp only
    split
    · exact ⟨fun _ h => (List.not_mem_nil h).elim, .nil⟩
    split
    · exact ⟨fun _ h => (List.not_mem_nil h).elim, .nil⟩
    · exact ⟨fun _ h => (List.not_mem_nil h).elim, .nil⟩
    next statement width _ _ =>
      obtain ⟨hplaces, hpairwise⟩ :=
        @ih (position + (t.length - here.length) + width) (here.drop width)
      refine ⟨fun located hlocated => ?_, .cons (fun located hlocated => ?_) hpairwise⟩
      · rcases List.mem_cons.mp hlocated with rfl | hlocated
        · exact ⟨Nat.le_add_right _ _, Nat.le_add_right _ _⟩
        · have hplace := hplaces located hlocated
          omega
      · exact (hplaces located hlocated).1

/-- The parser that reads by the grammar. -/
def grammarParser : SourceParser := fun jsx text =>
  { nodes := (readSource jsx text).statements.map (.ofLocated text)
    inOrder := by
      obtain ⟨hplaces, hpairwise⟩ :=
        @pairwise_readFrom jsx (text.length + 1) (bodyStart text) (text.drop (bodyStart text))
      refine List.pairwise_map.mpr (hpairwise.imp_of_mem fun ha _ hle => Utf8.bytesBefore_mono ?_)
      have hstop := (hplaces _ ha).2
      omega
    complete := (readSource jsx text).complete }

end Disentangle.TypeScript
