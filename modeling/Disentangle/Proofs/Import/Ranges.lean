import Disentangle.Proofs.Import.Simultaneous

/-!
Where the import statements of a source stand. A parser tells their places in bytes; the lines of a
record are listed as their statements stand in the text, one behind the other, in counts of
characters, and the text reads like each line in its place. The literal that names the module is a
part of the statement, and the module is what stands between its quotes. So the lines can be
exchanged in the text by their offsets.
-/

namespace Disentangle

open Text TypeScript

section Standing

variable {text : Text} {p : Nat} {lines : List ImportLine} {line : ImportLine}

/-- Each line ends before the next one begins. -/
theorem StandIn.pairwise_behind (h : StandIn text p lines) :
    lines.Pairwise fun (a b : ImportLine) => a.offset + a.text.length ≤ b.offset := by
  induction lines generalizing p with
  | nil => exact .nil
  | cons first rest ih =>
    obtain ⟨hplace, -, -, hrest⟩ := h
    refine .cons (fun line hline => ?_) (ih hrest)
    have hle := hrest.le_offset line hline
    rw [ImportLine.start] at hle
    omega

theorem StandIn.of_mem (h : StandIn text p lines) (hline : line ∈ lines) :
    0 ≤ line.offset ∧ line.text ≠ [] ∧ line.text <+: text.drop line.start := by
  induction lines generalizing p with
  | nil => cases hline
  | cons first rest ih =>
    obtain ⟨hplace, hne, hprefix, hrest⟩ := h
    rcases List.mem_cons.mp hline with rfl | hline
    · exact ⟨by omega, hne, hprefix⟩
    · exact ih hrest hline

/-- A text that goes on with a line at its offset holds the line there. -/
theorem slice_of_prefix_drop {start : Nat} {written : Text} (hne : written ≠ [])
    (h : written <+: text.drop start) :
    start + written.length ≤ text.length ∧
      text.slice start (start + written.length) = written := by
  have hlength := h.length_le
  have hpos := List.length_pos_iff.mpr hne
  rw [List.length_drop] at hlength
  refine ⟨by omega, ?_⟩
  rw [slice, Nat.add_sub_cancel_left]
  exact (List.prefix_iff_eq_take.mp h).symm

end Standing

section Ranges

variable {cwd path text : Text} {line : ImportLine} {start stop : Nat}
  {statement : ImportStatement}

/-- The literal that names the module is a string. -/
theorem head?_specifier_of_ofStatement?
    (h : ImportLine.ofStatement? cwd path text start stop statement = some line) :
    line.specifier.head? = some '"' ∨ line.specifier.head? = some '\'' := by
  unfold ImportLine.ofStatement? at h
  dsimp only at h
  split at h
  next quote body after hread =>
    have hquote := (of_readToken_string hread).1
    have hhead : line.specifier.head? = some quote := by
      cases h
      cases statement.form <;> rfl
    rcases hquote with rfl | rfl
    · exact .inl hhead
    · exact .inr hhead
  next => cases h

theorem head?_specifier_of_mem_imports
    (h : line ∈ (Extraction.ofSource cwd path text).record.imports) :
    line.specifier.head? = some '"' ∨ line.specifier.head? = some '\'' := by
  obtain ⟨located, -, statement, -, hread⟩ :=
    FileRecord.exists_statement_of_mem_importLines (FileRecord.weak_mem_importLines h)
  have hspecifier : line.weak.specifier = line.specifier := rfl
  exact hspecifier ▸ head?_specifier_of_ofStatement? hread

/-- The imports of a source are listed in the order of the text, whatever parser has read it and
whatever mistakes it holds: their offsets increase, and no two of them take up the same place. Each
lies within the text, which reads like its line there; the specifier stands in the statement, and
without its first and its last character it is the module path. The parser gives ranges of bytes,
the places are counts of characters. -/
theorem imports_ofTree_ranges (cwd path : Text) (tree : SyntaxTree (Utf8.encode text)) :
    let lines := (Extraction.ofTree cwd path tree).record.imports
    lines.Pairwise (fun a b => a.offset < b.offset ∧ Disjoint a.places b.places) ∧
      ∀ line ∈ lines,
        0 ≤ line.offset ∧ line.start + line.text.length ≤ text.length ∧
          text.slice line.start (line.start + line.text.length) = line.text ∧
          line.specifier <:+: line.text ∧
          line.modulePath = (line.specifier.drop 1).dropLast := by
  intro lines
  have hstand : StandIn text 0 lines := imports_standIn cwd path tree
  refine ⟨?_, fun line hline => ?_⟩
  · have hbehind := hstand.pairwise_behind.imp fun h => ImportLine.disjoint_places h
    exact hstand.pairwise.and hbehind
  · obtain ⟨hread, hne, hprefix⟩ := hstand.of_mem hline
    obtain ⟨hle, hslice⟩ := slice_of_prefix_drop hne hprefix
    obtain ⟨-, hmodule, left, right, htext⟩ := exists_literal_of_mem_ofTree hline
    exact ⟨hread, hle, hslice, ⟨left, right, by rw [htext, List.append_assoc]⟩, hmodule⟩

/-- The imports of a source by the grammar, whose tree holds ranges of the bytes that encode the
text: the offsets increase, no two lines take up the same place, each lies within the text, which
reads like its line there. The specifier stands in the statement, begins and ends with the same
quote, and has the module path between its quotes. The places are counts of characters, whatever the
characters are and however many bytes encode them. -/
theorem imports_ofSource_ranges (cwd path text : Text) :
    let lines := (Extraction.ofSource cwd path text).record.imports
    lines.Pairwise (fun a b => a.offset < b.offset ∧ Disjoint a.places b.places) ∧
      ∀ line ∈ lines,
        0 ≤ line.offset ∧ line.start + line.text.length ≤ text.length ∧
          text.slice line.start (line.start + line.text.length) = line.text ∧
          line.specifier <:+: line.text ∧
          ∃ quote, (quote = '"' ∨ quote = '\'') ∧
            line.specifier = quote :: line.modulePath ++ [quote] := by
  intro lines
  obtain ⟨hpairwise, hlines⟩ := imports_ofTree_ranges cwd path
    (grammarParser (usesJsx (Path.standardize cwd path)) text)
  refine ⟨hpairwise, fun line hline => ?_⟩
  obtain ⟨hread, hle, hslice, hinfix, -⟩ := hlines line hline
  obtain ⟨quote, left, right, hspecifier, -⟩ := exists_literal_of_mem_imports hline
  have hquote := head?_specifier_of_mem_imports hline
  rw [hspecifier, List.cons_append, List.head?_cons, Option.some.injEq, Option.some.injEq]
    at hquote
  exact ⟨hread, hle, hslice, hinfix, quote, hquote, hspecifier⟩

/-- A character outside the basic plane counts once, though four bytes encode it. -/
example :
    let text := "/* 😀 */ import a from '😀'; import \x7b b \x7d from \"b\";".toList
    ((grammarParser false text).nodes.map fun node => (node.span.start, node.span.stop)) =
        [(11, 32), (33, 55)] ∧
      (Extraction.ofSource ['/'] "/a.ts".toList text).record.imports.map
        (fun line => (line.offset, line.specifier)) =
          [(8, "'😀'".toList), (27, "\"b\"".toList)] := by
  decide +kernel

end Ranges

end Disentangle
