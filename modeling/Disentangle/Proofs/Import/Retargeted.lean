import Disentangle.Import.Retarget
import Disentangle.Proofs.Import.Gathering

/-!
Pointing the imports of a source at other modules. The statements that are read of a text stand in
it one behind the other, so exchanging them from the last one back to the first one exchanges each
of them where it stands, and leaves everything between them as it is.
-/

namespace Disentangle

namespace Text

variable {pattern t left right : Text}

theorem exists_positionOf? (h : t = left ++ (pattern ++ right)) :
    ∃ i, positionOf? pattern t = some i ∧ i ≤ left.length := by
  induction t generalizing left with
  | nil =>
    obtain ⟨rfl, hrest⟩ := List.append_eq_nil_iff.mp h.symm
    obtain ⟨rfl, rfl⟩ := List.append_eq_nil_iff.mp hrest
    exact ⟨0, rfl, Nat.le_refl 0⟩
  | cons c rest ih =>
    rw [positionOf?]
    split
    next => exact ⟨0, rfl, Nat.zero_le _⟩
    next hnot =>
      cases left with
      | nil => exact absurd (List.isPrefixOf_iff_prefix.mpr (h ▸ List.prefix_append _ _)) hnot
      | cons d left =>
        obtain ⟨i, hi, hle⟩ := ih (List.cons.inj h).2
        exact ⟨i + 1, by rw [hi, Option.map_some], Nat.succ_le_succ hle⟩

theorem exists_lastPositionOf? (h : t = left ++ (pattern ++ right)) :
    ∃ i, lastPositionOf? pattern t = some i ∧ left.length ≤ i := by
  induction t generalizing left with
  | nil =>
    obtain ⟨rfl, hrest⟩ := List.append_eq_nil_iff.mp h.symm
    obtain ⟨rfl, rfl⟩ := List.append_eq_nil_iff.mp hrest
    exact ⟨0, rfl, Nat.le_refl 0⟩
  | cons c rest ih =>
    rw [lastPositionOf?]
    cases left with
    | nil =>
      have hprefix : pattern.isPrefixOf (c :: rest) = true :=
        List.isPrefixOf_iff_prefix.mpr (h ▸ List.prefix_append _ _)
      cases lastPositionOf? pattern rest with
      | none => exact ⟨0, if_pos hprefix, Nat.zero_le _⟩
      | some n => exact ⟨n + 1, rfl, Nat.zero_le _⟩
    | cons d left =>
      obtain ⟨i, hi, hle⟩ := ih (List.cons.inj h).2
      exact ⟨i + 1, by rw [hi], Nat.succ_le_succ hle⟩

/-- Where the first occurrence is the last one, it is the only one. -/
theorem lastPositionOf?_eq_of_once (h : t = left ++ (pattern ++ right))
    (honce : positionOf? pattern t = lastPositionOf? pattern t) :
    lastPositionOf? pattern t = some left.length := by
  obtain ⟨i, hi, hle⟩ := exists_positionOf? h
  obtain ⟨j, hj, hge⟩ := exists_lastPositionOf? h
  rw [hi, hj] at honce
  cases honce
  rw [hj, Nat.le_antisymm hle hge]

end Text

open Text TypeScript

/-- The text `result` is what `text`, which begins after `start` characters, becomes when each of
the lines is exchanged for what `written` gives for it. -/
inductive Exchanged (written : ImportLine → Text) : Nat → Text → List ImportLine → Text → Prop where
  | rest (start : Nat) (text : Text) : Exchanged written start text [] text
  | line {start : Nat} {gap later result : Text} {line : ImportLine} {lines : List ImportLine}
      (hoffset : line.offset = start + gap.length)
      (h : Exchanged written (start + gap.length + line.text.length) later lines result) :
      Exchanged written start (gap ++ (line.text ++ later)) (line :: lines)
        (gap ++ (written line ++ result))

/-- Import lines that stand one behind the other in a text. -/
def StandIn (text : Text) : Nat → List ImportLine → Prop
  | _, [] => True
  | p, line :: lines =>
    p ≤ line.offset ∧ line.text ≠ [] ∧ line.text <+: text.drop line.start ∧
      StandIn text (line.start + line.text.length) lines

section Reading

variable {jsx : Bool} {n p q length start stop : Nat} {t text cwd path : Text}
  {statements : List Located} {lines : List ImportLine} {line : ImportLine}
  {statement : ImportStatement}

theorem StandIn.mono (h : StandIn text q lines) (hle : p ≤ q) : StandIn text p lines := by
  cases lines with
  | nil => trivial
  | cons line rest => exact ⟨Int.le_trans (Int.ofNat_le.mpr hle) h.1, h.2⟩

theorem of_ofStatement?
    (h : ImportLine.ofStatement? cwd path text start stop statement = some line) :
    line.offset = start ∧ line.text = text.slice start stop ∧
      line.resolvedPath = Path.resolveImport cwd path line.modulePath ∧
      ∃ quote after, line.specifier = quote :: line.modulePath ++ [quote] ∧
        line.text.drop statement.moduleAt = line.specifier ++ after := by
  unfold ImportLine.ofStatement? at h
  dsimp only at h
  split at h
  next quote body after hread =>
    have hliteral := (readToken_append hread trivial).2.symm
    cases h
    cases statement.form <;> exact ⟨rfl, rfl, rfl, quote, after, rfl, hliteral⟩
  next => cases h

theorem importLines_standIn (h : InOrder text.length p statements) :
    StandIn text p (FileRecord.importLines cwd path text statements) := by
  induction statements generalizing p with
  | nil => trivial
  | cons located rest ih =>
    obtain ⟨hstart, hwidth, hlength, hrest⟩ := h
    unfold FileRecord.importLines at ih ⊢
    rw [List.filterMap_cons]
    split
    next => exact (ih hrest).mono (hstart.trans hwidth.le)
    next line hline =>
      split at hline
      next statement _ =>
        obtain ⟨hoffset, htext, -⟩ := of_ofStatement? hline
        have hplace : line.start = located.start := ImportLine.start_eq hoffset
        have hcount : line.text.length =
            min (located.stop - located.start) (text.length - located.start) := by
          rw [htext, slice, List.length_take, List.length_drop]
        refine ⟨hoffset ▸ Int.ofNat_le.mpr hstart, ?_, ?_, (ih hrest).mono ?_⟩
        · exact List.length_pos_iff.mp (by omega)
        · rw [htext, hplace]
          exact List.take_prefix _ _
        · omega
      next => cases hline

theorem standIn_map_weak : StandIn text p (lines.map ImportLine.weak) ↔ StandIn text p lines := by
  induction lines generalizing p with
  | nil => exact Iff.rfl
  | cons line rest ih =>
    exact and_congr Iff.rfl (and_congr Iff.rfl (and_congr Iff.rfl ih))

/-- The lines of the nodes of a tree stand one behind the other in the text. -/
theorem standIn_of_nodes {nodes : List (SyntaxNode (Utf8.encode text))}
    (hnodes : nodes.Pairwise fun a b => a.span.stop ≤ b.span.start)
    (hplace : ∀ node ∈ nodes, p ≤ node.span.offset) :
    StandIn text p (nodes.filterMap (ImportLine.ofNode? cwd path)) := by
  induction hnodes generalizing p with
  | nil => trivial
  | @cons node rest hfirst _ ih =>
    obtain ⟨hnode, hrest⟩ := List.forall_mem_cons.mp hplace
    cases hline : ImportLine.ofNode? cwd path node with
    | none =>
      rw [List.filterMap_cons_none hline]
      exact ih hrest
    | some line =>
      rw [List.filterMap_cons_some hline]
      obtain ⟨literal, hoffset, htext, -⟩ := ImportLine.exists_literal_of_ofNode? hline
      have hstart : line.start = node.span.offset := ImportLine.start_eq hoffset
      obtain ⟨hne, left, right, hwhole⟩ := Span.exists_of_literal literal
      refine ⟨hoffset ▸ Int.ofNat_le.mpr hnode, ?_, ?_, ih fun other hother => ?_⟩
      · rw [htext, hwhole]
        simp [hne]
      · rw [hstart, htext]
        exact node.span.text_prefix
      · rw [hstart, htext]
        exact Span.stop_le_start_iff.mp (hfirst other hother)

/-- The imports of a record stand one behind the other in the text that was parsed. -/
theorem imports_standIn (cwd path : Text) (tree : SyntaxTree (Utf8.encode text)) :
    StandIn text 0 (Extraction.ofTree cwd path tree).record.imports := by
  rw [← standIn_map_weak, Extraction.map_weak_imports_ofTree]
  exact standIn_of_nodes tree.inOrder fun _ _ => Nat.zero_le _

/-- The literal that names the module stands in the statement, and the module path is what stands
between its quotes. -/
theorem exists_literal_of_mem_ofTree {tree : SyntaxTree (Utf8.encode text)}
    (h : line ∈ (Extraction.ofTree cwd path tree).record.imports) :
    line.specifier ≠ [] ∧ line.modulePath = (line.specifier.drop 1).dropLast ∧
      ∃ left right, line.text = left ++ (line.specifier ++ right) := by
  obtain ⟨node, -, hnode⟩ := Extraction.exists_node_of_mem_imports h
  obtain ⟨literal, -, htext, hspecifier, hmodule⟩ := ImportLine.exists_literal_of_ofNode? hnode
  change line.text = _ at htext
  change line.specifier = _ at hspecifier
  change line.modulePath = _ at hmodule
  obtain ⟨hne, left, right, hwhole⟩ := Span.exists_of_literal literal
  rw [htext, hspecifier]
  exact ⟨hne, hmodule, left, right, hwhole⟩

/-- The literal that names the module stands in the statement, and the specifier is this literal. -/
theorem exists_literal_of_mem_importLines
    (h : line.weak ∈ FileRecord.importLines cwd path text statements) :
    ∃ quote left right, line.specifier = quote :: line.modulePath ++ [quote] ∧
      line.text = left ++ (line.specifier ++ right) ∧
      line.resolvedPath = Path.resolveImport cwd path line.modulePath := by
  obtain ⟨located, -, statement, -, hread⟩ := FileRecord.exists_statement_of_mem_importLines h
  obtain ⟨-, -, hresolved, quote, after, hspecifier, hdrop⟩ := of_ofStatement? hread
  refine ⟨quote, line.text.take statement.moduleAt, after, hspecifier, ?_, hresolved⟩
  exact (List.take_append_drop statement.moduleAt line.text).symm.trans
    (congrArg (line.text.take statement.moduleAt ++ ·) hdrop)

theorem exists_literal_of_mem_imports
    (h : line ∈ (Extraction.ofSource cwd path text).record.imports) :
    ∃ quote left right, line.specifier = quote :: line.modulePath ++ [quote] ∧
      line.text = left ++ (line.specifier ++ right) := by
  obtain ⟨quote, left, right, hspecifier, htext, -⟩ :=
    exists_literal_of_mem_importLines (FileRecord.weak_mem_importLines h)
  exact ⟨quote, left, right, hspecifier, htext⟩

end Reading

section Exchanging

variable {resolve : ImportLine → Text} {text : Text} {lines : List ImportLine} {line : ImportLine}
  {p : Nat}

/-- What a statement becomes when its import is pointed at the module that `resolve` gives. -/
def ImportLine.pointed (resolve : ImportLine → Text) (line : ImportLine) : Text :=
  if resolve line = line.modulePath then line.text
  else (Change.mk line (resolve line)).statement?.getD line.text

/-- The lines among the given ones that `resolve` gives another module. -/
def Change.ofLines (resolve : ImportLine → Text) (lines : List ImportLine) : List Change :=
  lines.filterMap fun line =>
    if resolve line = line.modulePath then none else some ⟨line, resolve line⟩

theorem Change.insert_of_lt {change : Change} {sorted : List Change}
    (h : ∀ other ∈ sorted, other.line.offset < change.line.offset) :
    Change.insert change sorted = change :: sorted := by
  cases sorted with
  | nil => rfl
  | cons other rest => rw [Change.insert, if_pos (h other List.mem_cons_self)]

/-- Changes in the order of the text are put in the opposite order. -/
theorem Change.backToFront_eq {changes : List Change}
    (h : changes.Pairwise fun a b => a.line.offset < b.line.offset) :
    Change.backToFront changes = changes.reverse := by
  have hfold (sorted : List Change)
      (hsorted : ∀ a ∈ sorted, ∀ b ∈ changes, a.line.offset < b.line.offset) :
      changes.foldl (fun sorted change => Change.insert change sorted) sorted =
        changes.reverse ++ sorted := by
    induction h generalizing sorted with
    | nil => rfl
    | @cons change rest hfirst _ ih =>
      rw [List.foldl_cons, Change.insert_of_lt fun a ha => hsorted a ha change List.mem_cons_self,
        ih, List.reverse_cons, List.append_assoc, List.singleton_append]
      intro a ha b hb
      rcases List.mem_cons.mp ha with rfl | ha
      · exact hfirst b hb
      · exact hsorted a ha b (List.mem_cons_of_mem change hb)
  rw [Change.backToFront, hfold [] (by simp), List.append_nil]

theorem StandIn.le_offset (h : StandIn text p lines) : ∀ line ∈ lines, p ≤ line.offset := by
  induction lines generalizing p with
  | nil => simp
  | cons first rest ih =>
    obtain ⟨hfirst, -, -, hrest⟩ := h
    rw [List.forall_mem_cons]
    refine ⟨hfirst, fun line hline => ?_⟩
    have hle := ih hrest line hline
    rw [ImportLine.start] at hle
    omega

theorem StandIn.le_start (h : StandIn text p lines) : ∀ line ∈ lines, p ≤ line.start :=
  fun line hline => Int.ofNat_le.mp (Int.le_trans (h.le_offset line hline) (Int.self_le_toNat _))

theorem StandIn.pairwise (h : StandIn text p lines) :
    lines.Pairwise fun a b => a.offset < b.offset := by
  induction lines generalizing p with
  | nil => exact .nil
  | cons first rest ih =>
    obtain ⟨-, hne, -, hrest⟩ := h
    have hpos := List.length_pos_iff.mpr hne
    refine .cons (fun line hline => ?_) (ih hrest)
    have hle := hrest.le_offset line hline
    rw [ImportLine.start] at hle
    omega

theorem Change.pairwise_ofLines (h : lines.Pairwise fun a b => a.offset < b.offset) :
    (Change.ofLines resolve lines).Pairwise fun a b => a.line.offset < b.line.offset := by
  refine List.Pairwise.filterMap _ ?_ h
  intro a b hlt c hc d hd
  split at hc <;> cases hc
  split at hd <;> cases hd
  exact hlt

/-- A statement is exchanged where it stands. -/
theorem Change.apply_eq {front : Text} (later : Text) (hoffset : line.offset = front.length)
    (hchanged : resolve line ≠ line.modulePath) :
    (Change.mk line (resolve line)).apply (front ++ (line.text ++ later)) =
      front ++ (line.pointed resolve ++ later) := by
  have hstart := ImportLine.start_eq hoffset
  have hcurrent : (Change.mk line (resolve line)).isCurrent (front ++ (line.text ++ later)) =
      true := by
    unfold Change.isCurrent
    dsimp only
    rw [hstart, List.drop_left, List.take_left, hoffset]
    simp
  unfold Change.apply ImportLine.pointed
  rw [if_pos hcurrent, if_neg hchanged]
  cases (Change.mk line (resolve line)).statement? with
  | none => rfl
  | some statement =>
    dsimp only
    rw [hstart, List.take_left, ← List.append_assoc front line.text,
      ← List.length_append, List.drop_left, Option.getD_some, List.append_assoc]

/-- Exchanging the last statement first exchanges each of them where it stands. The induction is on
the statements, over what stands before them. -/
theorem exists_exchanged (resolve : ImportLine → Text) (front tail : Text)
    (h : StandIn (front ++ tail) front.length lines) :
    ∃ result, (Change.ofLines resolve lines).foldr Change.apply (front ++ tail) = front ++ result ∧
      Exchanged (ImportLine.pointed resolve) front.length tail lines result := by
  induction lines generalizing front tail with
  | nil => exact ⟨tail, rfl, .rest _ _⟩
  | cons line rest ih =>
    obtain ⟨hle, hne, ⟨later, hlater⟩, hrest⟩ := h
    have hstart : (line.start : Int) = line.offset := Int.toNat_of_nonneg (by omega)
    obtain ⟨gap, htail, hgap⟩ : ∃ gap, tail = gap ++ (line.text ++ later) ∧
        line.start = front.length + gap.length := by
      rw [List.drop_append, List.drop_eq_nil_of_le (by omega), List.nil_append] at hlater
      refine ⟨tail.take (line.start - front.length), ?_, ?_⟩
      · rw [hlater, List.take_append_drop]
      · have hpos := List.length_pos_iff.mpr hne
        have hlength := congrArg List.length hlater
        rw [List.length_append, List.length_drop] at hlength
        rw [List.length_take]
        omega
    have hwhole : front ++ tail = (front ++ (gap ++ line.text)) ++ later := by
      rw [htail]
      simp only [List.append_assoc]
    have hlength : line.start + line.text.length = (front ++ (gap ++ line.text)).length := by
      simp only [List.length_append]
      omega
    have hoffset : line.offset = front.length + gap.length := by omega
    rw [hwhole, hlength] at hrest
    obtain ⟨result, hresult, hexchanged⟩ := ih _ _ hrest
    refine ⟨gap ++ (line.pointed resolve ++ result), ?_, htail ▸ .line hoffset ?_⟩
    swap
    · rwa [← hgap, hlength]
    rw [← hwhole] at hresult
    by_cases hsame : resolve line = line.modulePath
    · have hchanges : Change.ofLines resolve (line :: rest) = Change.ofLines resolve rest :=
        List.filterMap_cons_none (if_pos hsame)
      rw [hchanges, hresult, ImportLine.pointed, if_pos hsame]
      simp only [List.append_assoc]
    · have hchanges : Change.ofLines resolve (line :: rest) =
          ⟨line, resolve line⟩ :: Change.ofLines resolve rest :=
        List.filterMap_cons_some (if_neg hsame)
      have hplace : line.offset = (front ++ gap).length := by
        rw [hoffset, List.length_append, Int.natCast_add]
      have happly := Change.apply_eq result hplace hsame
      rw [hchanges, List.foldr_cons, hresult]
      simp only [List.append_assoc] at happly ⊢
      exact happly

/-- Pointing the imports of a source at other modules exchanges their statements where they
stand. -/
theorem retargetImports_exchanged (resolve : ImportLine → Text) (cwd path : Text)
    (tree : SyntaxTree (Utf8.encode text)) :
    Exchanged (ImportLine.pointed resolve) 0 text (Extraction.ofTree cwd path tree).record.imports
      ((Extraction.ofTree cwd path tree).record.retargetImports resolve text) := by
  have hstand := imports_standIn cwd path tree
  obtain ⟨result, hresult, hexchanged⟩ := exists_exchanged resolve [] text hstand
  have hchanges : (Extraction.ofTree cwd path tree).record.changes resolve =
      Change.ofLines resolve (Extraction.ofTree cwd path tree).record.imports := rfl
  rw [FileRecord.retargetImports, hchanges, Change.backToFront_eq
    (Change.pairwise_ofLines hstand.pairwise), Change.applyAll, List.foldl_reverse]
  exact hresult ▸ hexchanged

/-- The last occurrence of the literal is exchanged for one of the new module in the same quotes. -/
theorem ImportLine.pointed_eq {left right : Text} {quote : Char}
    (hchanged : resolve line ≠ line.modulePath) (hquote : line.specifier.head? = some quote)
    (htext : line.text = left ++ (line.specifier ++ right))
    (hlast : lastPositionOf? line.specifier line.text = some left.length) :
    line.pointed resolve = left ++ (quote :: resolve line ++ [quote] ++ right) := by
  have htake : line.specifier.take 1 = [quote] := by
    rw [List.take_one, hquote]
    rfl
  have hright : line.text.drop (left.length + line.specifier.length) = right := by
    rw [htext, ← List.append_assoc, ← List.length_append, List.drop_left]
  have hleft : line.text.take left.length = left := by rw [htext, List.take_left]
  rw [pointed, if_neg hchanged, Change.statement?]
  dsimp only
  rw [hlast, Option.map_some, Option.getD_some, htake, hright, hleft]
  simp

/-- The literal of a line when it is to name a module: one in the same quotes, or the literal itself
if it names the module already. -/
def ImportLine.literalOf (line : ImportLine) (modulePath : Text) : Text :=
  if modulePath = line.modulePath then line.specifier
  else line.specifier.take 1 ++ modulePath ++ line.specifier.take 1

/-- The statement `written` is that of the line with a module named in it: the literal of the
specifier is exchanged wherever it stands. -/
def ImportLine.PointedAt (line : ImportLine) (modulePath written : Text) : Prop :=
  (∃ left right, line.text = left ++ (line.specifier ++ right)) ∧
    ∀ left right, line.text = left ++ (line.specifier ++ right) →
      written = left ++ (line.literalOf modulePath ++ right)

/-- The literal that names the module stands once in the statement. -/
def ImportLine.HasOneLiteral (line : ImportLine) : Prop :=
  positionOf? line.specifier line.text = lastPositionOf? line.specifier line.text

instance (line : ImportLine) : Decidable line.HasOneLiteral :=
  decEq (positionOf? line.specifier line.text) (lastPositionOf? line.specifier line.text)

/-- A literal that stands once in its statement is the one that is exchanged. -/
theorem ImportLine.pointed_pointedAt {cwd path : Text} {tree : SyntaxTree (Utf8.encode text)}
    (hline : line ∈ (Extraction.ofTree cwd path tree).record.imports) (honce : line.HasOneLiteral) :
    line.PointedAt (resolve line) (line.pointed resolve) := by
  obtain ⟨hne, -, hliteral⟩ := exists_literal_of_mem_ofTree hline
  refine ⟨hliteral, fun left right htext => ?_⟩
  by_cases hsame : resolve line = line.modulePath
  · rw [pointed, if_pos hsame, literalOf, if_pos hsame, htext]
  · obtain ⟨quote, body, hquote⟩ := List.exists_cons_of_ne_nil hne
    have htake : line.specifier.take 1 = [quote] := by rw [hquote]; rfl
    rw [pointed_eq hsame (by rw [hquote]; rfl) htext (lastPositionOf?_eq_of_once htext honce),
      literalOf, if_neg hsame, htake]
    simp

end Exchanging

end Disentangle
