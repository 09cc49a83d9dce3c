import Disentangle.Proofs.Import.Retargeted
import Mathlib.Data.Set.Lattice
import Mathlib.Order.CompletePartialOrder

/-!
Pointing import lines at other modules, for lines in any order that may have been read from another
version of the text. As long as their places do not overlap, exchanging them one by one from the
back gives what exchanging all of them at once gives: each line that still stands where it was read
is exchanged there, and nothing else happens to the text.
-/

namespace Disentangle

open Text

namespace Text

variable {pattern t : Text} {i : Nat}

/-- Where the last occurrence is found, there is one. -/
theorem exists_of_lastPositionOf? (h : lastPositionOf? pattern t = some i) :
    ∃ left right, t = left ++ (pattern ++ right) ∧ left.length = i := by
  induction t generalizing i with
  | nil =>
    rw [lastPositionOf?] at h
    split at h <;> cases h
    next hempty => exact ⟨[], [], by rw [List.isEmpty_iff.mp hempty]; rfl, rfl⟩
  | cons c rest ih =>
    rw [lastPositionOf?] at h
    split at h
    next n hn =>
      cases h
      obtain ⟨left, right, rfl, rfl⟩ := ih hn
      exact ⟨c :: left, right, rfl, rfl⟩
    next =>
      split at h <;> cases h
      next hprefix =>
        obtain ⟨right, hright⟩ := List.isPrefixOf_iff_prefix.mp hprefix
        exact ⟨[], right, hright.symm, rfl⟩

theorem lastPositionOf?_isSome_iff :
    (lastPositionOf? pattern t).isSome = true ↔ pattern <:+: t := by
  constructor
  · intro h
    obtain ⟨i, hi⟩ := Option.isSome_iff_exists.mp h
    obtain ⟨left, right, rfl, -⟩ := exists_of_lastPositionOf? hi
    exact ⟨left, right, List.append_assoc _ _ _⟩
  · rintro ⟨left, right, rfl⟩
    obtain ⟨i, hi, -⟩ := exists_lastPositionOf? (List.append_assoc left pattern right)
    rw [hi]
    rfl

end Text

namespace ImportLine

variable {line : ImportLine} {resolve : ImportLine → Text}

/-- The places of a text that a line takes up, going by its offset and its text. -/
def places (line : ImportLine) : Set Int :=
  { place | line.offset ≤ place ∧ place < line.offset + line.text.length }

/-- A line that is exchanged in `text`: it is given another module, it was read from a text, this
text still reads like it in its place, and the literal of the module stands in it. -/
def IsExchanged (resolve : ImportLine → Text) (text : Text) (line : ImportLine) : Prop :=
  resolve line ≠ line.modulePath ∧
    (0 ≤ line.offset ∧ text.slice line.start (line.start + line.text.length) = line.text) ∧
    line.specifier <:+: line.text

instance (resolve : ImportLine → Text) (text : Text) :
    DecidablePred (IsExchanged resolve text) :=
  fun line => inferInstanceAs (Decidable (resolve line ≠ line.modulePath ∧
    (0 ≤ line.offset ∧ text.slice line.start (line.start + line.text.length) = line.text) ∧
    line.specifier <:+: line.text))

theorem IsExchanged.text_ne_nil {text : Text} (h : line.IsExchanged resolve text)
    (hspecifier : line.specifier ≠ []) : line.text ≠ [] := by
  intro hnil
  have hholds := h.2.2
  rw [hnil, List.infix_nil] at hholds
  exact hspecifier hholds

/-- One occurrence of the literal is exchanged for the new module in the same quotes. -/
theorem exists_pointed {text : Text} (h : line.IsExchanged resolve text)
    (hspecifier : line.specifier ≠ []) :
    ∃ quote left right, line.specifier.head? = some quote ∧
      line.text = left ++ (line.specifier ++ right) ∧
      line.pointed resolve = left ++ (quote :: resolve line ++ [quote] ++ right) := by
  obtain ⟨hchanged, -, hholds⟩ := h
  obtain ⟨i, hi⟩ := Option.isSome_iff_exists.mp (lastPositionOf?_isSome_iff.mpr hholds)
  obtain ⟨left, right, htext, rfl⟩ := exists_of_lastPositionOf? hi
  obtain ⟨quote, body, hquote⟩ := List.exists_cons_of_ne_nil hspecifier
  have hhead : line.specifier.head? = some quote := by rw [hquote]; rfl
  exact ⟨quote, left, right, hhead, htext, pointed_eq hchanged hhead htext hi⟩

/-- Lines whose places do not overlap stand one behind the other, as their offsets say. -/
theorem le_offset_of_disjoint {a b : ImportLine} (hdisjoint : Disjoint a.places b.places)
    (hle : a.offset ≤ b.offset) (hb : b.text ≠ []) : a.offset + a.text.length ≤ b.offset := by
  by_contra hlt
  have hpos := List.length_pos_iff.mpr hb
  have ha : b.offset ∈ a.places := ⟨hle, by omega⟩
  have hb : b.offset ∈ b.places := ⟨le_rfl, by omega⟩
  exact Set.disjoint_left.mp hdisjoint ha hb

theorem disjoint_places {a b : ImportLine} (h : a.offset + a.text.length ≤ b.offset) :
    Disjoint a.places b.places :=
  Set.disjoint_left.mpr fun _ ha hb => absurd (ha.2.trans_le h) (not_lt.mpr hb.1)

end ImportLine

section Exchanged

variable {written : ImportLine → Text} {start : Nat} {text gap result result' : Text}
  {lines : List ImportLine}

/-- What the text becomes is determined by the lines. -/
theorem Exchanged.unique (h : Exchanged written start text lines result)
    (h' : Exchanged written start text lines result') : result = result' := by
  induction h generalizing result' with
  | rest => cases h'; rfl
  | @line start gap later result line lines hoffset _ ih =>
    generalize htext : gap ++ (line.text ++ later) = text at h'
    cases h' with
    | @line _ gap' later' result' _ _ hoffset' h' =>
      obtain ⟨rfl, hrest⟩ := List.append_inj htext (by omega)
      obtain rfl := (List.append_cancel_left_eq _ _ _).mp hrest
      rw [ih h']

/-- A text in front of the lines is kept. -/
theorem Exchanged.behind (gap : Text)
    (h : Exchanged written (start + gap.length) text lines result) :
    Exchanged written start (gap ++ text) lines (gap ++ result) := by
  cases h with
  | rest => exact .rest _ _
  | @line _ gap' later result line lines hoffset h =>
    rw [← List.append_assoc gap, ← List.append_assoc gap]
    have hlength : start + gap.length + gap'.length = start + (gap ++ gap').length := by
      rw [List.length_append, Nat.add_assoc]
    exact .line (by omega) (hlength ▸ h)

/-- Nothing is exchanged in an empty text. -/
theorem Exchanged.eq_nil (h : Exchanged written start text lines result) (htext : text = [])
    (hlines : ∀ line ∈ lines, line.text ≠ []) : result = [] := by
  cases h with
  | rest => exact htext
  | line =>
    rw [List.append_eq_nil_iff, List.append_eq_nil_iff] at htext
    exact absurd htext.2.1 (hlines _ List.mem_cons_self)

/-- Up to where the lines begin a text is left alone. -/
theorem Exchanged.take_front (h : Exchanged written start text lines result)
    (hlines : ∀ line ∈ lines, line.text ≠ []) {front : Text} {stop : Nat}
    (htake : (front ++ text).take stop = front) : (front ++ result).take stop = front := by
  rcases eq_or_ne text [] with hnil | hne
  · rw [h.eq_nil hnil hlines]
    rwa [hnil] at htake
  · have hlong := List.length_pos_iff.mpr hne
    have hlength := congrArg List.length htake
    rw [List.length_take, List.length_append] at hlength
    exact List.take_left' (by omega)

end Exchanged

namespace Change

variable {change : Change} {sorted changes : List Change} {resolve : ImportLine → Text}
  {text : Text}

theorem insert_perm : (insert change sorted).Perm (change :: sorted) := by
  induction sorted with
  | nil => exact .refl _
  | cons other rest ih =>
    rw [insert]
    split
    · exact .refl _
    · exact (ih.cons other).trans (.swap change other rest)

theorem insert_pairwise (h : sorted.Pairwise fun a b => b.line.offset ≤ a.line.offset) :
    (insert change sorted).Pairwise fun a b => b.line.offset ≤ a.line.offset := by
  induction sorted with
  | nil => exact List.pairwise_singleton _ _
  | cons other rest ih =>
    obtain ⟨hother, hrest⟩ := List.pairwise_cons.mp h
    rw [insert]
    split
    next hlt =>
      refine List.pairwise_cons.mpr ⟨fun b hb => ?_, h⟩
      rcases List.mem_cons.mp hb with rfl | hb
      · exact hlt.le
      · exact (hother b hb).trans hlt.le
    next hge =>
      refine List.pairwise_cons.mpr ⟨fun b hb => ?_, ih hrest⟩
      rcases List.mem_cons.mp (insert_perm.mem_iff.mp hb) with rfl | hb
      · exact Int.not_lt.mp hge
      · exact hother b hb

/-- Putting changes in the order of their exchange loses none of them. -/
theorem backToFront_perm (changes : List Change) : (backToFront changes).Perm changes := by
  have hfold (sorted : List Change) :
      (changes.foldl (fun sorted change => insert change sorted) sorted).Perm
        (changes ++ sorted) := by
    induction changes generalizing sorted with
    | nil => exact .refl _
    | cons change rest ih =>
      exact (ih _).trans ((insert_perm.append_left rest).trans List.perm_middle)
  exact (hfold []).trans (by rw [List.append_nil])

/-- The change with the largest offset comes first. -/
theorem backToFront_pairwise (changes : List Change) :
    (backToFront changes).Pairwise fun a b => b.line.offset ≤ a.line.offset :=
  List.foldlRecOn changes _ List.Pairwise.nil fun _ h _ _ => insert_pairwise h

/-- A change has an effect only where its line stands and holds the literal. -/
theorem apply_of_not (h : ¬ (change.isCurrent text = true ∧ change.statement?.isSome = true)) :
    change.apply text = text := by
  unfold apply
  split
  next hcurrent =>
    cases hstatement : change.statement? with
    | none => rfl
    | some statement => exact absurd ⟨hcurrent, by rw [hstatement]; rfl⟩ h
  next => rfl

/-- Whether a line still stands in its place is decided by the text up to its end. -/
theorem isCurrent_iff : change.isCurrent text = true ↔ 0 ≤ change.line.offset ∧
    (text.take (change.line.start + change.line.text.length)).drop change.line.start =
      change.line.text := by
  rw [isCurrent, Bool.and_eq_true, decide_eq_true_iff, decide_eq_true_iff, List.take_drop]

/-- A line that was read from no text, or does not hold its literal, is left alone. -/
theorem apply_of_not_read
    (h : ¬ (0 ≤ change.line.offset ∧ change.line.specifier <:+: change.line.text)) :
    change.apply text = text := by
  refine apply_of_not fun hmade => h ⟨(isCurrent_iff.mp hmade.1).1, ?_⟩
  rw [statement?, Option.isSome_map] at hmade
  exact lastPositionOf?_isSome_iff.mp hmade.2

/-- What a change says of its line: another module, as `resolve` gives it. -/
structure Gives (resolve : ImportLine → Text) (change : Change) : Prop where
  modulePath : change.modulePath = resolve change.line
  changed : resolve change.line ≠ change.line.modulePath
  specifier : change.line.specifier ≠ []

/-- Lines that are exchanged have a text. -/
theorem text_ne_nil_of_isExchanged (hgives : ∀ c ∈ changes, c.Gives resolve) :
    ∀ line ∈ (changes.map (·.line)).filter (·.IsExchanged resolve text), line.text ≠ [] := by
  intro line hline
  obtain ⟨hline, hexchanges⟩ := List.mem_filter.mp hline
  obtain ⟨c, hc, rfl⟩ := List.mem_map.mp hline
  exact (of_decide_eq_true hexchanges).text_ne_nil (hgives c hc).specifier

theorem Gives.eq (h : change.Gives resolve) : change = ⟨change.line, resolve change.line⟩ := by
  rw [← h.modulePath]

/-- One change in front of those that have been made: the line at the end of `gap` is exchanged
if it stands there, and otherwise the text is left alone. -/
theorem exists_exchanged_apply {front gap tail later : Text} {lines : List ImportLine}
    (hgives : change.Gives resolve) (hholds : change.line.specifier <:+: change.line.text)
    (hread : 0 ≤ change.line.offset) (hplace : front.length ≤ change.line.start)
    (htake : (front ++ (gap ++ tail)).take (change.line.start + change.line.text.length) =
      front ++ gap)
    (hlater : (front ++ (gap ++ later)).take (change.line.start + change.line.text.length) =
      front ++ gap)
    (hexchanged : Exchanged (ImportLine.pointed resolve) (front.length + gap.length) tail lines
      later) :
    ∃ result, change.apply (front ++ (gap ++ later)) = front ++ result ∧
      Exchanged (ImportLine.pointed resolve) front.length (gap ++ tail)
        ([change.line].filter (·.IsExchanged resolve (front ++ (gap ++ tail))) ++ lines)
        result := by
  have hdrop : (front ++ gap).drop change.line.start =
      gap.drop (change.line.start - front.length) := by
    rw [List.drop_append, List.drop_eq_nil_of_le hplace, List.nil_append]
  have hslice : (front ++ (gap ++ tail)).slice change.line.start
      (change.line.start + change.line.text.length) =
        gap.drop (change.line.start - front.length) := by
    rw [slice, Nat.add_sub_cancel_left, List.take_drop, htake, hdrop]
  have hcurrent : change.isCurrent (front ++ (gap ++ later)) = true ↔
      gap.drop (change.line.start - front.length) = change.line.text := by
    rw [isCurrent_iff, and_iff_right hread, hlater, hdrop]
  by_cases hstands : gap.drop (change.line.start - front.length) = change.line.text
  · have hline : change.line.IsExchanged resolve (front ++ (gap ++ tail)) :=
      ⟨hgives.changed, ⟨hread, hslice.trans hstands⟩, hholds⟩
    have hpos := List.length_pos_iff.mpr (hline.text_ne_nil hgives.specifier)
    have hlength := congrArg List.length hstands
    rw [List.length_drop] at hlength
    have hsplit := List.take_append_drop (change.line.start - front.length) gap
    rw [hstands] at hsplit
    generalize gap.take (change.line.start - front.length) = before at hsplit
    obtain rfl := hsplit.symm
    rw [List.length_append] at hlength hexchanged
    have hstart : change.line.start = front.length + before.length := by omega
    have hoffset : change.line.offset = front.length + before.length := by
      rw [← Int.toNat_of_nonneg hread, ← Int.natCast_add, ← hstart, ImportLine.start]
    refine ⟨before ++ (change.line.pointed resolve ++ later), ?_, ?_⟩
    · have happly := apply_eq later
        (hoffset.trans (by rw [List.length_append, Int.natCast_add])) hgives.changed
      rw [← hgives.eq] at happly
      simpa only [List.append_assoc] using happly
    · rw [List.filter_cons_of_pos (by simpa using hline), List.filter_nil, List.append_assoc]
      refine .line hoffset ?_
      rwa [Nat.add_assoc]
  · have hline : ¬ change.line.IsExchanged resolve (front ++ (gap ++ tail)) :=
      fun h => hstands (hslice.symm.trans h.2.1.2)
    refine ⟨gap ++ later, apply_of_not fun h => hstands (hcurrent.mp h.1), ?_⟩
    rw [List.filter_cons_of_neg (by simpa using hline), List.filter_nil, List.nil_append]
    exact hexchanged.behind gap

/-- Changes of lines that do not overlap, the last one made first, are made at once. The induction
is on the changes in the order of the text, over what stands in front of the next one. -/
theorem exists_exchanged_foldr (front tail : Text) (hgives : ∀ c ∈ changes, c.Gives resolve)
    (hsorted : changes.Pairwise fun a b => a.line.offset ≤ b.line.offset)
    (hdisjoint : changes.Pairwise fun a b => Disjoint a.line.places b.line.places)
    (hfront : ∀ c ∈ changes, 0 ≤ c.line.offset → c.line.text ≠ [] →
      front.length ≤ c.line.offset) :
    ∃ result, changes.foldr Change.apply (front ++ tail) = front ++ result ∧
      Exchanged (ImportLine.pointed resolve) front.length tail
        ((changes.map (·.line)).filter (·.IsExchanged resolve (front ++ tail))) result := by
  induction changes generalizing front tail with
  | nil => exact ⟨tail, rfl, .rest _ _⟩
  | cons change rest ih =>
    obtain ⟨hfirst, hgives⟩ := List.forall_mem_cons.mp hgives
    obtain ⟨hle, hsorted⟩ := List.pairwise_cons.mp hsorted
    obtain ⟨hapart, hdisjoint⟩ := List.pairwise_cons.mp hdisjoint
    obtain ⟨hplace, hfront⟩ := List.forall_mem_cons.mp hfront
    rw [List.foldr_cons, List.map_cons]
    by_cases hholds : 0 ≤ change.line.offset ∧ change.line.specifier <:+: change.line.text
    · obtain ⟨hread, hholds⟩ := hholds
      have hne : change.line.text ≠ [] := by
        intro hnil
        rw [hnil, List.infix_nil] at hholds
        exact hfirst.specifier hholds
      have hstart : (change.line.start : Int) = change.line.offset := Int.toNat_of_nonneg hread
      generalize hstop : change.line.start + change.line.text.length = stop
      have hplace : front.length ≤ change.line.start := Int.ofNat_le.mp (hstart ▸ hplace hread hne)
      -- The text is cut where the line ends; what is made behind the cut leaves its front alone.
      have hcut := List.take_append_drop (stop - front.length) tail
      have htake : (front ++ tail).take stop = front ++ tail.take (stop - front.length) := by
        rw [List.take_append, List.take_of_length_le (by omega)]
      generalize tail.take (stop - front.length) = gap at hcut htake
      generalize tail.drop (stop - front.length) = behind at hcut
      have hbound : (front ++ gap).length ≤ stop := by
        rw [← htake]
        exact List.length_take_le _ _
      obtain ⟨later, hlater, hexchanged⟩ := ih (front ++ gap) behind hgives hsorted hdisjoint
        fun c hc _ htext => by
          have hbehind := ImportLine.le_offset_of_disjoint (hapart c hc) (hle c hc) htext
          omega
      have hkept := hexchanged.take_front (text_ne_nil_of_isExchanged hgives)
        (by rw [List.append_assoc, hcut]; exact htake)
      rw [List.append_assoc, hcut, List.length_append] at hexchanged
      rw [List.append_assoc, List.append_assoc, hcut] at hlater
      rw [List.append_assoc] at hkept
      subst hstop hcut
      have hmade := exists_exchanged_apply hfirst hholds hread hplace htake hkept hexchanged
      rw [hlater, ← List.singleton_append, List.filter_append]
      exact hmade
    · have hnot : ¬ change.line.IsExchanged resolve (front ++ tail) :=
        fun h => hholds ⟨h.2.1.1, h.2.2⟩
      obtain ⟨result, hresult, hexchanged⟩ := ih front tail hgives hsorted hdisjoint hfront
      refine ⟨result, ?_, ?_⟩
      · rw [hresult, apply_of_not_read hholds]
      · rw [List.filter_cons_of_neg (by simpa using hnot)]
        exact hexchanged

end Change

namespace FileRecord

variable {record : FileRecord} {resolve : ImportLine → Text} {text : Text}

theorem gives_of_mem_changes (hspecifier : ∀ line ∈ record.imports, line.specifier ≠ [])
    {change : Change} (h : change ∈ record.changes resolve) :
    change.Gives resolve ∧ change.line ∈ record.imports := by
  obtain ⟨line, hline, hchange⟩ := List.mem_filterMap.mp h
  dsimp only at hchange
  split at hchange <;> cases hchange
  next hchanged => exact ⟨⟨rfl, hchanged, hspecifier line hline⟩, hline⟩

theorem map_line_changes : (record.changes resolve).map (·.line) =
    record.imports.filter fun line => resolve line ≠ line.modulePath := by
  unfold changes
  induction record.imports with
  | nil => rfl
  | cons line rest ih =>
    by_cases hsame : resolve line = line.modulePath
    · rw [List.filterMap_cons_none (by simp [hsame]), List.filter_cons_of_neg (by simp [hsame]), ih]
    · rw [List.filterMap_cons_some (b := ⟨line, resolve line⟩) (by simp [hsame]),
        List.filter_cons_of_pos (by simp [hsame]), List.map_cons, ih]

/-- Import lines in any order whose places do not overlap are pointed at other modules all at once.
Those that are given another module, still stand where they were read and hold their literal are
exchanged, each for its text with one occurrence of the literal exchanged for the new module in the
same quotes. Everything around them is kept: other lines, lines that have moved, and all else. -/
theorem retargetImports_simultaneous (record : FileRecord) (resolve : ImportLine → Text)
    (text : Text) (hspecifier : ∀ line ∈ record.imports, line.specifier ≠ [])
    (hdisjoint : record.imports.Pairwise fun a b => Disjoint a.places b.places) :
    ∃ lines, lines.Perm (record.imports.filter (·.IsExchanged resolve text)) ∧
      (∀ result, Exchanged (ImportLine.pointed resolve) 0 text lines result ↔
        result = record.retargetImports resolve text) ∧
      ∀ line ∈ lines, ∃ quote left right, line.specifier.head? = some quote ∧
        line.text = left ++ (line.specifier ++ right) ∧
        line.pointed resolve = left ++ (quote :: resolve line ++ [quote] ++ right) := by
  have hperm : (Change.backToFront (record.changes resolve)).reverse.Perm
      (record.changes resolve) :=
    (List.reverse_perm _).trans (Change.backToFront_perm _)
  have hgives : ∀ c ∈ (Change.backToFront (record.changes resolve)).reverse,
      c.Gives resolve ∧ c.line ∈ record.imports :=
    fun c hc => gives_of_mem_changes hspecifier (hperm.mem_iff.mp hc)
  have hsorted := List.pairwise_reverse.mpr
    (Change.backToFront_pairwise (record.changes resolve))
  have hapart : ((Change.backToFront (record.changes resolve)).reverse).Pairwise
      fun a b => Disjoint a.line.places b.line.places := by
    rw [hperm.pairwise_iff fun h => h.symm]
    have hfilter := hdisjoint.filter fun line => resolve line ≠ line.modulePath
    rw [← map_line_changes, List.pairwise_map] at hfilter
    exact hfilter
  obtain ⟨result, hresult, hexchanged⟩ := Change.exists_exchanged_foldr [] text
    (fun c hc => (hgives c hc).1) hsorted hapart fun _ _ hread _ => hread
  rw [← List.foldl_reverse, List.reverse_reverse] at hresult
  obtain rfl : record.retargetImports resolve text = result := hresult
  refine ⟨_, ?_, fun result => ⟨fun h => h.unique hexchanged, fun h => h ▸ hexchanged⟩, ?_⟩
  · have hlines := (hperm.map (·.line)).filter (·.IsExchanged resolve text)
    rw [map_line_changes, List.filter_filter] at hlines
    refine hlines.trans (List.Perm.of_eq (List.filter_congr fun line _ => ?_))
    have himp : line.IsExchanged resolve text → resolve line ≠ line.modulePath := And.left
    rw [← Bool.decide_and, decide_eq_decide]
    exact and_iff_left_of_imp himp
  · intro line hline
    obtain ⟨hline, hexchanges⟩ := List.mem_filter.mp hline
    obtain ⟨c, hc, rfl⟩ := List.mem_map.mp hline
    exact ImportLine.exists_pointed (of_decide_eq_true hexchanges) (hgives c hc).1.specifier

/-- Three lines in the order from the back: one that no longer stands where it was read, one that
is exchanged, and one that keeps its module. -/
theorem retargetImports_simultaneous_three_lines :
    let line (name : Char) (offset : Int) : ImportLine :=
      { modulePath := [name], text := "import '".toList ++ [name] ++ "';".toList, offset
        specifier := ['\'', name, '\''] }
    let record : FileRecord :=
      { path := "/p/a.ts".toList, imports := [line 'c' 25, line 'b' 12, line 'a' 0] }
    let resolve (line : ImportLine) : Text :=
      if line.modulePath = ['a'] then ['a'] else "./x".toList
    let text : Text := "import 'a';\nimport 'b';\nlet c;\n".toList
    let result : Text := "import 'a';\nimport './x';\nlet c;\n".toList
    (∀ line ∈ record.imports, line.specifier ≠ []) ∧
      (record.imports.Pairwise fun a b => Disjoint a.places b.places) ∧
      record.retargetImports resolve text = result ∧
      Exchanged (ImportLine.pointed resolve) 0 text [line 'b' 12] result := by
  intro line record resolve text result
  have hspecifier : ∀ line ∈ record.imports, line.specifier ≠ [] := by decide
  have hbehind : record.imports.Pairwise fun (a b : ImportLine) =>
      b.offset + (b.text.length : Int) ≤ a.offset := by
    decide
  have hdisjoint : record.imports.Pairwise fun a b => Disjoint a.places b.places :=
    hbehind.imp fun h => (ImportLine.disjoint_places h).symm
  obtain ⟨lines, hlines, hexchanged, -⟩ :=
    retargetImports_simultaneous record resolve text hspecifier hdisjoint
  have hlast : ¬(line 'c' 25).IsExchanged resolve text := by decide
  have hmiddle : (line 'b' 12).IsExchanged resolve text := by decide +kernel
  have hfirst : ¬(line 'a' 0).IsExchanged resolve text := by decide
  have hfilter : record.imports.filter (·.IsExchanged resolve text) = [line 'b' 12] := by
    simp [record, hlast, hmiddle, hfirst]
  have hresult : record.retargetImports resolve text = result := by decide
  rw [hfilter, List.perm_singleton] at hlines
  rw [hlines] at hexchanged
  exact ⟨hspecifier, hdisjoint, hresult, (hexchanged result).mpr hresult.symm⟩

end FileRecord

end Disentangle
