import Disentangle.Entry
import Mathlib.Data.List.Infix

/-!
The entry file that requires the index. A text either has a marked region, which reaches from the
line of its first mark of a beginning to the line of the next mark of an end, or it has none. The
lines within the region make way for the statement; a text without a region gets a block in front of
it, which is a region. So the next statement finds the region that the last one left, and the last
statement is the only one that shows.
-/

namespace Disentangle

namespace Text

variable {pattern t u front behind : Text} {a d : Char} {n : Nat}

/-- What stands before the first occurrence of a pattern: in front of that one there is no other,
nor one that goes on into it. -/
def EndsBeforeFirst (pattern front : Text) : Prop :=
  ¬ pattern <:+: (front ++ pattern).dropLast

instance (pattern front : Text) : Decidable (EndsBeforeFirst pattern front) :=
  inferInstanceAs (Decidable (¬ pattern <:+: (front ++ pattern).dropLast))

theorem dropLast_cons_append (c : Char) (front : Text) (hne : pattern ≠ []) :
    (c :: front ++ pattern).dropLast = c :: (front ++ pattern).dropLast :=
  List.dropLast_cons_of_ne_nil (List.append_ne_nil_of_right_ne_nil front hne)

theorem positionOf?_of_endsBeforeFirst (hne : pattern ≠ []) (h : EndsBeforeFirst pattern front)
    (behind : Text) : positionOf? pattern (front ++ (pattern ++ behind)) = some front.length := by
  induction front with
  | nil =>
    obtain ⟨c, rest, rfl⟩ := List.exists_cons_of_ne_nil hne
    rw [List.nil_append, List.cons_append, positionOf?, if_pos]
    · rfl
    · exact List.isPrefixOf_iff_prefix.mpr (List.prefix_append (c :: rest) behind)
  | cons c front ih =>
    rw [EndsBeforeFirst, dropLast_cons_append c front hne, List.infix_cons_iff, not_or] at h
    have hnot : ¬ pattern <+: c :: (front ++ (pattern ++ behind)) := by
      intro hbegins
      refine h.1 (List.prefix_of_prefix_length_le hbegins ?_ ?_)
      · rw [← List.append_assoc, List.cons_prefix_cons]
        exact ⟨rfl, (List.dropLast_prefix _).trans (List.prefix_append _ behind)⟩
      · have hpos := List.length_pos_iff.mpr hne
        simp only [List.length_cons, List.length_dropLast, List.length_append]
        omega
    rw [List.cons_append, positionOf?, if_neg (by rwa [List.isPrefixOf_iff_prefix]), ih h.2]
    rfl

theorem exists_of_positionOf? (hne : pattern ≠ []) (h : positionOf? pattern t = some n) :
    ∃ front behind, t = front ++ (pattern ++ behind) ∧ front.length = n ∧
      EndsBeforeFirst pattern front := by
  induction t generalizing n with
  | nil =>
    rw [positionOf?, if_neg (by simpa using hne)] at h
    cases h
  | cons c rest ih =>
    rw [positionOf?] at h
    split at h
    next hbegins =>
      obtain ⟨behind, hbehind⟩ := List.isPrefixOf_iff_prefix.mp hbegins
      cases h
      refine ⟨[], behind, hbehind.symm, rfl, fun hoccurs => ?_⟩
      have hlength := hoccurs.length_le
      have hpos := List.length_pos_iff.mpr hne
      rw [List.nil_append, List.length_dropLast] at hlength
      omega
    next hnot =>
      obtain ⟨m, hm, rfl⟩ := Option.map_eq_some_iff.mp h
      obtain ⟨front, behind, rfl, rfl, hfirst⟩ := ih hm
      refine ⟨c :: front, behind, rfl, rfl, ?_⟩
      rw [EndsBeforeFirst, dropLast_cons_append c front hne, List.infix_cons_iff, not_or]
      refine ⟨fun hbegins => hnot (List.isPrefixOf_iff_prefix.mpr (hbegins.trans ?_)), hfirst⟩
      rw [List.cons_prefix_cons, ← List.append_assoc]
      exact ⟨rfl, (List.dropLast_prefix _).trans (List.prefix_append _ behind)⟩

/-- A pattern stands on one side of a character that is not its own. -/
theorem infix_append_cons_iff (hd : d ∉ pattern) :
    pattern <:+: t ++ d :: u ↔ pattern <:+: t ∨ pattern <:+: u := by
  constructor
  · rintro ⟨left, right, heq⟩
    rw [List.append_assoc, List.append_eq_append_iff] at heq
    rcases heq with ⟨more, rfl, heq⟩ | ⟨more, rfl, heq⟩
    · rw [List.append_eq_append_iff] at heq
      rcases heq with ⟨rest, rfl, -⟩ | ⟨rest, rfl, heq⟩
      · exact Or.inl ⟨left, rest, by rw [List.append_assoc]⟩
      · cases rest with
        | nil => exact Or.inl ⟨left, [], by simp⟩
        | cons e rest =>
          obtain ⟨rfl, -⟩ := List.cons.inj heq
          exact absurd (by simp) hd
    · cases more with
      | nil =>
        cases pattern with
        | nil => exact Or.inl (List.nil_infix)
        | cons e rest =>
          obtain ⟨rfl, -⟩ := List.cons.inj heq
          exact absurd List.mem_cons_self hd
      | cons e more =>
        obtain ⟨rfl, rfl⟩ := List.cons.inj heq
        exact Or.inr ⟨more, right, List.append_assoc more pattern right⟩
  · rintro (h | h)
    · exact h.trans (List.prefix_append t _).isInfix
    · exact h.trans ((List.suffix_cons d u).trans (List.suffix_append t _)).isInfix

/-- A pattern does not begin in what holds its first character nowhere. -/
theorem infix_of_append_left (ha : a ∉ t) (h : a :: pattern <:+: t ++ u) :
    a :: pattern <:+: u := by
  induction t with
  | nil => exact h
  | cons c t ih =>
    have hne := List.ne_of_not_mem_cons ha
    rcases List.infix_cons_iff.mp h with hbegins | hoccurs
    · exact absurd (List.cons_prefix_cons.mp hbegins).1 hne
    · exact ih (List.not_mem_of_not_mem_cons ha) hoccurs

/-- A pattern does not end in what holds its last character nowhere. -/
theorem infix_of_append_right (ha : a ∉ u) (h : pattern ++ [a] <:+: t ++ u) :
    pattern ++ [a] <:+: t := by
  rw [← List.reverse_infix, List.reverse_append, List.reverse_append] at h
  rw [← List.reverse_infix, List.reverse_append]
  exact infix_of_append_left (by simpa using ha) h

/-- What stands before a character that is not the pattern's own has to be free of the pattern. -/
theorem endsBeforeFirst_append_cons_iff (hne : pattern ≠ []) (hd : d ∉ pattern) :
    EndsBeforeFirst pattern (t ++ d :: u) ↔ ¬ pattern <:+: t ∧ EndsBeforeFirst pattern u := by
  have hsplit : (t ++ d :: u ++ pattern).dropLast = t ++ d :: (u ++ pattern).dropLast := by
    rw [List.append_assoc, List.cons_append, List.dropLast_append_of_ne_nil (List.cons_ne_nil _ _),
      ← List.cons_append, dropLast_cons_append d u hne]
  rw [EndsBeforeFirst, hsplit, infix_append_cons_iff hd, not_or, EndsBeforeFirst]

end Text

namespace Entry

open Text

/-- A text with a marked region. The line of the first mark of a beginning ends the text before the
region, the line of the next mark of an end begins the text behind it, and the region itself is made
of whole lines. -/
structure Region where
  /-- The text before the first mark of a beginning. -/
  front : Text
  /-- The rest of the line of that mark. -/
  tail : Text
  /-- The lines of the region. -/
  lines : Text
  /-- The beginning of the line of the next mark of an end. -/
  indent : Text
  /-- The text behind that mark. -/
  behind : Text
  tail_line : '\n' ∉ tail
  indent_line : '\n' ∉ indent
  whole_lines : lines = [] ∨ ∃ earlier, lines = earlier ++ ['\n']
  first : EndsBeforeFirst beginMark front
  next : EndsBeforeFirst endMark (tail ++ '\n' :: (lines ++ indent))

namespace Region

/-- The text up to the end of the line of the first mark. -/
def before (region : Region) : Text :=
  region.front ++ (beginMark ++ (region.tail ++ ['\n']))

/-- The text from the beginning of the line of the last mark. -/
def after (region : Region) : Text :=
  region.indent ++ (endMark ++ region.behind)

/-- The text with other lines in the region. -/
def filled (region : Region) (lines : Text) : Text :=
  region.before ++ lines ++ region.after

/-- The text with the lines that are there. -/
def text (region : Region) : Text :=
  region.filled region.lines

end Region

section Lines

variable {d : Char} {t lines indent : Text}

theorem takeWhile_append_cons (h : d ∉ t) (u : Text) :
    (t ++ d :: u).takeWhile (· ≠ d) = t := by
  have hall : ∀ c ∈ t, decide (c ≠ d) = true := by
    intro c hc
    rw [decide_eq_true_eq]
    rintro rfl
    exact h hc
  rw [List.takeWhile_append_of_pos hall]
  simp

/-- What stands behind the last line break. -/
theorem takeWhile_reverse (h : d ∉ indent)
    (hlines : lines = [] ∨ ∃ earlier, lines = earlier ++ [d]) :
    ((t ++ d :: (lines ++ indent)).reverse.takeWhile (· ≠ d)).reverse = indent := by
  obtain ⟨earlier, hearlier⟩ : ∃ earlier, t ++ d :: (lines ++ indent) =
      earlier ++ d :: indent := by
    rcases hlines with rfl | ⟨earlier, rfl⟩
    · exact ⟨t, rfl⟩
    · exact ⟨t ++ d :: earlier, by simp⟩
  have hreverse : (earlier ++ d :: indent).reverse = indent.reverse ++ d :: earlier.reverse := by
    simp
  rw [hearlier, hreverse, takeWhile_append_cons (by simpa using h), List.reverse_reverse]

/-- Any text is made of whole lines and the beginning of another one. -/
theorem exists_lines (d : Char) (t : Text) :
    ∃ lines indent, t = lines ++ indent ∧ d ∉ indent ∧
      (lines = [] ∨ ∃ earlier, lines = earlier ++ [d]) := by
  by_cases hd : d ∈ t.reverse
  · obtain ⟨indent, earlier, hreverse, hindent⟩ := List.eq_append_cons_of_mem hd
    have ht : t = earlier.reverse ++ [d] ++ indent.reverse := by
      rw [← List.reverse_reverse t, hreverse]
      simp
    exact ⟨_, _, ht, by simpa using hindent, Or.inr ⟨_, rfl⟩⟩
  · exact ⟨[], t, rfl, by simpa using hd, Or.inl rfl⟩

end Lines

namespace Region

variable (region : Region)

/-- What stands between the two marks. -/
def between : Text :=
  region.tail ++ '\n' :: (region.lines ++ region.indent)

theorem text_eq : region.text =
    region.front ++ (beginMark ++ (region.between ++ (endMark ++ region.behind))) := by
  simp [text, filled, before, after, between]

theorem take_text :
    region.text.take (region.front.length + beginMark.length + region.tail.length + 1) =
      region.before := by
  have hlength : region.front.length + beginMark.length + region.tail.length + 1 =
      region.before.length := by
    simp only [before, List.length_append, List.length_singleton]
    omega
  rw [hlength, text, filled, List.append_assoc, List.take_left]

theorem drop_text :
    region.text.drop (region.front.length + beginMark.length + region.between.length -
      region.indent.length) = region.after := by
  have hlength : region.front.length + beginMark.length + region.between.length -
      region.indent.length = (region.before ++ region.lines).length := by
    simp only [before, between, List.length_append, List.length_cons, List.length_nil]
    omega
  rw [hlength, text, filled, List.drop_left]

theorem marks_text : marks region.text = .around region.before region.after := by
  have hfirst := positionOf?_of_endsBeforeFirst (by decide) region.first
    (region.between ++ (endMark ++ region.behind))
  rw [← text_eq] at hfirst
  have hbehind : region.text.drop (region.front.length + beginMark.length) =
      region.between ++ (endMark ++ region.behind) := by
    rw [text_eq, ← List.append_assoc, ← List.length_append, List.drop_left]
  have hnext : positionOf? endMark (region.between ++ (endMark ++ region.behind)) =
      some region.between.length :=
    positionOf?_of_endsBeforeFirst (by decide) region.next region.behind
  have hbreak : region.between.contains '\n' = true := by simp [between]
  have htail : region.between.takeWhile (· ≠ '\n') = region.tail :=
    takeWhile_append_cons region.tail_line _
  have hindent : (region.between.reverse.takeWhile (· ≠ '\n')).reverse = region.indent :=
    takeWhile_reverse region.indent_line region.whole_lines
  rw [marks, hfirst]
  dsimp only
  rw [hbehind, hnext]
  dsimp only
  rw [List.take_left, if_pos hbreak, htail, hindent, take_text, drop_text]

end Region

/-- A text whose marks stand around something has a marked region. -/
theorem exists_region {t before after : Text} (h : marks t = .around before after) :
    ∃ region : Region, region.text = t := by
  unfold marks at h
  split at h
  · cases h
  next start hstart =>
    obtain ⟨front, later, rfl, rfl, hfirst⟩ := exists_of_positionOf? (by decide) hstart
    dsimp only at h
    rw [← List.append_assoc front, ← List.length_append, List.drop_left] at h
    split at h
    · cases h
    next width hwidth =>
      obtain ⟨between, behind, rfl, rfl, hnext⟩ := exists_of_positionOf? (by decide) hwidth
      rw [List.take_left] at h
      split at h
      next hbreak =>
        obtain ⟨tail, more, rfl, htail⟩ :=
          List.eq_append_cons_of_mem (List.contains_iff_mem.mp hbreak)
        obtain ⟨lines, indent, rfl, hindent, hlines⟩ := exists_lines '\n' more
        refine
          ⟨⟨front, tail, lines, indent, behind, htail, hindent, hlines, hfirst, hnext⟩, ?_⟩
        simp [Region.text, Region.filled, Region.before, Region.after]
      next => cases h

theorem requiring_text (region : Region) (path : Text) :
    requiring region.text path = region.filled (statement path) := by
  rw [requiring, region.marks_text]
  rfl

/-- Without a marked region a text gets a new block. -/
theorem requiring_of_forall_ne {t : Text} (h : ∀ region : Region, region.text ≠ t)
    (path : Text) : requiring t path = block path ++ t := by
  unfold requiring
  split
  next hmarks =>
    obtain ⟨region, hregion⟩ := exists_region hmarks
    exact absurd hregion (h region)
  next => rfl

/-- A statement is a line of its own, and no mark begins in front of its path or ends behind it. -/
theorem exists_statement (path : Text) :
    ∃ opening closing, statement path = opening ++ path ++ (closing ++ ['\n']) ∧
      '[' ∉ opening ∧ ']' ∉ closing ++ ['\n'] := by
  have hclosing : "');\n".toList = "');".toList ++ ['\n'] := by decide
  refine ⟨"require('".toList, "');".toList, ?_, by decide, by decide⟩
  exact congrArg ("require('".toList ++ path ++ ·) hclosing

theorem statement_ends (path : Text) : ∃ earlier, statement path = earlier ++ ['\n'] := by
  obtain ⟨opening, closing, hstatement, -⟩ := exists_statement path
  exact ⟨opening ++ path ++ closing, by rw [hstatement, List.append_assoc _ closing]⟩

/-- The mark of an end stands in a statement only if it stands in the path. -/
theorem endMark_not_infix_statement {path : Text} (h : ¬ endMark <:+: path) :
    ¬ endMark <:+: statement path := by
  obtain ⟨opening, closing, hstatement, hopening, hclosing⟩ := exists_statement path
  have hbegins : ∃ rest, endMark = '[' :: rest := ⟨_, rfl⟩
  have hends : ∃ rest, endMark = rest ++ [']'] :=
    ⟨"[tsunravel.safeguard.end".toList, by decide⟩
  rw [hstatement]
  generalize endMark = mark at h hbegins hends
  intro hoccurs
  obtain ⟨rest, rfl⟩ := hends
  have hleft := infix_of_append_right hclosing hoccurs
  obtain ⟨rest', hmark⟩ := hbegins
  rw [hmark] at h hleft
  exact h (infix_of_append_left hopening hleft)

/-- The next mark of an end is the one behind whole lines that it is no part of. -/
theorem endsBeforeFirst_lines_iff {tail lines indent : Text}
    (hlines : lines = [] ∨ ∃ earlier, lines = earlier ++ ['\n']) :
    EndsBeforeFirst endMark (tail ++ '\n' :: (lines ++ indent)) ↔
      ¬ endMark <:+: tail ∧ ¬ endMark <:+: lines ∧ EndsBeforeFirst endMark indent := by
  have hne : endMark ≠ [] := List.cons_ne_nil _ _
  have hbreak : '\n' ∉ endMark := by decide
  have hnil : ¬ endMark <:+: [] := by rwa [List.infix_nil]
  rw [endsBeforeFirst_append_cons_iff hne hbreak]
  refine and_congr_right fun _ => ?_
  rcases hlines with rfl | ⟨earlier, rfl⟩
  · rw [List.nil_append, and_iff_right hnil]
  · rw [List.append_assoc, List.singleton_append, endsBeforeFirst_append_cons_iff hne hbreak,
      infix_append_cons_iff hbreak, or_iff_left hnil]

/-- A region with a statement for its lines. The mark of an end still is the next one if it is no
part of the path. -/
def Region.withStatement (region : Region) {path : Text} (h : ¬ endMark <:+: path) : Region :=
  { region with
    lines := statement path
    whole_lines := Or.inr (statement_ends path)
    next := by
      have hnext := (endsBeforeFirst_lines_iff region.whole_lines).mp region.next
      exact (endsBeforeFirst_lines_iff (Or.inr (statement_ends path))).mpr
        ⟨hnext.1, endMark_not_infix_statement h, hnext.2.2⟩ }

/-- A new block is a marked region. -/
def blockRegion {path : Text} (h : ¬ endMark <:+: path) (t : Text) : Region where
  front := "// ".toList
  tail := []
  lines := statement path
  indent := "// ".toList
  behind := '\n' :: t
  tail_line := List.not_mem_nil
  indent_line := by decide
  whole_lines := Or.inr (statement_ends path)
  first := by decide
  next := by
    rw [endsBeforeFirst_lines_iff (Or.inr (statement_ends path))]
    exact ⟨by decide, endMark_not_infix_statement h, by decide⟩

theorem filled_blockRegion {path : Text} (h : ¬ endMark <:+: path) (path' t : Text) :
    (blockRegion h t).filled (statement path') = block path' ++ t := by
  delta block
  simp only [blockRegion, Region.filled, Region.before, Region.after, List.append_assoc,
    List.cons_append, List.nil_append]

/-- What stands before and behind the statement when it is put into a text. -/
def around (t : Text) : Text × Text :=
  match marks t with
  | .around before after => (before, after)
  | _ => ("// ".toList ++ beginMark ++ ['\n'], "// ".toList ++ endMark ++ '\n' :: t)

theorem requiring_eq_around (t path : Text) :
    requiring t path = (around t).1 ++ statement path ++ (around t).2 := by
  unfold requiring around
  cases marks t with
  | around before after => rfl
  | missing | unclosed | onOneLine =>
    delta block
    simp only [List.append_assoc, List.cons_append, List.nil_append]

/-- The first mark of a beginning stands in the last line before the statement. -/
theorem exists_front (t : Text) :
    ∃ front tail, (around t).1 = front ++ (beginMark ++ (tail ++ ['\n'])) ∧
      EndsBeforeFirst beginMark front ∧ '\n' ∉ tail := by
  unfold around
  split
  next before after hmarks =>
    obtain ⟨region, rfl⟩ := exists_region hmarks
    cases region.marks_text.symm.trans hmarks
    exact ⟨region.front, region.tail, rfl, region.first, region.tail_line⟩
  next => exact ⟨"// ".toList, [], by simp, by decide, List.not_mem_nil⟩

/-- The statement makes the same of two texts exactly if what stands around it is the same. -/
theorem requiring_eq_requiring_iff {t u path : Text} :
    requiring t path = requiring u path ↔ around t = around u := by
  rw [requiring_eq_around, requiring_eq_around]
  refine ⟨fun h => ?_, fun h => by rw [h]⟩
  have hne : beginMark ≠ [] := List.cons_ne_nil _ _
  obtain ⟨front, tail, hbefore, hfirst, htail⟩ := exists_front t
  obtain ⟨front', tail', hbefore', hfirst', htail'⟩ := exists_front u
  rw [hbefore, hbefore'] at h
  simp only [List.append_assoc] at h
  -- The first mark stands at one position, and its line ends at one.
  have hlength : front.length = front'.length := by
    have hposition := positionOf?_of_endsBeforeFirst hne hfirst
      (tail ++ (['\n'] ++ (statement path ++ (around t).2)))
    rw [h, positionOf?_of_endsBeforeFirst hne hfirst'] at hposition
    exact (Option.some.inj hposition).symm
  obtain ⟨rfl, hlines⟩ := List.append_inj h hlength
  replace hlines := List.append_cancel_left hlines
  have htails : tail = tail' := by
    have hline := congrArg (List.takeWhile (· ≠ '\n')) hlines
    simp only [List.singleton_append] at hline
    rwa [takeWhile_append_cons htail, takeWhile_append_cons htail'] at hline
  subst htails
  have hafter : (around t).2 = (around u).2 :=
    List.append_cancel_left (List.append_cancel_left (List.append_cancel_left hlines))
  exact Prod.ext (hbefore.trans hbefore'.symm) hafter

/-- The text has a marked region with nothing but the statement in it. -/
def Requires (t path : Text) : Prop :=
  ∃ region : Region, region.text = t ∧ region.lines = statement path

/-- A text stays as it is exactly if it has the statement where this would be put. -/
theorem requiring_eq_self_iff {t path : Text} : requiring t path = t ↔ Requires t path := by
  constructor
  · intro h
    by_cases hregion : ∃ region : Region, region.text = t
    · obtain ⟨region, rfl⟩ := hregion
      rw [requiring_text, Region.text, Region.filled, Region.filled, List.append_assoc,
        List.append_assoc, List.append_cancel_left_eq, List.append_cancel_right_eq] at h
      exact ⟨region, rfl, h.symm⟩
    · rw [requiring_of_forall_ne (not_exists.mp hregion), List.append_left_eq_self] at h
      cases h
  · rintro ⟨region, rfl, hlines⟩
    rw [requiring_text, Region.text, hlines]

instance (t path : Text) : Decidable (Requires t path) :=
  decidable_of_iff _ requiring_eq_self_iff

/-- Either a text has a marked region, and the statement takes the place of the lines in it, or it
has none and gets a new block in front. If the mark of an end is no part of the path, this makes a
region from which another statement takes the place of the first one, as if that one had never been
there. -/
theorem requiring_requiring :
    (∀ t path path' : Text, ¬ endMark <:+: path →
      requiring (requiring t path) path' = requiring t path') ∧
    ∀ t path : Text,
      (∃ region : Region, region.text = t ∧
        requiring t path = region.before ++ statement path ++ region.after) ∨
      (∀ region : Region, region.text ≠ t) ∧ requiring t path = block path ++ t := by
  constructor
  · intro t path path' hpath
    by_cases hregion : ∃ region : Region, region.text = t
    · obtain ⟨region, rfl⟩ := hregion
      have hagain := requiring_text (region.withStatement hpath) path'
      rw [requiring_text region path, requiring_text region path']
      exact hagain
    · have hnone : ∀ region : Region, region.text ≠ t := not_exists.mp hregion
      have hagain := requiring_text (blockRegion hpath t) path'
      rw [filled_blockRegion, Region.text] at hagain
      rw [requiring_of_forall_ne hnone path, requiring_of_forall_ne hnone path', ← hagain]
      exact congrArg (requiring · path') (filled_blockRegion hpath path t).symm
  · intro t path
    by_cases hregion : ∃ region : Region, region.text = t
    · obtain ⟨region, rfl⟩ := hregion
      exact Or.inl ⟨region, rfl, requiring_text region path⟩
    · have hnone : ∀ region : Region, region.text ≠ t := not_exists.mp hregion
      exact Or.inr ⟨hnone, requiring_of_forall_ne hnone path⟩

/-- The marks share their lines with other text, and a mark of a beginning stands in the region. -/
theorem requiring_requiring_shared_lines :
    let t : Text :=
      ("a\n/* [tsunravel.safeguard.begin] */ b\nold\n// [tsunravel.safeguard.begin]\n" ++
        "c // [tsunravel.safeguard.end] d\n").toList
    ¬ endMark <:+: "./x".toList ∧
      requiring (requiring t "./x".toList) "./y".toList = requiring t "./y".toList ∧
      requiring t "./y".toList =
        ("a\n/* [tsunravel.safeguard.begin] */ b\nrequire('./y');\n" ++
          "c // [tsunravel.safeguard.end] d\n").toList := by
  intro t
  have hpath : ¬ endMark <:+: "./x".toList := by decide
  exact ⟨hpath, requiring_requiring.1 t _ _ hpath, by decide⟩

end Entry

end Disentangle
