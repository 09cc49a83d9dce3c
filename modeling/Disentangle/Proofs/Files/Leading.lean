import Disentangle.Proofs.Files.Contents

/-!
Paths that climb before they lead down. At the root there is nothing to climb to, so a leading `..`
changes nothing: where it leads and what a write does are the same as without it. The new path of a
file that moves is of this kind, whatever the folders are.
-/

namespace Disentangle

namespace FileTree

variable {tree after : FileTree} {steps above : List Text} {place : Location}
  {content : List UInt8}

/-- The steps lead straight down to a place, perhaps after one that climbs from the root. -/
structure LeadsTo (steps : List Text) (place : Location) : Prop where
  down : LeadsDown place
  steps_eq : steps = place ∨ steps = ['.', '.'] :: place

theorem locate_dots (tree : FileTree) (steps : List Text) :
    tree.locate (['.', '.'] :: steps) = tree.locate steps := by
  have hstep : tree.step [] ['.', '.'] = .ok [] := by simp [step]
  rw [locate, List.foldlM_cons, hstep]
  rfl

theorem find_dots (tree : FileTree) (steps : List Text) :
    tree.find (['.', '.'] :: steps) = tree.find steps := by
  rw [find, locate_dots, find]

theorem makeDirectoryIfNone_dots (tree : FileTree) (steps : List Text) :
    tree.makeDirectoryIfNone (['.', '.'] :: steps) = tree.makeDirectoryIfNone steps := by
  rw [makeDirectoryIfNone, makeDirectory, locate_dots, hasDirectory, find_dots,
    makeDirectoryIfNone, makeDirectory, hasDirectory]

/-- The steps are given from the last one back to the first, so the one that climbs comes last. -/
theorem makeDirectories_dots (tree : FileTree) (above : List Text) :
    tree.makeDirectories (above ++ [['.', '.']]) = tree.makeDirectories above := by
  have hsteps (tree : FileTree) (above : List Text) :
      tree.makeDirectoryIfNone (above ++ [['.', '.']]).reverse =
        tree.makeDirectoryIfNone above.reverse := by
    rw [List.reverse_concat, makeDirectoryIfNone_dots]
  induction above with
  | nil =>
    have hroot : tree.makeDirectoryIfNone [] = .ok tree := by
      simp [makeDirectoryIfNone, makeDirectory, hasDirectory, find, locate, bind, Except.bind,
        pure, Except.pure, throw, throwThe, MonadExceptOf.throw, Except.toOption]
    have hdots := hsteps tree []
    rw [List.reverse_nil, hroot] at hdots
    simp only [List.nil_append] at hdots ⊢
    simp only [makeDirectories, hdots]
  | cons name above ih =>
    have hname (tree : FileTree) := hsteps tree (name :: above)
    simp only [List.cons_append] at hname ⊢
    simp only [makeDirectories, hname, ih]

theorem makeDirectories_parent_dots (tree : FileTree) (place : Location) :
    tree.makeDirectories (['.', '.'] :: place).reverse.tail =
      tree.makeDirectories place.reverse.tail := by
  rcases List.eq_nil_or_concat' place with rfl | ⟨front, last, rfl⟩
  · rfl
  · rw [List.reverse_cons, List.reverse_concat, List.cons_append, List.tail_cons, List.tail_cons,
      makeDirectories_dots]

theorem write_dots (tree : FileTree) (place : Location) (content : List UInt8) :
    tree.write (['.', '.'] :: place) content = tree.write place content := by
  have hput (tree : FileTree) :
      tree.putFile (['.', '.'] :: place) content = tree.putFile place content := by
    rw [putFile, locate_dots, putFile]
  simp only [write, makeDirectories_parent_dots, hput]

namespace LeadsTo

theorem self (h : LeadsDown place) : LeadsTo place place :=
  ⟨h, Or.inl rfl⟩

theorem write_eq (h : LeadsTo steps place) (content : List UInt8) :
    tree.write steps content = tree.write place content := by
  rcases h.steps_eq with rfl | rfl
  · rfl
  · exact write_dots tree place content

theorem makeDirectories_eq (h : LeadsTo steps place) :
    tree.makeDirectories steps.reverse.tail = tree.makeDirectories place.dropLast.reverse := by
  rw [← List.tail_reverse]
  rcases h.steps_eq with rfl | rfl
  · rfl
  · exact makeDirectories_parent_dots tree place

theorem find_eq (h : LeadsTo steps place) : tree.find steps = tree.find place := by
  rcases h.steps_eq with rfl | rfl
  · rfl
  · exact find_dots tree place

/-- Where there is nothing to be found, nothing stands. -/
theorem node?_eq_none (h : LeadsTo steps place) (htree : tree.Grounded)
    (hhas : tree.has steps = false) : tree.node? place = none := by
  cases hnode : tree.node? place with
  | none => rfl
  | some node =>
    have hlocate := locate_eq_ok htree h.down (htree place node hnode)
    rw [has, h.find_eq, find_of_locate hlocate hnode] at hhas
    cases hhas

end LeadsTo

end FileTree

namespace Text

variable {separator : Char}

/-- Two texts in a row are cut where each of them is; the last piece of the first goes on as the
first piece of the second. -/
theorem pieces_append (separator : Char) (t u : Text) :
    ∃ front last first rest, pieces separator t = front ++ [last] ∧
      pieces separator u = first :: rest ∧
      pieces separator (t ++ u) = front ++ (last ++ first) :: rest := by
  induction t with
  | nil =>
    obtain ⟨first, rest, hu⟩ := List.exists_cons_of_ne_nil (pieces_ne_nil separator u)
    exact ⟨[], [], first, rest, rfl, hu, hu⟩
  | cons c t ih =>
    obtain ⟨front, last, first, rest, ht, hu, htu⟩ := ih
    by_cases hc : c = separator
    · refine ⟨[] :: front, last, first, rest, ?_, hu, ?_⟩
      · simp [pieces, hc, ht]
      · simp [pieces, hc, htu]
    · cases front with
      | nil =>
        exact ⟨[], c :: last, first, rest, pieces_cons_of_ne hc ht, hu, pieces_cons_of_ne hc htu⟩
      | cons piece front =>
        exact ⟨(c :: piece) :: front, last, first, rest, pieces_cons_of_ne hc ht, hu,
          pieces_cons_of_ne hc htu⟩

/-- All pieces of an end of a text but the first are pieces of the text. -/
theorem pieces_of_suffix {t u : Text} (h : t <:+ u) :
    ∃ first rest, pieces separator t = first :: rest ∧ rest <:+ pieces separator u := by
  obtain ⟨a, rfl⟩ := h
  obtain ⟨front, last, first, rest, -, ht, hboth⟩ := pieces_append separator a t
  refine ⟨first, rest, ht, ?_⟩
  rw [hboth]
  exact (List.suffix_cons _ rest).trans (List.suffix_append front _)

end Text

namespace Path

variable {mark path : Text}

/-- The pieces of a canonical path are empty ones and then plain names. -/
theorem IsCanonical.exists_pieces (h : IsCanonical mark path) :
    ∃ blanks names, Text.pieces '/' path = blanks ++ names ∧ (∀ blank ∈ blanks, blank = []) ∧
      ∀ name ∈ names, IsName name := by
  obtain ⟨hmark, names, hnames, rfl⟩ := h
  have hbody : ∃ blanks, Text.pieces '/' (Text.join ['/'] names) = blanks ++ names ∧
      ∀ blank ∈ blanks, blank = [] := by
    cases names with
    | nil => exact ⟨[[]], rfl, by simp⟩
    | cons name rest =>
      exact ⟨[], Text.pieces_join (by simp) fun n hn => (hnames n hn).no_slash, by simp⟩
  obtain ⟨blanks, hpieces, hblanks⟩ := hbody
  rcases hmark with rfl | rfl
  · exact ⟨[] :: blanks, names, by simp [Text.pieces, hpieces], by simpa using hblanks, hnames⟩
  · exact ⟨[] :: [] :: blanks, names, by simp [Text.pieces, hpieces], by simpa using hblanks,
      hnames⟩

theorem IsCanonical.isName_of_mem_pieces (h : IsCanonical mark path) {piece : Text}
    (hpiece : piece ∈ Text.pieces '/' path) (hne : piece ≠ []) : IsName piece := by
  obtain ⟨blanks, names, hpieces, hblanks, hnames⟩ := h.exists_pieces
  rw [hpieces] at hpiece
  rcases List.mem_append.mp hpiece with hblank | hname
  · exact absurd (hblanks piece hblank) hne
  · exact hnames piece hname

/-- Only a root ends in an empty piece. -/
theorem IsCanonical.eq_nil_of_mem_front (h : IsCanonical mark path) {front : List Text}
    (hpieces : Text.pieces '/' path = front ++ [[]]) : ∀ piece ∈ front, piece = [] := by
  obtain ⟨blanks, names, hsplit, hblanks, hnames⟩ := h.exists_pieces
  rcases List.eq_nil_or_concat' names with rfl | ⟨names, name, rfl⟩
  · rw [List.append_nil, hpieces] at hsplit
    exact fun piece hpiece => hblanks piece (hsplit ▸ List.mem_append_left _ hpiece)
  · rw [hpieces, ← List.append_assoc] at hsplit
    have hlast : [] = name := (List.append_singleton_inj.mp hsplit).2
    exact absurd hlast.symm (hnames name (by simp)).ne_nil

theorem mem_components {step : Text} :
    step ∈ components path ↔ step ∈ Text.pieces '/' path ∧ step ≠ [] ∧ step ≠ ['.'] := by
  rw [components, List.mem_filter, decide_eq_true_eq, not_or]

theorem components_append_slash (path relative : Text) :
    components (path ++ '/' :: relative) = components path ++ components relative := by
  rw [components, Text.pieces_append_cons, List.filter_append]
  rfl

theorem components_append {directory relative : Text} (hdirectory : directory ≠ [])
    (hrelative : relative.head? ≠ some '/') :
    components (append directory relative) = components directory ++ components relative := by
  rw [append_of_relative hdirectory hrelative]
  split
  next hlast =>
    obtain ⟨front, rfl⟩ := List.getLast?_eq_some_iff.mp hlast
    rw [List.append_assoc, List.singleton_append, components_append_slash, components_append_slash,
      List.append_assoc]
    rfl
  next => exact components_append_slash directory relative

/-- A walk goes along nothing but its components. -/
theorem foldl_walk_subset (components above : List Text) :
    components.foldl walk above ⊆ components ++ above := by
  induction components generalizing above with
  | nil => exact fun _ => id
  | cons component rest ih =>
    intro name hname
    have hstep : walk above component ⊆ component :: above := by
      rw [walk]
      split_ifs
      · exact List.subset_cons_self component above
      · exact List.Subset.trans (List.tail_subset above) (List.subset_cons_self component above)
      · exact fun _ => id
    rcases List.mem_append.mp (ih _ hname) with hrest | habove
    · simp [hrest]
    · simp only [List.mem_cons, List.cons_append, List.mem_append]
      rcases List.mem_cons.mp (hstep habove) with rfl | habove
      · exact Or.inl rfl
      · exact Or.inr (Or.inr habove)

/-- The names of what is found by steps from a canonical directory are names of the directory and
steps. -/
theorem IsCanonical.components_standardize_subset {directory : Text}
    (h : IsCanonical mark directory) (cwd : Text) {steps : List Text}
    (hsteps : ∀ step ∈ steps, IsStep step) :
    components (standardize cwd (append directory (Text.join ['/'] steps))) ⊆
      components directory ++ steps := by
  have hhead := head?_join_of_isStep hsteps
  have hne : directory ≠ [] := by
    rintro rfl
    cases h.isAbsolute
  obtain ⟨tail, htail, -⟩ := h.exists_append hhead
  have habsolute : Path.isAbsolute (append directory (Text.join ['/'] steps)) = true :=
    htail ▸ isAbsolute_append (isAbsolute_mark h.isMark) tail
  rw [components_standardize, append_of_isAbsolute cwd habsolute]
  intro name hname
  have hplain := isName_of_mem_names hname
  have hpiece : name ∈ Text.pieces '/' (append directory (Text.join ['/'] steps)) := by
    have hwalk := foldl_walk_subset _ _ (List.mem_reverse.mp hname)
    rwa [List.append_nil] at hwalk
  have hmem := mem_components.mpr ⟨hpiece, hplain.ne_nil, hplain.ne_dot⟩
  rw [components_append hne hhead, List.mem_append] at hmem
  refine List.mem_append.mpr (hmem.imp_right fun hjoined => ?_)
  obtain ⟨hjoined, -⟩ := mem_components.mp hjoined
  cases steps with
  | nil => exact absurd (List.mem_singleton.mp hjoined) hplain.ne_nil
  | cons step rest =>
    rwa [Text.pieces_join (List.cons_ne_nil step rest) fun t ht => (hsteps t ht).no_slash]
      at hjoined

/-- The end of a canonical path, put behind another one, leads down from the root, unless the cut
has left a `..` right below it. -/
theorem IsCanonical.exists_leadsTo {target mark' : Text} (htarget : IsCanonical mark target)
    (hpath : IsCanonical mark' path) (n : Nat) :
    ∃ place, FileTree.LeadsTo (components (target ++ path.drop n)) place := by
  obtain ⟨front, last, first, rest, hfront, hend, hboth⟩ :=
    Text.pieces_append '/' target (path.drop n)
  obtain ⟨_, _, hend', hrest⟩ := Text.pieces_of_suffix (List.drop_suffix n path)
  cases hend.symm.trans hend'
  have hname {piece : Text} (hpiece : piece ∈ front ∨ piece ∈ rest) (hne : piece ≠ []) :
      IsName piece := by
    rcases hpiece with hpiece | hpiece
    · exact htarget.isName_of_mem_pieces (hfront ▸ List.mem_append_left _ hpiece) hne
    · exact hpath.isName_of_mem_pieces (hrest.subset hpiece) hne
  by_cases hclimbs : last = [] ∧ first = ['.', '.']
  · obtain ⟨rfl, rfl⟩ := hclimbs
    have hblank := htarget.eq_nil_of_mem_front hfront
    have hnone : (front.filter fun name => ¬(name = [] ∨ name = ['.'])) = [] :=
      List.filter_eq_nil_iff.mpr fun piece hpiece => by simp [hblank piece hpiece]
    refine ⟨rest.filter fun name => ¬(name = [] ∨ name = ['.']), ?_, Or.inr ?_⟩
    · intro step hstep
      obtain ⟨hpiece, hkept⟩ := List.mem_filter.mp hstep
      rw [decide_eq_true_eq, not_or] at hkept
      exact (hname (Or.inr hpiece) hkept.1).ne_dots
    · rw [components, hboth, List.filter_append, hnone]
      rfl
  · refine ⟨_, FileTree.LeadsTo.self fun step hstep => ?_⟩
    obtain ⟨hpiece, hne, -⟩ := mem_components.mp hstep
    rw [hboth] at hpiece
    rcases List.mem_append.mp hpiece with hpiece | hpiece
    · exact (hname (Or.inl hpiece) hne).ne_dots
    rcases List.mem_cons.mp hpiece with rfl | hpiece
    · -- A plain name at the end of the target stays one when it goes on.
      intro hdots
      have hlast : last ∈ Text.pieces '/' target := hfront ▸ by simp
      rcases last with _ | ⟨c, last⟩
      · exact hclimbs ⟨rfl, hdots⟩
      · have hplain := htarget.isName_of_mem_pieces hlast (List.cons_ne_nil c last)
        obtain ⟨rfl, hmore⟩ := List.cons.inj hdots
        rcases last with _ | ⟨d, last⟩
        · exact hplain.ne_dot rfl
        · obtain ⟨rfl, hnil⟩ := List.cons.inj hmore
          rw [(List.append_eq_nil_iff.mp hnil).1] at hplain
          exact hplain.ne_dots rfl
    · exact (hname (Or.inr hpiece) hne).ne_dots

end Path

end Disentangle
