import Disentangle.Proofs.Files.Pruning

/-!
Searching for a name. A pattern without slashes is one component or none, so a search comes upon
directories below its base and upon what stands in one of them and has a name that fits. Of these
only the latter are files, their names lead down, and every file of this kind is found.
-/

namespace Disentangle

/-- A pattern without wild characters fits itself alone. -/
theorem Wildcard.matchesText_iff {pattern t : Text} (h : SearchStep.isWild pattern = false) :
    matchesText pattern t = true ↔ t = pattern := by
  rw [matchesText]
  induction pattern generalizing t with
  | nil => exact List.isEmpty_iff
  | cons c rest ih =>
    obtain ⟨hc, hrest⟩ := Bool.or_eq_false_iff.mp ((List.any_cons).symm.trans h)
    simp only [Bool.or_eq_false_iff, decide_eq_false_iff_not] at hc
    obtain ⟨⟨hstar, hquestion⟩, hbracket⟩ := hc
    rw [List.length_cons, parse, if_neg hstar, if_neg hquestion, if_neg hbracket]
    cases t with
    | nil => exact ⟨nofun, nofun⟩
    | cons d t =>
      have hfirst : fitsAll (literal c :: parse rest.length rest) (d :: t) =
          (decide (d = c) && fitsAll (parse rest.length rest) t) := rfl
      rw [hfirst, Bool.and_eq_true, decide_eq_true_eq, ih hrest, List.cons.injEq]

namespace SearchStep

open Disentangle.Path

/-- A pattern without slashes has one component or none. -/
theorem ofPattern_cases {pattern : Text} {search : List SearchStep} (hslash : '/' ∉ pattern)
    (h : ofPattern pattern = .ok search) :
    search = [] ∧ (pattern = [] ∨ pattern = ['.']) ∨
      search = [.anyDepth] ∧ pattern = "**".toList ∨
      search = [.fitting (Wildcard.parse pattern.length pattern)] ∨
      search = [.exactly pattern] ∧ IsStep pattern ∧ isWild pattern = false := by
  have hrelative : Path.isAbsolute pattern = false := by
    refine decide_eq_false fun hhead => hslash ?_
    exact List.mem_of_head? hhead
  have hopen : pattern.getLast? ≠ some '/' := fun hlast => hslash (List.mem_of_getLast? hlast)
  rw [ofPattern, hrelative, if_neg Bool.false_ne_true] at h
  simp only [hopen, if_false] at h
  by_cases hblank : pattern = [] ∨ pattern = ['.']
  · have hnone : components pattern = [] := by
      rcases hblank with rfl | rfl <;> rfl
    rw [hnone] at h
    cases h
    exact .inl ⟨rfl, hblank⟩
  · have hone : components pattern = [pattern] := by
      rw [components, Text.pieces_of_notMem hslash, List.filter_singleton]
      simp [hblank]
    have hstep : IsStep pattern := isStep_of_mem_components (hone ▸ List.mem_singleton_self pattern)
    rw [hone, List.mapM_cons, List.mapM_nil, ofComponent] at h
    split_ifs at h with hdepth hmixed hwild
    · cases h
      exact .inr (.inl ⟨rfl, hdepth⟩)
    · cases h
    · cases h
      exact .inr (.inr (.inl rfl))
    · cases h
      exact .inr (.inr (.inr ⟨rfl, hstep, Bool.eq_false_iff.mpr hwild⟩))

end SearchStep

namespace FileTree

open Disentangle.Path

variable {tree : FileTree} {base steps deeper : List Text} {place : Location} {pattern name : Text}

theorem placeOf_of_locate (h : tree.locate steps = .ok place) : tree.placeOf steps = place := by
  rw [placeOf, h]

/-- Steps that lead down to a directory lead there. -/
theorem placeOf_of_directory (htree : tree.Grounded) (hdown : LeadsDown steps)
    (h : tree.node? steps = some .directory) : tree.placeOf steps = steps :=
  placeOf_of_locate (locate_eq_ok htree hdown (htree steps _ h))

theorem find_of_node? {node : Node} (htree : tree.Grounded) (hdown : LeadsDown steps)
    (h : tree.node? steps = some node) : tree.find steps = .ok node :=
  find_of_locate (locate_eq_ok htree hdown (htree steps _ h)) h

theorem exists_node?_of_find {node : Node} (h : (tree.find steps).toOption = some node) :
    ∃ place, tree.locate steps = .ok place ∧ tree.node? place = some node := by
  rw [find] at h
  cases hlocate : tree.locate steps with
  | error refusal =>
    rw [hlocate] at h
    cases h
  | ok place =>
    simp only [hlocate, bind, Except.bind] at h
    cases hnode : tree.node? place with
    | none =>
      rw [hnode] at h
      cases h
    | some node' =>
      rw [hnode] at h
      exact ⟨place, rfl, hnode.trans h⟩

theorem node?_of_hasDirectory (hdown : LeadsDown steps) (h : tree.hasDirectory steps = true) :
    tree.node? steps = some .directory := by
  obtain ⟨place, hlocate, hnode⟩ := exists_node?_of_find (of_decide_eq_true h)
  exact eq_of_locate hdown hlocate ▸ hnode

theorem exists_file_of_hasFile (h : tree.hasFile steps = true) :
    ∃ place content, tree.locate steps = .ok place ∧ tree.node? place = some (.file content) := by
  rw [hasFile] at h
  split at h
  next content hfind =>
    obtain ⟨place, hlocate, hnode⟩ := exists_node?_of_find hfind
    exact ⟨place, content, hlocate, hnode⟩
  next => cases h

theorem node?_ne_directory_of_hasFile (hdown : LeadsDown steps) (h : tree.hasFile steps = true) :
    tree.node? steps ≠ some .directory := by
  intro hdirectory
  obtain ⟨place, content, hlocate, hnode⟩ := exists_file_of_hasFile h
  cases hnode.symm.trans (eq_of_locate hdown hlocate ▸ hdirectory)

/-- A step that climbs leads to a directory. -/
theorem ne_dots_of_hasFile (htree : tree.Grounded) (h : tree.hasFile (steps ++ [name]) = true) :
    name ≠ ['.', '.'] := by
  rintro rfl
  obtain ⟨place, content, hlocate, hnode⟩ := exists_file_of_hasFile h
  obtain ⟨up, -, hdirectory, rfl⟩ := exists_of_locate_concat hlocate
  rw [if_pos rfl] at hnode
  cases hnode.symm.trans (htree up _ hdirectory)

/-- What a search for a pattern without slashes comes upon: a directory below its base, or something
in such a directory that has a name that fits. -/
def ComesUpon (tree : FileTree) (base : List Text) (pattern : Text) (steps : List Text) : Prop :=
  ∃ deeper ∈ tree.directoriesBelow (tree.placeOf base),
    (∃ more ∈ tree.directoriesBelow (tree.placeOf (base ++ deeper)), steps = deeper ++ more) ∨
      ∃ name, steps = deeper ++ [name] ∧ IsStep name ∧ Wildcard.matchesText pattern name = true

theorem HasPlainNames.comesUpon (h : tree.HasPlainNames) (hslash : '/' ∉ pattern)
    {search : List SearchStep} (hsearch : SearchStep.ofPattern pattern = .ok search)
    (hsteps : steps ∈ tree.select base (.anyDepth :: search) []) :
    tree.ComesUpon base pattern steps := by
  rw [select.eq_def] at hsteps
  obtain ⟨deeper, hdeeper, hsteps⟩ := List.mem_flatMap.mp hsteps
  rw [List.append_nil] at hdeeper
  rw [List.nil_append] at hsteps
  refine ⟨deeper, hdeeper, ?_⟩
  obtain ⟨rfl, -⟩ | ⟨rfl, -⟩ | rfl | ⟨rfl, hstep, hwild⟩ :=
    SearchStep.ofPattern_cases hslash hsearch
  · rw [select.eq_def] at hsteps
    refine .inl ⟨[], List.mem_cons_self, ?_⟩
    rw [List.mem_singleton.mp hsteps, List.append_nil]
  · rw [select.eq_def] at hsteps
    obtain ⟨more, hmore, hsteps⟩ := List.mem_flatMap.mp hsteps
    rw [select.eq_def] at hsteps
    exact .inl ⟨more, hmore, List.mem_singleton.mp hsteps⟩
  · rw [select.eq_def] at hsteps
    obtain ⟨name, hname, hsteps⟩ := List.mem_flatMap.mp hsteps
    obtain ⟨hchild, hfits⟩ := List.mem_filter.mp hname
    have hselected := (List.mem_ite_nil_right.mp hsteps).2
    rw [select.eq_def] at hselected
    exact .inr ⟨name, List.mem_singleton.mp hselected, (h.of_mem_children hchild).isStep, hfits⟩
  · rw [select.eq_def] at hsteps
    have hselected := (List.mem_ite_nil_right.mp hsteps).2
    rw [select.eq_def] at hselected
    exact .inr ⟨pattern, List.mem_singleton.mp hselected, hstep,
      (Wildcard.matchesText_iff hwild).mpr rfl⟩

/-- What stands in a directory below the base and has a name that fits is selected. -/
theorem mem_select_of_matchesText (hslash : '/' ∉ pattern) (hdepth : pattern ≠ "**".toList)
    {search : List SearchStep} (hsearch : SearchStep.ofPattern pattern = .ok search)
    (hname : IsName name) (hmatches : Wildcard.matchesText pattern name = true)
    (hdeeper : deeper ∈ tree.directoriesBelow (tree.placeOf base))
    (hchild : name ∈ tree.children (tree.placeOf (base ++ deeper)))
    (hthere : tree.has (base ++ (deeper ++ [name])) = true) :
    deeper ++ [name] ∈ tree.select base (.anyDepth :: search) [] := by
  have hend : deeper ++ [name] ∈ tree.select base [] (deeper ++ [name]) := by
    rw [select.eq_def]
    exact List.mem_singleton_self _
  rw [select.eq_def]
  refine List.mem_flatMap.mpr ⟨deeper, by rwa [List.append_nil], ?_⟩
  rw [List.nil_append]
  obtain ⟨-, hblank⟩ | ⟨-, hall⟩ | rfl | ⟨rfl, -, hwild⟩ :=
    SearchStep.ofPattern_cases hslash hsearch
  · rcases hblank with rfl | rfl
    · exact absurd ((Wildcard.matchesText_iff rfl).mp hmatches) hname.ne_nil
    · exact absurd ((Wildcard.matchesText_iff rfl).mp hmatches) hname.ne_dot
  · exact absurd hall hdepth
  · rw [select.eq_def]
    exact List.mem_flatMap.mpr ⟨name, List.mem_filter.mpr ⟨hchild, hmatches⟩,
      List.mem_ite_nil_right.mpr ⟨hthere, hend⟩⟩
  · cases (Wildcard.matchesText_iff hwild).mp hmatches
    rw [select.eq_def]
    exact List.mem_ite_nil_right.mpr ⟨hthere, hend⟩

/-- Directories below a directory are found where their steps lead. -/
theorem node?_of_mem_directoriesBelow (htree : tree.IsWellFormed)
    (hdown : LeadsDown base) (hbase : tree.node? base = some .directory)
    (h : deeper ∈ tree.directoriesBelow (tree.placeOf base)) :
    LeadsDown (base ++ deeper) ∧ tree.node? (base ++ deeper) = some .directory := by
  have hplain := htree.plainNames.of_mem_directoriesBelow h
  rw [placeOf_of_directory htree.grounded hdown hbase] at h
  refine ⟨fun name hname => ?_, ?_⟩
  · rcases List.mem_append.mp hname with hname | hname
    · exact hdown name hname
    · exact (hplain name hname).ne_dots
  · rcases htree.listsOnce.of_mem_directoriesBelow h with heq | hdirectory
    · rw [heq, hbase]
    · exact hdirectory

section Matching

variable {found : List (List Text)}

/-- The names of a file that is found lead down from the base. -/
theorem IsWellFormed.isName_of_filesMatching (htree : tree.IsWellFormed) (hslash : '/' ∉ pattern)
    (hdown : LeadsDown base) (hfound : tree.filesMatching base pattern = .ok found)
    (hsteps : steps ∈ found) : steps ≠ [] ∧ ∀ name ∈ steps, IsName name := by
  obtain ⟨search, hsearch, hbase, hselected, hfile⟩ := (mem_filesMatching_iff hfound).mp hsteps
  have hne : steps ≠ [] := by
    rintro rfl
    rw [List.append_nil] at hfile
    exact node?_ne_directory_of_hasFile hdown hfile (node?_of_hasDirectory hdown hbase)
  refine ⟨hne, ?_⟩
  obtain ⟨deeper, hdeeper, ⟨more, hmore, rfl⟩ | ⟨name, rfl, hstep, -⟩⟩ :=
    htree.plainNames.comesUpon hslash hsearch hselected
  · exact List.forall_mem_append.mpr ⟨htree.plainNames.of_mem_directoriesBelow hdeeper,
      htree.plainNames.of_mem_directoriesBelow hmore⟩
  · rw [← List.append_assoc] at hfile
    have hdots := ne_dots_of_hasFile htree.grounded hfile
    exact List.forall_mem_append.mpr ⟨htree.plainNames.of_mem_directoriesBelow hdeeper,
      List.forall_mem_singleton.mpr ⟨hstep.ne_nil, hstep.ne_dot, hdots, hstep.no_slash⟩⟩

/-- The name of a file that is found fits the pattern. -/
theorem IsWellFormed.exists_name_of_filesMatching (htree : tree.IsWellFormed)
    (hslash : '/' ∉ pattern) (hdown : LeadsDown base)
    (hfound : tree.filesMatching base pattern = .ok found) (hsteps : steps ∈ found) :
    ∃ front name, steps = front ++ [name] ∧ Wildcard.matchesText pattern name = true := by
  obtain ⟨search, hsearch, hbase, hselected, hfile⟩ := (mem_filesMatching_iff hfound).mp hsteps
  obtain ⟨deeper, hdeeper, ⟨more, hmore, rfl⟩ | ⟨name, rfl, -, hmatches⟩⟩ :=
    htree.plainNames.comesUpon hslash hsearch hselected
  · -- Directories alone are no way to a file.
    obtain ⟨hdown', hdirectory⟩ := node?_of_mem_directoriesBelow htree hdown
      (node?_of_hasDirectory hdown hbase) hdeeper
    obtain ⟨hdown'', hdirectory'⟩ := node?_of_mem_directoriesBelow htree hdown' hdirectory
      hmore
    rw [← List.append_assoc] at hfile
    exact absurd hdirectory' (node?_ne_directory_of_hasFile hdown'' hfile)
  · exact ⟨deeper, name, rfl, hmatches⟩

/-- Every file below the base that has a name that fits is found, unless the pattern asks for
directories at any depth. -/
theorem IsWellFormed.mem_filesMatching (htree : tree.IsWellFormed) (hslash : '/' ∉ pattern)
    (hdepth : pattern ≠ "**".toList) (hdown : LeadsDown base)
    (hfound : tree.filesMatching base pattern = .ok found) {front : List Text}
    (hnames : ∀ n ∈ front ++ [name], IsName n) (hmatches : Wildcard.matchesText pattern name = true)
    (hfile : tree.HasFileAt (base ++ (front ++ [name]))) : front ++ [name] ∈ found := by
  have hall : ∀ n ∈ base ++ (front ++ [name]), n ≠ ['.', '.'] :=
    List.forall_mem_append.mpr ⟨hdown, fun n hn => (hnames n hn).ne_dots⟩
  obtain ⟨content, hnode⟩ := hfile
  have hfind := find_of_node? htree.grounded hall hnode
  have hbase : tree.node? base = some .directory :=
    htree.grounded.above hnode (List.prefix_append base _) (by simp)
  rw [← List.append_assoc] at hnode hall
  obtain ⟨hall', -⟩ := LeadsDown.of_concat hall
  have hdirectory : tree.node? (base ++ front) = some .directory := by
    have hparent := htree.grounded _ _ hnode
    rwa [List.dropLast_concat] at hparent
  have hfront : front ∈ tree.directoriesBelow (tree.placeOf base) := by
    rw [placeOf_of_directory htree.grounded hdown hbase]
    exact mem_directoriesBelow_of_directory hdirectory
  have hchild : name ∈ tree.children (tree.placeOf (base ++ front)) := by
    rw [placeOf_of_directory htree.grounded hall' hdirectory]
    exact mem_children_of_node? hnode
  cases hsearch : SearchStep.ofPattern pattern with
  | error fault =>
    rw [filesMatching, hsearch] at hfound
    cases hfound
  | ok search =>
    have hselected :=
      mem_select_of_matchesText hslash hdepth hsearch (hnames name (by simp)) hmatches
      hfront hchild (by rw [has, hfind]; rfl)
    refine (mem_filesMatching_iff hfound).mpr ⟨search, hsearch, ?_, hselected, ?_⟩
    · rw [hasDirectory, find_of_node? htree.grounded hdown hbase]
      rfl
    · rw [hasFile, hfind]
      rfl

end Matching

end FileTree

end Disentangle
