import Disentangle.Files.Search
import Disentangle.Proofs.Lists
import Disentangle.Proofs.Path.Direct

/-!
What a search finds. In a tree whose names are plain, the steps to a found file are plain names or
`..`, so that none of them begins a path of its own. The canonical paths of the files found below
one directory all have its root mark, and such paths differ only if they lead to different places.
-/

namespace Disentangle

theorem Text.exists_join_cons (separator t : Text) (rest : List Text) :
    ∃ tail, join separator (t :: rest) = t ++ tail := by
  cases rest with
  | nil => exact ⟨[], (List.append_nil t).symm⟩
  | cons next more => exact ⟨_, List.append_assoc t separator _⟩

namespace Path

/-- A step of a path: a plain name, or `..`. -/
structure IsStep (step : Text) : Prop where
  ne_nil : step ≠ []
  ne_dot : step ≠ ['.']
  no_slash : '/' ∉ step

theorem IsName.isStep {name : Text} (h : IsName name) : IsStep name :=
  ⟨h.ne_nil, h.ne_dot, h.no_slash⟩

theorem isStep_of_mem_components {path step : Text} (h : step ∈ components path) : IsStep step := by
  obtain ⟨hpiece, hkept⟩ := List.mem_filter.mp h
  rw [decide_eq_true_eq, not_or] at hkept
  exact ⟨hkept.1, hkept.2, Text.notMem_of_mem_pieces hpiece⟩

/-- Joined steps do not begin with a slash. -/
theorem head?_join_of_isStep {steps : List Text} (h : ∀ step ∈ steps, IsStep step) :
    (Text.join ['/'] steps).head? ≠ some '/' := by
  cases steps with
  | nil => simp [Text.join]
  | cons step rest =>
    have hstep := h step List.mem_cons_self
    obtain ⟨c, more, rfl⟩ := List.exists_cons_of_ne_nil hstep.ne_nil
    obtain ⟨tail, hjoin⟩ := Text.exists_join_cons ['/'] (c :: more) rest
    rw [hjoin]
    intro hhead
    exact hstep.no_slash (Option.some.inj hhead ▸ List.mem_cons_self)

/-- A canonical path that begins with the given root mark. -/
structure IsCanonical (mark path : Text) : Prop where
  isMark : mark = ['/'] ∨ mark = ['/', '/']
  exists_names : ∃ names, (∀ name ∈ names, IsName name) ∧ path = mark ++ Text.join ['/'] names

variable {mark path directory : Text}

theorem isCanonical_standardize (cwd path : Text) :
    IsCanonical (rootMark (append cwd path)) (standardize cwd path) :=
  ⟨rootMark_cases _, _, fun _ hname => isName_of_mem_names hname, rfl⟩

theorem components_canonical {names : List Text} (hmark : mark = ['/'] ∨ mark = ['/', '/'])
    (hnames : ∀ n ∈ names, IsName n) : components (mark ++ Text.join ['/'] names) = names := by
  rcases hmark with rfl | rfl
  · exact (components_slash _).trans (components_join hnames)
  · exact ((components_slash _).trans (components_slash _)).trans (components_join hnames)

/-- A canonical path is read back from its root mark and its components. -/
theorem IsCanonical.join_components (h : IsCanonical mark path) :
    mark ++ Text.join ['/'] (components path) = path := by
  obtain ⟨hmark, names, hnames, rfl⟩ := h
  rw [components_canonical hmark hnames]

/-- Canonical paths with one root mark are equal if they lead to one place. -/
theorem IsCanonical.eq_of_components {path' : Text} (h : IsCanonical mark path)
    (h' : IsCanonical mark path') (heq : components path = components path') : path = path' := by
  rw [← h.join_components, ← h'.join_components, heq]

theorem IsCanonical.isAbsolute (h : IsCanonical mark path) : Path.isAbsolute path = true := by
  obtain ⟨hmark, names, -, rfl⟩ := h
  exact isAbsolute_append (isAbsolute_mark hmark) _

theorem append_of_relative {relative : Text} (hdirectory : directory ≠ [])
    (hrelative : relative.head? ≠ some '/') :
    append directory relative =
      directory ++ if directory.getLast? = some '/' then relative else '/' :: relative := by
  have habsolute : Path.isAbsolute relative = false := decide_eq_false hrelative
  have hempty : directory.isEmpty = false := List.isEmpty_eq_false_iff.mpr hdirectory
  rw [append, habsolute, hempty, Bool.false_or]
  by_cases hlast : directory.getLast? = some '/' <;> simp [hlast]

/-- A path is read from a canonical directory behind its root mark. -/
theorem IsCanonical.exists_append (h : IsCanonical mark directory) {relative : Text}
    (hrelative : relative.head? ≠ some '/') :
    ∃ tail, append directory relative = mark ++ tail ∧ tail.head? ≠ some '/' := by
  obtain ⟨hmark, names, hnames, rfl⟩ := h
  have hne : mark ++ Text.join ['/'] names ≠ [] := by
    rcases hmark with rfl | rfl <;> exact List.cons_ne_nil _ _
  rw [append_of_relative hne hrelative, List.append_assoc]
  refine ⟨_, rfl, ?_⟩
  cases names with
  | nil =>
    have hlast : (mark ++ Text.join ['/'] []).getLast? = some '/' := by
      rcases hmark with rfl | rfl <;> rfl
    rwa [if_pos hlast]
  | cons name rest =>
    have hhead := head?_join hnames
    obtain ⟨c, more, hname⟩ := List.exists_cons_of_ne_nil (hnames name List.mem_cons_self).ne_nil
    obtain ⟨tail, hjoin⟩ := Text.exists_join_cons ['/'] name rest
    rw [hjoin, hname] at hhead ⊢
    exact hhead

/-- What is read from a canonical directory keeps its root mark. -/
theorem IsCanonical.standardize_append (h : IsCanonical mark directory) (cwd : Text)
    {relative : Text} (hrelative : relative.head? ≠ some '/') :
    IsCanonical mark (standardize cwd (append directory relative)) := by
  obtain ⟨tail, happend, htail⟩ := h.exists_append hrelative
  have hfull : append cwd (append directory relative) = mark ++ tail := by
    rw [happend, append_of_isAbsolute cwd (isAbsolute_append (isAbsolute_mark h.isMark) tail)]
  have hcanonical := isCanonical_standardize cwd (append directory relative)
  rwa [hfull, rootMark_append h.isMark htail] at hcanonical

end Path

namespace FileTree

open Disentangle.Path

variable {tree : FileTree} {place : Location} {base : List Text}

/-- All names in the tree are plain. -/
def HasPlainNames (tree : FileTree) : Prop :=
  ∀ entry ∈ tree.entries, ∀ name ∈ entry.1, IsName name

theorem HasPlainNames.of_mem_children (h : tree.HasPlainNames) {name : Text}
    (hname : name ∈ tree.children place) : IsName name := by
  obtain ⟨⟨key, node⟩, hentry, hlast⟩ := List.mem_filterMap.mp hname
  dsimp only at hlast
  split at hlast
  next => exact h _ hentry name (List.mem_of_getLast? hlast)
  next => cases hlast

theorem HasPlainNames.of_mem_directoriesBelow (h : tree.HasPlainNames) {steps : List Text}
    (hsteps : steps ∈ tree.directoriesBelow place) : ∀ name ∈ steps, IsName name := by
  intro name hname
  rcases List.mem_cons.mp hsteps with rfl | hbelow
  · cases hname
  obtain ⟨⟨key, node⟩, hentry, hdrop⟩ := List.mem_filterMap.mp hbelow
  dsimp only at hdrop
  split at hdrop
  next =>
    cases hdrop
    exact h _ hentry name (List.mem_of_mem_drop hname)
  next => cases hdrop

/-- The literal names of a search pattern are steps. -/
def IsSearch (steps : List SearchStep) : Prop :=
  ∀ name, SearchStep.exactly name ∈ steps → IsStep name

theorem isStep_of_ofComponent {component name : Text} (hcomponent : IsStep component)
    (h : SearchStep.ofComponent component = .ok (.exactly name)) : IsStep name := by
  rw [SearchStep.ofComponent] at h
  split_ifs at h
  next => cases h
  next => cases h
  next =>
    cases h
    exact hcomponent

theorem isSearch_of_ofPattern {pattern : Text} {search : List SearchStep}
    (h : SearchStep.ofPattern pattern = .ok search) : IsSearch search := by
  intro name hname
  rw [SearchStep.ofPattern] at h
  split at h
  next => cases h
  cases hsteps : (components pattern).mapM SearchStep.ofComponent with
  | error fault => simp [hsteps, bind, Except.bind] at h
  | ok steps =>
    have hsearch : search = if pattern.getLast? = some '/' then steps ++ [.directoryOnly]
        else steps := by
      simpa [hsteps, bind, Except.bind, pure, Except.pure] using h.symm
    have hmem : SearchStep.exactly name ∈ steps := by
      rw [hsearch] at hname
      split at hname <;> simpa using hname
    obtain ⟨component, hcomponent, hof⟩ :=
      exists_of_mem_right (mapM_eq_ok_iff.mp hsteps) hmem
    exact isStep_of_ofComponent (isStep_of_mem_components hcomponent) hof

/-- The induction is on the steps of the pattern, over what has been found so far. -/
theorem HasPlainNames.isStep_of_mem_select (h : tree.HasPlainNames) {search : List SearchStep}
    (hsearch : IsSearch search) {found result : List Text} (hfound : ∀ step ∈ found, IsStep step)
    (hresult : result ∈ tree.select base search found) : ∀ step ∈ result, IsStep step := by
  induction search generalizing found with
  | nil =>
    rw [List.mem_singleton.mp hresult]
    exact hfound
  | cons first rest ih =>
    have hrest : IsSearch rest := fun name hname => hsearch name (List.mem_cons_of_mem first hname)
    have hlonger {more : List Text} (hmore : ∀ step ∈ more, IsStep step) :
        ∀ step ∈ found ++ more, IsStep step :=
      List.forall_mem_append.mpr ⟨hfound, hmore⟩
    rw [select.eq_def] at hresult
    cases first with
    | anyDepth =>
      obtain ⟨deeper, hdeeper, hresult⟩ := List.mem_flatMap.mp hresult
      have hplain := h.of_mem_directoriesBelow hdeeper
      exact ih hrest (hlonger fun name hname => (hplain name hname).isStep) hresult
    | fitting pattern =>
      obtain ⟨name, hname, hresult⟩ := List.mem_flatMap.mp hresult
      have hplain := h.of_mem_children (List.mem_filter.mp hname).1
      exact ih hrest (hlonger (List.forall_mem_singleton.mpr hplain.isStep))
        (List.mem_ite_nil_right.mp hresult).2
    | exactly name =>
      have hstep := hsearch name List.mem_cons_self
      exact ih hrest (hlonger (List.forall_mem_singleton.mpr hstep))
        (List.mem_ite_nil_right.mp hresult).2
    | directoryOnly => exact ih hrest hfound (List.mem_ite_nil_right.mp hresult).2

/-- What is found below a directory are the files that are selected by the steps of the pattern. -/
theorem mem_filesMatching_iff {pattern : Text} {found : List (List Text)} {steps : List Text}
    (hfound : tree.filesMatching base pattern = .ok found) :
    steps ∈ found ↔ ∃ search, SearchStep.ofPattern pattern = .ok search ∧
      tree.hasDirectory base = true ∧ steps ∈ tree.select base (.anyDepth :: search) [] ∧
      tree.hasFile (base ++ steps) = true := by
  rw [filesMatching] at hfound
  cases hsearch : SearchStep.ofPattern pattern with
  | error fault => simp [hsearch, bind, Except.bind] at hfound
  | ok search =>
    have heq : found = if tree.hasDirectory base then
        ((tree.select base (.anyDepth :: search) []).eraseDups).filter fun steps =>
          tree.hasFile (base ++ steps)
        else [] := by
      cases hdirectory : tree.hasDirectory base <;>
        simpa [hsearch, hdirectory, bind, Except.bind, pure, Except.pure] using hfound.symm
    rw [heq, List.mem_ite_nil_right, List.mem_filter, List.mem_eraseDups]
    simp only [Except.ok.injEq, exists_eq_left']

/-- What is found is a file, and the way to it consists of steps. -/
theorem HasPlainNames.of_filesMatching (h : tree.HasPlainNames) {pattern : Text}
    {found : List (List Text)} (hfound : tree.filesMatching base pattern = .ok found)
    {steps : List Text} (hsteps : steps ∈ found) :
    (∀ step ∈ steps, IsStep step) ∧ tree.hasFile (base ++ steps) = true := by
  obtain ⟨search, hsearch, -, hselected, hfile⟩ := (mem_filesMatching_iff hfound).mp hsteps
  have hpattern : IsSearch (.anyDepth :: search) := by
    intro name hname
    rcases List.mem_cons.mp hname with hfirst | hrest
    · cases hfirst
    · exact isSearch_of_ofPattern hsearch name hrest
  exact ⟨h.isStep_of_mem_select hpattern (by simp) hselected, hfile⟩

end FileTree

end Disentangle
