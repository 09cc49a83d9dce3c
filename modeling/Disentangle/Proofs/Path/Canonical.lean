import Disentangle.Path.Basic

/-!
Canonical paths are fixed: to standardize a path that has been standardized changes nothing,
whatever the working directory. The walk along a path leaves plain names only, and a root mark
with plain names behind it is read back as that mark and those names.
-/

namespace Disentangle.Text

variable {separator : Char} {t : Text}

theorem pieces_of_notMem (h : separator ∉ t) : pieces separator t = [t] := by
  induction t with
  | nil => rfl
  | cons c rest ih =>
    simp only [List.mem_cons, not_or] at h
    rw [pieces, if_neg (Ne.symm h.1), ih h.2]

theorem pieces_append_separator (h : separator ∉ t) (rest : Text) :
    pieces separator (t ++ separator :: rest) = t :: pieces separator rest := by
  induction t with
  | nil => rw [List.nil_append, pieces, if_pos rfl]
  | cons c t ih =>
    simp only [List.mem_cons, not_or] at h
    rw [List.cons_append, pieces, if_neg (Ne.symm h.1), ih h.2]

/-- Texts without the separator are read back from their join. -/
theorem pieces_join {texts : List Text} (hne : texts ≠ [])
    (h : ∀ t ∈ texts, separator ∉ t) : pieces separator (join [separator] texts) = texts := by
  induction texts with
  | nil => exact absurd rfl hne
  | cons t rest ih =>
    cases rest with
    | nil => exact pieces_of_notMem (h t (by simp))
    | cons next more =>
      rw [join, List.append_assoc, List.singleton_append,
        pieces_append_separator (h t (by simp)),
        ih (by simp) fun u hu => h u (List.mem_cons_of_mem t hu)]
      simp

theorem notMem_of_mem_pieces {piece : Text} (h : piece ∈ pieces separator t) :
    separator ∉ piece := by
  induction t generalizing piece with
  | nil => simp_all [pieces]
  | cons c rest ih =>
    rw [pieces] at h
    split at h
    next =>
      rcases List.mem_cons.mp h with rfl | h
      · simp
      · exact ih h
    next hc =>
      split at h
      next => simp_all [Ne.symm hc]
      next first more hpieces =>
        rcases List.mem_cons.mp h with rfl | h
        · have hfirst : separator ∉ first := ih (by simp [hpieces])
          simp [Ne.symm hc, hfirst]
        · exact ih (by simp [hpieces, h])

end Disentangle.Text

namespace Disentangle.Path

/-- A plain name: one step down, which stays one step wherever it is read. -/
structure IsName (name : Text) : Prop where
  ne_nil : name ≠ []
  ne_dot : name ≠ ['.']
  ne_dots : name ≠ ['.', '.']
  no_slash : '/' ∉ name

instance (name : Text) : Decidable (IsName name) :=
  decidable_of_iff (name ≠ [] ∧ name ≠ ['.'] ∧ name ≠ ['.', '.'] ∧ '/' ∉ name)
    ⟨fun ⟨hnil, hdot, hdots, hslash⟩ => ⟨hnil, hdot, hdots, hslash⟩,
      fun h => ⟨h.ne_nil, h.ne_dot, h.ne_dots, h.no_slash⟩⟩

variable {names above : List Text} {component : Text}

theorem walk_of_isName (h : IsName component) : walk above component = component :: above := by
  simp [walk, h.ne_nil, h.ne_dot, h.ne_dots]

/-- One step of the walk keeps the names plain. -/
theorem walk_isName (habove : ∀ name ∈ above, IsName name) (hslash : '/' ∉ component) :
    ∀ name ∈ walk above component, IsName name := by
  intro name hname
  rw [walk] at hname
  split at hname
  next => exact habove name hname
  next hblank =>
    split at hname
    next => exact habove name (List.mem_of_mem_tail hname)
    next hdots =>
      rcases List.mem_cons.mp hname with rfl | hname
      · exact ⟨fun h => hblank (Or.inl h), fun h => hblank (Or.inr h), hdots, hslash⟩
      · exact habove name hname

theorem foldl_walk_isName {components : List Text} (habove : ∀ name ∈ above, IsName name)
    (hslash : ∀ component ∈ components, '/' ∉ component) :
    ∀ name ∈ components.foldl walk above, IsName name := by
  induction components generalizing above with
  | nil => exact habove
  | cons component rest ih =>
    exact ih (walk_isName habove (hslash component (by simp)))
      fun c hc => hslash c (List.mem_cons_of_mem component hc)

/-- The names on the way along a path are plain. -/
theorem isName_of_mem_names {path name : Text} (h : name ∈ Path.names path) : IsName name := by
  refine foldl_walk_isName (by simp) ?_ name (List.mem_reverse.mp h)
  exact fun component hcomponent => Text.notMem_of_mem_pieces hcomponent

theorem foldl_walk_names (h : ∀ name ∈ names, IsName name) :
    names.foldl walk above = names.reverse ++ above := by
  induction names generalizing above with
  | nil => rfl
  | cons name rest ih =>
    rw [List.foldl_cons, walk_of_isName (h name (by simp)),
      ih fun n hn => h n (List.mem_cons_of_mem name hn)]
    simp

/-- Plain names are read back from their join. -/
theorem foldl_walk_pieces_join (h : ∀ name ∈ names, IsName name) :
    (Text.pieces '/' (Text.join ['/'] names)).foldl walk [] = names.reverse := by
  cases names with
  | nil => rfl
  | cons name rest =>
    rw [Text.pieces_join (by simp) fun n hn => (h n hn).no_slash, foldl_walk_names h,
      List.append_nil]

/-- A slash at the front of a path is no step. -/
theorem names_slash (path : Text) : Path.names ('/' :: path) = Path.names path := by
  simp [Path.names, Text.pieces, walk]

theorem names_join (h : ∀ name ∈ names, IsName name) :
    Path.names (Text.join ['/'] names) = names := by
  rw [Path.names, foldl_walk_pieces_join h, List.reverse_reverse]

/-- Joined plain names do not begin with a slash. -/
theorem head?_join (h : ∀ name ∈ names, IsName name) :
    (Text.join ['/'] names).head? ≠ some '/' := by
  cases names with
  | nil => simp [Text.join]
  | cons name rest =>
    have hname := h name (by simp)
    obtain ⟨c, more, rfl⟩ := List.exists_cons_of_ne_nil hname.ne_nil
    have hc : c ≠ '/' := fun heq => hname.no_slash (by simp [heq])
    cases rest <;> simpa [Text.join] using hc

theorem rootMark_cases (path : Text) : rootMark path = ['/'] ∨ rootMark path = ['/', '/'] := by
  unfold rootMark
  split <;> simp

/-- A root mark is read back when plain names stand behind it. -/
theorem rootMark_append {rest mark : Text} (hmark : mark = ['/'] ∨ mark = ['/', '/'])
    (hrest : rest.head? ≠ some '/') : rootMark (mark ++ rest) = mark := by
  rcases hmark with rfl | rfl <;> cases rest with
  | nil => rfl
  | cons c more =>
    have hc : c ≠ '/' := by simpa using hrest
    simp only [List.cons_append, List.nil_append]
    unfold rootMark
    split <;> simp_all

/-- An absolute path is read the same from every directory. -/
theorem append_of_isAbsolute (cwd : Text) {path : Text} (h : isAbsolute path = true) :
    append cwd path = path :=
  if_pos h

theorem isAbsolute_append {path : Text} (h : isAbsolute path = true) (tail : Text) :
    isAbsolute (path ++ tail) = true := by
  cases path with
  | nil => cases h
  | cons c rest => exact h

theorem isAbsolute_mark {mark : Text} (hmark : mark = ['/'] ∨ mark = ['/', '/']) :
    isAbsolute mark = true := by
  rcases hmark with rfl | rfl <;> rfl

theorem isAbsolute_standardize (cwd path : Text) : isAbsolute (standardize cwd path) = true := by
  exact isAbsolute_append (isAbsolute_mark (rootMark_cases _)) _

/-- A standardized path is never empty. -/
theorem standardize_ne_nil (cwd path : Text) : standardize cwd path ≠ [] := by
  intro hnil
  have habsolute := isAbsolute_standardize cwd path
  rw [hnil] at habsolute
  exact absurd habsolute (by decide)

/-- Standardizing a standardized path changes nothing, from whatever directory it is read. -/
theorem standardize_standardize (cwd cwd' path : Text) :
    standardize cwd' (standardize cwd path) = standardize cwd path := by
  have hplain : ∀ name ∈ Path.names (append cwd path), IsName name :=
    fun name hname => isName_of_mem_names hname
  have hmark := rootMark_cases (append cwd path)
  have habsolute : append cwd' (standardize cwd path) = standardize cwd path :=
    append_of_isAbsolute cwd' (isAbsolute_standardize cwd path)
  have hnames : Path.names (standardize cwd path) = Path.names (append cwd path) := by
    rcases hmark with h | h <;> simp [standardize, h, names_slash, names_join hplain]
  have hroot : rootMark (standardize cwd path) = rootMark (append cwd path) :=
    rootMark_append hmark (head?_join hplain)
  calc standardize cwd' (standardize cwd path)
      = rootMark (standardize cwd path) ++
          Text.join ['/'] (Path.names (standardize cwd path)) := by
        rw [standardize, habsolute]
    _ = standardize cwd path := by rw [hnames, hroot, standardize]

end Disentangle.Path
