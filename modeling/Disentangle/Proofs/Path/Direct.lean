import Disentangle.Index.RuntimeModule
import Disentangle.Project.Work
import Disentangle.Proofs.Files.Writing
import Disentangle.Proofs.Path.Canonical
import Mathlib.Data.List.TakeWhile

/-!
Paths that lead straight down from the root. For such a path the components are the steps, from
whatever directory it is read. Canonical paths are of this kind, and so is the path of a file that
is named after another one by a change of its extension.
-/

namespace Disentangle.Text

variable {separator : Char} {t front tail : Text}

theorem pieces_ne_nil (separator : Char) (t : Text) : pieces separator t ≠ [] := by
  cases t with
  | nil => simp [pieces]
  | cons c rest =>
    rw [pieces]
    split
    · simp
    · split <;> simp

theorem pieces_cons_of_ne {c : Char} (hc : c ≠ separator) {first : Text} {more : List Text}
    (hpieces : pieces separator t = first :: more) :
    pieces separator (c :: t) = (c :: first) :: more := by
  rw [pieces, if_neg hc, hpieces]

theorem pieces_append_cons {separator : Char} (t u : Text) :
    pieces separator (t ++ separator :: u) = pieces separator t ++ pieces separator u := by
  induction t with
  | nil => simp [pieces]
  | cons c t ih =>
    by_cases hc : c = separator
    · simp [pieces, hc, ih]
    · obtain ⟨first, more, hmore⟩ := List.exists_cons_of_ne_nil (pieces_ne_nil separator t)
      rw [hmore] at ih
      rw [List.cons_append, pieces_cons_of_ne hc ih, pieces_cons_of_ne hc hmore]
      rfl

/-- What is cut off a text and exchanged for an end without separators changes the last piece
only. -/
theorem pieces_append_of_prefix (hfront : front <+: t) (htail : separator ∉ tail) :
    ∃ earlier last, pieces separator (front ++ tail) = earlier ++ [last] ∧
      earlier <+: pieces separator t ∧ tail <:+ last := by
  induction front generalizing t with
  | nil => exact ⟨[], tail, by simp [pieces_of_notMem htail], by simp, List.suffix_rfl⟩
  | cons c front ih =>
    obtain ⟨rest, rfl⟩ := hfront
    obtain ⟨earlier, last, hpieces, hearlier, hlast⟩ := ih (List.prefix_append front rest)
    by_cases hc : c = separator
    · refine ⟨[] :: earlier, last, ?_, ?_, hlast⟩
      · simp [pieces, hc, hpieces]
      · have hwhole : pieces separator (c :: front ++ rest) =
            [] :: pieces separator (front ++ rest) := by simp [pieces, hc]
        rw [hwhole]
        exact (List.cons_prefix_cons).mpr ⟨rfl, hearlier⟩
    · obtain ⟨first, more, hmore⟩ :=
        List.exists_cons_of_ne_nil (pieces_ne_nil separator (front ++ rest))
      have hwhole : pieces separator (c :: front ++ rest) = (c :: first) :: more :=
        pieces_cons_of_ne hc hmore
      rw [hwhole]
      rw [hmore] at hearlier
      cases earlier with
      | nil =>
        refine ⟨[], c :: last, pieces_cons_of_ne hc hpieces, List.nil_prefix, ?_⟩
        exact hlast.trans (List.suffix_cons c last)
      | cons piece earlier =>
        obtain ⟨rfl, hrest⟩ := List.cons_prefix_cons.mp hearlier
        refine ⟨(c :: piece) :: earlier, last, pieces_cons_of_ne hc hpieces, ?_, hlast⟩
        exact List.cons_prefix_cons.mpr ⟨rfl, hrest⟩

end Disentangle.Text

namespace Disentangle.Path

variable {path cwd : Text}

/-- A path that leads straight down from the root. -/
structure IsDirect (path : Text) : Prop where
  absolute : isAbsolute path = true
  leadsDown : FileTree.LeadsDown (components path)

theorem steps_of_isAbsolute (h : isAbsolute path = true) (scene : Scene) :
    scene.steps path = components path := by
  rw [Scene.steps, append_of_isAbsolute scene.cwd h]

theorem steps_of_isDirect (h : IsDirect path) (scene : Scene) :
    scene.steps path = components path :=
  steps_of_isAbsolute h.absolute scene

theorem components_slash (path : Text) : components ('/' :: path) = components path := by
  simp [components, Text.pieces]

theorem components_join {names : List Text} (h : ∀ name ∈ names, IsName name) :
    components (Text.join ['/'] names) = names := by
  cases names with
  | nil => rfl
  | cons name rest =>
    rw [components, Text.pieces_join (by simp) fun n hn => (h n hn).no_slash, List.filter_eq_self]
    intro n hn
    simp [(h n hn).ne_nil, (h n hn).ne_dot]

/-- The components of a canonical path are the names along it. -/
theorem components_standardize (cwd path : Text) :
    components (standardize cwd path) = names (append cwd path) := by
  have hplain : ∀ name ∈ names (append cwd path), IsName name :=
    fun name hname => isName_of_mem_names hname
  rcases rootMark_cases (append cwd path) with hmark | hmark <;>
    simp [standardize, hmark, components_slash, components_join hplain]

theorem isDirect_standardize (cwd path : Text) : IsDirect (standardize cwd path) where
  absolute := isAbsolute_standardize cwd path
  leadsDown := by
    rw [components_standardize]
    exact fun name hname => (isName_of_mem_names hname).ne_dots

theorem lastName_suffix (path : Text) : lastName path <:+ path := by
  rw [← List.reverse_prefix, lastName, List.reverse_reverse]
  exact List.takeWhile_prefix _

theorem prefix_of_dropExtension (name : Text) : dropExtension name <+: name := by
  rw [dropExtension]
  split
  · exact List.prefix_rfl
  · rw [← List.reverse_suffix, List.reverse_reverse]
    exact (List.drop_suffix 1 _).trans (List.dropWhile_suffix _)

theorem slash_notMem_lastName (path : Text) : '/' ∉ lastName path := by
  intro hslash
  rw [lastName, List.mem_reverse] at hslash
  simpa using List.mem_takeWhile_imp hslash

/-- Without its extension a path is `.d.ts` shorter, or only its last name gets shorter. -/
theorem stripExtension_cases (path : Text) :
    (∃ front, path = front ++ ".d.ts".toList ∧ stripExtension path = front) ∨
      ∃ front, path = front ++ lastName path ∧
        stripExtension path = front ++ dropExtension (lastName path) := by
  rw [stripExtension]
  split
  next hdeclaration =>
    have hsuffix : ".d.ts".toList <:+ path := by
      simpa [Text.endsWith] using hdeclaration
    obtain ⟨front, rfl⟩ := hsuffix
    refine Or.inl ⟨front, rfl, ?_⟩
    have hcount : (front ++ ".d.ts".toList).length - 5 = front.length := by
      rw [List.length_append]
      exact Nat.add_sub_cancel _ _
    rw [hcount, List.take_left]
  next =>
    obtain ⟨front, hfront⟩ := lastName_suffix path
    have htake : path.take (path.length - (lastName path).length) = front := by
      have hlength := congrArg List.length hfront
      rw [List.length_append] at hlength
      have hcount : path.length - (lastName path).length = front.length := by omega
      rw [hcount]
      conv_lhs => rw [← hfront]
      exact List.take_left
    exact Or.inr ⟨front, hfront.symm, by simp only [htake]⟩

theorem prefix_of_stripExtension (path : Text) : stripExtension path <+: path := by
  rcases stripExtension_cases path with ⟨front, hpath, hstrip⟩ | ⟨front, hpath, hstrip⟩
  · rw [hstrip, hpath]
    exact List.prefix_append front _
  · rw [hstrip]
    conv_rhs => rw [hpath]
    exact (List.prefix_append_right_inj front).mpr (prefix_of_dropExtension _)

/-- An absolute path keeps its first slash. -/
theorem stripExtension_ne_nil (h : isAbsolute path = true) : stripExtension path ≠ [] := by
  obtain ⟨rest, rfl⟩ : ∃ rest, path = '/' :: rest := by
    cases path with
    | nil => simp [isAbsolute] at h
    | cons c rest => exact ⟨rest, by simpa [isAbsolute] using h⟩
  rcases stripExtension_cases ('/' :: rest) with ⟨front, hpath, hstrip⟩ | ⟨front, hpath, hstrip⟩
  · rw [hstrip]
    rintro rfl
    have hhead := congrArg List.head? hpath
    rw [List.head?_cons] at hhead
    exact absurd hhead (by decide)
  · rw [hstrip]
    intro hnil
    rw [(List.append_eq_nil_iff.mp hnil).1, List.nil_append] at hpath
    exact slash_notMem_lastName ('/' :: rest) (hpath ▸ List.mem_cons_self)

/-- A file that is named after another one by a change of extension is found straight below the
root as well. -/
theorem IsDirect.stripExtension (h : IsDirect path) :
    IsDirect (Path.stripExtension path ++ ".js".toList) where
  absolute := by
    obtain ⟨c, rest, hstrip⟩ := List.exists_cons_of_ne_nil (stripExtension_ne_nil h.absolute)
    obtain ⟨later, hpath⟩ := prefix_of_stripExtension path
    have habsolute := h.absolute
    rw [← hpath, hstrip, isAbsolute] at habsolute
    rw [hstrip, isAbsolute]
    simpa using habsolute
  leadsDown := by
    intro name hname
    obtain ⟨earlier, last, hpieces, hearlier, hlast⟩ :=
      Text.pieces_append_of_prefix (prefix_of_stripExtension path)
        (show '/' ∉ ".js".toList by decide)
    obtain ⟨hpiece, hkept⟩ := List.mem_filter.mp hname
    rw [hpieces] at hpiece
    rcases List.mem_append.mp hpiece with hpiece | hpiece
    · exact h.leadsDown name (List.mem_filter.mpr ⟨hearlier.subset hpiece, hkept⟩)
    · rw [List.mem_singleton.mp hpiece]
      rintro rfl
      have hlength := hlast.length_le
      simp at hlength

end Disentangle.Path

namespace Disentangle.Index.RuntimeOptions

theorem isDirect_output (cwd : Text) (options : RuntimeOptions) (indexPath : Text) :
    Path.IsDirect (options.output cwd indexPath) := by
  rw [output]
  split
  · exact Path.isDirect_standardize cwd _
  · exact (Path.isDirect_standardize cwd indexPath).stripExtension

end Disentangle.Index.RuntimeOptions
