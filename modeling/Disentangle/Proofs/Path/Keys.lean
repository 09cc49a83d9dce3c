import Disentangle.Proofs.Path.Relative

/-!
Canonical paths as keys. Files are looked up by their standardized paths, so that each place needs
one spelling: the canonical paths are exactly those that standardizing leaves as they are. What a
specifier leads to is such a path. It ends in an extension that importers may write, since the name
with this extension is the last step of the walk and nothing takes it back.
-/

namespace Disentangle.Path

variable {mark cwd path name tail source specifier file : Text}

/-- Two slashes at the front, and no third one. -/
def BeginsDouble (path : Text) : Prop :=
  ['/', '/'] <+: path ∧ ¬ ['/', '/', '/'] <+: path

instance (path : Text) : Decidable (BeginsDouble path) :=
  inferInstanceAs (Decidable (_ ∧ _))

theorem rootMark_eq_double_iff : rootMark path = ['/', '/'] ↔ BeginsDouble path := by
  unfold rootMark BeginsDouble
  split
  next rest => simp
  next rest hthird =>
    refine iff_of_true rfl ⟨List.prefix_append ['/', '/'] rest, ?_⟩
    rintro ⟨more, hmore⟩
    exact hthird more (by simpa using hmore.symm)
  next _ hdouble =>
    refine iff_of_false (by decide) ?_
    rintro ⟨⟨rest, rfl⟩, -⟩
    exact hdouble rest rfl

/-- Only a root ends in a slash. -/
theorem IsCanonical.eq_mark_of_getLast? (h : IsCanonical mark path)
    (hlast : path.getLast? = some '/') : path = mark := by
  obtain ⟨-, names, hnames, rfl⟩ := h
  rcases List.eq_nil_or_concat' names with rfl | ⟨front, name, rfl⟩
  · exact List.append_nil mark
  · exact absurd hlast (getLast?_ne_slash mark front (hnames name (by simp)))

theorem IsCanonical.standardize_eq (h : IsCanonical mark path) (cwd : Text) :
    standardize cwd path = path := by
  have habsolute := h.isAbsolute
  obtain ⟨hmark, names, hnames, rfl⟩ := h
  rw [standardize, append_of_isAbsolute cwd habsolute, rootMark_append hmark (head?_join hnames),
    names_canonical hmark hnames]

/-- The canonical paths are those that standardizing leaves as they are. -/
theorem standardize_eq_self_iff (cwd path : Text) :
    standardize cwd path = path ↔ ∃ mark, IsCanonical mark path := by
  constructor
  · intro h
    exact ⟨_, h ▸ isCanonical_standardize cwd path⟩
  · rintro ⟨mark, hcanonical⟩
    exact hcanonical.standardize_eq cwd

/-- A name that ends in a plain name is plain. -/
theorem IsName.of_suffix (h : IsName tail) (hname : tail <:+ name) (hslash : '/' ∉ name) :
    IsName name where
  ne_nil := by
    rintro rfl
    exact h.ne_nil (List.suffix_nil.mp hname)
  ne_dot := by
    rintro rfl
    rcases List.suffix_cons_iff.mp hname with rfl | hname
    · exact h.ne_dot rfl
    · exact h.ne_nil (List.suffix_nil.mp hname)
  ne_dots := by
    rintro rfl
    rcases List.suffix_cons_iff.mp hname with rfl | hname
    · exact h.ne_dots rfl
    · rcases List.suffix_cons_iff.mp hname with rfl | hname
      · exact h.ne_dot rfl
      · exact h.ne_nil (List.suffix_nil.mp hname)
  no_slash := hslash

/-- A plain name at the end of a path is the last one of the names along it. -/
theorem names_of_pieces_concat {earlier : List Text} (hname : IsName name)
    (hpieces : Text.pieces '/' path = earlier ++ [name]) : ∃ front, names path = front ++
    [name] := by
  refine ⟨(earlier.foldl walk []).reverse, ?_⟩
  rw [names, hpieces, List.foldl_append, List.foldl_cons, List.foldl_nil, walk_of_isName hname,
    List.reverse_cons]

theorem suffix_append_self (head tail : Text) : tail <:+ append head tail := by
  unfold append
  split
  · exact List.suffix_rfl
  · split
    · exact List.suffix_append head tail
    · exact (List.suffix_cons '/' tail).trans (List.suffix_append head _)

/-- What ends the last name of a path ends its key. -/
theorem suffix_standardize (cwd : Text) (h : IsName tail) (hpath : tail <:+ path) :
    tail <:+ standardize cwd path := by
  obtain ⟨head, hfull⟩ := hpath.trans (suffix_append_self cwd path)
  obtain ⟨earlier, name, hpieces, -, hname⟩ :=
    Text.pieces_append_of_prefix (List.prefix_refl head) h.no_slash
  rw [hfull] at hpieces
  have hmem : name ∈ Text.pieces '/' (append cwd path) := hpieces ▸ by simp
  have hslash : '/' ∉ name := Text.notMem_of_mem_pieces hmem
  obtain ⟨front, hnames⟩ := names_of_pieces_concat (h.of_suffix hname hslash) hpieces
  rw [standardize, hnames, Text.join_concat, ← List.append_assoc]
  exact hname.trans (List.suffix_append _ name)

/-- What a specifier leads to ends in the extension that it is written with or completed by. -/
theorem hasKnownExtension_of_resolveImport (h : resolveImport cwd source specifier = some file) :
    hasKnownExtension file = true := by
  obtain ⟨-, rfl⟩ := resolveImport_eq_some_iff.mp h
  obtain ⟨extension, hextension, hends⟩ :=
    hasKnownExtension_eq_true_iff.mp (hasKnownExtension_completed specifier)
  exact hasKnownExtension_eq_true_iff.mpr ⟨extension, hextension,
    suffix_standardize cwd (isName_of_mem_knownExtensions hextension)
      (hends.trans (suffix_append_self (parent source) _))⟩

/-- Standardized paths are canonical, with two slashes at the front where the path that is read has
exactly two, and with a slash at the end only if they are a root. Standardizing leaves canonical
paths, and no others, as they are, so to do it again changes nothing. What a specifier leads to is
such a path as well, and ends in a known extension. -/
theorem standardize_canonical (cwd path : Text) :
    (∃ mark, IsCanonical mark (standardize cwd path) ∧
      (mark = ['/', '/'] ↔ BeginsDouble (append cwd path)) ∧
      ((standardize cwd path).getLast? = some '/' → standardize cwd path = mark)) ∧
    (∀ cwd', standardize cwd' path = path ↔ ∃ mark, IsCanonical mark path) ∧
    (∀ cwd', standardize cwd' (standardize cwd path) = standardize cwd path) ∧
    ∀ source specifier file, resolveImport cwd source specifier = some file →
      (∃ mark, IsCanonical mark file) ∧ (∀ cwd', standardize cwd' file = file) ∧
        hasKnownExtension file = true := by
  have hcanonical := isCanonical_standardize cwd path
  refine ⟨⟨_, hcanonical, rootMark_eq_double_iff, hcanonical.eq_mark_of_getLast?⟩,
    fun cwd' => standardize_eq_self_iff cwd' path, hcanonical.standardize_eq, ?_⟩
  intro source specifier file hresolve
  have hextension := hasKnownExtension_of_resolveImport hresolve
  obtain ⟨-, rfl⟩ := resolveImport_eq_some_iff.mp hresolve
  have hfile := isCanonical_standardize cwd (append (parent source) (completed specifier))
  exact ⟨⟨_, hfile⟩, hfile.standardize_eq, hextension⟩

/-- A path that climbs to the root with two slashes, and a specifier whose last step is two dots
before its extension is added. -/
theorem standardize_canonical_dots :
    standardize "/w".toList "//a/../..".toList = "//".toList ∧
      resolveImport "/w".toList "src/main.ts".toList "./../.x/..".toList =
        some "/w/.x/...ts".toList ∧
      standardize ['/'] "/w/.x/...ts".toList = "/w/.x/...ts".toList ∧
      hasKnownExtension "/w/.x/...ts".toList = true := by
  obtain ⟨⟨mark, -, hdouble, hroot⟩, -, -, hfiles⟩ :=
    standardize_canonical "/w".toList "//a/../..".toList
  have hmark : mark = ['/', '/'] := hdouble.mpr (by decide)
  have hresolve : resolveImport "/w".toList "src/main.ts".toList "./../.x/..".toList =
      some "/w/.x/...ts".toList := by decide
  obtain ⟨-, hfixed, hextension⟩ := hfiles _ _ _ hresolve
  exact ⟨(hroot (by decide)).trans hmark, hresolve, hfixed ['/'], hextension⟩

end Disentangle.Path
