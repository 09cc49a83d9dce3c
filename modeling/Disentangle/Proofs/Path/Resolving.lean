import Disentangle.Proofs.Path.Relative

/-!
Resolving undoes relativizing. The specifier under which one file imports another one leads back to
that one, if the extension is written or is the one that is understood. A name with nothing but dots
before `.ts` has no extension to leave out, so it is written as well.
-/

namespace Disentangle.Path

variable {cwd base target path : Text}

/-- A canonical path of a file, from the root `/` and not this itself. -/
structure IsFilePath (cwd path : Text) : Prop where
  canonical : standardize cwd path = path
  mark : rootMark path = ['/']
  ne_root : path ≠ ['/']

instance (cwd path : Text) : Decidable (IsFilePath cwd path) :=
  decidable_of_iff (standardize cwd path = path ∧ rootMark path = ['/'] ∧ path ≠ ['/'])
    ⟨fun ⟨hcanonical, hmark, hne⟩ => ⟨hcanonical, hmark, hne⟩,
      fun h => ⟨h.canonical, h.mark, h.ne_root⟩⟩

theorem IsFilePath.isCanonical (h : IsFilePath cwd path) : IsCanonical ['/'] path := by
  have hcanonical := isCanonical_standardize cwd path
  rw [h.canonical] at hcanonical
  obtain ⟨hmark, names, hnames, hpath⟩ := hcanonical
  have hroot := rootMark_append hmark (head?_join hnames)
  rw [← hpath, h.mark] at hroot
  rw [← hroot] at hpath
  exact ⟨Or.inl rfl, names, hnames, hpath⟩

theorem IsFilePath.components_ne_nil (h : IsFilePath cwd path) : components path ≠ [] := by
  obtain ⟨hmark, names, hnames, hpath⟩ := h.isCanonical
  rw [hpath, components_canonical hmark hnames]
  rintro rfl
  exact h.ne_root hpath

/-- A path whose names lead to a directory above a file is the beginning of the file's path. -/
theorem IsFilePath.slash_prefix (hbase : IsFilePath cwd base) (htarget : IsFilePath cwd target)
    (h : components target <+: (components base).dropLast) : target ++ ['/'] <+: base := by
  have hfile := hbase.components_ne_nil
  have hdirectory := htarget.components_ne_nil
  obtain ⟨hmark, names, hnames, hbasePath⟩ := hbase.isCanonical
  obtain ⟨-, down, hdown, htargetPath⟩ := htarget.isCanonical
  rw [hbasePath, components_canonical hmark hnames] at hfile h
  rw [htargetPath, components_canonical hmark hdown] at hdirectory h
  obtain ⟨more, hmore⟩ := h
  obtain ⟨front, name, rfl⟩ := (List.eq_nil_or_concat' names).resolve_left hfile
  obtain ⟨earlier, last, rfl⟩ := (List.eq_nil_or_concat' down).resolve_left hdirectory
  rw [List.dropLast_concat] at hmore
  rw [hbasePath, htargetPath, ← hmore, Text.join_concat, Text.join_concat]
  exact ⟨more.flatMap (· ++ ['/']) ++ name, by simp⟩

/-- A path that ends in `.ts` loses this extension, or none if nothing but dots stands before it. -/
theorem stripExtension_append_ts (stem : Text)
    (hplain : Text.endsWith (stem ++ ".ts".toList) ".d.ts".toList = false) :
    stripExtension (stem ++ ".ts".toList) = stem ∨
      stripExtension (stem ++ ".ts".toList) = stem ++ ".ts".toList := by
  have hname : lastName (stem ++ ".ts".toList) = lastName stem ++ ".ts".toList := by
    simp [lastName]
  have hdrop : dropExtension (lastName stem ++ ".ts".toList) = lastName stem ∨
      dropExtension (lastName stem ++ ".ts".toList) = lastName stem ++ ".ts".toList := by
    unfold dropExtension
    dsimp only
    split
    · exact Or.inr rfl
    · exact Or.inl (by simp)
  rcases stripExtension_cases (stem ++ ".ts".toList) with
    ⟨front, hpath, -⟩ | ⟨front, hpath, hstrip⟩
  · have hends : Text.endsWith (stem ++ ".ts".toList) ".d.ts".toList = true :=
      List.isSuffixOf_iff_suffix.mpr ⟨front, hpath.symm⟩
    rw [hplain] at hends
    cases hends
  · rw [hname, ← List.append_assoc, List.append_cancel_right_eq] at hpath
    rw [hname] at hstrip
    rcases hdrop with hshort | hwhole
    · exact Or.inl (by rw [hstrip, hshort, ← hpath])
    · exact Or.inr (by rw [hstrip, hwhole, ← List.append_assoc, ← hpath])

/-- From what is said of a `.ts` file, its path follows if no other extension stands before that
one. -/
theorem completed_spelled_ts (hends : path.endsWith ".ts".toList = true)
    (hplain : path.endsWith ".d.ts".toList = false)
    (hstem : hasKnownExtension (path.take (path.length - 3)) = false) :
    completed (spelled false path) = path := by
  obtain ⟨stem, rfl⟩ := List.isSuffixOf_iff_suffix.mp hends
  have hlength : (stem ++ ".ts".toList).length - 3 = stem.length := by
    rw [List.length_append]
    exact Nat.add_sub_cancel _ _
  rw [hlength, List.take_left] at hstem
  rw [spelled, if_neg Bool.false_ne_true]
  rcases stripExtension_append_ts stem hplain with hshort | hwhole
  · rw [hshort, completed, hstem, if_neg Bool.false_ne_true]
  · rw [hwhole, completed, if_pos (hasKnownExtension_append_ts stem)]

/-- For canonical paths of files, of which `target` is no directory above `base`, the specifier
under which `base` imports `target` resolves to `target` in `base`: if the specifier keeps a known
extension, and if it leaves out an extension `.ts` before which no other known one stands. -/
theorem resolveImport_undoes_relativeImport? (hbase : IsFilePath cwd base)
    (htarget : IsFilePath cwd target) (habove : ¬ target ++ ['/'] <+: base) :
    (hasKnownExtension target = true →
      ∃ specifier, relativeImport? cwd base target true = some specifier ∧
        resolveImport cwd base specifier = some target) ∧
    (target.endsWith ".ts".toList = true → target.endsWith ".d.ts".toList = false →
      hasKnownExtension (target.take (target.length - 3)) = false →
      ∃ specifier, relativeImport? cwd base target false = some specifier ∧
        resolveImport cwd base specifier = some target) := by
  have hbelow : ¬ components target <+: (components base).dropLast :=
    fun h => habove (hbase.slash_prefix htarget h)
  have hleads (keepExtension : Bool)
      (hcompleted : completed (spelled keepExtension target) = target) :
      ∃ specifier, relativeImport? cwd base target keepExtension = some specifier ∧
        resolveImport cwd base specifier = some target := by
    obtain ⟨_, _, _, _, specifier, _, _, _, _, _, _, hspecifier, _⟩ :=
      exists_relativeImport? cwd hbase.isCanonical htarget.isCanonical hbase.components_ne_nil
        hbelow keepExtension
    exact ⟨specifier, hspecifier, (resolveImport_of_completed hbase.isCanonical
      htarget.isCanonical hbase.components_ne_nil hbelow hcompleted hspecifier).2⟩
  constructor
  · intro hknown
    exact hleads true (by rw [spelled, if_pos rfl, completed, if_pos hknown])
  · intro hends hplain hstem
    exact hleads false (completed_spelled_ts hends hplain hstem)

/-- A directory whose name begins with two dots, and a file whose name has nothing but dots before
its extension. -/
theorem resolveImport_undoes_relativeImport?_dots :
    let base := "/p/src/main.ts".toList
    let target := "/p/..x/...ts".toList
    IsFilePath ['/'] base ∧ IsFilePath ['/'] target ∧ ¬ target ++ ['/'] <+: base ∧
      (∃ specifier, relativeImport? ['/'] base target true = some specifier ∧
        resolveImport ['/'] base specifier = some target) ∧
      ∃ specifier, relativeImport? ['/'] base target false = some specifier ∧
        resolveImport ['/'] base specifier = some target := by
  intro base target
  have hbase : IsFilePath ['/'] base := by decide
  have htarget : IsFilePath ['/'] target := by decide
  have habove : ¬ target ++ ['/'] <+: base := by decide
  obtain ⟨hkept, hleftOut⟩ := resolveImport_undoes_relativeImport? hbase htarget habove
  exact ⟨hbase, htarget, habove, hkept (by decide),
    hleftOut (by decide) (by decide) (by decide)⟩

end Disentangle.Path
