import Disentangle.Proofs.Index.Bindings

/-!
The names under which the index for the running program refers to the modules that it requires.
They are names of the language, and no two modules have the same one: the number at the end of an
alias can be read off it, and equal identifiers get numbers that grow.
-/

namespace Disentangle

namespace Unicode

variable {c : Char}

theorem isWordChar_underscore : isWordChar '_' = true := by decide

theorem isDigit_underscore : isDigit '_' = false := by decide

/-- The digits of a decimal numeral belong into a word. -/
theorem isWordChar_of_isDigit (h : c.isDigit = true) : isWordChar c = true := by
  have hdigits : (0x30, 0x39) ∈ wordRanges := List.mem_append_left _ List.mem_cons_self
  have hbounds : 0x30 ≤ c.toNat ∧ c.toNat ≤ 0x39 := Char.isDigit_iff_toNat.mp h
  exact List.any_eq_true.mpr ⟨_, hdigits, by simpa using hbounds⟩

end Unicode

theorem Text.decimal_injective {i j : Nat} (h : decimal i = decimal j) : i = j := by
  have hvalue := congrArg (fun digits => Nat.ofDigitChars 10 digits 0) h
  simpa [decimal] using hvalue

namespace Index

variable {cwd indexPath name name' : Text} {records : List FileRecord} {i j : Nat}

/-- A text that can stand for a module in a program: word characters, of which the first one is no
digit. -/
structure IsModuleName (t : Text) : Prop where
  ne_nil : t ≠ []
  wordChars : ∀ c ∈ t, Unicode.isWordChar c = true
  no_digit_first : ∀ c ∈ t.head?, Unicode.isDigit c = false

theorem isModuleName_identifier (t : Text) : IsModuleName (identifier t) := by
  have hword : ∀ c ∈ t.map fun c => if Unicode.isWordChar c then c else '_',
      Unicode.isWordChar c = true := by
    intro c hc
    obtain ⟨d, -, rfl⟩ := List.mem_map.mp hc
    split
    next hd => exact hd
    next => exact Unicode.isWordChar_underscore
  have hunderscore : ∀ c ∈ some '_', Unicode.isDigit c = false := by
    rintro c ⟨⟩
    exact Unicode.isDigit_underscore
  rw [identifier]
  cases hmap : t.map fun c => if Unicode.isWordChar c then c else '_' with
  | nil =>
    exact ⟨List.cons_ne_nil _ _, List.forall_mem_singleton.mpr Unicode.isWordChar_underscore,
      hunderscore⟩
  | cons c rest =>
    rw [hmap] at hword
    cases hdigit : Unicode.isDigit c with
    | true =>
      simp only [hdigit, if_true]
      exact ⟨List.cons_ne_nil _ _,
        List.forall_mem_cons.mpr ⟨Unicode.isWordChar_underscore, hword⟩, hunderscore⟩
    | false =>
      simp only [hdigit, Bool.false_eq_true, if_false]
      refine ⟨List.cons_ne_nil _ _, hword, ?_⟩
      rintro d ⟨⟩
      exact hdigit

theorem IsModuleName.numbered (h : IsModuleName name) (count : Nat) :
    IsModuleName (numbered name count) where
  ne_nil := List.append_ne_nil_of_left_ne_nil h.ne_nil _
  wordChars := by
    have hdecimal : ∀ c ∈ Text.decimal count, Unicode.isWordChar c = true := fun c hc =>
      Unicode.isWordChar_of_isDigit (Nat.isDigit_of_mem_toDigits (by decide) (by decide) hc)
    exact List.forall_mem_append.mpr ⟨h.wordChars,
      List.forall_mem_cons.mpr ⟨Unicode.isWordChar_underscore, hdecimal⟩⟩
  no_digit_first := by
    rw [Index.numbered, List.head?_append_of_ne_nil _ h.ne_nil]
    exact h.no_digit_first

/-- The digits of a numbered identifier stand behind its last underscore. -/
theorem takeWhile_reverse_numbered (name : Text) (count : Nat) :
    (numbered name count).reverse.takeWhile (· ≠ '_') = (Text.decimal count).reverse := by
  have hdecimal : ∀ c ∈ (Text.decimal count).reverse, decide (c ≠ '_') = true := by
    intro c hc
    refine decide_eq_true ?_
    rintro rfl
    exact Nat.underscore_not_in_toDigits (List.mem_reverse.mp hc)
  rw [numbered, List.reverse_append, List.reverse_cons, List.append_assoc,
    List.takeWhile_append_of_pos hdecimal]
  simp

/-- Numbered identifiers are equal only if the identifiers and their numbers are. -/
theorem numbered_injective (h : numbered name i = numbered name' j) : name = name' ∧ i = j := by
  have hdigits := congrArg (fun t : Text => t.reverse.takeWhile (· ≠ '_')) h
  simp only [takeWhile_reverse_numbered] at hdigits
  obtain rfl := Text.decimal_injective (List.reverse_injective hdigits)
  exact ⟨List.append_cancel_right h, rfl⟩

/-- An alias is an identifier with a number above the count of those that came before. -/
theorem exists_numbered_of_mem_aliases {used paths : List Text} {moduleAlias : Text}
    (h : moduleAlias ∈ aliases used paths) :
    ∃ path ∈ paths, ∃ count, used.count (identifier (stem path)) < count ∧
      moduleAlias = numbered (identifier (stem path)) count := by
  induction paths generalizing used with
  | nil => cases h
  | cons first rest ih =>
    rw [aliases, List.mem_cons] at h
    rcases h with rfl | h
    · exact ⟨first, List.mem_cons_self, _, Nat.lt_succ_self _, rfl⟩
    · obtain ⟨path, hpath, count, hcount, rfl⟩ := ih h
      exact ⟨path, List.mem_cons_of_mem _ hpath, count,
        Nat.lt_of_le_of_lt List.count_le_count_cons hcount, rfl⟩

/-- The induction is on the paths, over the identifiers that came before. -/
theorem nodup_aliases (used paths : List Text) : (aliases used paths).Nodup := by
  induction paths generalizing used with
  | nil => exact List.nodup_nil
  | cons path rest ih =>
    rw [aliases, List.nodup_cons]
    refine ⟨fun hagain => ?_, ih _⟩
    obtain ⟨other, -, count, hcount, heq⟩ := exists_numbered_of_mem_aliases hagain
    obtain ⟨hname, rfl⟩ := numbered_injective heq
    rw [← hname, List.count_cons_self] at hcount
    exact Nat.lt_irrefl _ hcount

theorem isModuleName_of_mem_aliases {used paths : List Text} {moduleAlias : Text}
    (h : moduleAlias ∈ aliases used paths) : IsModuleName moduleAlias := by
  obtain ⟨path, -, count, -, rfl⟩ := exists_numbered_of_mem_aliases h
  exact (isModuleName_identifier _).numbered count

/-- The blocks of the index have the aliases of their files. -/
theorem map_moduleAlias_runtimeBlocks {blocks : List RuntimeBlock}
    (h : runtimeBlocks cwd indexPath records = .ok blocks) :
    blocks.map (·.moduleAlias) = aliases [] ((records.filter (0 < ·.solidCount)).map (·.path)) := by
  have hsecond : List.Forall₂ (· = ·)
      (((records.filter (0 < ·.solidCount)).zip
        (aliases [] ((records.filter (0 < ·.solidCount)).map (·.path)))).map Prod.snd)
      (blocks.map (·.moduleAlias)) := by
    rw [List.forall₂_map_left_iff, List.forall₂_map_right_iff]
    exact (forall₂_runtimeBlocks h).imp fun _ _ hblock => hblock.2.symm
  rw [List.forall₂_eq_eq_eq] at hsecond
  rw [← hsecond, List.map_snd_zip (by simp)]

/-- The index for the running program is there whenever the files with something at run time have
paths. It has a block for each of them, and the names by which the blocks call their modules differ
from one another, consist of word characters and do not begin with a digit, however the files are
called. -/
theorem renderRuntime_aliases (cwd indexPath : Text) (records : List FileRecord)
    (options : RuntimeOptions) :
    ((∃ text, renderRuntime cwd indexPath records options = .ok text) ↔
      ∀ record ∈ records, 0 < record.solidCount → record.path ≠ []) ∧
    ∀ text, renderRuntime cwd indexPath records options = .ok text →
      ∃ blocks front back,
        text = front ++ Text.join "\n\n".toList (blocks.map RuntimeBlock.render) ++ back ∧
        List.Forall₂ (RuntimeBlock.IsOf cwd (Path.standardize cwd indexPath))
          (records.filter (0 < ·.solidCount)) blocks ∧
        (blocks.map (·.moduleAlias)).Nodup ∧
        ∀ block ∈ blocks, IsModuleName block.moduleAlias := by
  refine ⟨⟨?_, exists_renderRuntime cwd indexPath options⟩, fun text htext => ?_⟩
  · rintro ⟨text, htext⟩ record hrecord hsolid hpath
    obtain ⟨blocks, hblocks, -⟩ := renderRuntime_eq_ok_iff.mp htext
    have hmem : record ∈ records.filter (0 < ·.solidCount) :=
      List.mem_filter.mpr ⟨hrecord, decide_eq_true hsolid⟩
    obtain ⟨block, -, hblock⟩ := exists_of_mem_left (runtimeBlocks_eq_ok hblocks) hmem
    have himport := hblock.specifier
    rw [hpath] at himport
    cases himport
  · obtain ⟨blocks, hblocks, hsplit⟩ := renderRuntime_eq_ok_iff.mp htext
    have haliases := map_moduleAlias_runtimeBlocks hblocks
    refine ⟨blocks, _, _, hsplit, runtimeBlocks_eq_ok hblocks, ?_, fun block hblock => ?_⟩
    · rw [haliases]
      exact nodup_aliases _ _
    · have hmem := List.mem_map_of_mem (f := (·.moduleAlias)) hblock
      rw [haliases] at hmem
      exact isModuleName_of_mem_aliases hmem

-- Stems that are equal, that end like an alias, that get an underscore, and one that is empty.
example :
    aliases [] (["/p/x.ts", "/q/x.ts", "/p/x_1.ts", "/p/2d.ts", "/p/_2d.ts", "/p/.ts"].map
      String.toList) =
      ["x_1", "x_2", "x_1_1", "_2d_1", "_2d_2", "__1"].map String.toList := by
  decide

end Index

end Disentangle
