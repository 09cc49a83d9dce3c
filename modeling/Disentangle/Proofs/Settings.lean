import Disentangle.Proofs.Lists
import Disentangle.Proofs.Project.Success
import Disentangle.Settings

/-!
What the settings of a project come to. The files that may hold them are looked at one after
another; what is missing, is a directory or is no TOML document is passed over, and the first table
of settings counts. Two things stop the program all the same: a file that is looked at and cannot be
taken in, since it is no text, an integer in it has too many digits or its values stand too deep in
each other, and a value for a path that is neither a text nor blank.
-/

namespace Disentangle

theorem Setting.mem_all (setting : Setting) : setting ∈ all := by
  cases setting <;> decide

namespace Settings

/-- What stands where settings are looked for. -/
inductive Finding where
  | missing
  | directory
  /-- A text that is no TOML document. -/
  | malformed
  /-- A file that cannot be taken in. -/
  | fatal (fault : Fault)
  | document (document : Toml.Value)

/-- The path of a place in the directory `root`. -/
def Place.path (root : Text) (place : Place) : Text :=
  Path.tidy (Path.append root place.file)

def Place.finding (scene : Scene) (root : Text) (place : Place) : Finding :=
  match scene.tree.find (scene.steps (place.path root)) with
  | .error _ => .missing
  | .ok .directory => .directory
  | .ok (.file content) =>
    match Utf8.decode content with
    | .error _ => .fatal .undecodableSettings
    | .ok text =>
      match Toml.readDocument scene.platform.toml text with
      | .error .malformed => .malformed
      | .error .tooManyDigits => .fatal .tooManyDigits
      | .error .tooDeep => .fatal .tooDeep
      | .ok document => .document document

/-- Looking for settings at some places, one after another: what is told, and the table of settings
that is found. -/
inductive Finds (scene : Scene) (root : Text) :
    List Place → List Event → Option Toml.Entries → Prop
  | nowhere : Finds scene root [] [] none
  | missing {place : Place} {rest : List Place} {told : List Event}
      {found : Option Toml.Entries} (h : place.finding scene root = .missing)
      (hrest : Finds scene root rest told found) : Finds scene root (place :: rest) told found
  | unreadable {place : Place} {rest : List Place} {told : List Event}
      {found : Option Toml.Entries}
      (h : place.finding scene root = .directory ∨ place.finding scene root = .malformed)
      (hrest : Finds scene root rest told found) :
      Finds scene root (place :: rest) (.settingsUnreadable (place.path root) :: told) found
  | silent {place : Place} {rest : List Place} {told : List Event}
      {found : Option Toml.Entries} {document : Toml.Value}
      (h : place.finding scene root = .document document)
      (hnone : tableAt? place.keys document = none)
      (hrest : Finds scene root rest told found) : Finds scene root (place :: rest) told found
  | table {place : Place} {rest : List Place} {entries : Toml.Entries} {document : Toml.Value}
      (h : place.finding scene root = .document document)
      (hsome : tableAt? place.keys document = some entries) :
      Finds scene root (place :: rest) [.settingsRead (place.path root)] (some entries)

variable {scene : Scene} {root : Text} {place : Place} {rest : List Place}
  {before after told : List Event} {found : Option Toml.Entries}

theorem outcome_readTable (scene : Scene) (root : Text) (place : Place) (before : List Event) :
    (readTable root place).outcome scene before =
      match place.finding scene root with
      | .missing => (.ok none, before)
      | .directory | .malformed => (.ok none, before ++ [.settingsUnreadable (place.path root)])
      | .fatal fault => (.error (.fault fault), before)
      | .document document =>
        match tableAt? place.keys document with
        | none => (.ok none, before)
        | some entries => (.ok (some entries), before ++ [.settingsRead (place.path root)]) := by
  have hscene : (read : Inquiry Scene).outcome scene before = (.ok scene, before) := rfl
  rw [readTable, Inquiry.outcome_bind, hscene, Place.finding, Place.path]
  dsimp only
  cases hfind : scene.tree.find (scene.steps (Path.tidy (Path.append root place.file))) with
  | error refusal =>
    have hhas : scene.tree.has (scene.steps (Path.tidy (Path.append root place.file))) = false := by
      rw [FileTree.has, hfind]
      rfl
    rw [hhas]
    rfl
  | ok node =>
    have hhas : scene.tree.has (scene.steps (Path.tidy (Path.append root place.file))) = true := by
      rw [FileTree.has, hfind]
      rfl
    rw [hhas, FileTree.read, hfind]
    cases node with
    | directory => rfl
    | file content =>
      cases hdecode : Utf8.decode content with
      | error e =>
        simp only [bind, Except.bind, pure, Except.pure, hdecode]
        rfl
      | ok text =>
        simp only [bind, Except.bind, pure, Except.pure, hdecode]
        cases hread : Toml.readDocument scene.platform.toml text with
        | error stop => cases stop <;> rfl
        | ok document =>
          cases htable : tableAt? place.keys document with
          | none =>
            simp only [htable]
            rfl
          | some entries =>
            simp only [htable]
            rfl

/-- A search that has found nothing goes on behind the places it has looked at; one that has found a
table ends. -/
theorem outcome_firstTable_append {places : List Place} (h : Finds scene root places told found)
    (rest : List Place) (before : List Event) :
    (firstTable root (places ++ rest)).outcome scene before =
      found.elim ((firstTable root rest).outcome scene (before ++ told))
        fun entries => (.ok (some entries), before ++ told) := by
  induction h generalizing before with
  | nowhere =>
    rw [List.nil_append, List.append_nil]
    rfl
  | missing h hrest ih =>
    rw [List.cons_append, firstTable, Inquiry.outcome_bind, outcome_readTable, h]
    exact ih before
  | @unreadable place _ _ _ h hrest ih =>
    have hstep := ih (before ++ [.settingsUnreadable (place.path root)])
    rw [List.append_assoc, List.singleton_append] at hstep
    rw [List.cons_append, firstTable, Inquiry.outcome_bind, outcome_readTable]
    rcases h with h | h <;> rwa [h]
  | silent h hnone hrest ih =>
    rw [List.cons_append, firstTable, Inquiry.outcome_bind, outcome_readTable, h]
    simp only [hnone]
    exact ih before
  | table h hsome =>
    rw [List.cons_append, firstTable, Inquiry.outcome_bind, outcome_readTable, h]
    simp only [hsome]
    rfl

/-- The search stops with a fault: some place holds a file that cannot be taken in, and no place
before it holds a table. -/
def StopsWith (scene : Scene) (root : Text) (places : List Place) (fault : Fault) : Prop :=
  ∃ front place back told, places = front ++ place :: back ∧ Finds scene root front told none ∧
    place.finding scene root = .fatal fault

theorem exists_finds_or_stopsWith (scene : Scene) (root : Text) (places : List Place) :
    (∃ told found, Finds scene root places told found) ∨
      ∃ fault, StopsWith scene root places fault := by
  induction places with
  | nil => exact Or.inl ⟨[], none, .nowhere⟩
  | cons place rest ih =>
    -- A place without a table leaves the word to the rest.
    have hpassed (heard : List Event)
        (hfinds : ∀ {places told found}, Finds scene root places told found →
          Finds scene root (place :: places) (heard ++ told) found) :
        (∃ told found, Finds scene root (place :: rest) told found) ∨
          ∃ fault, StopsWith scene root (place :: rest) fault := by
      rcases ih with ⟨told, found, hfound⟩ | ⟨fault, front, stop, back, told, rfl, hfront, hstop⟩
      · exact Or.inl ⟨_, found, hfinds hfound⟩
      · exact Or.inr ⟨fault, place :: front, stop, back, _, rfl, hfinds hfront, hstop⟩
    cases hfinding : place.finding scene root with
    | missing => exact hpassed [] fun hrest => .missing hfinding hrest
    | directory => exact hpassed [_] fun hrest => .unreadable (.inl hfinding) hrest
    | malformed => exact hpassed [_] fun hrest => .unreadable (.inr hfinding) hrest
    | fatal fault => exact Or.inr ⟨fault, [], place, rest, [], rfl, .nowhere, hfinding⟩
    | document document =>
      cases htable : tableAt? place.keys document with
      | none => exact hpassed [] fun hrest => .silent hfinding htable hrest
      | some entries => exact Or.inl ⟨_, _, .table hfinding htable⟩

theorem outcome_firstTable_of_stopsWith {places : List Place} {fault : Fault}
    (h : StopsWith scene root places fault) (before : List Event) :
    ∃ after, (firstTable root places).outcome scene before = (.error (.fault fault), after) := by
  obtain ⟨front, place, back, told, rfl, hfront, hstop⟩ := h
  rw [outcome_firstTable_append hfront, firstTable, Inquiry.outcome_bind, outcome_readTable, hstop]
  exact ⟨_, rfl⟩

/-- The search succeeds with what can be found. -/
theorem succeeds_firstTable_iff {places : List Place} :
    (firstTable root places).Succeeds scene before found after ↔
      ∃ told, Finds scene root places told found ∧ before ++ told = after := by
  have hfinds {told : List Event} {found : Option Toml.Entries}
      (h : Finds scene root places told found) :
      (firstTable root places).outcome scene before = (.ok found, before ++ told) := by
    have hrun := outcome_firstTable_append h [] before
    rw [List.append_nil] at hrun
    rw [hrun]
    cases found <;> rfl
  rw [Inquiry.Succeeds]
  constructor
  · intro hrun
    rcases exists_finds_or_stopsWith scene root places with ⟨told, found', h⟩ | ⟨fault, h⟩
    · cases (hfinds h).symm.trans hrun
      exact ⟨told, h, rfl⟩
    · obtain ⟨after', hstop⟩ := outcome_firstTable_of_stopsWith h before
      cases hstop.symm.trans hrun
  · rintro ⟨told, h, rfl⟩
    exact hfinds h

theorem found_unique {places : List Place} {told' : List Event} {found' : Option Toml.Entries}
    (h : Finds scene root places told found) (h' : Finds scene root places told' found') :
    found = found' := by
  have hrun : (firstTable root places).Succeeds scene [] found ([] ++ told) :=
    succeeds_firstTable_iff.mpr ⟨told, h, rfl⟩
  have hrun' : (firstTable root places).Succeeds scene [] found' ([] ++ told') :=
    succeeds_firstTable_iff.mpr ⟨told', h', rfl⟩
  cases hrun.symm.trans hrun'
  rfl

/-- Something is found exactly if no file stops the search. -/
theorem exists_finds_iff {places : List Place} :
    (∃ told found, Finds scene root places told found) ↔
      ∀ fault, ¬ StopsWith scene root places fault := by
  constructor
  · rintro ⟨told, found, h⟩ fault hstop
    obtain ⟨after, hstop⟩ := outcome_firstTable_of_stopsWith hstop []
    have hrun : (firstTable root places).Succeeds scene [] found ([] ++ told) :=
      succeeds_firstTable_iff.mpr ⟨told, h, rfl⟩
    cases hstop.symm.trans hrun
  · intro h
    refine (exists_finds_or_stopsWith scene root places).resolve_right ?_
    rintro ⟨fault, hstop⟩
    exact h fault hstop

/-! ### What a table says -/

/-- The value that the entries of a table give for a setting: that of the last key for it. -/
def given? (entries : Toml.Entries) (setting : Setting) : Option Toml.Value :=
  ((entries.filter fun (key, _) => Setting.ofKey? key = some setting).getLast?).map Prod.snd

/-- A value that a setting can have: a path is a text, or blank if there is none. -/
def Fits (setting : Setting) (value : Toml.Value) : Prop :=
  setting.isPath = true → (∃ t, value = .text t) ∨ value.isBlank = true

/-- A single text where a list is expected is a list of one text, and a path is read from the
directory `root`. -/
def adapted (root : Text) (setting : Setting) (value : Toml.Value) : Toml.Value :=
  match value with
  | .text t =>
    if setting.isList then .array [value]
    else if setting.isPath && !t.isEmpty then .text (Path.tidy (Path.append root t))
    else value
  | _ => value

theorem adapt_eq_ok_iff {setting : Setting} {value value' : Toml.Value} :
    adapt root setting value = .ok value' ↔
      Fits setting value ∧ adapted root setting value = value' := by
  by_cases htext : ∃ t, value = .text t
  · have hfits : Fits setting value := fun _ => Or.inl htext
    obtain ⟨t, rfl⟩ := htext
    rw [and_iff_right hfits, adapt, adapted]
    split_ifs <;> rw [Except.ok.injEq]
  · have hnot : ∀ t, value = .text t → False := fun t h => htext ⟨t, h⟩
    rw [adapt.eq_2 root setting value hnot, adapted.eq_2 root setting value hnot, Fits,
      or_iff_right htext]
    cases hpath : setting.isPath <;> cases hblank : value.isBlank <;> simp

theorem lookup_filterMap_pair {value? : Setting → Option Toml.Value} {settings : List Setting}
    {setting : Setting} :
    (settings.filterMap fun s => (value? s).map (s, ·)).lookup setting =
      if setting ∈ settings then value? setting else none := by
  induction settings with
  | nil => rfl
  | cons first rest ih =>
    by_cases hfirst : setting = first
    · subst hfirst
      cases hvalue : value? setting with
      | none => simp [hvalue, ih]
      | some value => simp [hvalue]
    · cases hvalue : value? first with
      | none => simp [hvalue, ih, hfirst]
      | some value => simp [hvalue, ih, hfirst, List.lookup_cons, beq_false_of_ne hfirst]

theorem map_adapt_eq_ok_iff {entry entry' : Setting × Toml.Value} :
    (adapt root entry.1 entry.2).map (entry.1, ·) = .ok entry' ↔
      Fits entry.1 entry.2 ∧ (entry.1, adapted root entry.1 entry.2) = entry' := by
  cases hadapt : adapt root entry.1 entry.2 with
  | error fault =>
    have hnot : ¬ Fits entry.1 entry.2 := by
      intro hfits
      rw [adapt_eq_ok_iff.mpr ⟨hfits, rfl⟩] at hadapt
      cases hadapt
    simp [Except.map, hnot]
  | ok value =>
    obtain ⟨hfits, rfl⟩ := adapt_eq_ok_iff.mp hadapt
    simp [Except.map, hfits]

/-- The values that a table gives, each with its setting. -/
def allGiven (entries : Toml.Entries) : List (Setting × Toml.Value) :=
  Setting.all.filterMap fun setting => (given? entries setting).map (setting, ·)

theorem forall_mem_allGiven {entries : Toml.Entries} {P : Setting → Toml.Value → Prop} :
    (∀ entry ∈ allGiven entries, P entry.1 entry.2) ↔
      ∀ setting value, given? entries setting = some value → P setting value := by
  constructor
  · intro h setting value hgiven
    have hmem : (setting, value) ∈ allGiven entries :=
      List.mem_filterMap.mpr ⟨setting, setting.mem_all, by rw [hgiven]; rfl⟩
    exact h _ hmem
  · intro h entry hentry
    obtain ⟨setting, -, hmap⟩ := List.mem_filterMap.mp hentry
    obtain ⟨value, hgiven, rfl⟩ := Option.map_eq_some_iff.mp hmap
    exact h setting value hgiven

/-- The entries of a table are accepted exactly if all that they give fits. -/
theorem ofEntries_eq_ok_iff {entries : Toml.Entries} {settings : Settings} :
    ofEntries root entries = .ok settings ↔
      (∀ setting value, given? entries setting = some value → Fits setting value) ∧
        (allGiven entries).map (fun entry => (entry.1, adapted root entry.1 entry.2)) =
          settings.given := by
  have hentries : ofEntries root entries = ((allGiven entries).mapM fun entry =>
      (adapt root entry.1 entry.2).map (entry.1, ·)).map (⟨·⟩) := by
    have hlast (setting : Setting) : ((entries.reverse.find? fun (key, _) =>
        Setting.ofKey? key = some setting).map Prod.snd) = given? entries setting := by
      rw [given?, List.getLast?_filter]
    rw [ofEntries]
    simp only [hlast]
    rfl
  have hgiven (result : Except Fault (List (Setting × Toml.Value))) :
      result.map (fun given => (⟨given⟩ : Settings)) = .ok settings ↔
        result = .ok settings.given := by
    cases result <;> cases settings <;> simp [Except.map]
  rw [hentries, hgiven, mapM_eq_ok_iff, ← forall_mem_allGiven]
  simp only [map_adapt_eq_ok_iff, List.forall₂_and_left, ← List.forall₂_map_left_iff
    (f := fun entry : Setting × Toml.Value => (entry.1, adapted root entry.1 entry.2)),
    List.forall₂_eq_eq_eq]

theorem value?_of_ofEntries {entries : Toml.Entries} {settings : Settings}
    (h : ofEntries root entries = .ok settings) (setting : Setting) :
    settings.value? setting =
      ((given? entries setting).map (adapted root setting)).or (default? setting) := by
  have hgiven : settings.given = Setting.all.filterMap fun s =>
      ((given? entries s).map (adapted root s)).map (s, ·) := by
    rw [← (ofEntries_eq_ok_iff.mp h).2, allGiven, List.map_filterMap]
    simp only [Option.map_map, Function.comp_def]
  rw [value?, hgiven, lookup_filterMap_pair, if_pos setting.mem_all]

/-- What loading comes to where a table or nothing is found. -/
theorem succeeds_load_iff {settings : Settings} :
    (load root).Succeeds scene before settings after ↔
      ∃ told found, Finds scene root places told found ∧
        found.elim (pure empty) (ofEntries root) = .ok settings ∧
        before ++ told ++ (found.elim [] unknownKeys).map .unknownSetting = after := by
  rw [load, Inquiry.succeeds_bind]
  constructor
  · rintro ⟨found, middle, hfirst, hload⟩
    obtain ⟨told, hfinds, rfl⟩ := succeeds_firstTable_iff.mp hfirst
    refine ⟨told, found, hfinds, ?_⟩
    cases found with
    | none =>
      obtain ⟨rfl, rfl⟩ := Inquiry.succeeds_pure.mp hload
      exact ⟨rfl, List.append_nil _⟩
    | some entries =>
      simpa [and_comm] using hload
  · rintro ⟨told, found, hfinds, hentries, rfl⟩
    refine ⟨found, before ++ told, succeeds_firstTable_iff.mpr ⟨told, hfinds, rfl⟩, ?_⟩
    cases found with
    | none =>
      cases hentries
      exact Inquiry.succeeds_pure.mpr ⟨rfl, (List.append_nil _).symm⟩
    | some entries => simpa [and_comm] using hentries

/-- Loading succeeds exactly if every file that is looked at can be taken in, and the table that is
found gives every path a text or a blank value; a file that cannot be taken in stops it with its
fault. What is missing, a directory or malformed is passed over, the last two with a warning; the
settings are those of the first table, read from the directory of the project, and else the
defaults. -/
theorem load_succeeds_iff (scene : Scene) (root : Text) (before : List Event) :
    ((∃ settings after, (load root).Succeeds scene before settings after) ↔
      (∀ fault, ¬ StopsWith scene root places fault) ∧
        ∀ told entries, Finds scene root places told (some entries) →
          ∀ setting value, given? entries setting = some value → Fits setting value) ∧
      (∀ fault, StopsWith scene root places fault →
        ∃ after, (load root).outcome scene before = (.error (.fault fault), after)) ∧
      ∀ settings after, (load root).Succeeds scene before settings after →
        ∃ told found, Finds scene root places told found ∧
          after = before ++ told ++ (found.elim [] unknownKeys).map .unknownSetting ∧
          ∀ setting, settings.value? setting =
            ((found.bind (given? · setting)).map (adapted root setting)).or (default? setting) := by
  refine ⟨⟨?_, ?_⟩, ?_, ?_⟩
  · rintro ⟨settings, after, hload⟩
    obtain ⟨told, found, hfinds, hentries, -⟩ := succeeds_load_iff.mp hload
    refine ⟨exists_finds_iff.mp ⟨told, found, hfinds⟩, ?_⟩
    intro told' entries hfinds'
    obtain rfl := found_unique hfinds hfinds'
    exact (ofEntries_eq_ok_iff.mp hentries).1
  · rintro ⟨hstop, hfits⟩
    obtain ⟨told, found, hfinds⟩ := exists_finds_iff.mpr hstop
    cases found with
    | none => exact ⟨empty, _, succeeds_load_iff.mpr ⟨told, none, hfinds, rfl, rfl⟩⟩
    | some entries =>
      have hentries : ofEntries root entries = .ok ⟨_⟩ :=
        ofEntries_eq_ok_iff.mpr ⟨hfits told entries hfinds, rfl⟩
      exact ⟨_, _, succeeds_load_iff.mpr ⟨told, some entries, hfinds, hentries, rfl⟩⟩
  · intro fault hstop
    obtain ⟨after, hfirst⟩ := outcome_firstTable_of_stopsWith hstop before
    exact ⟨after, by rw [load, Inquiry.outcome_bind, hfirst]⟩
  · intro settings after hload
    obtain ⟨told, found, hfinds, hentries, rfl⟩ := succeeds_load_iff.mp hload
    refine ⟨told, found, hfinds, rfl, ?_⟩
    intro setting
    cases found with
    | none =>
      cases hentries
      rfl
    | some entries => exact value?_of_ofEntries hentries setting

/-- Settings that are no text stop the program. -/
theorem load_stops_at_bytes :
    (load "/w".toList).outcome { cwd := ['/'], tree := ⟨[(["w".toList], .directory),
      (["w".toList, ".tsunravel.toml".toList], .file [0xFF])]⟩ } [] =
      (.error (.fault .undecodableSettings), []) := by
  rfl

end Settings

end Disentangle
