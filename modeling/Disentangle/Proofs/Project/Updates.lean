import Disentangle.Proofs.Entry
import Disentangle.Proofs.Project.Collecting
import Disentangle.Proofs.Project.Writing

/-!
What the sources of a project hold after a run. The last write to a place stays, and the sources
lie at different places, so each holds its redirected text, unless an index or the entry file is
written to its place behind it. The entry file is written last and from its text of before: if it
is one of the sources, its redirected imports are lost whenever the requirement of the index
changes it.
-/

namespace Disentangle

namespace FileTree

variable {before after : FileTree} {place : Location} {text : Text}
  {writes later : List (Text × Except Fault Text)}

/-- The text at a place when texts have been written one after another: the last one that was
written there, if there is one. -/
def textAfter (place : Location) (text : Text) (writes : List (Text × Except Fault Text)) : Text :=
  writes.foldl
    (fun text write =>
      if Path.components write.1 = place then write.2.toOption.getD text else text) text

@[simp] theorem textAfter_append :
    textAfter place text (writes ++ later) = textAfter place (textAfter place text writes) later :=
  List.foldl_append

theorem textAfter_cons (write : Text × Except Fault Text) :
    textAfter place text (write :: writes) =
      textAfter place
        (if Path.components write.1 = place then write.2.toOption.getD text else text) writes :=
  rfl

theorem textAfter_of_forall_ne (h : ∀ write ∈ writes, Path.components write.1 ≠ place) :
    textAfter place text writes = text := by
  induction writes with
  | nil => rfl
  | cons write rest ih =>
    rw [textAfter_cons, if_neg (h write List.mem_cons_self),
      ih fun w hw => h w (List.mem_cons_of_mem write hw)]

/-- A file holds what was written to its place last. -/
theorem WrittenAll.holdsText {made : List (Text × Text)} (h : before.WrittenAll made after)
    (hold : before.HoldsText place text) :
    after.HoldsText place (textAfter place text (rendered made)) := by
  induction made generalizing before text with
  | nil =>
    have hsame : after = before := h
    exact hsame ▸ hold
  | cons write rest ih =>
    obtain ⟨path, new⟩ := write
    obtain ⟨middle, hfirst, hrest⟩ := h
    have hcons : textAfter place text (rendered ((path, new) :: rest)) =
        textAfter place (if Path.components path = place then new else text) (rendered rest) := rfl
    rw [hcons]
    apply ih hrest
    split
    next heq => exact heq ▸ hfirst.holdsText
    next hne => exact hold.written hfirst (Ne.symm hne)

end FileTree

open FileTree

namespace BreakPlan

variable {place : Location} {text : Text} {updates : List SourceUpdate} {update : SourceUpdate}

theorem textAfter_change (place : Location) (text : Text) (update : SourceUpdate) :
    textAfter place text (([update].filter SourceUpdate.isChange).map write) =
      if Path.components update.path = place ∧ update.isChange = true then update.after
      else text := by
  cases hchange : update.isChange <;> simp [hchange, textAfter, write, Except.toOption]

theorem textAfter_changes_cons :
    textAfter place text (((update :: updates).filter SourceUpdate.isChange).map write) =
      textAfter place
        (textAfter place text (([update].filter SourceUpdate.isChange).map write))
        ((updates.filter SourceUpdate.isChange).map write) := by
  rw [← textAfter_append, ← List.map_append, ← List.filter_append, List.singleton_append]

theorem textAfter_others (h : ∀ update ∈ updates, Path.components update.path ≠ place) :
    textAfter place text ((updates.filter SourceUpdate.isChange).map write) = text := by
  apply textAfter_of_forall_ne
  intro w hw
  obtain ⟨update, hupdate, rfl⟩ := List.mem_map.mp hw
  exact h update (List.mem_filter.mp hupdate).1

/-- What is written to the sources leaves each of them with its own text, if they lie at different
places. -/
theorem textAfter_sources
    (hplaces : (updates.map fun update => Path.components update.path).Nodup)
    (hupdate : update ∈ updates) :
    textAfter (Path.components update.path) update.before
      ((updates.filter SourceUpdate.isChange).map write) = update.after := by
  induction updates with
  | nil => cases hupdate
  | cons first rest ih =>
    obtain ⟨hfirst, hrest⟩ := List.nodup_cons.mp hplaces
    rw [textAfter_changes_cons, textAfter_change]
    rcases List.mem_cons.mp hupdate with rfl | hlater
    · have hothers : ∀ other ∈ rest, Path.components other.path ≠ Path.components update.path :=
        fun other hother heq => hfirst (List.mem_map.mpr ⟨other, hother, heq⟩)
      rw [textAfter_others hothers]
      split
      next => rfl
      next hsame =>
        have heq : update.after = update.before := by simpa [SourceUpdate.isChange] using hsame
        exact heq.symm
    · have hother : Path.components first.path ≠ Path.components update.path :=
        fun heq => hfirst (List.mem_map.mpr ⟨update, hlater, heq.symm⟩)
      rw [if_neg fun hboth => hother hboth.1]
      exact ih hrest hlater

end BreakPlan

section Places

variable {scene : SoundScene} {told told' : List Event} {options : BreakOptions} {plan : BreakPlan}
  {records : List FileRecord} {table : SymbolTable}

open Inquiry

theorem BreakPlan.MadeOf.exists_isCanonical
    (h : plan.MadeOf options scene told records table) :
    ∃ mark, ∀ record ∈ plan.ordered, Path.IsCanonical mark record.path :=
  ⟨_, fun _ hrecord => (h.collects hrecord).isCanonical⟩

/-- The records of a plan stand for sources at different places. -/
theorem BreakPlan.MadeOf.nodup_places
    (h : plan.MadeOf options scene told records table) :
    (plan.ordered.map fun record => Path.components record.path).Nodup := by
  obtain ⟨mark, hcanonical⟩ := h.exists_isCanonical
  have hpaths : (plan.ordered.map FileRecord.path).Nodup := by
    have hsorted := sortBy_perm (fun r s => r.path.le s.path) records
    have hperm := h.perm.trans hsorted.symm
    exact (hperm.map _).nodup_iff.mpr (Dependency.nodup_of_sortRecords_eq_ok h.sorted)
  have hplaces := List.Nodup.map_on (f := Path.components) ?_ hpaths
  · rwa [List.map_map] at hplaces
  · intro path hpath path' hpath' heq
    obtain ⟨record, hrecord, rfl⟩ := List.mem_map.mp hpath
    obtain ⟨record', hrecord', rfl⟩ := List.mem_map.mp hpath'
    exact (hcanonical record hrecord).eq_of_components (hcanonical record' hrecord') heq

end Places

namespace BreakPlan

/-- No index is written to the place. -/
def SparesPlace (plan : BreakPlan) (place : Location) : Prop :=
  Path.components plan.indexPath ≠ place ∧
    ∀ path text, plan.runtime = some (path, text) → Path.components path ≠ place

variable {options : BreakOptions} {scene : Scene} {table : SymbolTable} {plan : BreakPlan}

/-- What a source holds after all writes of a plan, if no index is written to its place: its own
text, unless the entry file stands there and changes. -/
theorem textAfter_writes {update : SourceUpdate} (hupdate : update ∈ plan.sources)
    (hplaces : (plan.sources.map fun update => Path.components update.path).Nodup)
    (hspared : plan.SparesPlace (Path.components update.path)) :
    textAfter (Path.components update.path) update.before plan.writes =
      textAfter (Path.components update.path) update.after
        ((plan.entry.filter SourceUpdate.isChange).toList.map write) := by
  have hindexes : ∀ w ∈ (plan.indexPath, .ok plan.declaration) :: plan.runtime.toList,
      Path.components w.1 ≠ Path.components update.path := by
    intro w hw
    rcases List.mem_cons.mp hw with rfl | hruntime
    · exact hspared.1
    · exact hspared.2 w.1 w.2 (Option.mem_toList.mp hruntime)
  rw [writes, textAfter_append, textAfter_append, textAfter_sources hplaces hupdate,
    textAfter_of_forall_ne hindexes]

theorem MadeOf.sparesPlace {told : List Event} {records : List FileRecord}
    (h : plan.MadeOf options scene told records table) (hruntime : options.runtime = none)
    {place : Location}
    (hindex : Path.components (Path.standardize scene.cwd options.indexPath) ≠ place) :
    plan.SparesPlace place := by
  have hnone := h.runtime
  rw [hruntime] at hnone
  exact ⟨h.indexPath ▸ hindex, by simp [hnone]⟩

theorem textAfter_entry_of_ne {place : Location} {text : Text}
    (h : ∀ entry, plan.entry = some entry → Path.components entry.path ≠ place) :
    textAfter place text ((plan.entry.filter SourceUpdate.isChange).toList.map write) = text := by
  apply textAfter_of_forall_ne
  intro w hw
  obtain ⟨entry, hentry, rfl⟩ := List.mem_map.mp hw
  exact h entry (Option.filter_eq_some_iff.mp (Option.mem_toList.mp hentry)).1

theorem textAfter_entry_of_eq {text : Text} {entry : SourceUpdate}
    (hentry : plan.entry = some entry) :
    textAfter (Path.components entry.path) text
        ((plan.entry.filter SourceUpdate.isChange).toList.map write) =
      if entry.after = entry.before then text else entry.after := by
  rw [hentry]
  cases hchange : entry.isChange with
  | true =>
    have hne : entry.after ≠ entry.before := of_decide_eq_true hchange
    simp [Option.filter, hchange, hne, textAfter, write, Except.toOption]
  | false =>
    have heq : entry.after = entry.before := by simpa using of_decide_eq_false hchange
    simp [Option.filter, hchange, heq, textAfter]

end BreakPlan

/-- The text of an entry file that has been written from its text of before, `original`, behind
the text with the redirected imports, unless it required the index already. -/
def Entry.overwriting (redirected original specifier : Text) : Text :=
  if Requires original specifier then redirected else requiring original specifier

/-- A run that succeeds has been planned and has made the writes of its plan. -/
theorem exists_plan_of_breakCycles {options : BreakOptions} {scene : SoundScene}
    {told : List Event} {after : Workspace} {ordered : List FileRecord}
    (h : (breakCycles options).Succeeds ⟨scene, told⟩ ordered after) :
    ∃ plan told' records table writes,
      (planBreak options).Succeeds scene told plan told' ∧ plan.ordered = ordered ∧
      plan.MadeOf options scene told records table ∧ plan.Drafted options scene table ∧
      plan.writes = rendered writes ∧ scene.tree.WrittenAll writes after.scene.tree := by
  rcases breakCycles_cases options scene told with
    ⟨_, _, houtcome, -⟩ | ⟨plan, told', hplan, ⟨_, writes, houtcome, hwrites, hmade⟩ |
      ⟨_, _, _, _, _, _, _, houtcome, -⟩⟩
  · cases houtcome.symm.trans h
  · cases houtcome.symm.trans h
    obtain ⟨records, table, hmadeOf, ⟨_, _, hsources⟩, ⟨_, _, hentry⟩⟩ := stages_of_planBreak hplan
    exact ⟨plan, told', records, table, writes, hplan, rfl, hmadeOf,
      drafted_of_stages hsources hentry, (breakWrites_eq hplan).symm.trans hwrites, hmade⟩
  · cases houtcome.symm.trans h

/-- Both updates are kept where the text of before requires the index exactly if the redirected text
does, and else exactly if the redirecting has changed nothing around the statement that is put
in. -/
theorem Entry.overwriting_eq_requiring_iff {redirected original specifier : Text} :
    overwriting redirected original specifier = requiring redirected specifier ↔
      if Requires original specifier then Requires redirected specifier
      else around original = around redirected := by
  rw [overwriting]
  split
  next => rw [eq_comm, requiring_eq_self_iff]
  next => exact requiring_eq_requiring_iff

/-- What the sources hold after a run. A source holds its redirected text if it is not the entry
file as well. The entry file holds its redirected text where it requires the index already, and else
its text of before with the requirement. It has lost no update in the first case exactly if the
redirected text still requires the index, and in the second exactly if the redirecting has changed
nothing around the statement with the requirement. -/
theorem breakCycles_keeps_updates_iff {options : BreakOptions} {scene : SoundScene}
    {told : List Event} {after : Workspace} {ordered : List FileRecord}
    (h : (breakCycles options).Succeeds ⟨scene, told⟩ ordered after) :
    ∃ plan told' records table,
      (planBreak options).Succeeds scene told plan told' ∧
      plan.ordered = ordered ∧
      plan.MadeOf options scene told records table ∧
      ∀ record ∈ ordered, plan.SparesPlace (Path.components record.path) →
        ∃ original specifier,
          scene.tree.HoldsText (Path.components record.path) original ∧
          Index.importFrom scene.cwd record.path plan.indexPath = .ok specifier ∧
          let redirected := record.redirectImports specifier table original
          let entryPath := (options.standardize scene.cwd).entryPath
          ((∀ entry, entryPath = some entry →
              Path.components entry ≠ Path.components record.path) →
            after.scene.tree.HoldsText (Path.components record.path) redirected) ∧
          ∀ entry, entryPath = some entry →
            Path.components entry = Path.components record.path →
            ∃ specifier',
              Index.importFrom scene.cwd entry plan.indexPath = .ok specifier' ∧
              after.scene.tree.HoldsText (Path.components record.path)
                (Entry.overwriting redirected original specifier') ∧
              (after.scene.tree.HoldsText (Path.components record.path)
                  (Entry.requiring redirected specifier') ↔
                if Entry.Requires original specifier' then Entry.Requires redirected specifier'
                else Entry.around original = Entry.around redirected) := by
  obtain ⟨plan, told', records, table, writes, hplan, rfl, hmade, hdrafted, hwrites, hwritten⟩ :=
    exists_plan_of_breakCycles h
  have hdirect := hmade.isDirect hdrafted
  have hplaces : (plan.sources.map fun update => Path.components update.path).Nodup := by
    have hrecords := hmade.nodup_places
    have hpaths := congrArg (List.map Path.components) hdrafted.paths
    rw [List.map_map, List.map_map] at hpaths
    exact hpaths ▸ hrecords
  refine ⟨plan, told', records, table, hplan, rfl, hmade, fun record hrecord hspared => ?_⟩
  obtain ⟨update, hupdate, hpath, _, _, specifier, hread, hspecifier, hafter⟩ :=
    exists_of_mem_left hdrafted.sources hrecord
  rw [← hpath] at hread hspecifier hspared ⊢
  have horiginal := Inquiry.holdsText_of_readSource (hdirect.sources update hupdate) hread
  have hholds := hwritten.holdsText horiginal
  rw [← hwrites, BreakPlan.textAfter_writes hupdate hplaces hspared, hafter] at hholds
  have hdraftedEntry := hdrafted.entry
  refine ⟨update.before, specifier, horiginal, hspecifier, ?_, ?_⟩
  · intro hother
    have hothers : ∀ entry, plan.entry = some entry →
        Path.components entry.path ≠ Path.components update.path :=
      fun entry hplanned => hother _ (hdrafted.entryPath hplanned)
    rwa [BreakPlan.textAfter_entry_of_ne hothers] at hholds
  · intro path hentryPath hsame
    rw [hentryPath] at hdraftedEntry
    obtain ⟨entry, _, _, specifier', hplanned, rfl, hentryRead, hspecifier', hentryAfter⟩ :=
      hdraftedEntry
    -- Both are read from one place, so the entry file starts from the same text.
    have hentryText := Inquiry.holdsText_of_readSource (hdirect.entry entry hplanned) hentryRead
    have hbefore : entry.before = update.before := (hsame ▸ hentryText).unique horiginal
    rw [← hsame, BreakPlan.textAfter_entry_of_eq hplanned, hentryAfter, hbefore, hsame] at hholds
    simp only [Entry.requiring_eq_self_iff] at hholds
    refine ⟨specifier', hspecifier', hholds, ?_⟩
    rw [← Entry.overwriting_eq_requiring_iff]
    exact ⟨fun h => hholds.unique h, fun h => h ▸ hholds⟩

/-- A source keeps its update beside an entry file that is one of the sources. -/
theorem breakCycles_keeps_updates_beside_entry :
    let scene := SoundScene.holding
      [("/main.ts", "import \x7b A \x7d from './a';\nexport class M \x7b\x7d\n"),
       ("/a.ts", "import \x7b Z \x7d from './z';\nexport class A extends Z \x7b\x7d\n"),
       ("/z.ts", "export class Z \x7b\x7d\n")] (by decide)
    let options : BreakOptions :=
      { root := ['/'], indexPath := "/index.ts".toList, patterns := ["*.ts".toList]
        filter := some fun _ _ => true, exclude := [], entryPath := some "/main.ts".toList
        runtime := none }
    ∃ ordered after, (breakCycles options).Succeeds ⟨scene, []⟩ ordered after ∧
      ∃ record ∈ ordered, record.path = "/a.ts".toList ∧ ∃ original specifier table,
        scene.tree.HoldsText (Path.components record.path) original ∧
        after.scene.tree.HoldsText (Path.components record.path)
          (record.redirectImports specifier table original) := by
  intro scene options
  have hruns : (breakCycles options).succeedsWith
      (fun ordered => ordered.any (·.path = "/a.ts".toList)) scene = true := by
    decide +kernel
  have hindex : Path.components (Path.standardize scene.cwd options.indexPath) ≠
      Path.components "/a.ts".toList := by
    decide
  have hentry : ∀ entry, (options.standardize scene.cwd).entryPath = some entry →
      Path.components entry ≠ Path.components "/a.ts".toList := by
    decide
  have hruntime : options.runtime = none := rfl
  clear_value scene options
  obtain ⟨ordered, after, hrun, hcheck⟩ := Work.exists_succeeds hruns
  obtain ⟨record, hrecord, hpath⟩ := List.any_eq_true.mp hcheck
  replace hpath := of_decide_eq_true hpath
  obtain ⟨plan, _, _, table, -, -, hmade, hsources⟩ := breakCycles_keeps_updates_iff hrun
  have hspared := hmade.sparesPlace hruntime (hpath ▸ hindex)
  obtain ⟨original, specifier, horiginal, -, hkept, -⟩ := hsources record hrecord hspared
  exact ⟨ordered, after, hrun, record, hrecord, hpath, original, specifier, table, horiginal,
    hkept (hpath ▸ hentry)⟩

/-- Whether the work succeeds and leaves a file with the given text. -/
def Work.leavesText {α : Type} (place : Location) (text : Text) (work : Work α) (scene : Scene) :
    Bool :=
  match work.outcome ⟨scene, []⟩ with
  | (.ok _, after) => after.scene.tree.node? place = some (.file (Utf8.encode text))
  | (.error _, _) => false

theorem Work.exists_holdsText {α : Type} {place : Location} {text : Text} {work : Work α}
    {scene : Scene} (h : work.leavesText place text scene = true) :
    ∃ a after, work.Succeeds ⟨scene, []⟩ a after ∧ after.scene.tree.HoldsText place text := by
  rw [leavesText] at h
  split at h
  next a after houtcome =>
    exact ⟨a, after, houtcome, _, of_decide_eq_true h, Utf8.decode_encode text⟩
  next => cases h

/-- Whether there is a record of `/main.ts`, and the requirement of the index in its redirected
text is not the one in its text of before. -/
def losesRequirement (original : Text) (table : SymbolTable) (records : List FileRecord) : Bool :=
  records.any fun record => record.path = "/main.ts".toList &&
    Entry.requiring (record.redirectImports "./index".toList table original) "./index".toList ≠
      Entry.requiring original "./index".toList

/-- The entry file is one of the sources: its import of a class of the project is not redirected,
though the text with the redirected import has been prepared. -/
theorem breakCycles_loses_update_of_entry :
    let original := "import \x7b A \x7d from './a';\nexport class M \x7b\x7d\n"
    let scene := SoundScene.holding
      [("/main.ts", original), ("/a.ts", "export class A \x7b\x7d\n")] (by decide)
    let options : BreakOptions :=
      { root := ['/'], indexPath := "/index.ts".toList, patterns := ["*.ts".toList]
        filter := some fun _ _ => true, exclude := [], entryPath := some "/main.ts".toList
        runtime := none }
    ∃ ordered after, (breakCycles options).Succeeds ⟨scene, []⟩ ordered after ∧
      ∃ plan told records table,
        (planBreak options).Succeeds scene [] plan told ∧ plan.ordered = ordered ∧
        plan.MadeOf options scene [] records table ∧
        ∃ record ∈ ordered, record.path = "/main.ts".toList ∧
          plan.SparesPlace (Path.components record.path) ∧
          scene.tree.HoldsText (Path.components record.path) original.toList ∧
          Index.importFrom scene.cwd record.path plan.indexPath = .ok "./index".toList ∧
          ¬ after.scene.tree.HoldsText (Path.components record.path)
            (Entry.requiring (record.redirectImports "./index".toList table original.toList)
              "./index".toList) := by
  intro original scene options
  have hleaves : (breakCycles options).leavesText ["main.ts".toList]
      (Entry.requiring original.toList "./index".toList) scene = true := by
    decide +kernel
  have hloses : (collectSources (options.standardize scene.cwd) >>= readRecords .empty []).succeedsWith
      (fun found => losesRequirement original.toList found.2 found.1) scene = true := by
    decide +kernel
  have hindex : Path.standardize scene.cwd options.indexPath = "/index.ts".toList := by decide
  have hspecifier : Index.importFrom scene.cwd "/main.ts".toList "/index.ts".toList =
      .ok "./index".toList := by
    decide
  have hcomponents : Path.components "/main.ts".toList = ["main.ts".toList] := by decide
  have hspared : Path.components "/index.ts".toList ≠ ["main.ts".toList] := by decide
  have horiginal : scene.tree.HoldsText ["main.ts".toList] original.toList :=
    ⟨_, rfl, Utf8.decode_encode _⟩
  have hruntime : options.runtime = none := rfl
  clear_value scene options original
  obtain ⟨ordered, after, hrun, hholds⟩ := Work.exists_holdsText hleaves
  obtain ⟨plan, told, records, table, _, hplan, rfl, hmade, -⟩ := exists_plan_of_breakCycles hrun
  refine ⟨_, after, hrun, plan, told, records, table, hplan, rfl, hmade, ?_⟩
  -- The records and the table are those that reading the collected sources comes to.
  obtain ⟨found, _, hfound, hcheck⟩ := Inquiry.exists_succeeds hloses
  obtain ⟨sources, _, hsources, hfound⟩ := Inquiry.succeeds_bind.mp hfound
  obtain ⟨sources', _, _, _, hcollected, hread⟩ := hmade.read
  cases (onlyReads_collectSources _).eq_of_succeeds hsources hcollected
  cases (onlyReads_readRecords _ _ _).eq_of_succeeds hfound hread
  obtain ⟨record, hrecord, hdiffers⟩ := List.any_eq_true.mp hcheck
  obtain ⟨hpath, hne⟩ := (Bool.and_eq_true _ _).mp hdiffers
  replace hpath := of_decide_eq_true hpath
  replace hne := of_decide_eq_true hne
  refine ⟨record, hmade.perm.mem_iff.mpr hrecord, hpath, hmade.sparesPlace hruntime ?_, ?_, ?_, ?_⟩
  · rwa [hpath, hindex, hcomponents]
  · rwa [hpath, hcomponents]
  · rwa [hpath, hmade.indexPath, hindex]
  · rw [hpath, hcomponents]
    exact fun hclaimed => hne (hclaimed.unique hholds)

end Disentangle
