import Disentangle.Proofs.Path.Direct
import Disentangle.Proofs.Project.LoadOrder
import Disentangle.Proofs.Project.Reading
import Disentangle.Proofs.Project.Sound

/-!
What a run does to the tree of files. What it will write is settled before the first write, by the
tree as it is then. The writes are made in order; a run that is refused one of them leaves those
before it and no trace of that one. A run that stops before the first write leaves the tree alone.
There is a third way to stop: a path or a text turns out to be impossible when it is written, and
then the writes before it have been made as well.
-/

namespace Disentangle

variable {α β : Type}

namespace Work

variable {writes later : List (Text × Except Fault Text)}

/-- The work makes the given writes, one after another, and changes nothing else. It stops where
they stop, with the same problem. -/
def Performs (work : Work α) (writes : List (Text × Except Fault Text)) : Prop :=
  ∀ before : Workspace,
    (∃ a after, work.outcome before = (.ok a, after) ∧
      before.scene.writeAll writes = (after.scene.tree, none) ∧
      after.scene = { before.scene with tree := after.scene.tree }) ∨
    ∃ problem after, work.outcome before = (.error problem, after) ∧
      before.scene.writeAll writes = (after.scene.tree, some problem)

theorem performs_pure (a : α) : (pure a : Work α).Performs [] :=
  fun before => Or.inl ⟨a, before, rfl, rfl, rfl⟩

theorem performs_tell (event : Event) : (tell event).Performs [] :=
  fun before => Or.inl ⟨(), { before with events := before.events ++ [event] }, rfl, rfl, rfl⟩

theorem performs_writeSource (path text : Text) :
    (writeSource path text).Performs [(path, .ok text)] := by
  intro before
  rw [outcome_writeSource, Scene.writeAll]
  cases before.scene.write path text with
  | mk tree problem =>
    cases problem with
    | none => exact Or.inl ⟨(), _, rfl, rfl, rfl⟩
    | some problem => exact Or.inr ⟨problem, _, rfl, rfl⟩

/-- A text is written as far as it could be rendered. -/
theorem performs_writeRendered (path : Text) (text : Except Fault Text) :
    (inquire (Inquiry.orFault text) >>= writeSource path).Performs [(path, text)] := by
  cases text with
  | ok text => exact performs_writeSource path text
  | error fault => exact fun before => Or.inr ⟨.fault fault, before, rfl, rfl⟩

/-- Work after work makes the writes of both. -/
theorem performs_bind {work : Work α} {next : α → Work β} (h : work.Performs writes)
    (hnext : ∀ a, (next a).Performs later) : (work >>= next).Performs (writes ++ later) := by
  intro before
  rw [outcome_bind, Scene.writeAll_append]
  rcases h before with ⟨a, middle, hrun, hwrites, hscene⟩ | ⟨problem, after, hrun, hwrites⟩
  · rw [hrun, hwrites]
    dsimp only
    rw [← hscene]
    rcases hnext a middle with ⟨b, after, hrun', hlater, hscene'⟩ | hstops
    · refine Or.inl ⟨b, after, hrun', hlater, ?_⟩
      rw [hscene', hscene]
    · exact Or.inr hstops
  · rw [hrun, hwrites]
    exact Or.inr ⟨problem, after, rfl, rfl⟩

theorem performs_silent_bind {work : Work α} {next : α → Work β} (h : work.Performs [])
    (hnext : ∀ a, (next a).Performs writes) : (work >>= next).Performs writes := by
  have hboth := performs_bind h hnext
  rwa [List.nil_append] at hboth

theorem performs_bind_silent {work : Work α} {next : α → Work β} (h : work.Performs writes)
    (hnext : ∀ a, (next a).Performs []) : (work >>= next).Performs writes := by
  have hboth := performs_bind h hnext
  rwa [List.append_nil] at hboth

theorem performs_discard {work : Work α} (h : work.Performs writes) :
    (discard work).Performs writes := by
  intro before
  rw [outcome_discard]
  rcases h before with ⟨a, after, hrun, hwrites⟩ | ⟨problem, after, hrun, hwrites⟩
  · rw [hrun]
    exact Or.inl ⟨(), after, rfl, hwrites⟩
  · rw [hrun]
    exact Or.inr ⟨problem, after, rfl, hwrites⟩

theorem performs_forM {work : α → Work Unit} {write : α → Text × Except Fault Text}
    (h : ∀ a, (work a).Performs [write a]) (items : List α) :
    (items.forM work).Performs (items.map write) := by
  induction items with
  | nil => exact performs_pure _
  | cons a rest ih => exact performs_bind (h a) fun _ => ih

end Work

namespace BreakPlan

def write (update : SourceUpdate) : Text × Except Fault Text :=
  (update.path, .ok update.after)

/-- The writes of a plan: the sources that change, the indexes, and the entry file if it
changes. -/
def writes (plan : BreakPlan) : List (Text × Except Fault Text) :=
  (plan.sources.filter SourceUpdate.isChange).map write ++
    ((plan.indexPath, .ok plan.declaration) :: plan.runtime.toList) ++
    (plan.entry.filter SourceUpdate.isChange).toList.map write

/-- Every path of the plan leads straight down. -/
structure IsDirect (plan : BreakPlan) : Prop where
  sources : ∀ update ∈ plan.sources, Path.IsDirect update.path
  index : Path.IsDirect plan.indexPath
  runtime : ∀ path rendered, plan.runtime = some (path, rendered) → Path.IsDirect path
  entry : ∀ update, plan.entry = some update → Path.IsDirect update.path

/-- The sources of a plan are those of its records, in their order, each as it is now and with its
imports led through the index. The entry file is there if one was asked for. -/
structure Drafted (options : BreakOptions) (scene : Scene) (table : SymbolTable)
    (plan : BreakPlan) : Prop where
  sources : List.Forall₂ (fun record update => update.path = record.path ∧
    ∃ told told' specifier,
      (Inquiry.readSource record.path).Succeeds scene told update.before told' ∧
      Index.importFrom scene.cwd record.path plan.indexPath = .ok specifier ∧
      update.after = record.redirectImports specifier table update.before)
    plan.ordered plan.sources
  entry : match (options.standardize scene.cwd).entryPath with
    | none => plan.entry = none
    | some path => ∃ update told told' specifier, plan.entry = some update ∧
      update.path = path ∧
      (Inquiry.readSource path).Succeeds scene told update.before told' ∧
      Index.importFrom scene.cwd path plan.indexPath = .ok specifier ∧
      update.after = Entry.requiring update.before specifier

end BreakPlan

section Stages

open Work

/-- The two indexes are written one after the other. -/
theorem performs_writeIndex (indexPath declaration : Text)
    (runtime : Option (Text × Except Fault Text)) :
    (writeIndex indexPath declaration runtime).Performs
      ((indexPath, .ok declaration) :: runtime.toList) := by
  refine performs_bind (performs_writeSource indexPath declaration) fun _ => ?_
  refine performs_silent_bind (performs_tell _) fun _ => ?_
  cases runtime with
  | none => exact performs_pure _
  | some output =>
    obtain ⟨path, text⟩ := output
    have hruntime := performs_bind_silent (performs_writeRendered path text) fun _ =>
      performs_silent_bind (performs_tell (.runtimeIndexWritten path)) fun _ =>
        performs_pure [indexPath, path]
    rwa [bind_assoc] at hruntime

theorem performs_writeBreak (plan : BreakPlan) : (writeBreak plan).Performs plan.writes := by
  rw [BreakPlan.writes, List.append_assoc]
  refine performs_bind (performs_forM (fun _ => performs_writeSource _ _) _) fun _ => ?_
  refine performs_silent_bind (performs_tell _) fun _ => ?_
  refine performs_bind (performs_discard (performs_writeIndex _ _ _)) fun _ => ?_
  cases plan.entry.filter SourceUpdate.isChange with
  | none => exact performs_pure _
  | some update =>
    exact performs_bind_silent (performs_writeSource update.path update.after) fun _ =>
      performs_tell _

end Stages

section Plans

open Inquiry

variable {scene : Scene} {told told' : List Event} {options : BreakOptions} {plan : BreakPlan}

theorem drafted_of_stages {table : SymbolTable}
    (hsources : (plan.ordered.mapM (redirectSource plan.indexPath table)).Succeeds
      scene told plan.sources told')
    {before after : List Event}
    (hentry : ((options.standardize scene.cwd).entryPath.mapM
      (requireIndex plan.indexPath)).Succeeds scene before plan.entry after) :
    plan.Drafted options scene table where
  sources := by
    refine (forall₂_of_succeeds_mapM hsources).imp ?_
    rintro record update ⟨_, _, hupdate⟩
    simp only [redirectSource, succeeds_bind, succeeds_read, succeeds_orFault, succeeds_tellAll,
      succeeds_pure] at hupdate
    obtain ⟨text, _, htext, _, _, ⟨rfl, rfl⟩, specifier, _, ⟨hspecifier, rfl⟩, _, _, -, rfl, -⟩ :=
      hupdate
    exact ⟨rfl, _, _, specifier, htext, hspecifier, rfl⟩
  entry := by
    split
    next hnone =>
      rw [hnone, Option.mapM_none, succeeds_pure] at hentry
      exact hentry.1.symm
    next path hsome =>
      rw [hsome, Option.mapM_some, succeeds_map] at hentry
      obtain ⟨update, hupdate, heq⟩ := hentry
      simp only [requireIndex, succeeds_bind, succeeds_read, succeeds_orFault, succeeds_tellAll,
        succeeds_pure] at hupdate
      obtain ⟨text, _, htext, _, _, ⟨rfl, rfl⟩, specifier, _, ⟨hspecifier, rfl⟩, _, _, -, rfl, -⟩ :=
        hupdate
      exact ⟨_, _, _, specifier, heq.symm, rfl, htext, hspecifier, rfl⟩

theorem BreakPlan.Drafted.paths {table : SymbolTable} (h : plan.Drafted options scene table) :
    plan.ordered.map FileRecord.path = plan.sources.map SourceUpdate.path := by
  have hpaths : List.Forall₂ Eq (plan.ordered.map FileRecord.path)
      (plan.sources.map SourceUpdate.path) := by
    rw [List.forall₂_map_left_iff, List.forall₂_map_right_iff]
    exact h.sources.imp fun _ _ hupdate => hupdate.1.symm
  rwa [List.forall₂_eq_eq_eq] at hpaths

/-- The entry file of a plan is the one that was asked for. -/
theorem BreakPlan.Drafted.entryPath {table : SymbolTable} (h : plan.Drafted options scene table)
    {update : SourceUpdate} (hupdate : plan.entry = some update) :
    (options.standardize scene.cwd).entryPath = some update.path := by
  have hentry := h.entry
  split at hentry
  next => cases hentry.symm.trans hupdate
  next path hpath =>
    obtain ⟨_, _, _, _, heq, rfl, -⟩ := hentry
    cases heq.symm.trans hupdate
    exact hpath

/-- All paths of a plan are canonical, or named after one that is. -/
theorem BreakPlan.MadeOf.isDirect {records : List FileRecord} {table : SymbolTable}
    (h : plan.MadeOf options scene told records table)
    (hdrafted : plan.Drafted options scene table) : plan.IsDirect where
  sources := by
    intro update hupdate
    have hamong : update.path ∈ plan.ordered.map FileRecord.path :=
      hdrafted.paths ▸ List.mem_map_of_mem hupdate
    obtain ⟨record, hrecord, hpath⟩ := List.mem_map.mp hamong
    obtain ⟨paths, _, _, _, -, hread⟩ := h.read
    have hmem : record.path ∈ paths.map (Path.standardize scene.cwd) := by
      rw [← (records_of_readRecords hread).1]
      exact List.mem_map_of_mem (h.perm.mem_iff.mp hrecord)
    obtain ⟨path, -, hstandard⟩ := List.mem_map.mp hmem
    rw [← hpath, ← hstandard]
    exact Path.isDirect_standardize scene.cwd path
  index := by
    rw [h.indexPath]
    exact Path.isDirect_standardize scene.cwd options.indexPath
  runtime := by
    intro path text hruntime
    obtain ⟨runtime, -, heq⟩ := Option.map_eq_some_iff.mp (h.runtime.symm.trans hruntime)
    cases heq
    exact Index.RuntimeOptions.isDirect_output _ _ _
  entry := by
    intro update hupdate
    obtain ⟨given, -, hstandard⟩ := Option.map_eq_some_iff.mp (hdrafted.entryPath hupdate)
    rw [← hstandard]
    exact Path.isDirect_standardize scene.cwd given

end Plans

theorem BreakPlan.IsDirect.of_mem_writes {plan : BreakPlan} (h : plan.IsDirect)
    {write : Text × Except Fault Text} (hwrite : write ∈ plan.writes) : Path.IsDirect write.1 := by
  simp only [writes, List.mem_append, List.mem_cons, List.mem_map, Option.mem_toList] at hwrite
  rcases hwrite with (⟨update, hupdate, rfl⟩ | rfl | hruntime) | ⟨update, hupdate, rfl⟩
  · exact h.sources update (List.mem_filter.mp hupdate).1
  · exact h.index
  · exact h.runtime _ _ hruntime
  · exact h.entry update (Option.filter_eq_some_iff.mp hupdate).1

/-- The writes of a run, as the tree is when it begins. A run that cannot be planned has none. -/
def breakWrites (options : BreakOptions) (scene : Scene) : List (Text × Except Fault Text) :=
  match ((planBreak options).outcome scene []).1 with
  | .ok plan => plan.writes
  | .error _ => []

theorem breakWrites_eq {options : BreakOptions} {scene : Scene} {told told' : List Event}
    {plan : BreakPlan} (h : (planBreak options).Succeeds scene told plan told') :
    breakWrites options scene = plan.writes := by
  have hsame := (onlyReads_planBreak options).steady scene [] told
  rw [h] at hsame
  delta breakWrites
  rw [hsame]

/-- A run that can be planned makes the writes of the plan, and ends as they do. -/
theorem outcome_breakCycles_of_plan {options : BreakOptions} {plan : BreakPlan} {told : List Event}
    (before : Workspace)
    (h : (planBreak options).Succeeds before.scene before.events plan told) :
    (∃ after, (breakCycles options).outcome before = (.ok plan.ordered, after) ∧
      before.scene.writeAll plan.writes = (after.scene.tree, none)) ∨
    ∃ problem after, (breakCycles options).outcome before = (.error problem, after) ∧
      before.scene.writeAll plan.writes = (after.scene.tree, some problem) := by
  rw [breakCycles, Work.outcome_bind, Work.outcome_inquire, h]
  dsimp only
  rw [Work.outcome_bind]
  rcases performs_writeBreak plan { before with events := told } with
    ⟨_, after, hrun, hwrites, -⟩ | ⟨problem, after, hrun, hwrites⟩
  · rw [hrun]
    exact Or.inl ⟨after, rfl, hwrites⟩
  · rw [hrun]
    exact Or.inr ⟨problem, after, rfl, hwrites⟩

/-- A run that cannot be planned stops before it writes, and never with a write that was refused. -/
theorem outcome_breakCycles_of_problem {options : BreakOptions} {problem : Problem}
    {told : List Event} (before : Workspace)
    (h : (planBreak options).outcome before.scene before.events = (.error problem, told)) :
    (breakCycles options).outcome before = (.error problem, { before with events := told }) ∧
      ∀ path cause, problem ≠ .failure (.unwritable path cause) := by
  refine ⟨by rw [breakCycles, Work.outcome_bind, Work.outcome_inquire, h], ?_⟩
  rintro path cause rfl
  refine (onlyReads_planBreak options).harmless before.scene before.events path cause ?_
  rw [h]

theorem isDirect_of_mem_breakWrites {options : BreakOptions} {scene : Scene}
    {told told' : List Event}
    {plan : BreakPlan} (h : (planBreak options).Succeeds scene told plan told')
    {write : Text × Except Fault Text} (hwrite : write ∈ plan.writes) : Path.IsDirect write.1 := by
  obtain ⟨records, table, hmade, ⟨_, _, hsources⟩, ⟨_, _, hentry⟩⟩ := stages_of_planBreak h
  exact (hmade.isDirect (drafted_of_stages hsources hentry)).of_mem_writes hwrite

/-- How a run ends: before its first write, behind its last one, or at one that stops. -/
theorem breakCycles_cases (options : BreakOptions) (scene : SoundScene) (told : List Event) :
    (∃ problem after, (breakCycles options).outcome ⟨scene, told⟩ = (.error problem, after) ∧
      after.scene = scene ∧ (∀ path cause, problem ≠ .failure (.unwritable path cause)) ∧
      ∀ plan told', ¬ (planBreak options).Succeeds scene told plan told') ∨
    ∃ plan told', (planBreak options).Succeeds scene told plan told' ∧
      ((∃ after writes, (breakCycles options).outcome ⟨scene, told⟩ = (.ok plan.ordered, after) ∧
        breakWrites options scene = rendered writes ∧
        scene.tree.WrittenAll writes after.scene.tree) ∨
      ∃ problem after done path text rest middle,
        (breakCycles options).outcome ⟨scene, told⟩ = (.error problem, after) ∧
        breakWrites options scene = rendered done ++ (path, text) :: rest ∧
        scene.tree.WrittenAll done middle ∧
        Scene.Stops { scene with tree := middle } path (Path.components path) text problem
          after.scene.tree) := by
  cases hrun : (planBreak options).outcome scene told with
  | mk result told' =>
    cases result with
    | error problem =>
      obtain ⟨houtcome, hharmless⟩ :=
        outcome_breakCycles_of_problem ⟨scene, told⟩ hrun
      refine Or.inl ⟨problem, _, houtcome, rfl, hharmless, fun plan told'' hplan => ?_⟩
      cases hrun.symm.trans hplan
    | ok plan =>
      have hplan : (planBreak options).Succeeds scene told plan told' := hrun
      refine Or.inr ⟨plan, told', hplan, ?_⟩
      rw [breakWrites_eq hplan]
      have hcases := scene.writeAll_cases scene.grounded
        fun write hwrite => isDirect_of_mem_breakWrites hplan hwrite
      rcases outcome_breakCycles_of_plan ⟨scene, told⟩ hplan with
        ⟨after, houtcome, hall⟩ | ⟨problem, after, houtcome, hall⟩
      · rcases hcases with ⟨writes, tree, hwrites, hall', -, hmade⟩ |
          ⟨_, _, _, _, _, _, _, _, hall', -⟩
        · cases hall.symm.trans hall'
          exact Or.inl ⟨after, writes, houtcome, hwrites, hmade⟩
        · cases hall.symm.trans hall'
      · rcases hcases with ⟨_, _, _, hall', -⟩ |
          ⟨done, path, text, rest, middle, _, _, hwrites, hall', -, hdone, hstops⟩
        · cases hall.symm.trans hall'
        · cases hall.symm.trans hall'
          exact Or.inr ⟨problem, after, done, path, text, rest, middle, houtcome, hwrites, hdone,
            hstops⟩

end Disentangle
