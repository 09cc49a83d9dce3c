import Disentangle.Proofs.Project.Faults
import Disentangle.Proofs.Project.Writing

/-!
The faults of a run. At every source that has been collected the system can look, and what has been
read once is read again. What is left is a pattern, a source or a chain of needs that is too deep,
the path of the entry file, and the writes. Where every character has an encoding and the stack
suffices, and no path that is asked for holds a null character, it is the pattern alone.
-/

namespace Disentangle

open Inquiry

section Running

variable {options : BreakOptions} {scene : SoundScene} {told : List Event} {fault : Fault}

/-- What a run asks for is possible wherever every character has an encoding and the stack suffices,
unless the path of a file to be written or of the entry file holds a null character. -/
structure BreakOptions.IsPossible (options : BreakOptions) (scene : Scene) : Prop where
  encodes : ∀ c, scene.platform.lacksEncoding c = false
  walks : ∀ jsx text, scene.platform.stack.walk? jsx text = none
  orders : ∀ records table, scene.platform.stack.order records table = false
  noNull : ∀ path ∈ (options.standardize scene.cwd).indexPath ::
    (options.standardize scene.cwd).entryPath.toList ++
      (options.runtime.map fun runtime =>
        runtime.output scene.cwd (options.standardize scene.cwd).indexPath).toList,
    ∀ name ∈ Path.components path, '\x00' ∉ name

namespace BreakOptions.IsPossible

theorem pathFault?_eq_none (h : options.IsPossible scene) {path : Text}
    (hnull : ∀ name ∈ Path.components path, '\x00' ∉ name) :
    scene.platform.pathFault? (Path.components path) = none := by
  refine Platform.pathFault?_eq_none_iff.mpr fun name hname c hc => ⟨?_, ?_⟩
  · refine Bool.eq_false_iff.mpr fun hlacks => ?_
    have hencodes := h.encodes c
    rw [scene.platform.lacksEncoding_of_lacksName c hlacks] at hencodes
    cases hencodes
  · rintro rfl
    exact hnull name hname hc

theorem textFault?_eq_none (h : options.IsPossible scene) (text : Text) :
    scene.platform.textFault? text = none :=
  Platform.textFault?_eq_none_iff.mpr fun c _ => h.encodes c

theorem exists_renderRuntime (h : options.IsPossible scene) (indexPath : Text)
    {records : List FileRecord} (runtime : Index.RuntimeOptions)
    (hpaths : ∀ record ∈ records, record.path ≠ []) :
    ∃ text, Scene.renderRuntime scene indexPath records runtime = .ok text := by
  have htext := Index.exists_renderRuntime scene.cwd indexPath runtime
    fun record hrecord _ => hpaths record hrecord
  simpa [Scene.renderRuntime, h.textFault?_eq_none] using htext

/-- Each write of a plan can be made as far as names and texts go. -/
theorem accepts (h : options.IsPossible scene) {plan : BreakPlan}
    (hplan : (planBreak options).Succeeds scene told plan told')
    {write : Text × Except Fault Text} (hwrite : write ∈ plan.writes) :
    ∃ text, write.2 = .ok text ∧ scene.platform.Accepts write.1 text := by
  obtain ⟨records, table, hmade, ⟨_, _, hsources⟩, ⟨_, _, hentry⟩⟩ := stages_of_planBreak hplan
  have hdrafted := drafted_of_stages hsources hentry
  obtain ⟨sources, _, _, _, -, hread⟩ := hmade.read
  simp only [BreakPlan.writes, List.mem_append, List.mem_cons, List.mem_map,
    Option.mem_toList] at hwrite
  rcases hwrite with (⟨update, hupdate, rfl⟩ | rfl | hruntime) | ⟨update, hupdate, rfl⟩
  · refine ⟨_, rfl, ?_, h.textFault?_eq_none _⟩
    have hamong : update.path ∈ plan.ordered.map FileRecord.path :=
      hdrafted.paths ▸ List.mem_map_of_mem (List.mem_filter.mp hupdate).1
    obtain ⟨record, hrecord, hpath⟩ := List.mem_map.mp hamong
    rw [BreakPlan.write, ← hpath]
    exact (hmade.collects hrecord).pathFault?_eq_none
  · refine ⟨_, rfl, h.pathFault?_eq_none (h.noNull _ ?_), h.textFault?_eq_none _⟩
    exact hmade.indexPath ▸ List.mem_cons_self
  · obtain ⟨runtime, hasked, rfl⟩ := Option.map_eq_some_iff.mp (hmade.runtime.symm.trans hruntime)
    have hpaths : ∀ record ∈ plan.ordered, record.path ≠ [] :=
      fun record hrecord => path_ne_nil_of_readRecords hread (hmade.perm.mem_iff.mp hrecord)
    obtain ⟨text, htext⟩ := h.exists_renderRuntime plan.indexPath runtime hpaths
    refine ⟨text, htext, h.pathFault?_eq_none (h.noNull _ ?_), h.textFault?_eq_none _⟩
    simp [hasked, hmade.indexPath, BreakOptions.standardize]
  · refine ⟨_, rfl, h.pathFault?_eq_none (h.noNull _ ?_), h.textFault?_eq_none _⟩
    have hentry := hdrafted.entryPath (Option.filter_eq_some_iff.mp hupdate).1
    simp [hentry, BreakPlan.write]

end BreakOptions.IsPossible

end Running

end Disentangle
