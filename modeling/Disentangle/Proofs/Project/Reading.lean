import Disentangle.Project.Break
import Disentangle.Proofs.Project.Success

/-!
The planning of a run only reads. What it comes to is decided by the tree of files, whatever has
been told before, and no problem that it meets is a write that was refused.
-/

namespace Disentangle

variable {α β : Type}

namespace Inquiry

/-- The result of the inquiry depends on the scene alone, and it is never that a file could not be
written. -/
structure OnlyReads (inquiry : Inquiry α) : Prop where
  steady : ∀ scene told told', (inquiry.outcome scene told).1 = (inquiry.outcome scene told').1
  harmless : ∀ scene told path reason,
    (inquiry.outcome scene told).1 ≠ .error (.failure (.unwritable path reason))

/-- The inquiry comes to the result `a`, when something or other has been told. -/
def ComesTo (inquiry : Inquiry α) (scene : Scene) (a : α) : Prop :=
  ∃ told told', inquiry.Succeeds scene told a told'

namespace OnlyReads

variable {inquiry : Inquiry α} {scene : Scene} {a a' : α}

/-- What an inquiry comes to does not depend on what has been told. -/
theorem eq_of_succeeds (h : inquiry.OnlyReads) {told told' after after' : List Event}
    (hsucceeds : inquiry.Succeeds scene told a after)
    (hsucceeds' : inquiry.Succeeds scene told' a' after') : a = a' := by
  have hsame := h.steady scene told told'
  rw [hsucceeds, hsucceeds'] at hsame
  exact Except.ok.inj hsame

theorem exists_succeeds (h : inquiry.OnlyReads) (hcomes : inquiry.ComesTo scene a)
    (told : List Event) : ∃ told', inquiry.Succeeds scene told a told' := by
  obtain ⟨before, after, hsucceeds⟩ := hcomes
  have hsame := h.steady scene told before
  rw [hsucceeds] at hsame
  exact ⟨(inquiry.outcome scene told).2, Prod.ext hsame rfl⟩

end OnlyReads

theorem onlyReads_pure (a : α) : (pure a : Inquiry α).OnlyReads where
  steady _ _ _ := rfl
  harmless _ _ _ _ h := by cases h

theorem onlyReads_read : (read : Inquiry Scene).OnlyReads where
  steady _ _ _ := rfl
  harmless _ _ _ _ h := by cases h

theorem onlyReads_tellAll (told : List Event) : (tellAll told).OnlyReads where
  steady _ _ _ := rfl
  harmless _ _ _ _ h := by cases h

theorem onlyReads_tell (event : Event) : (tell event).OnlyReads :=
  onlyReads_tellAll [event]

theorem onlyReads_fail {reason : Failure}
    (h : ∀ path cause, reason ≠ .unwritable path cause) : (fail reason : Inquiry α).OnlyReads where
  steady _ _ _ := rfl
  harmless _ _ path cause heq := by
    have hreason := Except.error.inj heq
    exact h path cause (Problem.failure.inj hreason)

theorem onlyReads_fault (reason : Fault) :
    (throw (Problem.fault reason) : Inquiry α).OnlyReads where
  steady _ _ _ := rfl
  harmless _ _ _ _ heq := by
    have hreason := Except.error.inj heq
    cases hreason

theorem onlyReads_orFail {result : Except Failure α}
    (h : ∀ path cause, result ≠ .error (.unwritable path cause)) : (orFail result).OnlyReads := by
  cases result with
  | ok a => exact onlyReads_pure a
  | error reason =>
    apply onlyReads_fail
    intro path cause heq
    exact h path cause (heq ▸ rfl)

theorem onlyReads_orFault (result : Except Fault α) : (orFault result).OnlyReads := by
  cases result with
  | ok a => exact onlyReads_pure a
  | error reason => exact onlyReads_fault reason

theorem onlyReads_bind {inquiry : Inquiry α} {next : α → Inquiry β} (h : inquiry.OnlyReads)
    (hnext : ∀ a, (next a).OnlyReads) : (inquiry >>= next).OnlyReads where
  steady scene told told' := by
    have hfirst := h.steady scene told told'
    rw [outcome_bind, outcome_bind]
    cases hrun : inquiry.outcome scene told with
    | mk result middle =>
      cases hrun' : inquiry.outcome scene told' with
      | mk result' middle' =>
        rw [hrun, hrun'] at hfirst
        cases hfirst
        cases result with
        | ok a => exact (hnext a).steady scene middle middle'
        | error problem => rfl
  harmless scene told path reason := by
    have hfirst := h.harmless scene told path reason
    rw [outcome_bind]
    cases hrun : inquiry.outcome scene told with
    | mk result middle =>
      rw [hrun] at hfirst
      cases result with
      | ok a => exact (hnext a).harmless scene middle path reason
      | error problem =>
        intro heq
        have hproblem := Except.error.inj heq
        exact hfirst (hproblem ▸ rfl)

theorem onlyReads_map {inquiry : Inquiry α} (f : α → β) (h : inquiry.OnlyReads) :
    (f <$> inquiry).OnlyReads := by
  rw [map_eq_pure_bind]
  exact onlyReads_bind h fun a => onlyReads_pure (f a)

theorem onlyReads_mapM {inquiry : α → Inquiry β} (h : ∀ a, (inquiry a).OnlyReads)
    (items : List α) : (items.mapM inquiry).OnlyReads := by
  induction items with
  | nil =>
    rw [List.mapM_nil]
    exact onlyReads_pure []
  | cons a rest ih =>
    rw [List.mapM_cons]
    exact onlyReads_bind (h a) fun b => onlyReads_bind ih fun bs => onlyReads_pure (b :: bs)

theorem onlyReads_option_mapM {inquiry : α → Inquiry β} (h : ∀ a, (inquiry a).OnlyReads)
    (item : Option α) : (item.mapM inquiry).OnlyReads := by
  cases item with
  | none =>
    rw [Option.mapM_none]
    exact onlyReads_pure none
  | some a =>
    rw [Option.mapM_some]
    exact onlyReads_map some (h a)

theorem onlyReads_standardize (path : Text) : (standardize path).OnlyReads :=
  onlyReads_bind onlyReads_read fun scene => onlyReads_pure (Path.standardize scene.cwd path)

theorem onlyReads_hasDirectory (path : Text) : (hasDirectory path).OnlyReads :=
  onlyReads_bind onlyReads_read fun _ => onlyReads_pure _

theorem onlyReads_readBytes (path : Text) : (readBytes path).OnlyReads := by
  refine onlyReads_bind onlyReads_read fun scene => ?_
  split
  · exact onlyReads_fault _
  · exact onlyReads_pure _
  · exact onlyReads_fail (by simp)

theorem onlyReads_readSource (path : Text) : (readSource path).OnlyReads := by
  refine onlyReads_bind (onlyReads_readBytes path) fun bytes => ?_
  split
  · exact onlyReads_pure _
  · exact onlyReads_fail (by simp)

end Inquiry

open Inquiry

theorem SymbolTable.claimAll_ne_unwritable (table : SymbolTable) (path : Text) (names : List Text)
    (at' : Text) (cause : Option Text) :
    table.claimAll path names ≠ .error (.unwritable at' cause) := by
  induction names generalizing table with
  | nil => simp [claimAll]
  | cons name rest ih =>
    rw [claimAll]
    split
    next table' _ => exact ih table'
    next reason hclaim =>
      rw [claim] at hclaim
      split at hclaim
      next owner _ =>
        split at hclaim
        · cases hclaim
        · rw [← Except.error.inj hclaim]
          simp
      next => cases hclaim

theorem onlyReads_extract {claim : List Text → Except Failure α}
    (hclaim : ∀ names path cause, claim names ≠ .error (.unwritable path cause))
    (path text : Text) : (extract claim path text).OnlyReads := by
  refine onlyReads_bind onlyReads_read fun scene => ?_
  refine onlyReads_bind (onlyReads_tellAll _) fun _ => ?_
  split
  · exact onlyReads_bind (onlyReads_map _ (onlyReads_orFail (hclaim _))) fun _ => onlyReads_fault _
  · exact onlyReads_bind (onlyReads_orFail (hclaim _)) fun _ =>
      onlyReads_bind (onlyReads_tell _) fun _ => onlyReads_pure _

theorem onlyReads_readRecord (table : SymbolTable) (path : Text) :
    (readRecord table path).OnlyReads := by
  refine onlyReads_bind (onlyReads_standardize path) fun path => ?_
  refine onlyReads_bind (onlyReads_readSource path) fun text => ?_
  exact onlyReads_extract (table.claimAll_ne_unwritable path) path text

theorem onlyReads_readRecords (table : SymbolTable) (seen paths : List Text) :
    (readRecords table seen paths).OnlyReads := by
  induction paths generalizing table seen with
  | nil => exact onlyReads_pure _
  | cons path rest ih =>
    have hread := onlyReads_bind (onlyReads_tell (.readingSource path)) fun _ =>
      onlyReads_bind (onlyReads_readRecord table path) fun found =>
        onlyReads_bind (ih found.2 (path :: seen)) fun others =>
          onlyReads_pure (found.1 :: others.1, others.2)
    rw [readRecords]
    split
    · exact onlyReads_bind (onlyReads_fail (by simp)) fun _ => hread
    · exact hread

theorem onlyReads_collectSources (options : BreakOptions) :
    (collectSources options).OnlyReads := by
  have hmatching (pattern : Text) : (sourcesMatching options pattern).OnlyReads :=
    onlyReads_bind onlyReads_read fun _ =>
      onlyReads_bind (onlyReads_orFault _) fun _ => onlyReads_pure _
  have hfound : (do
      let found ← options.patterns.mapM (sourcesMatching options)
      return sortBy Text.le found.flatten.eraseDups : Inquiry (List Text)).OnlyReads :=
    onlyReads_bind (onlyReads_mapM hmatching options.patterns) fun _ => onlyReads_pure _
  refine onlyReads_bind (onlyReads_hasDirectory _) fun isDirectory => ?_
  split
  · exact onlyReads_bind (onlyReads_fail (by simp)) fun _ => hfound
  · exact hfound

theorem sortRecords_ne_unwritable (records : List FileRecord) (table : SymbolTable) (path : Text)
    (cause : Option Text) :
    Dependency.sortRecords records table ≠ .error (.unwritable path cause) := by
  rw [Dependency.sortRecords, Dependency.graph?]
  split
  · simp [bind, Except.bind]
  · simp only [bind, Except.bind]
    split <;> simp [pure, Except.pure, throw, throwThe, MonadExceptOf.throw]

theorem onlyReads_orderRecords (records : List FileRecord) (table : SymbolTable) :
    (orderRecords records table).OnlyReads := by
  refine onlyReads_bind (onlyReads_tellAll _) fun _ => ?_
  refine onlyReads_bind onlyReads_read fun scene => ?_
  split
  · exact onlyReads_fault .tooDeep
  split
  · exact onlyReads_pure _
  next reason hsorted =>
    have hfail : (fail reason : Inquiry (List FileRecord)).OnlyReads := by
      apply onlyReads_fail
      intro path cause heq
      exact sortRecords_ne_unwritable records table path cause (heq ▸ hsorted)
    refine onlyReads_bind (onlyReads_tellAll _) fun _ => ?_
    split
    · exact onlyReads_bind (onlyReads_tellAll _) fun _ => hfail
    · exact hfail

theorem onlyReads_redirectSource (indexPath : Text) (table : SymbolTable) (record : FileRecord) :
    (redirectSource indexPath table record).OnlyReads := by
  refine onlyReads_bind (onlyReads_readSource _) fun text => ?_
  refine onlyReads_bind onlyReads_read fun scene => ?_
  refine onlyReads_bind (onlyReads_orFault _) fun specifier => ?_
  exact onlyReads_bind (onlyReads_tellAll _) fun _ => onlyReads_pure _

theorem onlyReads_requireIndex (indexPath entryPath : Text) :
    (requireIndex indexPath entryPath).OnlyReads := by
  refine onlyReads_bind (onlyReads_readSource _) fun text => ?_
  refine onlyReads_bind onlyReads_read fun scene => ?_
  refine onlyReads_bind (onlyReads_orFault _) fun specifier => ?_
  exact onlyReads_bind (onlyReads_tellAll _) fun _ => onlyReads_pure _

/-- Nothing is written while a run is planned, and the plan is decided by the tree alone. -/
theorem onlyReads_planBreak (options : BreakOptions) : (planBreak options).OnlyReads := by
  refine onlyReads_bind onlyReads_read fun scene => ?_
  refine onlyReads_bind (onlyReads_collectSources _) fun sources => ?_
  refine onlyReads_bind (onlyReads_tellAll _) fun _ => ?_
  refine onlyReads_bind (onlyReads_tellAll _) fun _ => ?_
  refine onlyReads_bind (onlyReads_readRecords _ _ _) fun (records, table) => ?_
  refine onlyReads_bind (onlyReads_orderRecords _ _) fun ordered => ?_
  refine onlyReads_bind (onlyReads_mapM (onlyReads_redirectSource _ table) ordered)
    fun updates => ?_
  refine onlyReads_bind (onlyReads_option_mapM (onlyReads_requireIndex _) _) fun entry => ?_
  refine onlyReads_bind (onlyReads_orFault _) fun declaration => ?_
  exact onlyReads_bind onlyReads_read fun scene => onlyReads_pure _

end Disentangle
