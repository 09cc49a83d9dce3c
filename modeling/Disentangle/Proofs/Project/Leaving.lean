import Disentangle.Proofs.Files.Pruning
import Disentangle.Proofs.Project.Stops

/-!
What work leaves behind. A piece of work is described by what the tree is like before it, what it is
like when the work has succeeded, and what it is like when the work has stopped with a problem. Such
descriptions compose along the work, so a long piece of work is followed one step at a time.
-/

namespace Disentangle.Work

variable {α β : Type} {platform : Platform} {pre mid post : FileTree → Prop}
  {fails : Problem → FileTree → Prop}

/-- Begun on a platform and in a tree with `pre`, the work leaves a tree with `post` on the same
platform if it succeeds, and otherwise a problem and a tree with `fails`. -/
def Leaves (platform : Platform) (pre : FileTree → Prop) (work : Work α) (post : FileTree → Prop)
    (fails : Problem → FileTree → Prop) : Prop :=
  ∀ before : Workspace, before.scene.platform = platform → pre before.scene.tree →
    (∀ a after, work.outcome before = (.ok a, after) →
      after.scene.platform = platform ∧ post after.scene.tree) ∧
      ∀ problem after, work.outcome before = (.error problem, after) →
        fails problem after.scene.tree

/-- Work that succeeds in any case and changes the tree in one way. -/
theorem leaves_of_ok {work : Work α} {a : α} (change : Workspace → Workspace)
    (h : ∀ before, work.outcome before = (.ok a, change before))
    (hplatform : ∀ before, (change before).scene.platform = before.scene.platform)
    (hpost : ∀ before, pre before.scene.tree → post (change before).scene.tree) :
    work.Leaves platform pre post fails := by
  intro before hbefore hpre
  refine ⟨fun b after hrun => ?_, fun problem after hrun => ?_⟩
  · cases (h before).symm.trans hrun
    exact ⟨(hplatform before).trans hbefore, hpost before hpre⟩
  · cases (h before).symm.trans hrun

theorem leaves_pure (a : α) : (pure a : Work α).Leaves platform pre pre fails :=
  leaves_of_ok id (fun _ => rfl) (fun _ => rfl) fun _ hpre => hpre

theorem leaves_bind {work : Work α} {next : α → Work β} (h : work.Leaves platform pre mid fails)
    (hnext : ∀ a, (next a).Leaves platform mid post fails) :
    (work >>= next).Leaves platform pre post fails := by
  intro before hbefore hpre
  rw [outcome_bind]
  cases hrun : work.outcome before with
  | mk result middle =>
    cases result with
    | ok a =>
      obtain ⟨hplatform, hmid⟩ := (h before hbefore hpre).1 a middle hrun
      exact hnext a middle hplatform hmid
    | error problem =>
      refine ⟨fun b after hstop => ?_, fun problem' after hstop => ?_⟩
      · cases hstop
      · cases hstop
        exact (h before hbefore hpre).2 problem middle hrun

/-- A description stays true when it asks for more before the work and says less of what is left. -/
theorem Leaves.imp {work : Work α} {pre' post' : FileTree → Prop}
    {fails' : Problem → FileTree → Prop} (h : work.Leaves platform pre post fails)
    (hpre : ∀ tree, pre' tree → pre tree) (hpost : ∀ tree, post tree → post' tree)
    (hfails : ∀ problem tree, fails problem tree → fails' problem tree) :
    work.Leaves platform pre' post' fails' := by
  intro before hbefore htree
  obtain ⟨hok, herror⟩ := h before hbefore (hpre _ htree)
  refine ⟨fun a after hrun => ?_, fun problem after hrun => hfails _ _ (herror problem after hrun)⟩
  exact ⟨(hok a after hrun).1, hpost _ (hok a after hrun).2⟩

/-- Work for each item of a list keeps what the work for one item keeps. -/
theorem leaves_forM {work : α → Work Unit} {items : List α}
    (h : ∀ a ∈ items, (work a).Leaves platform pre pre fails) :
    (items.forM work).Leaves platform pre pre fails := by
  induction items with
  | nil => exact leaves_pure ()
  | cons a rest ih =>
    refine leaves_bind (h a List.mem_cons_self) fun _ => ?_
    exact ih fun b hb => h b (List.mem_cons_of_mem a hb)

theorem forM_append (work : α → Work Unit) (front back : List α) :
    (front ++ back).forM work = front.forM work >>= fun _ => back.forM work := by
  induction front with
  | nil => exact (pure_bind () fun _ => back.forM work).symm
  | cons a rest ih =>
    calc (a :: rest ++ back).forM work
        = work a >>= fun _ => (rest ++ back).forM work := rfl
      _ = work a >>= fun _ => rest.forM work >>= fun _ => back.forM work := by rw [ih]
      _ = (a :: rest).forM work >>= fun _ => back.forM work := (bind_assoc _ _ _).symm

theorem leaves_forM_append {work : α → Work Unit} {front back : List α}
    (hfront : (front.forM work).Leaves platform pre mid fails)
    (hback : (back.forM work).Leaves platform mid post fails) :
    ((front ++ back).forM work).Leaves platform pre post fails := by
  rw [forM_append]
  exact leaves_bind hfront fun _ => hback

/-- A write puts the file there, or it stops. -/
theorem leaves_writeSource {path text : Text} {place : Location}
    (habsolute : Path.isAbsolute path = true)
    (hleads : FileTree.LeadsTo (Path.components path) place)
    (hgrounded : ∀ tree, pre tree → tree.Grounded)
    (hwritten : ∀ tree after, pre tree → tree.Written place (Utf8.encode text) after → post after)
    (hstops : ∀ scene : Scene, scene.platform = platform → pre scene.tree → ∀ problem after,
      scene.Stops path place (.ok text) problem after → fails problem after) :
    (writeSource path text).Leaves platform pre post fails := by
  intro before hbefore hpre
  rw [outcome_writeSource]
  rcases Scene.write_cases (hgrounded _ hpre) habsolute hleads text with
    ⟨made, hwrite, -, hmade⟩ | ⟨met, made, hwrite, hmade⟩
  · rw [hwrite]
    refine ⟨fun a after hrun => ?_, fun problem after hrun => ?_⟩
    · cases hrun
      exact ⟨hbefore, hwritten _ _ hpre hmade⟩
    · cases hrun
  · rw [hwrite]
    refine ⟨fun a after hrun => ?_, fun problem after hrun => ?_⟩
    · cases hrun
    · cases hrun
      exact hstops _ hbefore hpre _ _ hmade

/-- What every new entry keeps, a write keeps, whether or not it stops. -/
theorem leaves_writeSource_keeps {keeps : FileTree → Prop}
    (hset : ∀ tree place node, keeps tree → keeps (tree.set place node)) (path text : Text) :
    (writeSource path text).Leaves platform keeps keeps fun _ _ => True := by
  have hwrite (scene : Scene) (h : keeps scene.tree) : keeps (scene.write path text).1 := by
    have hmake := FileTree.makeDirectories_keeps hset h (scene.steps path).reverse.tail
    rw [Scene.write]
    split
    next => exact h
    next => exact FileTree.write_keeps hset h _ _
    next =>
      split
      all_goals
        next hmade =>
          rw [hmade] at hmake
          exact hmake
  intro before hbefore hpre
  refine ⟨fun a after hrun => ?_, fun _ _ _ => trivial⟩
  rw [outcome_writeSource] at hrun
  cases (Prod.ext_iff.mp hrun).2
  exact ⟨hbefore, hwrite before.scene hpre⟩

/-- A file that is there is removed. -/
theorem leaves_removeSource {path : Text} (hpath : Path.IsDirect path)
    (hgrounded : ∀ tree, pre tree → tree.Grounded)
    (hfile : ∀ tree, pre tree → tree.HasFileAt (Path.components path))
    (herased : ∀ tree, pre tree → post (tree.erase (Path.components path))) :
    (removeSource path).Leaves platform pre post fails := by
  intro before hbefore hpre
  have hremove : before.scene.remove path =
      (before.scene.tree.erase (Path.components path), none) := by
    rw [Scene.remove, Path.steps_of_isDirect hpath,
      FileTree.remove_eq (hgrounded _ hpre) hpath.leadsDown (hfile _ hpre)]
    rfl
  have hrun : (removeSource path).outcome before =
      (.ok (), { before with
        scene := { before.scene with tree := before.scene.tree.erase (Path.components path) } }) := by
    simp only [removeSource, outcome, change, ExceptT.run, ExceptT.mk, StateT.run, hremove]
    rfl
  rw [hrun]
  refine ⟨fun a after heq => ?_, fun problem after heq => ?_⟩
  · cases heq
    exact ⟨hbefore, herased _ hpre⟩
  · cases heq

end Disentangle.Work
