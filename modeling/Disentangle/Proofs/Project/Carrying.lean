import Disentangle.Proofs.Files.Pruning
import Disentangle.Proofs.Project.Places

/-!
What a move makes of the files of a tree. What they hold is followed as a function of their places:
each write changes it at one place, and no two writes of a move go to one place. Behind the writes
nothing but the old files is taken away, and then directories that hold nothing.
-/

namespace Disentangle

open Inquiry Work

/-- What the files hold when texts have been written to paths, one after another. -/
def writtenTo (files : Location → Option (List UInt8)) (writes : List (Text × Text)) :
    Location → Option (List UInt8) :=
  writes.foldl (fun files write =>
    Function.update files (Path.components write.1) (some (Utf8.encode write.2))) files

section WrittenTo

variable {files : Location → Option (List UInt8)} {writes : List (Text × Text)}
  {write : Text × Text} {place : Location}

theorem writtenTo_concat (files : Location → Option (List UInt8)) (writes : List (Text × Text))
    (write : Text × Text) :
    writtenTo files (writes ++ [write]) =
      Function.update (writtenTo files writes) (Path.components write.1)
        (some (Utf8.encode write.2)) := by
  rw [writtenTo, List.foldl_append]
  rfl

theorem writtenTo_of_forall_ne (h : ∀ write ∈ writes, Path.components write.1 ≠ place) :
    writtenTo files writes place = files place := by
  induction writes using List.reverseRecOn with
  | nil => rfl
  | append_singleton writes last ih =>
    rw [List.forall_mem_append, List.forall_mem_singleton] at h
    rw [writtenTo_concat, Function.update_of_ne h.2.symm, ih h.1]

/-- Where all writes to one place are the same, each of them is there. -/
theorem writtenTo_of_mem (hsame : ∀ other ∈ writes,
      Path.components other.1 = Path.components write.1 → other = write) (h : write ∈ writes) :
    writtenTo files writes (Path.components write.1) = some (Utf8.encode write.2) := by
  induction writes using List.reverseRecOn with
  | nil => cases h
  | append_singleton writes last ih =>
    rw [List.forall_mem_append, List.forall_mem_singleton] at hsame
    rw [writtenTo_concat]
    by_cases hlast : Path.components last.1 = Path.components write.1
    · rw [hsame.2 hlast, Function.update_self]
    · rw [Function.update_of_ne (Ne.symm hlast)]
      refine ih hsame.1 ((List.mem_append.mp h).resolve_right fun hmem => hlast ?_)
      rw [List.mem_singleton.mp hmem]

end WrittenTo

namespace Relocation

/-- What the text of a source becomes. -/
def textAfter (moved : Relocation) (scene : Scene) (path text : Text) : Text :=
  (scene.extraction path text).record.retargetImports (moved.retarget scene.cwd path) text

end Relocation

section Outputs

variable {scene : SoundScene} {plan : MovePlan} {root source target pattern : Text}
  {others : List Text}
  {path text : Text}

namespace MovePlan.MadeOf

/-- What is written is the text of a source that was read, at its path afterwards; the source moves,
or its text changes. -/
theorem of_mem_outputs (h : plan.MadeOf scene root source target pattern others)
    {write : Text × Text} (hwrite : write ∈ plan.outputs) :
    ∃ path text, path ∈ plan.moved.pairs.map Prod.fst ++ others ∧
      scene.tree.HoldsText (Path.components path) text ∧
      write = (plan.moved.apply path, plan.moved.textAfter scene path text) ∧
      (plan.moved.has path = true ∨ plan.moved.textAfter scene path text ≠ text) := by
  obtain ⟨results, hresults, houtputs⟩ := h.exists_results
  rw [houtputs] at hwrite
  obtain ⟨output, houtput, hsome⟩ := List.mem_filterMap.mp hwrite
  cases (hsome : output = some write)
  obtain ⟨path, hpath, _, _, hmove⟩ := exists_of_mem_right hresults houtput
  obtain ⟨_, _, text, hread, heq⟩ := of_moveSource hmove
  dsimp only at heq
  split at heq
  next hcause =>
    rw [Bool.or_eq_true, decide_eq_true_eq] at hcause
    exact ⟨path, text, hpath, holdsText_of_readSource (h.isDirect_read hpath) hread,
      Option.some.inj heq, hcause⟩
  next => cases heq

/-- A source that is read is written, unless it stays as it is. -/
theorem mem_outputs (h : plan.MadeOf scene root source target pattern others)
    (hpath : path ∈ plan.moved.pairs.map Prod.fst ++ others)
    (htext : scene.tree.HoldsText (Path.components path) text) :
    (plan.moved.apply path, plan.moved.textAfter scene path text) ∈ plan.outputs ∨
      plan.moved.apply path = path ∧ plan.moved.textAfter scene path text = text := by
  obtain ⟨results, hresults, houtputs⟩ := h.exists_results
  obtain ⟨output, houtput, _, _, hmove⟩ := exists_of_mem_left hresults hpath
  obtain ⟨_, _, text', hread, heq⟩ := of_moveSource hmove
  cases htext.unique (holdsText_of_readSource (h.isDirect_read hpath) hread)
  dsimp only at heq
  split at heq
  next =>
    rw [houtputs]
    exact .inl (List.mem_filterMap.mpr ⟨output, houtput, heq⟩)
  next hstays =>
    rw [Bool.not_eq_true, Bool.or_eq_false_iff, decide_eq_false_iff_not, not_not] at hstays
    exact .inr ⟨Relocation.apply_of_not_has hstays.1, hstays.2⟩

theorem isDirect_output (h : plan.MadeOf scene root source target pattern others)
    (hslash : '/' ∉ pattern) {write : Text × Text}
    (hwrite : write ∈ plan.outputs) : Path.IsDirect write.1 := by
  obtain ⟨path, text, hpath, -, rfl, -⟩ := h.of_mem_outputs hwrite
  exact h.isDirect_apply hslash hpath

/-- A write to the place of a source afterwards is that of the source. -/
theorem eq_of_mem_outputs (h : plan.MadeOf scene root source target pattern others)
    (hslash : '/' ∉ pattern)
    (hpath : path ∈ plan.moved.pairs.map Prod.fst ++ others)
    (htext : scene.tree.HoldsText (Path.components path) text) {write : Text × Text}
    (hwrite : write ∈ plan.outputs)
    (hplace : Path.components write.1 = Path.components (plan.moved.apply path)) :
    write = (plan.moved.apply path, plan.moved.textAfter scene path text) := by
  obtain ⟨path', text', hpath', htext', rfl, -⟩ := h.of_mem_outputs hwrite
  cases h.eq_of_apply hslash hpath' hpath hplace
  cases htext'.unique htext
  rfl

theorem writtenTo_of_mem_outputs (h : plan.MadeOf scene root source target pattern others)
    (hslash : '/' ∉ pattern) {write : Text × Text}
    (hwrite : write ∈ plan.outputs) :
    writtenTo scene.tree.content? plan.outputs (Path.components write.1) =
      some (Utf8.encode write.2) := by
  obtain ⟨path, text, hpath, htext, rfl, -⟩ := h.of_mem_outputs hwrite
  exact writtenTo_of_mem
    (fun other hother => h.eq_of_mem_outputs hslash hpath htext hother) hwrite

/-- Once all is written, each source that was read holds its text at its place afterwards. -/
theorem exists_writtenTo (h : plan.MadeOf scene root source target pattern others)
    (hslash : '/' ∉ pattern)
    (hpath : path ∈ plan.moved.pairs.map Prod.fst ++ others)
    (htext : scene.tree.HoldsText (Path.components path) text) :
    ∃ content, writtenTo scene.tree.content? plan.outputs
        (Path.components (plan.moved.apply path)) = some content ∧
      Utf8.decode content = .ok (plan.moved.textAfter scene path text) := by
  rcases h.mem_outputs hpath htext with hwrite | ⟨happly, hsame⟩
  · exact ⟨_, h.writtenTo_of_mem_outputs hslash hwrite, Utf8.decode_encode _⟩
  · by_cases hwritten : ∃ write ∈ plan.outputs,
        Path.components write.1 = Path.components (plan.moved.apply path)
    · obtain ⟨write, hwrite, hplace⟩ := hwritten
      cases h.eq_of_mem_outputs hslash hpath htext hwrite hplace
      exact ⟨_, h.writtenTo_of_mem_outputs hslash hwrite, Utf8.decode_encode _⟩
    · obtain ⟨content, hnode, hdecode⟩ := htext
      refine ⟨content, ?_, by rw [hsame, hdecode]⟩
      rw [writtenTo_of_forall_ne fun write hwrite hplace => hwritten ⟨write, hwrite, hplace⟩,
        happly, FileTree.content?_eq_some_iff, hnode]

theorem apply_old (h : plan.MadeOf scene root source target pattern others)
    {pair : Text × Text} (hpair : pair ∈ plan.moved.pairs) :
    plan.moved.apply pair.1 = pair.2 := by
  obtain ⟨new, hpair', happly, -⟩ := Relocation.exists_pair (List.mem_map_of_mem hpair)
  have hsame : pair = (pair.1, new) := List.inj_on_of_nodup_map h.nodup_olds hpair hpair' rfl
  rw [happly, (Prod.ext_iff.mp hsame).2]

/-- Nothing goes where a file was that moves. -/
theorem old_ne_new (h : plan.MadeOf scene root source target pattern others)
    (hslash : '/' ∉ pattern) {pair pair' : Text × Text}
    (hpair : pair ∈ plan.moved.pairs) (hpair' : pair' ∈ plan.moved.pairs) :
    Path.components pair'.1 ≠ Path.components pair.2 := by
  intro heq
  obtain ⟨content, hnode⟩ := h.hasFileAt_old hpair'
  cases (heq ▸ h.node?_new hslash hpair).symm.trans hnode

end MovePlan.MadeOf

end Outputs

namespace Work

variable {platform : Platform} {files : Location → Option (List UInt8)}
  {writes : List (Text × Text)} {place : Location}

/-- Writes change what the files hold, and every directory stays one. -/
theorem leaves_writes (hdirect : ∀ write ∈ writes, Path.IsDirect write.1) :
    (writes.forM fun write => writeSource write.1 write.2).Leaves platform
      (fun tree => tree.Grounded ∧ tree.node? place = some .directory ∧ tree.content? = files)
      (fun tree => tree.Grounded ∧ tree.node? place = some .directory ∧
        tree.content? = writtenTo files writes)
      fun _ _ => True := by
  induction writes generalizing files with
  | nil => exact leaves_pure ()
  | cons write rest ih =>
    rw [List.forall_mem_cons] at hdirect
    refine leaves_bind ?_ fun _ => ih hdirect.2
    refine leaves_writeSource hdirect.1.absolute (.self hdirect.1.leadsDown)
      (fun _ hbefore => hbefore.1) ?_ fun _ _ _ _ _ _ => trivial
    rintro tree after ⟨hgrounded, hdirectory, rfl⟩ hwritten
    refine ⟨hwritten.grounded hgrounded, ?_, hwritten.content?_eq⟩
    refine hwritten.node?_of_ne hdirectory ?_
    rintro rfl
    exact hwritten.1 (.inl hdirectory)

theorem leaves_writes_listsOnce (writes : List (Text × Text)) :
    (writes.forM fun write => writeSource write.1 write.2).Leaves platform FileTree.ListsOnce
      FileTree.ListsOnce fun _ _ => True :=
  leaves_forM fun _ _ => leaves_writeSource_keeps (fun _ _ _ hlists => hlists.set _ _) _ _

end Work

/-- The places of the files that move. -/
def Relocation.oldPlaces (moved : Relocation) : List Location :=
  moved.pairs.map fun pair => Path.components pair.1

theorem Relocation.mem_oldPlaces {moved : Relocation} {place : Location} :
    place ∈ moved.oldPlaces ↔ ∃ pair ∈ moved.pairs, Path.components pair.1 = place :=
  List.mem_map

/-- A tree in which all is written that a plan has to write, and nothing has been taken away. -/
structure MovePlan.Prepared (plan : MovePlan) (before written : FileTree) : Prop where
  grounded : written.Grounded
  listsOnce : written.ListsOnce
  folder : written.node? (Path.components plan.source) = some .directory
  holds : written.content? = writtenTo before.content? plan.outputs
  olds : ∀ place ∈ plan.moved.oldPlaces, written.HasFileAt place

/-- What a plan makes of a tree when it is carried out. What moves is gone from its old place; at
all other places the files hold what was written to them, or what they held before; and in the
folder no directory is empty. -/
structure MovePlan.CarriedOut (plan : MovePlan) (before after : FileTree) : Prop where
  gone : ∀ pair ∈ plan.moved.pairs, after.node? (Path.components pair.1) = none
  holds : ∀ place, (∀ pair ∈ plan.moved.pairs, Path.components pair.1 ≠ place) →
    after.content? place = writtenTo before.content? plan.outputs place
  filled : Path.components plan.source ≠ [] →
    ∀ place, Path.components plan.source <+: place → after.node? place = some .directory →
      ∃ name node, after.node? (place ++ [name]) = some node

section Stages

variable {scene : SoundScene} {plan : MovePlan} {root source target pattern : Text}
  {others : List Text}
  {before written : FileTree}

/-- The writes of a plan prepare a tree for what is to be taken away. -/
theorem MovePlan.MadeOf.leaves_prepared
    (h : plan.MadeOf scene root source target pattern others) (hslash : '/' ∉ pattern)
    (hsource : scene.tree.node? (Path.components plan.source) = some .directory) :
    (plan.outputs.forM fun write => writeSource write.1 write.2).Leaves scene.platform
      (· = scene.tree) (plan.Prepared scene.tree) fun _ _ => True := by
  intro before hplatform hbefore
  have hfiles := leaves_outputs h before hplatform hbefore
  have hwrites := leaves_writes (fun write hwrite => h.isDirect_output hslash hwrite) before
    hplatform ⟨hbefore ▸ scene.grounded, hbefore ▸ hsource, congrArg FileTree.content? hbefore⟩
  have hlisted := leaves_writes_listsOnce plan.outputs before hplatform
    (hbefore ▸ scene.listsOnce)
  refine ⟨fun _ after hrun => ?_, fun _ _ _ => trivial⟩
  obtain ⟨hsame, hgrounded, hfolder, hholds⟩ := hwrites.1 _ after hrun
  refine ⟨hsame, hgrounded, (hlisted.1 _ after hrun).2, hfolder, hholds, ?_⟩
  intro place hplace
  obtain ⟨pair, hpair, rfl⟩ := Relocation.mem_oldPlaces.mp hplace
  exact (hfiles.1 _ after hrun).2.2 _ (h.hasFileAt_old hpair)

namespace MovePlan.Prepared

theorem node?_erased (h : plan.Prepared before written) (place : Location) :
    (plan.moved.oldPlaces.foldl FileTree.erase written).node? place =
      if place ∈ plan.moved.oldPlaces then none else written.node? place :=
  FileTree.node?_foldl_erase (fun _ hold => (h.olds _ hold).ne_nil) place

theorem node?_folder_erased (h : plan.Prepared before written) :
    (plan.moved.oldPlaces.foldl FileTree.erase written).node? (Path.components plan.source) =
      some .directory :=
  FileTree.node?_foldl_erase_of_directory h.olds h.folder

/-- A plan is carried out by taking away the old files and then what is empty in the folder. -/
theorem carriedOut (h : plan.Prepared before written) :
    plan.CarriedOut before ((plan.moved.oldPlaces.foldl FileTree.erase written).pruneEmpty
      (Path.components plan.source)) := by
  have hlists := h.listsOnce.foldl_erase plan.moved.oldPlaces
  refine ⟨fun pair hpair => ?_, fun place hplace => ?_, fun hroot place hbelow hthere => ?_⟩
  · have hgone := h.node?_erased (Path.components pair.1)
    rw [if_pos (Relocation.mem_oldPlaces.mpr ⟨pair, hpair, rfl⟩)] at hgone
    exact (FileTree.node?_pruneEmpty_cases _ _ _).elim (·.trans hgone) id
  · have hother : place ∉ plan.moved.oldPlaces := by
      intro hmem
      obtain ⟨pair, hpair, heq⟩ := Relocation.mem_oldPlaces.mp hmem
      exact hplace pair hpair heq
    rw [hlists.content?_pruneEmpty h.node?_folder_erased,
      FileTree.content?_congr ((h.node?_erased place).trans (if_neg hother)), h.holds]
  · exact FileTree.exists_child_of_pruneEmpty hroot hbelow hthere

end MovePlan.Prepared

end Stages

/-- A move that succeeds has carried out a plan. -/
theorem exists_carriedOut_of_moveSources {root source target pattern : Text} {scene : SoundScene}
    {told : List Event} {after : Workspace} {moved : Relocation} (hslash : '/' ∉ pattern)
    (h : (moveSources root source target pattern).Succeeds ⟨scene, told⟩ moved after) :
    ∃ (plan : MovePlan) (others : List Text),
      plan.MadeOf scene root source target pattern others ∧ plan.moved = moved ∧
        plan.CarriedOut scene.tree after.scene.tree := by
  simp only [moveSources, Work.succeeds_bind, succeeds_inquire, Work.succeeds_pure, Work.tell] at h
  obtain ⟨plan, _, ⟨told', hplan, rfl⟩, _, written, hwrites, _, removed, hremovals, _, pruned,
    hprune, _, _, ⟨_, -, rfl⟩, rfl, rfl⟩ := h
  obtain ⟨others, hmade⟩ := madeOf_of_planMove hplan
  have hfolder := hmade.isCanonical_source.isDirect
  obtain ⟨hplatform, hprepared⟩ := (hmade.leaves_prepared hslash (node?_source_of_planMove hplan)
    ⟨scene, told'⟩ rfl rfl).1 _ _ hwrites
  have herased : (plan.moved.pairs.forM fun pair => removeSource pair.1).Leaves scene.platform
      (· = written.scene.tree) (· = plan.moved.oldPlaces.foldl FileTree.erase written.scene.tree)
      fun _ _ => True :=
    leaves_erased (fun pair hpair => (hmade.isCanonical_old hpair).isDirect)
      hmade.nodup_places hprepared.grounded
      fun pair hpair => hprepared.olds _ (Relocation.mem_oldPlaces.mpr ⟨pair, hpair, rfl⟩)
  have hremoved := ((herased written hplatform rfl).1 _ _ hremovals).2
  have hpruned : pruned.scene.tree = removed.scene.tree.pruneEmpty
      (removed.scene.tree.placeOf (removed.scene.steps plan.source)) :=
    congrArg (·.2.scene.tree) hprune.symm
  rw [Path.steps_of_isDirect hfolder, hremoved, FileTree.placeOf_of_directory
    (hprepared.grounded.foldl_erase hprepared.olds) hfolder.leadsDown
    hprepared.node?_folder_erased] at hpruned
  exact ⟨plan, others, hmade, rfl, hpruned ▸ hprepared.carriedOut⟩

end Disentangle
