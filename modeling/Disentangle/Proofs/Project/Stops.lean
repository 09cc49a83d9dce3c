import Disentangle.Proofs.Files.Leading
import Disentangle.Proofs.Files.Removal
import Disentangle.Proofs.Path.Direct
import Disentangle.Proofs.Project.Success

/-!
What becomes of writes. After one write the file is there, or the write stops, and then neither this
file nor any other has changed; at most the directories on the way to it have been made, namely
where these can be made and only then the text or the last name turns out to be impossible. Writes
that are made one after another end with the first that stops.
-/

namespace Disentangle

/-- No name in the path and no character in the text keeps the text from being written there. -/
structure Platform.Accepts (platform : Platform) (path text : Text) : Prop where
  path : platform.pathFault? (Path.components path) = none
  text : platform.textFault? text = none

/-- How the write of a text to a path that leads to a place stops: with which problem, and with
which tree. The text may be one that could not be rendered. -/
inductive Scene.Stops (scene : Scene) (path : Text) (place : Location) :
    Except Fault Text → Problem → FileTree → Prop where
  | unrendered (fault : Fault) : Stops scene path place (.error fault) (.fault fault) scene.tree
  /-- Nothing can have the name of a directory on the way. -/
  | unnamed {text : Text} {fault : Fault}
      (h : scene.platform.pathFault? (Path.components path).dropLast = some fault) :
      Stops scene path place (.ok text) (.fault fault) scene.tree
  | refused {text : Text} (cause : Option Text) (h : scene.tree.Blocks place) :
      Stops scene path place (.ok text) (.failure (.unwritable path cause)) scene.tree
  /-- The directories have been made when the text or the name of the file is found to be
  impossible. -/
  | abandoned {text : Text} {fault : Fault} {after : FileTree}
      (h : (scene.platform.textFault? text).or
        (scene.platform.pathFault? (Path.components path)) = some fault)
      (hmade : scene.tree.Extended place.dropLast after) :
      Stops scene path place (.ok text) (.fault fault) after

namespace Platform

variable {platform : Platform} {names others : List Text} {text : Text}

theorem pathFault?_eq_none_iff :
    platform.pathFault? names = none ↔
      ∀ name ∈ names, ∀ c ∈ name, platform.lacksName c = false ∧ c ≠ '\x00' := by
  have hname : names.any (·.any platform.lacksName) = false ↔
      ∀ name ∈ names, ∀ c ∈ name, platform.lacksName c = false := by
    simp [List.any_eq_false]
  have hnull : names.any (·.contains '\x00') = false ↔
      ∀ name ∈ names, ∀ c ∈ name, c ≠ '\x00' := by
    simp only [List.any_eq_false, List.contains_iff_mem]
    exact ⟨fun h name hn c hc heq => h name hn (heq ▸ hc), fun h name hn hc => h name hn _ hc rfl⟩
  simp only [forall_and, ← hname, ← hnull, pathFault?]
  cases names.any (·.any platform.lacksName) <;> cases names.any (·.contains '\x00') <;> simp

/-- Fewer names are possible where all of them are. -/
theorem pathFault?_of_subset (h : platform.pathFault? names = none) (hsubset : others ⊆ names) :
    platform.pathFault? others = none := by
  rw [pathFault?_eq_none_iff] at h ⊢
  exact fun name hname => h name (hsubset hname)

theorem eq_of_textFault? {fault : Fault} (h : platform.textFault? text = some fault) :
    fault = .unencodable := by
  rw [textFault?] at h
  split at h
  · exact (Option.some.inj h).symm
  · cases h

theorem textFault?_eq_none_iff :
    platform.textFault? text = none ↔ ∀ c ∈ text, platform.lacksEncoding c = false := by
  rw [textFault?]
  cases hany : text.any platform.lacksEncoding with
  | true => simpa using hany
  | false => simpa using hany

end Platform

namespace Scene

variable {scene : Scene} {path text : Text} {place : Location}

/-- A write along plain names puts the file where it belongs, or it stops. -/
theorem write_cases (hgrounded : scene.tree.Grounded) (habsolute : Path.isAbsolute path = true)
    (hleads : FileTree.LeadsTo (Path.components path) place) (text : Text) :
    (∃ after, scene.write path text = (after, none) ∧ scene.platform.Accepts path text ∧
      scene.tree.Written place (Utf8.encode text) after) ∨
    ∃ problem after, scene.write path text = (after, some problem) ∧
      scene.Stops path place (.ok text) problem after := by
  have hsteps := Path.steps_of_isAbsolute habsolute scene
  have hdown : FileTree.LeadsDown place.dropLast :=
    fun name hname => hleads.down name (List.dropLast_subset place hname)
  rw [write, hsteps]
  split
  next fault _ hparent => exact Or.inr ⟨_, _, rfl, .unnamed hparent⟩
  next hparent hnone =>
    obtain ⟨htext, hpath⟩ := Option.or_eq_none_iff.mp hnone
    rw [hleads.write_eq]
    rcases FileTree.write_outcome hgrounded hleads.down (Utf8.encode text) with
      ⟨refusal, hwrite, hblocks⟩ | ⟨after, hwrite, hwritten⟩
    · rw [hwrite]
      exact Or.inr ⟨_, _, rfl, .refused _ hblocks⟩
    · rw [hwrite]
      exact Or.inl ⟨after, rfl, ⟨hpath, htext⟩, hwritten⟩
  next hparent fault hfault =>
    rw [hleads.makeDirectories_eq]
    rcases FileTree.makeDirectories_outcome hgrounded hdown with
      ⟨refusal, up, content, hmake, hup, hfile⟩ | ⟨after, hmake, hmade⟩
    · rw [hmake]
      have hroot : place ≠ [] := by
        rintro rfl
        cases (FileTree.node?_nil scene.tree).symm.trans (List.prefix_nil.mp hup ▸ hfile)
      obtain ⟨hstart, hne⟩ := (FileTree.prefix_dropLast_iff hroot).mp hup
      exact Or.inr ⟨_, _, rfl, .refused _ (Or.inr ⟨up, content, hstart, hne, hfile⟩)⟩
    · rw [hmake]
      exact Or.inr ⟨_, _, rfl, .abandoned hfault hmade⟩

/-- Only what is impossible stops a write with a fault. -/
theorem Stops.not_accepts {fault : Fault} {after : FileTree}
    (h : scene.Stops path place (.ok text) (.fault fault) after) :
    ¬ scene.platform.Accepts path text := by
  intro haccepts
  cases h with
  | unnamed hparent =>
    have hnone := Platform.pathFault?_of_subset haccepts.path (List.dropLast_subset _)
    cases hnone.symm.trans hparent
  | abandoned hfault _ =>
    rw [haccepts.text, haccepts.path] at hfault
    cases hfault

/-- A write that stops leaves what stood there. -/
theorem Stops.extends {rendered : Except Fault Text} {problem : Problem} {after : FileTree}
    (h : scene.Stops path place rendered problem after) : scene.tree.Extends after := by
  cases h with
  | unrendered | unnamed | refused => exact .refl _
  | abandoned _ hmade => exact (FileTree.Extends.refl _).extended hmade

/-- A write stops where it is refused, or with a fault where a name or a character is impossible. -/
theorem Stops.refused_or_fault {problem : Problem} {after : FileTree}
    (h : scene.Stops path place (.ok text) problem after) :
    (∃ cause, problem = .failure (.unwritable path cause)) ∨
      ∃ fault, problem = .fault fault ∧ ¬ scene.platform.Accepts path text := by
  cases problem with
  | fault fault => exact Or.inr ⟨fault, rfl, h.not_accepts⟩
  | failure reason =>
    cases h with
    | refused cause => exact Or.inl ⟨cause, rfl⟩

/-- Over a file that is there only the text can be impossible to write. -/
theorem Stops.of_hasFileAt {problem : Problem} {after : FileTree}
    (h : scene.Stops path place (.ok text) problem after) (hgrounded : scene.tree.Grounded)
    (hfile : scene.tree.HasFileAt place)
    (hpath : scene.platform.pathFault? (Path.components path) = none) :
    problem = .fault .unencodable ∧ scene.platform.textFault? text = some .unencodable := by
  cases h with
  | unnamed hparent =>
    have hnone := Platform.pathFault?_of_subset hpath (List.dropLast_subset _)
    cases hnone.symm.trans hparent
  | refused _ hblocks => exact absurd hblocks (hfile.not_blocks hgrounded)
  | abandoned hfault _ =>
    rw [hpath, Option.or_none] at hfault
    cases Platform.eq_of_textFault? hfault
    exact ⟨rfl, hfault⟩

/-- Makes writes one after another, up to one that stops or whose text could not be rendered. -/
def writeAll (scene : Scene) : List (Text × Except Fault Text) → FileTree × Option Problem
  | [] => (scene.tree, none)
  | (_, .error fault) :: _ => (scene.tree, some (.fault fault))
  | (path, .ok text) :: rest =>
    match scene.write path text with
    | (tree, some problem) => (tree, some problem)
    | (tree, none) => { scene with tree }.writeAll rest

theorem writeAll_append (scene : Scene) (writes later : List (Text × Except Fault Text)) :
    scene.writeAll (writes ++ later) =
      match scene.writeAll writes with
      | (tree, some problem) => (tree, some problem)
      | (tree, none) => { scene with tree }.writeAll later := by
  induction writes generalizing scene with
  | nil => rfl
  | cons write rest ih =>
    obtain ⟨path, fault | text⟩ := write
    · rfl
    · rw [List.cons_append, writeAll, writeAll]
      split
      next => rfl
      next tree _ => exact ih { scene with tree }

end Scene

/-- Writing comes to what the tree allows. -/
theorem Work.outcome_writeSource (path text : Text) (before : Workspace) :
    (writeSource path text).outcome before =
      match before.scene.write path text with
      | (tree, problem) => (problem.elim (.ok ()) .error,
          { before with scene := { before.scene with tree } }) := rfl

/-- The tree `after` comes about from `before` by writing texts to paths, one after another. -/
def FileTree.WrittenAll : FileTree → List (Text × Text) → FileTree → Prop
  | before, [], after => after = before
  | before, (path, text) :: rest, after =>
    ∃ middle, before.Written (Path.components path) (Utf8.encode text) middle ∧
      middle.WrittenAll rest after

/-- Writes whose texts could all be rendered. -/
def rendered (writes : List (Text × Text)) : List (Text × Except Fault Text) :=
  writes.map fun (path, text) => (path, .ok text)

/-- Writes to paths that lead straight down are all made, or the first that stops leaves those
before it. -/
theorem Scene.writeAll_cases {planned : List (Text × Except Fault Text)} (scene : Scene)
    (hgrounded : scene.tree.Grounded) (hdirect : ∀ write ∈ planned, Path.IsDirect write.1) :
    (∃ writes after, planned = rendered writes ∧ scene.writeAll planned = (after, none) ∧
      (∀ write ∈ writes, scene.platform.Accepts write.1 write.2) ∧
      scene.tree.WrittenAll writes after) ∨
    ∃ done path text rest middle problem after, planned = rendered done ++ (path, text) :: rest ∧
      scene.writeAll planned = (after, some problem) ∧
      (∀ write ∈ done, scene.platform.Accepts write.1 write.2) ∧
      scene.tree.WrittenAll done middle ∧
      Stops { scene with tree := middle } path (Path.components path) text problem after := by
  induction planned generalizing scene with
  | nil => exact Or.inl ⟨[], scene.tree, rfl, rfl, by simp, rfl⟩
  | cons write rest ih =>
    rw [List.forall_mem_cons] at hdirect
    obtain ⟨hpath, hrest⟩ := hdirect
    obtain ⟨path, fault | text⟩ := write
    · exact Or.inr ⟨[], path, _, rest, scene.tree, _, _, rfl, rfl, by simp, rfl, .unrendered fault⟩
    rcases write_cases hgrounded hpath.absolute (.self hpath.leadsDown) text with
      ⟨middle, hwrite, haccepts, hwritten⟩ | ⟨problem, after, hwrite, hstops⟩
    · have hstep : scene.writeAll ((path, .ok text) :: rest) =
          { scene with tree := middle }.writeAll rest := by
        rw [writeAll, hwrite]
      rw [hstep]
      rcases ih { scene with tree := middle } (hwritten.grounded hgrounded) hrest with
        ⟨writes, after, rfl, hall, hothers, hlater⟩ |
        ⟨done, path', text', more, last, problem, after, rfl, hall, hothers, hlater, hstops⟩
      · exact Or.inl ⟨(path, text) :: writes, after, rfl, hall,
          List.forall_mem_cons.mpr ⟨haccepts, hothers⟩, middle, hwritten, hlater⟩
      · exact Or.inr ⟨(path, text) :: done, path', text', more, last, problem, after, rfl, hall,
          List.forall_mem_cons.mpr ⟨haccepts, hothers⟩, ⟨middle, hwritten, hlater⟩, hstops⟩
    · exact Or.inr ⟨[], path, _, rest, scene.tree, problem, after, rfl, by rw [writeAll, hwrite],
        by simp, rfl, hstops⟩

end Disentangle
