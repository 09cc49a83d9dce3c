import Disentangle.Proofs.Files.Removal

/-!
Writing to a file that can be read. Such a write is never refused, by whatever steps the file is
reached: the directories on the way are there, none is made, and the same steps lead to the same
place afterwards.
-/

namespace Disentangle.FileTree

variable {tree : FileTree} {place up : Location} {steps : List Text} {name : Text}
  {content old : List UInt8}

theorem read_of_locate (hlocate : tree.locate steps = .ok place)
    (hnode : tree.node? place = some (.file content)) : tree.read steps = .ok content := by
  simp [read, find_of_locate hlocate hnode, bind, Except.bind, pure, Except.pure]

/-- With another file in place of a file the same steps lead to the same places. -/
theorem locate_set_file (hnode : tree.node? place = some (.file old)) (steps : List Text) :
    (tree.set place (.file content)).locate steps = tree.locate steps := by
  have hplace : place ≠ [] := HasFileAt.ne_nil ⟨old, hnode⟩
  have hstep : (tree.set place (.file content)).step = tree.step := by
    funext start name
    unfold step
    rw [node?_set hplace]
    by_cases hstart : start = place
    · rw [if_pos hstart, hstart, hnode]
    · rw [if_neg hstart]
  rw [locate, hstep, locate]

/-- Where a directory is none is made. -/
theorem makeDirectories_of_locate (hlocate : tree.locate steps = .ok up)
    (hnode : tree.node? up = some .directory) :
    tree.makeDirectories steps.reverse = (tree, none) := by
  rcases List.eq_nil_or_concat' steps with rfl | ⟨front, last, rfl⟩
  · rfl
  · have hthere : tree.makeDirectoryIfNone (front ++ [last]) = .ok tree := by
      rw [makeDirectoryIfNone_of_locate hlocate hnode, if_pos rfl]
    rw [List.reverse_concat]
    simp only [makeDirectories, List.reverse_cons, List.reverse_reverse, hthere]

/-- A file that can be read can be written, and what is read of it then is what was written. -/
theorem write_of_read (h : tree.read steps = .ok old) (content : List UInt8) :
    ∃ after, tree.write steps content = (after, none) ∧ after.read steps = .ok content := by
  obtain ⟨place, hlocate, hnode⟩ := exists_locate_of_read h
  have hplace : place ≠ [] := HasFileAt.ne_nil ⟨old, hnode⟩
  obtain rfl | ⟨front, last, rfl⟩ := List.eq_nil_or_concat' steps
  · exact absurd (Except.ok.inj hlocate).symm hplace
  obtain ⟨up, hup, hdirectory, -⟩ := exists_of_locate_concat hlocate
  have hmake : tree.makeDirectories (front ++ [last]).reverse.tail = (tree, none) := by
    rw [List.reverse_concat, List.tail_cons]
    exact makeDirectories_of_locate hup hdirectory
  have hput : tree.putFile (front ++ [last]) content = .ok (tree.set place (.file content)) := by
    simp [putFile, hlocate, bind, Except.bind, hnode, pure, Except.pure]
  refine ⟨tree.set place (.file content), by simp only [write, hmake, hput], ?_⟩
  refine read_of_locate ((locate_set_file hnode _).trans hlocate) ?_
  rw [node?_set hplace, if_pos rfl]

end Disentangle.FileTree
