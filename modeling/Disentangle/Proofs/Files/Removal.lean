import Disentangle.Proofs.Files.Contents

/-!
What a tree keeps while files are written and removed. A write at a place where nothing stood adds
to what was there; a write over a file leaves every file a file; removing a file takes that one
away and nothing else.
-/

namespace Disentangle.FileTree

variable {tree base before after : FileTree} {place place' : Location} {content : List UInt8}
  {node : Node}

/-- Everything that stands in one tree stands in another one as well. -/
def Extends (before after : FileTree) : Prop :=
  ∀ place node, before.node? place = some node → after.node? place = some node

theorem Extends.refl (tree : FileTree) : tree.Extends tree :=
  fun _ _ h => h

/-- A new file adds to what stood before other files were written. -/
theorem Extends.written (h : base.Extends before) (hfree : base.node? place = none)
    (hwritten : before.Written place content after) : base.Extends after := by
  intro p node hnode
  have hne : p ≠ place := by
    rintro rfl
    cases hfree.symm.trans hnode
  exact hwritten.node?_of_ne (h p node hnode) hne

/-- Directories are only added. -/
theorem Extends.extended (h : base.Extends before) (hextended : before.Extended place after) :
    base.Extends after := by
  intro p node hnode
  have hbefore := h p node hnode
  rw [hextended.2]
  split
  next hup =>
    cases node with
    | directory => rfl
    | file old => exact absurd hbefore (hextended.1 p old hup)
  next => exact hbefore

/-- A file stands at a place. -/
def HasFileAt (tree : FileTree) (place : Location) : Prop :=
  ∃ content, tree.node? place = some (.file content)

theorem HoldsText.hasFileAt {text : Text} (h : tree.HoldsText place text) :
    tree.HasFileAt place := by
  obtain ⟨content, hnode, -⟩ := h
  exact ⟨content, hnode⟩

theorem HasFileAt.extends (h : before.HasFileAt place) (hextends : before.Extends after) :
    after.HasFileAt place := by
  obtain ⟨old, hold⟩ := h
  exact ⟨old, hextends place _ hold⟩

theorem HasFileAt.written (h : before.HasFileAt place')
    (hwritten : before.Written place content after) : after.HasFileAt place' := by
  obtain ⟨old, hold⟩ := h
  by_cases hplace : place' = place
  · exact ⟨content, by rw [hwritten.2, if_pos hplace]⟩
  · exact ⟨old, hwritten.node?_of_ne hold hplace⟩

/-- Nothing is in the way of writing over a file. -/
theorem HasFileAt.not_blocks (h : tree.HasFileAt place) (htree : tree.Grounded) :
    ¬ tree.Blocks place := by
  obtain ⟨old, hold⟩ := h
  rintro (hdirectory | ⟨up, other, hup, hne, hfile⟩)
  · cases hold.symm.trans hdirectory
  · cases hfile.symm.trans (htree.above hold hup hne)

theorem lookup_filter_ne (entries : List (Location × Node)) (place p : Location) :
    (entries.filter (·.1 ≠ place)).lookup p = if p = place then none else entries.lookup p := by
  induction entries with
  | nil => simp
  | cons entry rest ih =>
    obtain ⟨key, node⟩ := entry
    by_cases hkey : key = place
    · rw [List.filter_cons_of_neg (by simp [hkey]), ih]
      by_cases hp : p = place
      · rw [if_pos hp, if_pos hp]
      · have hbeq : (p == key) = false := beq_eq_false_iff_ne.mpr (hkey ▸ hp)
        rw [if_neg hp, if_neg hp, List.lookup_cons, hbeq]
    · rw [List.filter_cons_of_pos (by simp [hkey]), List.lookup_cons, List.lookup_cons, ih]
      by_cases hp : p = place
      · have hbeq : (p == key) = false := beq_eq_false_iff_ne.mpr fun heq => hkey (heq ▸ hp)
        rw [if_pos hp, if_pos hp, hbeq]
      · rw [if_neg hp, if_neg hp]

theorem node?_erase (hplace : place ≠ []) (p : Location) :
    (tree.erase place).node? p = if p = place then none else tree.node? p := by
  by_cases hp : p = []
  · subst hp
    simp [hplace.symm]
  · rw [node?, if_neg hp, erase, lookup_filter_ne, node?, if_neg hp]

/-- Where a list of places is taken away, all else stays. -/
theorem node?_foldl_erase {places : List Location} (hplaces : ∀ place ∈ places, place ≠ [])
    (p : Location) :
    (places.foldl erase tree).node? p = if p ∈ places then none else tree.node? p := by
  induction places generalizing tree with
  | nil => simp
  | cons place rest ih =>
    rw [List.forall_mem_cons] at hplaces
    rw [List.foldl_cons, ih hplaces.2, node?_erase hplaces.1]
    by_cases hp : p = place
    · simp [hp]
    · simp [hp]

theorem HasFileAt.ne_nil (h : tree.HasFileAt place) : place ≠ [] := by
  rintro rfl
  obtain ⟨content, hnode⟩ := h
  cases (node?_nil tree).symm.trans hnode

/-- Nothing stands below a file, so a tree without it is as well built. -/
theorem Grounded.erase (h : tree.Grounded) (hfile : tree.HasFileAt place) :
    (tree.erase place).Grounded := by
  intro p node hnode
  rw [node?_erase hfile.ne_nil] at hnode ⊢
  split at hnode
  next => cases hnode
  next hp =>
    have hparent := h p node hnode
    have hne : p.dropLast ≠ place := by
      intro heq
      obtain ⟨content, hplace⟩ := hfile
      cases hplace.symm.trans (heq ▸ hparent)
    rw [if_neg hne, hparent]

section EraseFiles

variable {places : List Location}

theorem node?_foldl_erase_of_directory (hfiles : ∀ place ∈ places, tree.HasFileAt place)
    (h : tree.node? place = some .directory) :
    (places.foldl FileTree.erase tree).node? place = some .directory := by
  rw [node?_foldl_erase fun place hplace => (hfiles place hplace).ne_nil, if_neg, h]
  intro hmem
  obtain ⟨content, hfile⟩ := hfiles place hmem
  cases hfile.symm.trans h

theorem Grounded.foldl_erase (h : tree.Grounded) (hfiles : ∀ place ∈ places, tree.HasFileAt place) :
    (places.foldl FileTree.erase tree).Grounded := by
  intro p node hnode
  rw [node?_foldl_erase fun place hplace => (hfiles place hplace).ne_nil] at hnode
  split at hnode
  next => cases hnode
  next => exact node?_foldl_erase_of_directory hfiles (h p node hnode)

end EraseFiles

theorem HasFileAt.erase (h : tree.HasFileAt place') (hfile : tree.HasFileAt place)
    (hne : place' ≠ place) : (tree.erase place).HasFileAt place' := by
  obtain ⟨content, hnode⟩ := h
  exact ⟨content, by rw [node?_erase hfile.ne_nil, if_neg hne, hnode]⟩

/-- A file that stands where steps lead down can be removed. -/
theorem remove_eq (h : tree.Grounded) (hdown : LeadsDown place) (hfile : tree.HasFileAt place) :
    tree.remove place = (tree.erase place, none) := by
  obtain ⟨content, hnode⟩ := hfile
  have hlocate := locate_eq_ok h hdown (h place _ hnode)
  simp only [remove, hlocate, hnode]

end Disentangle.FileTree
