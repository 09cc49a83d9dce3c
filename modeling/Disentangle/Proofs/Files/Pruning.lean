import Disentangle.Proofs.Files.Contents
import Disentangle.Proofs.Files.Removal

/-!
What pruning keeps. A tree that lists every place once still does so whatever is written and
removed. In such a tree what is listed as a directory is one, so that pruning, which only takes
away places that are listed as directories and the one where it begins, keeps every file. It comes
to the inner directories first, so a directory that it leaves is not empty afterwards either.
-/

namespace Disentangle.FileTree

variable {tree : FileTree} {place place' : Location} {steps : List Text} {node : Node}
  {text : Text} {content : List UInt8}

theorem ListsOnce.node?_of_mem (h : tree.ListsOnce) (hmem : (place, node) ∈ tree.entries)
    (hplace : place ≠ []) : tree.node? place = some node := by
  obtain ⟨front, back, hentries⟩ := List.append_of_mem hmem
  rw [ListsOnce, hentries, List.map_append, List.map_cons] at h
  rw [node?, if_neg hplace, List.lookup_eq_some_iff]
  refine ⟨front, back, hentries, fun entry hentry => ?_⟩
  have hkey : entry.1 ≠ place :=
    (List.nodup_append.mp h).2.2 entry.1 (List.mem_map_of_mem hentry) place List.mem_cons_self
  exact bne_iff_ne.mpr hkey.symm

theorem map_fst_setEntry (place : Location) (node : Node) (entries : List (Location × Node)) :
    (setEntry place node entries).map Prod.fst =
      if place ∈ entries.map Prod.fst then entries.map Prod.fst
      else entries.map Prod.fst ++ [place] := by
  induction entries with
  | nil => rfl
  | cons entry rest ih =>
    obtain ⟨key, old⟩ := entry
    rw [setEntry]
    by_cases hkey : key = place
    · simp [hkey]
    · rw [if_neg hkey, List.map_cons, ih]
      by_cases hmem : place ∈ rest.map Prod.fst
      · simp [hmem]
      · simp [hmem, Ne.symm hkey]

theorem ListsOnce.set (h : tree.ListsOnce) (place : Location) (node : Node) :
    (tree.set place node).ListsOnce := by
  unfold ListsOnce at h ⊢
  rw [FileTree.set, map_fst_setEntry]
  split
  next => exact h
  next hnew =>
    refine List.nodup_append.mpr
      ⟨h, List.pairwise_singleton _ place, fun key hkey other hother => ?_⟩
    rw [List.mem_singleton.mp hother]
    rintro rfl
    exact hnew hkey

theorem ListsOnce.erase (h : tree.ListsOnce) (place : Location) :
    (tree.erase place).ListsOnce :=
  h.sublist (List.filter_sublist.map Prod.fst)

theorem ListsOnce.foldl_erase (h : tree.ListsOnce) (places : List Location) :
    (places.foldl FileTree.erase tree).ListsOnce := by
  induction places generalizing tree with
  | nil => exact h
  | cons place rest ih => exact ih (h.erase place)

section Writing

variable {keeps : FileTree → Prop}

theorem makeDirectoryIfNone_keeps {made : FileTree}
    (hset : ∀ tree place node, keeps tree → keeps (tree.set place node)) (h : keeps tree)
    (hmade : tree.makeDirectoryIfNone steps = .ok made) : keeps made := by
  rw [makeDirectoryIfNone, makeDirectory] at hmade
  cases hlocate : tree.locate steps with
  | error refusal =>
    simp only [hlocate, bind, Except.bind] at hmade
    split at hmade <;> cases hmade
    exact h
  | ok place =>
    simp only [hlocate, bind, Except.bind] at hmade
    cases hnode : tree.node? place with
    | none =>
      rw [hnode] at hmade
      cases hmade
      exact hset _ _ _ h
    | some node =>
      simp only [hnode, throw, throwThe, MonadExceptOf.throw] at hmade
      split at hmade <;> cases hmade
      exact h

theorem makeDirectories_keeps (hset : ∀ tree place node, keeps tree → keeps (tree.set place node))
    (h : keeps tree) (above : List Text) : keeps (tree.makeDirectories above).1 := by
  induction above with
  | nil => exact h
  | cons name above ih =>
    rw [makeDirectories]
    split
    next hmade => exact makeDirectoryIfNone_keeps hset h hmade
    next =>
      split
      next hmake =>
        rw [hmake] at ih
        exact ih
      next hmake =>
        rw [hmake] at ih
        split
        next hmade => exact makeDirectoryIfNone_keeps hset ih hmade
        next => exact ih
    next => exact h

/-- What every new entry keeps, a write keeps, whether or not it is refused. -/
theorem write_keeps (hset : ∀ tree place node, keeps tree → keeps (tree.set place node))
    (h : keeps tree) (steps : List Text) (content : List UInt8) :
    keeps (tree.write steps content).1 := by
  have hdirectories := makeDirectories_keeps hset h steps.reverse.tail
  rw [write]
  split
  next hmake =>
    rw [hmake] at hdirectories
    exact hdirectories
  next made hmake =>
    rw [hmake] at hdirectories
    split
    next after hput =>
      rw [putFile] at hput
      cases hlocate : made.locate steps with
      | error refusal => simp [hlocate, bind, Except.bind] at hput
      | ok place =>
        simp only [hlocate, bind, Except.bind] at hput
        split at hput
        next => cases hput
        next =>
          cases hput
          exact hset _ _ _ hdirectories
    next => exact hdirectories

end Writing

/-- Where nothing is taken away, everything stays. -/
theorem node?_erase_of_ne (hne : place' ≠ place) :
    (tree.erase place).node? place' = tree.node? place' := by
  by_cases hroot : place' = []
  · rw [hroot, node?_nil, node?_nil]
  · rw [node?, if_neg hroot, erase, lookup_filter_ne, if_neg hne, node?, if_neg hroot]

theorem mem_insertByDepth {other : List Text} {list : List (List Text)} :
    other ∈ insertByDepth steps list ↔ other = steps ∨ other ∈ list := by
  induction list with
  | nil => simp [insertByDepth]
  | cons first rest ih =>
    rw [insertByDepth]
    split
    · simp
    · rw [List.mem_cons, ih, List.mem_cons]
      exact or_left_comm

theorem mem_foldr_insertByDepth {list : List (List Text)} :
    steps ∈ list.foldr insertByDepth [] ↔ steps ∈ list := by
  induction list with
  | nil => simp
  | cons first rest ih => rw [List.foldr_cons, mem_insertByDepth, ih, List.mem_cons]

theorem ListsOnce.of_mem_directoriesBelow (h : tree.ListsOnce)
    (hsteps : steps ∈ tree.directoriesBelow place) :
    place ++ steps = place ∨ tree.node? (place ++ steps) = some .directory := by
  rcases List.mem_cons.mp hsteps with rfl | hlisted
  · exact .inl (List.append_nil place)
  obtain ⟨⟨key, node⟩, hentry, hdrop⟩ := List.mem_filterMap.mp hlisted
  dsimp only at hdrop
  split at hdrop
  next hkey =>
    obtain ⟨rfl, hbelow, hne⟩ := hkey
    obtain ⟨below, rfl⟩ := List.isPrefixOf_iff_prefix.mp hbelow
    rw [List.drop_left, Option.some.injEq] at hdrop
    subst hdrop
    have hsome : place ++ below ≠ [] := fun hnil => by
      obtain ⟨rfl, rfl⟩ := List.append_eq_nil_iff.mp hnil
      exact hne rfl
    exact .inr (h.node?_of_mem hentry hsome)
  next => cases hdrop

theorem mem_entries_of_node? (h : tree.node? place = some node) (hroot : place ≠ []) :
    (place, node) ∈ tree.entries := by
  rw [node?, if_neg hroot, List.lookup_eq_some_iff] at h
  obtain ⟨front, back, hentries, -⟩ := h
  rw [hentries]
  exact List.mem_append_right front List.mem_cons_self

theorem mem_directoriesBelow_of_directory (h : tree.node? (place ++ steps) = some .directory) :
    steps ∈ tree.directoriesBelow place := by
  by_cases hsteps : steps = []
  · rw [hsteps]
    exact List.mem_cons_self
  · have hentry := mem_entries_of_node? h (List.append_ne_nil_of_right_ne_nil place hsteps)
    exact List.mem_cons_of_mem _ (List.mem_filterMap.mpr ⟨_, hentry, by simp [hsteps]⟩)

theorem mem_children_of_node? {name : Text} (h : tree.node? (place ++ [name]) = some node) :
    name ∈ tree.children place := by
  have hentry := mem_entries_of_node? h
    (List.append_ne_nil_of_right_ne_nil place (List.cons_ne_nil name []))
  exact List.mem_filterMap.mpr ⟨_, hentry, by simp⟩

/-- Longer lists of steps are put first. -/
theorem pairwise_insertByDepth {list : List (List Text)}
    (h : list.Pairwise fun inner outer => outer.length ≤ inner.length) :
    (insertByDepth steps list).Pairwise fun inner outer => outer.length ≤ inner.length := by
  induction h with
  | nil => exact List.pairwise_singleton _ steps
  | @cons first rest hfirst hrest ih =>
    rw [insertByDepth]
    split
    next hlt =>
      refine .cons (List.forall_mem_cons.mpr ⟨hlt.le, fun other hother => ?_⟩) (.cons hfirst hrest)
      exact (hfirst other hother).trans hlt.le
    next hle =>
      refine .cons (fun other hother => ?_) ih
      rcases mem_insertByDepth.mp hother with rfl | hother
      · exact Nat.not_lt.mp hle
      · exact hfirst other hother

theorem pairwise_foldr_insertByDepth (list : List (List Text)) :
    (list.foldr insertByDepth []).Pairwise fun inner outer => outer.length ≤ inner.length := by
  induction list with
  | nil => exact .nil
  | cons first rest ih => exact pairwise_insertByDepth ih

/-- Removes what is at a place, if nothing stands in it. -/
def pruneAt (tree : FileTree) (place : Location) : FileTree :=
  if (tree.children place).isEmpty then tree.erase place else tree

/-- The places that pruning comes to, inner ones first. -/
def placesBelow (tree : FileTree) (place : Location) : List Location :=
  ((tree.directoriesBelow place).foldr insertByDepth []).map (place ++ ·)

theorem pruneEmpty_eq (tree : FileTree) (place : Location) :
    tree.pruneEmpty place = (tree.placesBelow place).foldl pruneAt tree := by
  rw [placesBelow, List.foldl_map]
  rfl

theorem mem_placesBelow :
    place' ∈ tree.placesBelow place ↔
      ∃ steps ∈ tree.directoriesBelow place, place ++ steps = place' := by
  simp only [placesBelow, List.mem_map, mem_foldr_insertByDepth]

theorem pairwise_placesBelow (tree : FileTree) (place : Location) :
    (tree.placesBelow place).Pairwise fun inner outer => outer.length ≤ inner.length := by
  refine List.pairwise_map.mpr ((pairwise_foldr_insertByDepth _).imp fun hle => ?_)
  rw [List.length_append, List.length_append]
  exact Nat.add_le_add_left hle _

theorem node?_pruneAt_of_ne (hne : place' ≠ place) :
    (tree.pruneAt place).node? place' = tree.node? place' := by
  rw [pruneAt]
  split
  · exact node?_erase_of_ne hne
  · rfl

/-- Pruning takes away or leaves. -/
theorem node?_pruneAt_cases (tree : FileTree) (place place' : Location) :
    (tree.pruneAt place).node? place' = tree.node? place' ∨
      (tree.pruneAt place).node? place' = none := by
  by_cases hplace : place' = place
  · subst hplace
    rw [pruneAt]
    split
    · by_cases hroot : place' = []
      · exact .inl (by rw [hroot, node?_nil, node?_nil])
      · exact .inr (by rw [node?_erase hroot, if_pos rfl])
    · exact .inl rfl
  · exact .inl (node?_pruneAt_of_ne hplace)

section PruneAll

variable {places : List Location}

theorem node?_foldl_pruneAt_of_notMem (h : place' ∉ places) :
    (places.foldl pruneAt tree).node? place' = tree.node? place' := by
  induction places generalizing tree with
  | nil => rfl
  | cons place rest ih =>
    obtain ⟨hne, hrest⟩ := not_or.mp (List.mem_cons.not.mp h)
    rw [List.foldl_cons, ih hrest, node?_pruneAt_of_ne hne]

theorem node?_foldl_pruneAt_cases (tree : FileTree) (places : List Location) (place' : Location) :
    (places.foldl pruneAt tree).node? place' = tree.node? place' ∨
      (places.foldl pruneAt tree).node? place' = none := by
  induction places generalizing tree with
  | nil => exact .inl rfl
  | cons place rest ih =>
    rw [List.foldl_cons]
    rcases ih (tree.pruneAt place) with hsame | hnone
    · rw [hsame]
      exact node?_pruneAt_cases tree place place'
    · exact .inr hnone

end PruneAll

/-- Pruning takes away or leaves. -/
theorem node?_pruneEmpty_cases (tree : FileTree) (place place' : Location) :
    (tree.pruneEmpty place).node? place' = tree.node? place' ∨
      (tree.pruneEmpty place).node? place' = none := by
  rw [pruneEmpty_eq]
  exact node?_foldl_pruneAt_cases tree _ place'

/-- Pruning keeps what is not a directory. -/
theorem ListsOnce.node?_pruneEmpty (h : tree.ListsOnce)
    (hplace : tree.node? place = some .directory) (hother : tree.node? place' ≠ some .directory) :
    (tree.pruneEmpty place).node? place' = tree.node? place' := by
  rw [pruneEmpty_eq]
  refine node?_foldl_pruneAt_of_notMem fun hmem => hother ?_
  obtain ⟨steps, hsteps, rfl⟩ := mem_placesBelow.mp hmem
  rcases h.of_mem_directoriesBelow hsteps with heq | hdirectory
  · rw [heq, hplace]
  · exact hdirectory

theorem ListsOnce.content?_pruneEmpty (h : tree.ListsOnce)
    (hplace : tree.node? place = some .directory) :
    (tree.pruneEmpty place).content? = tree.content? := by
  funext place'
  by_cases hdirectory : tree.node? place' = some .directory
  · rcases node?_pruneEmpty_cases tree place place' with hsame | hnone
    · exact content?_congr hsame
    · rw [content?, hnone, content?, hdirectory]
  · exact content?_congr (h.node?_pruneEmpty hplace hdirectory)

theorem exists_node?_of_mem_children {name : Text} (h : name ∈ tree.children place) :
    ∃ node, tree.node? (place ++ [name]) = some node := by
  obtain ⟨⟨key, node⟩, hentry, hlast⟩ := List.mem_filterMap.mp h
  dsimp only at hlast
  split at hlast
  next hkey =>
    have heq : place ++ [name] = key := hkey ▸ List.dropLast_append_getLast? name hlast
    rw [node?, if_neg (List.append_ne_nil_of_right_ne_nil place (List.cons_ne_nil name []))]
    refine Option.ne_none_iff_exists'.mp fun hnone => ?_
    simpa [heq] using List.lookup_eq_none_iff.mp hnone _ hentry
  next => cases hlast

/-- A directory at or below a place that is still there when the place has been pruned has something
in it: when pruning came to the directory there was something, and afterwards it came to no place
that lies deeper. -/
theorem exists_child_of_pruneEmpty (hroot : place ≠ []) (hbelow : place <+: place')
    (h : (tree.pruneEmpty place).node? place' = some .directory) :
    ∃ name node, (tree.pruneEmpty place).node? (place' ++ [name]) = some node := by
  have hroot' : place' ≠ [] := fun hnil => hroot (List.prefix_nil.mp (hnil ▸ hbelow))
  have hthere : tree.node? place' = some .directory := by
    rcases node?_pruneEmpty_cases tree place place' with hsame | hnone
    · rw [← hsame, h]
    · cases hnone.symm.trans h
  have hmem : place' ∈ tree.placesBelow place := by
    obtain ⟨steps, rfl⟩ := hbelow
    exact mem_placesBelow.mpr ⟨steps, mem_directoriesBelow_of_directory hthere, rfl⟩
  obtain ⟨front, back, hplaces⟩ := List.append_of_mem hmem
  have hdepth := pairwise_placesBelow tree place
  rw [hplaces] at hdepth
  have hlater := (List.pairwise_cons.mp (List.pairwise_append.mp hdepth).2.1).1
  rw [pruneEmpty_eq, hplaces, List.foldl_append, List.foldl_cons] at h ⊢
  generalize front.foldl pruneAt tree = reached at h ⊢
  have hkept : (reached.children place').isEmpty = false := by
    refine Bool.eq_false_iff.mpr fun hempty => ?_
    have hnone : (reached.pruneAt place').node? place' = none := by
      rw [pruneAt, if_pos hempty, node?_erase hroot', if_pos rfl]
    rcases node?_foldl_pruneAt_cases (reached.pruneAt place') back place' with hsame | hgone
    · cases h.symm.trans (hsame.trans hnone)
    · cases h.symm.trans hgone
  obtain ⟨name, more, hname⟩ := List.exists_cons_of_ne_nil (List.isEmpty_eq_false_iff.mp hkept)
  obtain ⟨node, hnode⟩ := exists_node?_of_mem_children (hname ▸ List.mem_cons_self)
  refine ⟨name, node, ?_⟩
  have hdeeper : place' ++ [name] ∉ back := fun hmem => by
    have hle := hlater _ hmem
    rw [List.length_append, List.length_singleton] at hle
    omega
  rw [node?_foldl_pruneAt_of_notMem hdeeper, node?_pruneAt_of_ne (by simp), hnode]

end Disentangle.FileTree
