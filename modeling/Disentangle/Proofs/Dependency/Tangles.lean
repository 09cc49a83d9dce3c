import Disentangle.Proofs.Dependency.Components
import Disentangle.Proofs.Dependency.Sorting
import Mathlib.Data.List.Flatten

/-!
The tangles of a project. They are the strongly connected components of the links between files
that have two or more members. All of this is carried over from the graph of positions, for which
the search is described.
-/

namespace Disentangle.Dependency

open Relation Disentangle.Dependency.Graph

variable {records : List FileRecord} {table : SymbolTable} {i j : Nat} {p q : Text}

theorem position?_pathAt (hdistinct : (records.map (·.path)).Nodup) (hi : i < records.length) :
    position? records (pathAt records i) = some i :=
  (position?_eq_some_iff hdistinct _ i).mpr ⟨records[i], by simp [hi], by simp [pathAt, hi]⟩

theorem exists_pathAt (hp : p ∈ records.map (·.path)) :
    ∃ i, i < records.length ∧ pathAt records i = p := by
  obtain ⟨record, hrecord, rfl⟩ := List.mem_map.mp hp
  obtain ⟨i, hi, rfl⟩ := List.mem_iff_getElem.mp hrecord
  exact ⟨i, hi, by simp [pathAt, hi]⟩

/-- Positions reach each other as their paths do. -/
theorem reaches_iff (hdistinct : (records.map (·.path)).Nodup) (hi : i < records.length)
    (hj : j < records.length) :
    (graphOf records table).Reaches i j ↔
      ReflTransGen (Link records table) (pathAt records i) (pathAt records j) := by
  constructor
  · intro hreach
    exact hreach.lift (pathAt records) fun _ _ => link_pathAt hdistinct
  · intro hreach
    have hlift : (graphOf records table).Reaches
        ((position? records (pathAt records i)).getD 0)
        ((position? records (pathAt records j)).getD 0) :=
      hreach.lift (fun r => (position? records r).getD 0) fun _ _ => Link.edge hdistinct
    rwa [position?_pathAt hdistinct hi, position?_pathAt hdistinct hj] at hlift

/-- Links lead from files to files. -/
theorem mem_paths_of_reflTransGen (hp : p ∈ records.map (·.path))
    (hreach : ReflTransGen (Link records table) p q) : q ∈ records.map (·.path) := by
  rcases hreach.cases_tail with rfl | ⟨r, -, u, -, v, hv, -, rfl, -⟩
  · exact hp
  · exact List.mem_map_of_mem hv

theorem lt_length_of_mem_tangle (hdistinct : (records.map (·.path)).Nodup) {group : List Nat}
    (hgroup : group ∈ components (graphOf records table)) (hi : i ∈ group) :
    i < records.length := by
  have hinside : (graphOf records table).Inside := inside_graphOf hdistinct
  obtain ⟨-, hall, -⟩ := components_spec hinside
  simpa using (hall i).mp (List.mem_flatten.mpr ⟨group, hgroup, hi⟩)

/-- A component of positions, written as paths. -/
theorem isComponent_paths (hdistinct : (records.map (·.path)).Nodup) {group : List Nat}
    (hbound : ∀ i ∈ group, i < records.length)
    (h : IsComponent (graphOf records table).Edge group) :
    IsComponent (Link records table) (group.map (pathAt records)) := by
  intro p hp q
  obtain ⟨i, hi, rfl⟩ := List.mem_map.mp hp
  constructor
  · intro hq
    obtain ⟨j, hj, rfl⟩ := List.mem_map.mp hq
    obtain ⟨hij, hji⟩ := (h i hi j).mp hj
    exact ⟨(reaches_iff hdistinct (hbound i hi) (hbound j hj)).mp hij,
      (reaches_iff hdistinct (hbound j hj) (hbound i hi)).mp hji⟩
  · rintro ⟨hpq, hqp⟩
    have hmem : pathAt records i ∈ records.map (·.path) := by
      have hi' := hbound i hi
      simpa [pathAt, hi'] using ⟨records[i], List.getElem_mem hi', rfl⟩
    obtain ⟨j, hj, rfl⟩ := exists_pathAt (mem_paths_of_reflTransGen hmem hpq)
    refine List.mem_map_of_mem ((h i hi j).mpr ⟨?_, ?_⟩)
    · exact (reaches_iff hdistinct (hbound i hi) hj).mpr hpq
    · exact (reaches_iff hdistinct hj (hbound i hi)).mpr hqp

/-- The tangles are the components of two or more, told in paths. -/
theorem tangledPaths_eq (hdistinct : (records.map (·.path)).Nodup) :
    tangledPaths records table =
      .ok ((tangles (graphOf records table)).map fun group => group.map (pathAt records)) := by
  rw [tangledPaths, graph?_eq_ok hdistinct]
  simp only [bind, Except.bind, pure, Except.pure, Except.ok.injEq]
  refine List.map_congr_left fun group hgroup => ?_
  apply filterMap_path_eq_map
  intro i hi
  exact lt_length_of_mem_tangle hdistinct (List.mem_filter.mp hgroup).1 hi

/-- The tangles of records whose paths differ: the groups of two or more files that reach each
other by links, all of them and each once, and those that are reached from another one before
it. -/
theorem tangledPaths_components (records : List FileRecord) (table : SymbolTable)
    (hdistinct : (records.map (·.path)).Nodup) :
    ∃ groups, tangledPaths records table = .ok groups ∧
      (∀ group ∈ groups, 2 ≤ group.length ∧ IsComponent (Link records table) group) ∧
      groups.flatten.Nodup ∧
      (∀ p q, p ≠ q → ReflTransGen (Link records table) p q →
        ReflTransGen (Link records table) q p → ∃ group ∈ groups, p ∈ group ∧ q ∈ group) ∧
      groups.Pairwise fun earlier later =>
        ∀ p ∈ earlier, ∀ q ∈ later, ¬ ReflTransGen (Link records table) p q := by
  have hinside : (graphOf records table).Inside := inside_graphOf hdistinct
  obtain ⟨hnodup, hall, hcomponent, horder⟩ := components_spec hinside
  have hbound {group : List Nat} (hgroup : group ∈ components (graphOf records table)) :
      ∀ i ∈ group, i < records.length := fun i => lt_length_of_mem_tangle hdistinct hgroup
  have hsub : (tangles (graphOf records table)).Sublist (components (graphOf records table)) :=
    List.filter_sublist
  refine ⟨_, tangledPaths_eq hdistinct, ?_, ?_, ?_, ?_⟩
  · intro paths hpaths
    obtain ⟨group, hgroup, rfl⟩ := List.mem_map.mp hpaths
    obtain ⟨hmem, hlength⟩ := List.mem_filter.mp hgroup
    refine ⟨by simpa using hlength, ?_⟩
    exact isComponent_paths hdistinct (hbound hmem) (hcomponent group hmem)
  · rw [← List.map_flatten]
    refine (hnodup.sublist hsub.flatten).map_on ?_
    intro i hi j hj heq
    obtain ⟨group, hgroup, hi⟩ := List.mem_flatten.mp hi
    obtain ⟨group', hgroup', hj⟩ := List.mem_flatten.mp hj
    exact pathAt_injective hdistinct (hbound (hsub.subset hgroup) i hi)
      (hbound (hsub.subset hgroup') j hj) heq
  · intro p q hne hpq hqp
    have hp : p ∈ records.map (·.path) := by
      obtain rfl | ⟨_, ⟨u, hu, _, _, rfl, _⟩, _⟩ := hpq.cases_head
      · exact absurd rfl hne
      · exact List.mem_map_of_mem hu
    obtain ⟨i, hi, rfl⟩ := exists_pathAt hp
    obtain ⟨j, hj, rfl⟩ := exists_pathAt (mem_paths_of_reflTransGen hp hpq)
    obtain ⟨group, hgroup, higroup⟩ := List.mem_flatten.mp ((hall i).mpr (by simpa using hi))
    have hjgroup : j ∈ group := (hcomponent group hgroup i higroup j).mpr
      ⟨(reaches_iff hdistinct hi hj).mpr hpq, (reaches_iff hdistinct hj hi).mpr hqp⟩
    have hij : i ≠ j := fun heq => hne (heq ▸ rfl)
    have hpair : [i, j] ⊆ group := by simp [higroup, hjgroup]
    have hlength : 2 ≤ group.length :=
      (List.nodup_cons.mpr ⟨by simpa using hij, by simp⟩ : [i, j].Nodup).length_le_of_subset hpair
    refine ⟨_, List.mem_map_of_mem (List.mem_filter.mpr ⟨hgroup, by simpa using hlength⟩), ?_⟩
    exact ⟨List.mem_map_of_mem higroup, List.mem_map_of_mem hjgroup⟩
  · rw [List.pairwise_map]
    refine (horder.sublist hsub).imp_of_mem ?_
    intro earlier later hearlier hlater hapart p hp q hq hreach
    obtain ⟨i, hi, rfl⟩ := List.mem_map.mp hp
    obtain ⟨j, hj, rfl⟩ := List.mem_map.mp hq
    have hi' := hbound (hsub.subset hearlier) i hi
    have hj' := hbound (hsub.subset hlater) j hj
    exact hapart i hi j hj ((reaches_iff hdistinct hi' hj').mpr hreach)

/-- The record of a file that extends the default exports of others. -/
def extendingAll (path : String) (bases : List String) : FileRecord where
  path := path.toList
  imports := bases.map fun base =>
    { resolvedPath := some base.toList, names := ["Base".toList], hasDefault := true }
  depends := bases.zipIdx.map fun base => ("Base".toList, base.2)

/-- Two tangles, of which the second leads to the first, and a file that leads to both. -/
theorem tangledPaths_touching :
    let records := [extendingAll "/e.ts" ["/b.ts"], extendingAll "/a.ts" ["/b.ts"],
      extendingAll "/b.ts" ["/a.ts", "/c.ts"], extendingAll "/c.ts" ["/d.ts"],
      extendingAll "/d.ts" ["/c.ts"]]
    (records.map (·.path)).Nodup ∧
      tangledPaths records .empty =
        .ok [["/d.ts".toList, "/c.ts".toList], ["/a.ts".toList, "/b.ts".toList]] ∧
      ¬ ReflTransGen (Link records .empty) "/c.ts".toList "/b.ts".toList := by
  intro records
  have hdistinct : (records.map (·.path)).Nodup := by decide
  have htangles : (tangledPaths records .empty).toOption =
      some [["/d.ts".toList, "/c.ts".toList], ["/a.ts".toList, "/b.ts".toList]] := by
    decide
  obtain ⟨groups, heq, -, -, -, horder⟩ := tangledPaths_components records .empty hdistinct
  rw [heq] at htangles
  cases Option.some.inj htangles
  have hapart := (List.pairwise_cons.mp horder).1 _ List.mem_cons_self
  exact ⟨hdistinct, heq, hapart _ (by simp) _ (by simp)⟩

end Disentangle.Dependency
