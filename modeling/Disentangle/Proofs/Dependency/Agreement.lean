import Disentangle.Proofs.Dependency.Tangles

/-!
Sorting and looking for tangles agree. A graph has a cycle exactly when it has a tangle or a vertex
with an edge to itself, and a cycle through two vertices lies within one tangle. So records whose
paths differ cannot be sorted exactly when there is a tangle among them or one of them needs its
own file. Which records there are decides that, and not their order.
-/

namespace Disentangle.Dependency

open Relation Disentangle.Dependency.Graph

/-- Everything on a cycle is reached from everything on it. -/
theorem IsCycle.reaches {α : Type} {related : α → α → Prop} {cycle : List α} {a b : α}
    (h : IsCycle related cycle) (ha : a ∈ cycle) (hb : b ∈ cycle) : ReflTransGen related a b := by
  have hchain : cycle.IsChain (ReflTransGen related) := h.chain.imp fun _ _ => .single
  have hpairs : cycle.Pairwise (ReflTransGen related) := hchain.pairwise
  cases hcycle : cycle with
  | nil =>
    rw [hcycle] at ha
    cases ha
  | cons start rest =>
    -- The way goes on from `a` to the end, which is the beginning, and from there to `b`.
    have hclosed : cycle.getLast? = some start := by rw [h.closed, hcycle, List.head?_cons]
    obtain ⟨front, hfront⟩ := List.getLast?_eq_some_iff.mp hclosed
    have hon : ReflTransGen related a start := by
      rw [hfront] at ha hpairs
      rcases List.mem_append.mp ha with hmem | hmem
      · exact (List.pairwise_append.mp hpairs).2.2 a hmem start (List.mem_singleton_self start)
      · rw [List.mem_singleton.mp hmem]
    have hback : ReflTransGen related start b := by
      rw [hcycle] at hb hpairs
      rcases List.mem_cons.mp hb with heq | hmem
      · rw [heq]
      · exact (List.pairwise_cons.mp hpairs).1 b hmem
    exact hon.trans hback

section Graph

variable {graph : Graph} {cycle group : List Nat} {u v : Nat}

/-- The members of a tangle are those of a component. -/
theorem isComponent_of_mem_tangles (hinside : graph.Inside) (hgroup : group ∈ tangles graph) :
    IsComponent graph.Edge group :=
  (components_spec hinside).2.2.1 group (List.mem_filter.mp hgroup).1

/-- A tangle has two members. -/
theorem exists_ne_of_mem_tangles (hinside : graph.Inside) (hgroup : group ∈ tangles graph) :
    ∃ u ∈ group, ∃ v ∈ group, u ≠ v := by
  obtain ⟨hcomponent, hlength⟩ := List.mem_filter.mp hgroup
  have hnodup : group.Nodup := by
    have hall := (components_spec hinside).1
    exact (List.nodup_flatten.mp hall).1 group hcomponent
  match group, hnodup, hlength with
  | u :: v :: rest, hnodup, _ =>
    refine ⟨u, by simp, v, by simp, ?_⟩
    intro heq
    exact (List.nodup_cons.mp hnodup).1 (heq ▸ List.mem_cons_self)

/-- Two vertices that reach each other belong to a tangle. -/
theorem exists_tangle_of_reaches (hinside : graph.Inside) (hne : u ≠ v)
    (huv : graph.Reaches u v) (hvu : graph.Reaches v u) :
    ∃ group ∈ tangles graph, u ∈ group ∧ v ∈ group := by
  obtain ⟨-, hall, hcomponent, -⟩ := components_spec hinside
  have hsize : u < graph.size := by
    rcases huv.cases_head with heq | ⟨w, hedge, -⟩
    · exact absurd heq hne
    · exact hedge.lt_size
  obtain ⟨group, hgroup, hu⟩ := List.mem_flatten.mp ((hall u).mpr hsize)
  have hv : v ∈ group := (hcomponent group hgroup u hu v).mpr ⟨huv, hvu⟩
  have hlength : 2 ≤ group.length := by
    have hpair : [u, v] ⊆ group := List.cons_subset.mpr ⟨hu, by simpa using hv⟩
    have hnodup : [u, v].Nodup := by simpa using hne
    exact hnodup.length_le_of_subset hpair
  exact ⟨group, List.mem_filter.mpr ⟨hgroup, by simpa using hlength⟩, hu, hv⟩

/-- There is a cycle exactly when there is a tangle or an edge from a vertex to itself. -/
theorem exists_transGen_iff_tangles (hinside : graph.Inside) :
    (∃ v, TransGen graph.Edge v v) ↔ tangles graph ≠ [] ∨ ∃ v, graph.Edge v v := by
  constructor
  · rintro ⟨v, hcycle⟩
    obtain ⟨w, hedge, hback⟩ := TransGen.head'_iff.mp hcycle
    by_cases hself : v = w
    · exact Or.inr ⟨v, hself ▸ hedge⟩
    · obtain ⟨group, hgroup, -⟩ := exists_tangle_of_reaches hinside hself (.single hedge) hback
      exact Or.inl (List.ne_nil_of_mem hgroup)
  · rintro (htangle | ⟨v, hedge⟩)
    · obtain ⟨group, hgroup⟩ := List.exists_mem_of_ne_nil _ htangle
      obtain ⟨u, hu, v, hv, hne⟩ := exists_ne_of_mem_tangles hinside hgroup
      have hcomponent := isComponent_of_mem_tangles hinside hgroup
      obtain ⟨huv, hvu⟩ := (hcomponent u hu v).mp hv
      refine ⟨u, TransGen.trans_left ?_ hvu⟩
      apply (reflTransGen_iff_eq_or_transGen.mp huv).resolve_left
      exact fun heq => hne heq.symm
    · exact ⟨v, .single hedge⟩

/-- A tangle lies within one of every graph with the same edges and more. -/
theorem exists_tangle_superset {larger : Graph} (hinside : graph.Inside)
    (hlarger : larger.Inside) (hedges : ∀ u v, graph.Edge u v → larger.Edge u v)
    (hgroup : group ∈ tangles graph) : ∃ around ∈ tangles larger, group ⊆ around := by
  have hcomponent := isComponent_of_mem_tangles hinside hgroup
  obtain ⟨u, hu, v, hv, hne⟩ := exists_ne_of_mem_tangles hinside hgroup
  have hreaches (w : Nat) (hw : w ∈ group) : larger.Reaches u w ∧ larger.Reaches w u := by
    obtain ⟨huw, hwu⟩ := (hcomponent u hu w).mp hw
    exact ⟨ReflTransGen.mono hedges u w huw, ReflTransGen.mono hedges w u hwu⟩
  obtain ⟨around, haround, hmem, -⟩ :=
    exists_tangle_of_reaches hlarger hne (hreaches v hv).1 (hreaches v hv).2
  refine ⟨around, haround, ?_⟩
  intro w hw
  exact (isComponent_of_mem_tangles hlarger haround u hmem w).mpr (hreaches w hw)

/-- A cycle through two vertices lies within one tangle. -/
theorem IsCycle.subset_tangle (hinside : graph.Inside) (h : IsCycle graph.Edge cycle)
    (hu : u ∈ cycle) (hv : v ∈ cycle) (hne : u ≠ v) : ∃ group ∈ tangles graph, cycle ⊆ group := by
  obtain ⟨group, hgroup, hmem, -⟩ :=
    exists_tangle_of_reaches hinside hne (h.reaches hu hv) (h.reaches hv hu)
  refine ⟨group, hgroup, ?_⟩
  intro w hw
  apply (isComponent_of_mem_tangles hinside hgroup u hmem w).mpr
  exact ⟨h.reaches hu hw, h.reaches hw hu⟩

end Graph

variable {records listing : List FileRecord} {table : SymbolTable} {path : Text}

/-- Sorting fails for a path that occurs twice when that is the first such path. -/
theorem sortRecords_eq_duplicate_iff :
    sortRecords records table = .error (.duplicateSource path) ↔
      duplicate? [] (records.map (·.path)) = some path := by
  cases hduplicate : duplicate? [] (records.map (·.path)) with
  | some found => simp [sortRecords, graph?, hduplicate, bind, Except.bind]
  | none =>
    have hdistinct := ((duplicate?_eq_none_iff [] _).mp hduplicate).1
    rw [sortRecords_eq hdistinct]
    cases order (graphOf records table) <;> simp

/-- The search for tangles fails for a path that occurs twice, and for nothing else. -/
theorem tangledPaths_eq_error_iff {reason : Failure} :
    tangledPaths records table = .error reason ↔
      ∃ path, duplicate? [] (records.map (·.path)) = some path ∧
        reason = .duplicateSource path := by
  cases hduplicate : duplicate? [] (records.map (·.path)) with
  | some found => simp [tangledPaths, graph?, hduplicate, bind, Except.bind, eq_comm]
  | none =>
    have hdistinct := ((duplicate?_eq_none_iff [] _).mp hduplicate).1
    simp [tangledPaths_eq hdistinct]

/-- Sorting fails for a path that occurs twice exactly when there is one. -/
theorem exists_duplicate_iff :
    (∃ path, sortRecords records table = .error (.duplicateSource path)) ↔
      ¬ (records.map (·.path)).Nodup := by
  simp only [sortRecords_eq_duplicate_iff]
  rw [← Option.isSome_iff_exists, ← Option.ne_none_iff_isSome, ne_eq, duplicate?_eq_none_iff]
  simp

/-- Sorting fails with a cycle exactly when the paths differ and a chain of links leads back to
where it began. -/
theorem exists_circular_iff :
    (∃ cycle, sortRecords records table = .error (.circularDependency cycle)) ↔
      (records.map (·.path)).Nodup ∧ ∃ p, TransGen (Link records table) p p := by
  by_cases hdistinct : (records.map (·.path)).Nodup
  · rw [← transGen_edge_iff_transGen_link hdistinct, and_iff_right hdistinct, ← not_iff_not,
      ← order_ok_iff (inside_graphOf hdistinct), sortRecords_eq hdistinct]
    cases order (graphOf records table) <;> simp
  · obtain ⟨path, hpath⟩ : ∃ path, sortRecords records table = .error (.duplicateSource path) :=
      exists_duplicate_iff.mpr hdistinct
    simp [hpath, hdistinct]

/-- An edge from a position to itself is a record that needs its own file. -/
theorem exists_edge_self_iff (hdistinct : (records.map (·.path)).Nodup) :
    (∃ i, (graphOf records table).Edge i i) ↔ ∃ u ∈ records, NeedsFile table u u := by
  simp only [edge_graphOf_iff hdistinct, List.mem_iff_getElem?]
  constructor
  · rintro ⟨i, u, v, hu, hv, hneeds⟩
    cases hu.symm.trans hv
    exact ⟨u, ⟨i, hu⟩, hneeds⟩
  · rintro ⟨u, ⟨i, hu⟩, hneeds⟩
    exact ⟨i, u, u, hu, hu, hneeds⟩

/-- The links depend on which records there are. -/
theorem link_eq_of_perm (hperm : listing.Perm records) :
    Link listing table = Link records table := by
  funext p q
  simp only [Link, hperm.mem_iff]

/-- A reported cycle through two files lies within one group of the tangles. -/
theorem circular_subset_group (hdistinct : (records.map (·.path)).Nodup) {cycle : List Text}
    (h : sortRecords records table = .error (.circularDependency cycle)) {p q : Text}
    (hp : p ∈ cycle) (hq : q ∈ cycle) (hne : p ≠ q) :
    ∃ group ∈ (tangles (graphOf records table)).map fun group => group.map (pathAt records),
      cycle ⊆ group := by
  obtain ⟨positions, horder, hpaths⟩ := (sortRecords_eq_error_iff hdistinct).mp h
  have hinside : (graphOf records table).Inside := inside_graphOf hdistinct
  have hcycle := order_isCycle hinside horder
  have hbound : ∀ i ∈ positions, i < records.length := by
    intro i hi
    simpa using lt_size_of_mem_cycle hcycle hi
  rw [Failure.circularDependency.injEq, filterMap_path_eq_map hbound] at hpaths
  subst hpaths
  obtain ⟨i, hi, rfl⟩ := List.mem_map.mp hp
  obtain ⟨j, hj, rfl⟩ := List.mem_map.mp hq
  have hij : i ≠ j := fun heq => hne (heq ▸ rfl)
  obtain ⟨group, hgroup, hsubset⟩ := hcycle.subset_tangle hinside hi hj hij
  exact ⟨_, List.mem_map_of_mem hgroup, List.map_subset _ hsubset⟩

/-- Sorting and looking for tangles agree. Both fail alike for a path that occurs twice. Otherwise
there are tangles, and sorting fails exactly when there is at least one or a record needs its own
file; a cycle through two files that it reports lies within one tangle. The order in which the
records are given plays no part in whether and how it fails. -/
theorem sortRecords_agrees_tangledPaths (records : List FileRecord) (table : SymbolTable) :
    (∀ path, sortRecords records table = .error (.duplicateSource path) ↔
        tangledPaths records table = .error (.duplicateSource path)) ∧
      ((∀ path, sortRecords records table ≠ .error (.duplicateSource path)) →
        ∃ groups, tangledPaths records table = .ok groups ∧
          ((∃ cycle, sortRecords records table = .error (.circularDependency cycle)) ↔
            groups ≠ [] ∨ ∃ u ∈ records, NeedsFile table u u) ∧
          ∀ cycle, sortRecords records table = .error (.circularDependency cycle) →
            ∀ p ∈ cycle, ∀ q ∈ cycle, p ≠ q → ∃ group ∈ groups, cycle ⊆ group) ∧
      ∀ listing, listing.Perm records →
        ((∃ path, sortRecords listing table = .error (.duplicateSource path)) ↔
          ∃ path, sortRecords records table = .error (.duplicateSource path)) ∧
        ((∃ cycle, sortRecords listing table = .error (.circularDependency cycle)) ↔
          ∃ cycle, sortRecords records table = .error (.circularDependency cycle)) := by
  refine ⟨?_, ?_, ?_⟩
  · intro path
    rw [sortRecords_eq_duplicate_iff, tangledPaths_eq_error_iff]
    simp
  · intro hduplicate
    have hdistinct : (records.map (·.path)).Nodup := by
      by_contra hrepeated
      obtain ⟨path, hpath⟩ := exists_duplicate_iff.mpr hrepeated
      exact hduplicate path hpath
    refine ⟨_, tangledPaths_eq hdistinct, ?_, ?_⟩
    · rw [exists_circular_iff, and_iff_right hdistinct,
        ← transGen_edge_iff_transGen_link hdistinct,
        exists_transGen_iff_tangles (inside_graphOf hdistinct), exists_edge_self_iff hdistinct,
        ne_eq, ne_eq, List.map_eq_nil_iff]
    · intro cycle hcycle p hp q hq hne
      exact circular_subset_group hdistinct hcycle hp hq hne
  · intro listing hperm
    have hnodup : (listing.map (·.path)).Nodup ↔ (records.map (·.path)).Nodup :=
      (hperm.map _).nodup_iff
    constructor
    · rw [exists_duplicate_iff, exists_duplicate_iff, hnodup]
    · rw [exists_circular_iff, exists_circular_iff, hnodup, link_eq_of_perm hperm]

/-- Two files that extend each other, in whatever order they are given together with a third one
that extends the first: both lie within one tangle. -/
theorem sortRecords_agrees_tangledPaths_two_files :
    let records := [extending "/a.ts" "/b.ts", extending "/b.ts" "/c.ts", extending "/c.ts" "/b.ts"]
    let cycle := ["/b.ts".toList, "/c.ts".toList, "/b.ts".toList]
    sortRecords records .empty = .error (.circularDependency cycle) ∧
      (∃ groups, tangledPaths records .empty = .ok groups ∧ ∃ group ∈ groups, cycle ⊆ group) ∧
      ∀ listing, listing.Perm records →
        ∃ cycle, sortRecords listing .empty = .error (.circularDependency cycle) := by
  intro records cycle
  have hsort : sortRecords records .empty = .error (.circularDependency cycle) := by rfl
  obtain ⟨-, hdistinct, horder⟩ := sortRecords_agrees_tangledPaths records .empty
  obtain ⟨groups, hgroups, -, hcycle⟩ := hdistinct (by simp [hsort])
  have hwithin := hcycle cycle hsort "/b.ts".toList (by decide) "/c.ts".toList (by decide)
    (by decide)
  refine ⟨hsort, ⟨groups, hgroups, hwithin⟩, ?_⟩
  intro listing hperm
  exact (horder listing hperm).2.mpr ⟨cycle, hsort⟩

end Disentangle.Dependency
