import Disentangle.Proofs.Dependency.Search

/-!
What sorting the records of a project gives. Between two records there is a link when the first
needs the file of the second while it is loaded. Sorting has a result exactly when no chain of
links leads back to where it began; the result holds the same records, each behind those that it
needs. Otherwise the failure names a cycle of links. All of this is carried over from the graph
of positions, for which the search is described.
-/

namespace Disentangle.Dependency

open Disentangle.Dependency.Graph

variable {records : List FileRecord} {table : SymbolTable}

/-- `u` needs the file of `v` while it is loaded: some binding that `u` reads then comes from
there. -/
def NeedsFile (table : SymbolTable) (u v : FileRecord) : Prop :=
  ∃ name line, (name, line) ∈ u.dependencies ∧ line.sourceOf table name = some v.path

/-- Two paths are linked when the record with the first needs the file of the one with the
second. -/
def Link (records : List FileRecord) (table : SymbolTable) (p q : Text) : Prop :=
  ∃ u ∈ records, ∃ v ∈ records, u.path = p ∧ v.path = q ∧ NeedsFile table u v

theorem duplicate?_eq_none_iff (seen paths : List Text) :
    duplicate? seen paths = none ↔ paths.Nodup ∧ ∀ path ∈ paths, path ∉ seen := by
  induction paths generalizing seen with
  | nil => simp [duplicate?]
  | cons path rest ih =>
    rw [duplicate?, List.nodup_cons]
    by_cases hseen : path ∈ seen
    · simp [hseen]
    · simp only [List.contains_eq_mem, hseen, decide_false, Bool.false_eq_true, ↓reduceIte, ih,
        List.mem_cons, forall_eq_or_imp, not_false_eq_true, true_and]
      constructor
      · rintro ⟨hnodup, hfresh⟩
        exact ⟨⟨fun hmem => hfresh path hmem (Or.inl rfl), hnodup⟩,
          fun q hq hmem => hfresh q hq (Or.inr hmem)⟩
      · rintro ⟨⟨hpath, hnodup⟩, hfresh⟩
        refine ⟨hnodup, fun q hq hmem => ?_⟩
        rcases hmem with rfl | hmem
        · exact hpath hq
        · exact hfresh q hq hmem

/-- The position of a path among paths that differ is where its record stands. -/
theorem position?_eq_some_iff (hdistinct : (records.map (·.path)).Nodup) (path : Text)
    (i : Nat) :
    position? records path = some i ↔ ∃ record, records[i]? = some record ∧ record.path = path := by
  rw [position?, List.findIdx?_eq_some_iff_getElem]
  constructor
  · rintro ⟨hi, hpath, -⟩
    exact ⟨records[i], List.getElem?_eq_getElem hi, by simpa using hpath⟩
  · rintro ⟨record, hget, rfl⟩
    obtain ⟨hi, rfl⟩ := List.getElem?_eq_some_iff.mp hget
    refine ⟨hi, by simp, ?_⟩
    intro j hj heq
    have hpaths : (records.map (·.path))[j]? = (records.map (·.path))[i]? := by
      simpa [hi, hj.trans hi] using heq
    have hbound : j < (records.map (·.path)).length := by
      rw [List.length_map]
      omega
    exact absurd ((List.getElem?_inj hbound hdistinct).mp hpaths) (by omega)

theorem provider?_eq_some_iff (hdistinct : (records.map (·.path)).Nodup) (name : Text)
    (line : ImportLine) (i : Nat) :
    provider? records table name line = some i ↔
      ∃ record, records[i]? = some record ∧ line.sourceOf table name = some record.path := by
  rw [provider?, Option.bind_eq_some_iff]
  constructor
  · rintro ⟨path, hsource, hposition⟩
    obtain ⟨record, hget, rfl⟩ := (position?_eq_some_iff hdistinct path i).mp hposition
    exact ⟨record, hget, hsource⟩
  · rintro ⟨record, hget, hsource⟩
    exact ⟨record.path, hsource, (position?_eq_some_iff hdistinct _ i).mpr ⟨record, hget, rfl⟩⟩

/-- The edges of the graph of positions are the needs of the records. -/
theorem edge_graphOf_iff (hdistinct : (records.map (·.path)).Nodup) (i j : Nat) :
    (graphOf records table).Edge i j ↔
      ∃ u v, records[i]? = some u ∧ records[j]? = some v ∧ NeedsFile table u v := by
  rw [Edge, next, graphOf, List.getD_eq_getElem?_getD, List.getElem?_map]
  cases hget : records[i]? with
  | none => simp
  | some u =>
    simp only [Option.map_some, Option.getD_some, List.mem_filterMap, Prod.exists,
      provider?_eq_some_iff hdistinct, Option.some.injEq, NeedsFile]
    constructor
    · rintro ⟨name, line, hmem, v, hv, hsource⟩
      exact ⟨u, v, rfl, hv, name, line, hmem, hsource⟩
    · rintro ⟨_, v, rfl, hv, name, line, hmem, hsource⟩
      exact ⟨name, line, hmem, v, hv, hsource⟩

@[simp] theorem size_graphOf : (graphOf records table).size = records.length := by
  simp [graphOf, size]

theorem inside_graphOf (hdistinct : (records.map (·.path)).Nodup) :
    (graphOf records table).Inside := by
  intro i j hedge
  obtain ⟨u, v, -, hv, -⟩ := (edge_graphOf_iff hdistinct i j).mp hedge
  rw [size_graphOf]
  exact (List.getElem?_eq_some_iff.mp hv).1

/-- The path of the record at a position. -/
def pathAt (records : List FileRecord) (i : Nat) : Text :=
  ((records[i]?).map (·.path)).getD []

/-- Positions that lie among the records, written as paths. -/
theorem filterMap_path_eq_map {positions : List Nat} (h : ∀ i ∈ positions, i < records.length) :
    (positions.filterMap fun i => records[i]?.map (·.path)) = positions.map (pathAt records) := by
  rw [← List.filterMap_eq_map]
  apply List.filterMap_congr
  intro i hi
  simp [pathAt, h i hi]

theorem link_pathAt (hdistinct : (records.map (·.path)).Nodup) {i j : Nat}
    (hedge : (graphOf records table).Edge i j) :
    Link records table (pathAt records i) (pathAt records j) := by
  obtain ⟨u, v, hu, hv, hneeds⟩ := (edge_graphOf_iff hdistinct i j).mp hedge
  exact ⟨u, List.mem_of_getElem? hu, v, List.mem_of_getElem? hv,
    by simp [pathAt, hu], by simp [pathAt, hv], hneeds⟩

theorem pathAt_injective (hdistinct : (records.map (·.path)).Nodup) {i j : Nat}
    (hi : i < records.length) (hj : j < records.length)
    (h : pathAt records i = pathAt records j) : i = j := by
  have hpaths : (records.map (·.path))[i]? = (records.map (·.path))[j]? := by
    simpa [pathAt, hi, hj] using h
  exact (List.getElem?_inj (by simpa using hi) hdistinct).mp hpaths

/-- A link is an edge between the positions of its two paths. -/
theorem Link.edge (hdistinct : (records.map (·.path)).Nodup) {p q : Text}
    (h : Link records table p q) :
    (graphOf records table).Edge ((position? records p).getD 0)
      ((position? records q).getD 0) := by
  obtain ⟨u, hu, v, hv, rfl, rfl, hneeds⟩ := h
  obtain ⟨i, hi⟩ := List.mem_iff_getElem?.mp hu
  obtain ⟨j, hj⟩ := List.mem_iff_getElem?.mp hv
  rw [(position?_eq_some_iff hdistinct u.path i).mpr ⟨u, hi, rfl⟩,
    (position?_eq_some_iff hdistinct v.path j).mpr ⟨v, hj, rfl⟩]
  exact (edge_graphOf_iff hdistinct i j).mpr ⟨u, v, hi, hj, hneeds⟩

/-- The graph of positions has a cycle exactly when the links have one. -/
theorem transGen_edge_iff_transGen_link (hdistinct : (records.map (·.path)).Nodup) :
    (∃ i, Relation.TransGen (graphOf records table).Edge i i) ↔
      ∃ p, Relation.TransGen (Link records table) p p := by
  constructor
  · rintro ⟨i, hcycle⟩
    exact ⟨pathAt records i, hcycle.lift (pathAt records) fun _ _ => link_pathAt hdistinct⟩
  · rintro ⟨p, hcycle⟩
    exact ⟨_, hcycle.lift (fun q => (position? records q).getD 0) fun _ _ => Link.edge hdistinct⟩

/-- A cycle of positions, written as paths. -/
theorem isCycle_paths (hdistinct : (records.map (·.path)).Nodup) {cycle : List Nat}
    (h : IsCycle (graphOf records table).Edge cycle) :
    IsCycle (Link records table) (cycle.filterMap fun i => records[i]?.map (·.path)) := by
  have hbound (i : Nat) (hi : i ∈ cycle) : i < records.length := by
    simpa using lt_size_of_mem_cycle h hi
  rw [filterMap_path_eq_map hbound]
  exact h.map (pathAt records) (fun _ _ => link_pathAt hdistinct)
    fun i hi j hj => pathAt_injective hdistinct (hbound i hi) (hbound j hj)

theorem filterMap_getElem?_range (records : List FileRecord) :
    (List.range records.length).filterMap (records[·]?) = records := by
  induction records with
  | nil => rfl
  | cons record rest ih =>
    simpa [List.range_succ_eq_map, List.filterMap_map, Function.comp_def] using ih

/-- The graph of records whose paths differ. -/
theorem graph?_eq_ok (hdistinct : (records.map (·.path)).Nodup) :
    graph? records table = .ok (graphOf records table) := by
  have hnone : duplicate? [] (records.map (·.path)) = none :=
    (duplicate?_eq_none_iff [] _).mpr ⟨hdistinct, by simp⟩
  rw [graph?, hnone]

/-- Only records whose paths differ have a graph. -/
theorem nodup_of_graph?_eq_ok {graph : Graph} (h : graph? records table = .ok graph) :
    (records.map (·.path)).Nodup := by
  rw [graph?] at h
  split at h
  next => cases h
  next hnone => exact ((duplicate?_eq_none_iff [] _).mp hnone).1

/-- Sorting is the search through the graph of positions, told in records and paths. -/
theorem sortRecords_eq (hdistinct : (records.map (·.path)).Nodup) :
    sortRecords records table =
      match order (graphOf records table) with
      | .ok vertices => .ok (vertices.filterMap (records[·]?))
      | .error cycle =>
        .error (.circularDependency (cycle.filterMap fun i => records[i]?.map (·.path))) := by
  rw [sortRecords, graph?_eq_ok hdistinct]
  rfl

theorem sortRecords_eq_ok_iff (hdistinct : (records.map (·.path)).Nodup)
    {ordered : List FileRecord} :
    sortRecords records table = .ok ordered ↔ ∃ vertices,
      order (graphOf records table) = .ok vertices ∧
        vertices.filterMap (records[·]?) = ordered := by
  rw [sortRecords_eq hdistinct]
  cases order (graphOf records table) <;> simp

theorem sortRecords_eq_error_iff (hdistinct : (records.map (·.path)).Nodup)
    {reason : Failure} :
    sortRecords records table = .error reason ↔ ∃ cycle,
      order (graphOf records table) = .error cycle ∧
        .circularDependency (cycle.filterMap fun i => records[i]?.map (·.path)) = reason := by
  rw [sortRecords_eq hdistinct]
  cases order (graphOf records table) <;> simp

/-- Only records whose paths differ can be sorted. -/
theorem nodup_of_sortRecords_eq_ok {ordered : List FileRecord}
    (h : sortRecords records table = .ok ordered) : (records.map (·.path)).Nodup := by
  cases hgraph : graph? records table with
  | ok graph => exact nodup_of_graph?_eq_ok hgraph
  | error reason => simp [sortRecords, hgraph, bind, Except.bind] at h

/-- Sorting loses no record and doubles none. -/
theorem sortRecords_perm {ordered : List FileRecord}
    (h : sortRecords records table = .ok ordered) : ordered.Perm records := by
  have hdistinct := nodup_of_sortRecords_eq_ok h
  obtain ⟨vertices, hvertices, rfl⟩ := (sortRecords_eq_ok_iff hdistinct).mp h
  have hperm := order_perm (inside_graphOf hdistinct) hvertices
  rw [size_graphOf] at hperm
  simpa only [filterMap_getElem?_range] using hperm.filterMap (records[·]?)

/-- A record stands behind every record whose file it needs. -/
theorem sortRecords_pair_sublist {ordered : List FileRecord}
    (h : sortRecords records table = .ok ordered) {u v : FileRecord} (hu : u ∈ records)
    (hv : v ∈ records) (hneeds : NeedsFile table u v) : [v, u].Sublist ordered := by
  have hdistinct := nodup_of_sortRecords_eq_ok h
  obtain ⟨vertices, hvertices, rfl⟩ := (sortRecords_eq_ok_iff hdistinct).mp h
  obtain ⟨i, hi⟩ := List.mem_iff_getElem?.mp hu
  obtain ⟨j, hj⟩ := List.mem_iff_getElem?.mp hv
  have hinside : (graphOf records table).Inside := inside_graphOf hdistinct
  have hmem : i ∈ vertices := by
    refine (order_perm hinside hvertices).mem_iff.mpr (List.mem_range.mpr ?_)
    rw [size_graphOf]
    exact (List.getElem?_eq_some_iff.mp hi).1
  have hedge : (graphOf records table).Edge i j :=
    (edge_graphOf_iff hdistinct i j).mpr ⟨u, v, hi, hj, hneeds⟩
  have hpair := (order_settled hinside hvertices).pair_sublist hmem hedge
  simpa [hi, hj] using hpair.filterMap (records[·]?)

/-- Sorting records whose paths differ: there is a result exactly when no chain of links leads
back to where it began. The result holds the same records, each behind those whose file it
needs. Every failure names a cycle of links. So no search is cut off by its bound, which would
be told as the empty cycle. -/
theorem sortRecords_order_or_cycle (records : List FileRecord) (table : SymbolTable)
    (hdistinct : (records.map (·.path)).Nodup) :
    ((∃ ordered, sortRecords records table = .ok ordered) ↔
        ¬ ∃ p, Relation.TransGen (Link records table) p p) ∧
      (∀ ordered, sortRecords records table = .ok ordered →
        ordered.Perm records ∧
          ∀ u ∈ records, ∀ v ∈ records, NeedsFile table u v → [v, u].Sublist ordered) ∧
      ∀ reason, sortRecords records table = .error reason →
        ∃ cycle, reason = .circularDependency cycle ∧
          IsCycle (Link records table) cycle := by
  refine ⟨?_, ?_, ?_⟩
  · rw [← transGen_edge_iff_transGen_link hdistinct, ← order_ok_iff (inside_graphOf hdistinct)]
    simp only [sortRecords_eq_ok_iff hdistinct]
    constructor
    · rintro ⟨_, vertices, hvertices, -⟩
      exact ⟨vertices, hvertices⟩
    · rintro ⟨vertices, hvertices⟩
      exact ⟨_, vertices, hvertices, rfl⟩
  · intro ordered h
    refine ⟨sortRecords_perm h, ?_⟩
    intro u hu v hv hneeds
    exact sortRecords_pair_sublist h hu hv hneeds
  · intro reason h
    obtain ⟨cycle, hcycle, rfl⟩ := (sortRecords_eq_error_iff hdistinct).mp h
    exact ⟨_, rfl, isCycle_paths hdistinct (order_isCycle (inside_graphOf hdistinct) hcycle)⟩

/-- The record of a file that extends the default export of the one beside it. -/
def extending (path base : String) : FileRecord where
  path := path.toList
  imports := [{ resolvedPath := some base.toList, names := ["Base".toList], hasDefault := true }]
  depends := [("Base".toList, 0)]

/-- Two files extend each other, and the search comes upon them from a third one, which is no
part of the cycle. -/
theorem sortRecords_entered_cycle :
    let records := [extending "/a.ts" "/b.ts", extending "/b.ts" "/c.ts", extending "/c.ts" "/b.ts"]
    let cycle := ["/b.ts".toList, "/c.ts".toList, "/b.ts".toList]
    (records.map (·.path)).Nodup ∧
      sortRecords records .empty = .error (.circularDependency cycle) ∧
      IsCycle (Link records .empty) cycle := by
  intro records cycle
  have hdistinct : (records.map (·.path)).Nodup := by decide
  have hsort : sortRecords records .empty = .error (.circularDependency cycle) := by rfl
  obtain ⟨-, -, hfailure⟩ := sortRecords_order_or_cycle records .empty hdistinct
  obtain ⟨found, heq, hcycle⟩ := hfailure _ hsort
  rw [← Failure.circularDependency.inj heq] at hcycle
  exact ⟨hdistinct, hsort, hcycle⟩

end Disentangle.Dependency
