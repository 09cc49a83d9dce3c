import Disentangle.Proofs.Dependency.Sorting
import Disentangle.Proofs.Lists

/-!
Sorting records that are in order already. A search through a graph in which every edge leads to a
smaller vertex leaves the vertices one after another, so records of which each stands behind those
that it needs stay as they are. What sorting gives is such a list, and sorting it again changes
nothing.
-/

namespace Disentangle.Dependency

open Disentangle.Dependency.Graph

namespace Graph

variable {graph : Graph} {n v w : Nat}

theorem Settled.lt_of_edge (h : graph.Settled (List.range n)) (hv : v < n)
    (hedge : graph.Edge v w) : w < v := by
  have hmem : v ∈ List.range n := List.mem_range.mpr hv
  obtain ⟨earlier, later, hsplit⟩ := List.append_of_mem hmem
  have hw : w ∈ earlier := h earlier v later hsplit w hedge
  have hsorted : (earlier ++ v :: later).Pairwise (· < ·) := hsplit ▸ List.pairwise_lt_range
  exact (List.pairwise_append.mp hsorted).2.2 w hw v List.mem_cons_self

theorem settled_range (h : ∀ v w, v < n → graph.Edge v w → w < v) :
    graph.Settled (List.range n) := by
  intro earlier v later hsplit w hedge
  have hv : v < n := List.mem_range.mp (hsplit ▸ List.mem_append_right earlier List.mem_cons_self)
  have hw : w < v := h v w hv hedge
  have hmem : w ∈ earlier ++ v :: later := hsplit ▸ List.mem_range.mpr (hw.trans hv)
  have hsorted : (earlier ++ v :: later).Pairwise (· < ·) := hsplit ▸ List.pairwise_lt_range
  rcases List.mem_append.mp hmem with hearlier | hlater
  · exact hearlier
  · rcases List.mem_cons.mp hlater with rfl | hlater
    · exact absurd hw (Nat.lt_irrefl _)
    · have hbehind := (List.pairwise_cons.mp (List.pairwise_append.mp hsorted).2.1).1 w hlater
      exact absurd hw (Nat.lt_asymm hbehind)

end Graph

variable {graph : Graph} {records : List FileRecord} {table : SymbolTable}

/-- A vertex that the search has left is not searched from again. -/
theorem visit_of_mem {path left : List Nat} {v : Nat} (n : Nat) (hpath : v ∉ path)
    (hleft : v ∈ left) : visit graph (n + 1) path left v = .ok left := by
  rw [visit, if_neg (by simpa using hpath), if_pos (by simpa using hleft)]

theorem foldlM_visit_of_subset {path left targets : List Nat} (n : Nat)
    (hpath : ∀ w ∈ targets, w ∉ path) (hleft : ∀ w ∈ targets, w ∈ left) :
    targets.foldlM (fun left w => visit graph (n + 1) path left w) left = .ok left := by
  induction targets with
  | nil => rfl
  | cons w rest ih =>
    rw [List.forall_mem_cons] at hpath hleft
    rw [List.foldlM_cons, visit_of_mem n hpath.1 hleft.1]
    exact ih hpath.2 hleft.2

/-- Where every edge leads to a smaller vertex the search goes on by one vertex at a time. -/
theorem foldlM_visit_range (h : graph.Settled (List.range graph.size)) {m : Nat}
    (hm : m ≤ graph.size) :
    (List.range m).foldlM (fun left v => visit graph (graph.size + 1) [] left v) [] =
      .ok (List.range m) := by
  induction m with
  | zero => rfl
  | succ m ih =>
    have hedge (w : Nat) (hw : w ∈ graph.next m) : w < m := h.lt_of_edge hm hw
    obtain ⟨n, hn⟩ : ∃ n, graph.size = n + 1 := ⟨graph.size - 1, by omega⟩
    have hnext : (graph.next m).foldlM (fun left w => visit graph graph.size [m] left w)
        (List.range m) = .ok (List.range m) := by
      rw [hn]
      refine foldlM_visit_of_subset n (fun w hw => ?_) fun w hw => List.mem_range.mpr (hedge w hw)
      exact fun hmem => (hedge w hw).ne (List.mem_singleton.mp hmem)
    have hvisit : visit graph (graph.size + 1) [] (List.range m) m = .ok (List.range m ++ [m]) := by
      rw [visit, if_neg (by simp), if_neg (by simp)]
      simp only [List.nil_append, hnext, bind, Except.bind, pure, Except.pure]
    rw [List.range_succ, List.foldlM_append, ih (Nat.le_of_succ_le hm)]
    simp only [bind, Except.bind, List.foldlM_cons, List.foldlM_nil, hvisit, pure, Except.pure]

/-- The vertices are left in their own order exactly if they are settled in it. -/
theorem order_eq_range_iff (hinside : graph.Inside) :
    order graph = .ok (List.range graph.size) ↔ graph.Settled (List.range graph.size) :=
  ⟨order_settled hinside, fun h => foldlM_visit_range h (Nat.le_refl _)⟩

/-- Each record stands behind the records whose files it needs. -/
def IsLoadOrder (table : SymbolTable) (records : List FileRecord) : Prop :=
  ∀ earlier u later, records = earlier ++ u :: later →
    ∀ v ∈ records, NeedsFile table u v → v ∈ earlier

/-- What sorting gives is a load order. -/
theorem isLoadOrder_of_sortRecords {ordered : List FileRecord}
    (h : sortRecords records table = .ok ordered) : IsLoadOrder table ordered := by
  intro earlier u later hsplit v hv hneeds
  have hperm := sortRecords_perm h
  have hu : u ∈ ordered := hsplit ▸ List.mem_append_right earlier List.mem_cons_self
  have hpair := sortRecords_pair_sublist h (hperm.subset hu) (hperm.subset hv) hneeds
  have hnodup : ordered.Nodup :=
    hperm.nodup_iff.mpr (nodup_of_sortRecords_eq_ok h).of_map
  subst hsplit
  exact mem_front_of_pair_sublist hnodup hpair

/-- In a load order the edges between the positions of the records lead back. -/
theorem IsLoadOrder.settled (h : IsLoadOrder table records)
    (hdistinct : (records.map (·.path)).Nodup) :
    (graphOf records table).Settled (List.range records.length) := by
  apply settled_range
  intro i j hi hedge
  obtain ⟨u, v, hu, hv, hneeds⟩ := (edge_graphOf_iff hdistinct i j).mp hedge
  obtain ⟨hi', rfl⟩ := List.getElem?_eq_some_iff.mp hu
  have hsplit : records = records.take i ++ records[i] :: records.drop (i + 1) := by
    rw [List.getElem_cons_drop, List.take_append_drop]
  have hmem := h _ _ _ hsplit v (List.mem_of_getElem? hv) hneeds
  obtain ⟨k, hk, hkv⟩ := List.mem_take_iff_getElem.mp hmem
  have hkj : k = j := by
    refine pathAt_injective hdistinct (by omega) (List.getElem?_eq_some_iff.mp hv).1 ?_
    rw [pathAt, pathAt, hv, ← hkv, List.getElem?_eq_getElem]
  omega

theorem sortRecords_of_isLoadOrder (hdistinct : (records.map (·.path)).Nodup)
    (h : IsLoadOrder table records) : sortRecords records table = .ok records := by
  have hsize : (graphOf records table).size = records.length := size_graphOf
  have hsettled := h.settled hdistinct
  rw [← hsize] at hsettled
  refine (sortRecords_eq_ok_iff hdistinct).mpr
    ⟨_, (order_eq_range_iff (inside_graphOf hdistinct)).mpr hsettled, ?_⟩
  rw [size_graphOf]
  exact filterMap_getElem?_range records

/-- Sorting moves nothing without need. Records with different paths stay as they are exactly if
each of them stands behind those whose files it needs; so what has been sorted stays as it is when
it is sorted again. -/
theorem sortRecords_eq_self_iff (records : List FileRecord) (table : SymbolTable)
    (hdistinct : (records.map (·.path)).Nodup) :
    (sortRecords records table = .ok records ↔ IsLoadOrder table records) ∧
      ∀ ordered, sortRecords records table = .ok ordered →
        sortRecords ordered table = .ok ordered := by
  refine ⟨⟨isLoadOrder_of_sortRecords, sortRecords_of_isLoadOrder hdistinct⟩, ?_⟩
  intro ordered h
  have hpaths := (sortRecords_perm h).map (·.path)
  exact sortRecords_of_isLoadOrder (hpaths.nodup_iff.mpr hdistinct) (isLoadOrder_of_sortRecords h)

/-- Two files extend the same third one, which stands between them: the first is moved, and what
comes of it stays. -/
theorem sortRecords_eq_self_between :
    let records := [extending "/a.ts" "/b.ts", { path := "/b.ts".toList },
      extending "/c.ts" "/b.ts"]
    let ordered : List FileRecord := [{ path := "/b.ts".toList }, extending "/a.ts" "/b.ts",
      extending "/c.ts" "/b.ts"]
    (records.map (·.path)).Nodup ∧ sortRecords records .empty = .ok ordered ∧
      ¬ IsLoadOrder .empty records ∧ sortRecords ordered .empty = .ok ordered ∧
      IsLoadOrder .empty ordered := by
  intro records ordered
  have hdistinct : (records.map (·.path)).Nodup := by decide
  have hdistinct' : (ordered.map (·.path)).Nodup := by decide
  have hsort : sortRecords records .empty = .ok ordered := by rfl
  have hpaths : ordered.map (·.path) ≠ records.map (·.path) := by decide
  have hmoved : sortRecords records .empty ≠ .ok records := fun hsame =>
    hpaths (congrArg (List.map (·.path)) (Except.ok.inj (hsort.symm.trans hsame)))
  obtain ⟨hself, hagain⟩ := sortRecords_eq_self_iff records .empty hdistinct
  obtain ⟨hself', -⟩ := sortRecords_eq_self_iff ordered .empty hdistinct'
  have hsorted := hagain ordered hsort
  exact ⟨hdistinct, hsort, fun horder => hmoved (hself.mpr horder), hsorted, hself'.mp hsorted⟩

end Disentangle.Dependency
