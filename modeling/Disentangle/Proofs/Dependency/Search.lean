import Disentangle.Dependency.Order
import Mathlib.Data.List.Chain
import Mathlib.Data.List.Nodup

/-!
What a depth-first search through a graph gives. Along its path the search keeps two facts: the
path is a walk without repetition, and the vertices already left lie apart from it and form a
list in which every edge leads back. So either all vertices are left in such a list, and the
graph has no cycle, or the search reports a cycle of the graph. The bound on the length of the
path is never what ends a search.
-/

namespace Disentangle.Dependency

/-- A list that runs around a cycle of a relation once: it ends where it begins, nothing else in
it occurs twice, and every entry is related to the next one. -/
structure IsCycle {α : Type} (related : α → α → Prop) (cycle : List α) : Prop where
  two_le_length : 2 ≤ cycle.length
  closed : cycle.getLast? = cycle.head?
  nodup : cycle.dropLast.Nodup
  chain : cycle.IsChain related

/-- Whoever stands on a cycle is reached from itself. -/
theorem IsCycle.transGen {α : Type} {related : α → α → Prop} {cycle : List α}
    (h : IsCycle related cycle) : ∃ a, Relation.TransGen related a a := by
  match cycle, h with
  | [], h => exact absurd h.two_le_length (by simp)
  | [_], h => exact absurd h.two_le_length (by simp)
  | a :: b :: rest, h =>
    have hfirst : related a b := (List.isChain_cons_cons.mp h.chain).1
    have hrest : (b :: rest).IsChain related := (List.isChain_cons_cons.mp h.chain).2
    have hback : Relation.ReflTransGen related b a := by
      refine List.relationReflTransGen_of_exists_isChain_cons rest hrest ?_
      have hlast : (b :: rest).getLast? = some a := by
        simpa [List.getLast?_cons_cons] using h.closed
      exact Option.some.inj ((List.getLast?_eq_some_getLast (by simp)).symm.trans hlast)
    exact ⟨a, Relation.TransGen.head' hfirst hback⟩

/-- A cycle of one relation is carried by a map that keeps related things related and different
ones different. -/
theorem IsCycle.map {α β : Type} {related : α → α → Prop} {related' : β → β → Prop}
    {cycle : List α} (h : IsCycle related cycle) (f : α → β)
    (hrelated : ∀ a b, related a b → related' (f a) (f b))
    (hinjective : ∀ a ∈ cycle, ∀ b ∈ cycle, f a = f b → a = b) :
    IsCycle related' (cycle.map f) where
  two_le_length := by simpa using h.two_le_length
  closed := by simp [List.getLast?_map, List.head?_map, h.closed]
  nodup := by
    rw [← List.map_dropLast]
    refine h.nodup.map_on ?_
    intro a ha b hb
    exact hinjective a (List.dropLast_subset _ ha) b (List.dropLast_subset _ hb)
  chain := List.isChain_map_of_isChain f hrelated h.chain

namespace Graph

variable {graph : Graph} {path left targets : List Nat} {v w : Nat}

/-- There is an edge from `v` to `w`. -/
def Edge (graph : Graph) (v w : Nat) : Prop := w ∈ graph.next v

/-- No edge leads out of the graph. -/
def Inside (graph : Graph) : Prop := ∀ v w, graph.Edge v w → w < graph.size

theorem Edge.lt_size (h : graph.Edge v w) : v < graph.size := by
  by_contra hv
  have hnext : graph.next v = [] := by
    simp only [next, List.getD_eq_getElem?_getD]
    rw [List.getElem?_eq_none (by simpa [size] using hv), Option.getD_none]
  rw [Edge, hnext] at h
  exact absurd h (by simp)

/-- Every vertex of a cycle is one of the graph: an edge leaves it. -/
theorem lt_size_of_mem_cycle {cycle : List Nat} (h : IsCycle graph.Edge cycle)
    (hv : v ∈ cycle) : v < graph.size := by
  obtain ⟨front, rest, rfl⟩ := List.append_of_mem hv
  have hedges (earlier : List Nat) {a b : Nat} {later : List Nat}
      (hsplit : front ++ v :: rest = earlier ++ a :: b :: later) : graph.Edge a b :=
    List.isChain_iff_forall_rel_of_append_cons_cons.mp h.chain hsplit
  match rest, front with
  | w :: rest, front => exact (hedges front rfl).lt_size
  | [], [] => exact absurd h.two_le_length (by simp)
  | [], [u] =>
    have huv : v = u := by simpa using h.closed
    have hedge : graph.Edge u v := hedges [] rfl
    exact huv ▸ hedge.lt_size
  | [], u :: w :: front =>
    have huv : v = u := by
      have hclosed := h.closed
      rw [List.getLast?_concat, List.cons_append, List.head?_cons] at hclosed
      exact Option.some.inj hclosed
    have hedge : graph.Edge u w := hedges [] rfl
    exact huv ▸ hedge.lt_size

/-- A list in which every edge leads back: what a vertex of the list needs stands before it. -/
def Settled (graph : Graph) (left : List Nat) : Prop :=
  ∀ earlier v later, left = earlier ++ v :: later → ∀ w, graph.Edge v w → w ∈ earlier

theorem settled_nil : graph.Settled [] := by
  intro earlier v later h
  simp at h

theorem Settled.concat (h : graph.Settled left) (hv : ∀ w, graph.Edge v w → w ∈ left) :
    graph.Settled (left ++ [v]) := by
  intro earlier u later hsplit w hw
  rcases List.eq_nil_or_concat later with rfl | ⟨front, last, rfl⟩
  · obtain ⟨rfl, hu⟩ := List.append_inj' hsplit rfl
    simp only [List.cons.injEq, and_true] at hu
    exact hv w (hu ▸ hw)
  · have hparts : left ++ [v] = (earlier ++ u :: front) ++ [last] := by simpa using hsplit
    exact h earlier u front (List.append_inj' hparts rfl).1 w hw

/-- What a vertex needs stands before it. -/
theorem Settled.pair_sublist (h : graph.Settled left) (hv : v ∈ left) (hw : graph.Edge v w) :
    [w, v].Sublist left := by
  obtain ⟨earlier, later, rfl⟩ := List.append_of_mem hv
  have hmem : w ∈ earlier := h earlier v later rfl w hw
  have hafter : [v].Sublist (v :: later) := (List.nil_sublist later).cons_cons v
  exact (List.singleton_sublist.mpr hmem).append hafter

/-- Along an edge of a settled list the position goes down. -/
theorem Settled.idxOf_lt (h : graph.Settled left) (hv : v ∈ left) (hw : graph.Edge v w) :
    left.idxOf w < left.idxOf v := by
  obtain ⟨earlier, later, rfl, hfresh⟩ := List.eq_append_cons_of_mem hv
  have hmem : w ∈ earlier := h earlier v later rfl w hw
  rw [List.idxOf_append_of_mem hmem, List.idxOf_append_of_notMem hfresh, List.idxOf_cons_self]
  exact List.idxOf_lt_length_of_mem hmem

/-- A graph whose vertices can be settled has no cycle. -/
theorem Settled.not_transGen_self (h : graph.Settled left)
    (hall : ∀ v, v < graph.size → v ∈ left) (v : Nat) :
    ¬ Relation.TransGen graph.Edge v v := by
  -- Positions go down along every edge, so along every walk.
  have hdown (u w : Nat) (hreach : Relation.TransGen graph.Edge u w) :
      left.idxOf w < left.idxOf u := by
    induction hreach with
    | single hedge => exact h.idxOf_lt (hall _ hedge.lt_size) hedge
    | tail _ hedge ih => exact (h.idxOf_lt (hall _ hedge.lt_size) hedge).trans ih
  intro hcycle
  exact absurd (hdown v v hcycle) (Nat.lt_irrefl _)

/-- What holds of the vertices that a search has left, while it goes along `path`. -/
structure Behind (graph : Graph) (path left : List Nat) : Prop where
  nodup : left.Nodup
  lt_size : ∀ v ∈ left, v < graph.size
  settled : graph.Settled left
  apart : ∀ v ∈ left, v ∉ path

/-- What holds of the path along which a search comes to `v`. -/
structure Way (graph : Graph) (path : List Nat) (v : Nat) : Prop where
  nodup : path.Nodup
  lt_size : ∀ u ∈ path, u < graph.size
  chain : (path ++ [v]).IsChain graph.Edge
  target_lt_size : v < graph.size

/-- What a search along `path` may give that visits `targets` when it has left the vertices
`left`: more vertices left, all of `targets` among them, or a cycle. -/
def Outcome (graph : Graph) (path left targets : List Nat) :
    Except (List Nat) (List Nat) → Prop
  | .ok after => left <+: after ∧ graph.Behind path after ∧ ∀ w ∈ targets, w ∈ after
  | .error cycle => IsCycle graph.Edge cycle

@[simp] theorem outcome_error {cycle : List Nat} :
    graph.Outcome path left targets (.error cycle) ↔ IsCycle graph.Edge cycle := Iff.rfl

theorem behind_nil (path : List Nat) : graph.Behind path [] :=
  ⟨List.nodup_nil, by simp, settled_nil, by simp⟩

/-- A path without repetition is no longer than the graph has vertices. -/
theorem Way.length_le (h : graph.Way path v) : path.length ≤ graph.size := by
  have hsub : path ⊆ List.range graph.size := fun u hu => List.mem_range.mpr (h.lt_size u hu)
  simpa using h.nodup.length_le_of_subset hsub

/-- Going on from `v`, which is not on the path yet, to a vertex that it needs. -/
theorem Way.step (hinside : graph.Inside) (h : graph.Way path v) (hfresh : v ∉ path)
    (hw : graph.Edge v w) : graph.Way (path ++ [v]) w where
  nodup := by
    rw [← List.concat_eq_append]
    exact h.nodup.concat hfresh
  lt_size := List.forall_mem_append.mpr
    ⟨h.lt_size, List.forall_mem_singleton.mpr h.target_lt_size⟩
  chain := by
    refine List.isChain_append.mpr ⟨h.chain, List.isChain_singleton w, ?_⟩
    intro x hx y hy
    simp only [List.getLast?_append, List.getLast?_singleton, Option.some_or,
      Option.mem_def, Option.some.injEq, List.head?_cons] at hx hy
    exact hx ▸ hy ▸ hw
  target_lt_size := hinside v w hw

/-- A path that comes back to one of its vertices closes a cycle there. -/
theorem Way.isCycle (h : graph.Way path v) (hv : v ∈ path) :
    IsCycle graph.Edge (path.dropWhile (· ≠ v) ++ [v]) := by
  obtain ⟨front, rest, rfl, hfresh⟩ := List.eq_append_cons_of_mem hv
  have hdrop : (front ++ v :: rest).dropWhile (· ≠ v) = v :: rest := by
    rw [List.dropWhile_append_of_pos, List.dropWhile_cons_of_neg (by simp)]
    intro u hu
    simpa using fun heq : u = v => hfresh (heq ▸ hu)
  rw [hdrop]
  exact {
    two_le_length := by simp
    closed := by rw [List.getLast?_concat, List.cons_append, List.head?_cons]
    nodup := by
      rw [List.dropLast_concat]
      exact h.nodup.sublist (List.sublist_append_right front (v :: rest))
    chain := by
      have hchain := h.chain
      rw [List.append_assoc] at hchain
      exact hchain.right_of_append }

theorem Behind.enter (h : graph.Behind path left) (hv : v ∉ left) :
    graph.Behind (path ++ [v]) left where
  nodup := h.nodup
  lt_size := h.lt_size
  settled := h.settled
  apart := by
    intro u hu hpath
    rcases List.mem_append.mp hpath with hold | hnew
    · exact h.apart u hu hold
    · exact hv (List.mem_singleton.mp hnew ▸ hu)

/-- A vertex is left when everything that it needs has been. -/
theorem Behind.leave (h : graph.Behind (path ++ [v]) left) (hway : graph.Way path v)
    (hfresh : v ∉ path) (hneeds : ∀ w ∈ graph.next v, w ∈ left) :
    graph.Behind path (left ++ [v]) where
  nodup := by
    have hnew : v ∉ left := fun hv => h.apart v hv (by simp)
    rw [← List.concat_eq_append]
    exact h.nodup.concat hnew
  lt_size := List.forall_mem_append.mpr
    ⟨h.lt_size, List.forall_mem_singleton.mpr hway.target_lt_size⟩
  settled := h.settled.concat hneeds
  apart := by
    intro u hu hpath
    rcases List.mem_append.mp hu with hold | hnew
    · exact h.apart u hold (List.mem_append_left [v] hpath)
    · exact hfresh (List.mem_singleton.mp hnew ▸ hpath)

/-- Visiting one target after another keeps what visiting a single one keeps. -/
theorem foldlM_outcome {step : List Nat → Nat → Except (List Nat) (List Nat)}
    (hstep : ∀ w ∈ targets, ∀ left, graph.Behind path left →
      graph.Outcome path left [w] (step left w))
    (hleft : graph.Behind path left) :
    graph.Outcome path left targets (targets.foldlM step left) := by
  induction targets generalizing left with
  | nil => exact ⟨List.prefix_rfl, hleft, by simp⟩
  | cons w rest ih =>
    have hfirst := hstep w (by simp) left hleft
    cases hrun : step left w with
    | error cycle =>
      rw [hrun] at hfirst
      simpa [List.foldlM_cons, hrun, bind, Except.bind] using hfirst
    | ok middle =>
      rw [hrun] at hfirst
      obtain ⟨hgrown, hmiddle, hw⟩ := hfirst
      -- What the first visit has left is kept by all later ones.
      have hrest := ih (fun u hu => hstep u (List.mem_cons_of_mem w hu)) hmiddle
      cases htail : rest.foldlM step middle with
      | error cycle =>
        rw [htail] at hrest
        simpa [List.foldlM_cons, hrun, htail, bind, Except.bind] using hrest
      | ok after =>
        rw [htail] at hrest
        obtain ⟨hgrown', hafter, htargets⟩ := hrest
        simp only [List.foldlM_cons, hrun, htail, bind, Except.bind]
        refine ⟨hgrown.trans hgrown', hafter, ?_⟩
        intro u hu
        rcases List.mem_cons.mp hu with rfl | hu
        · exact hgrown'.subset (hw u (by simp))
        · exact htargets u hu

end Graph

open Disentangle.Dependency.Graph

variable {graph : Graph}

/-- A visit leaves its vertex behind everything that the vertex needs, or reports a cycle. The
induction is on what is left of the bound, which stays above the number of vertices that are
not on the path. -/
theorem visit_outcome (hinside : graph.Inside) (n : Nat) (path left : List Nat) (v : Nat)
    (hbound : graph.size < n + path.length) (hway : graph.Way path v)
    (hleft : graph.Behind path left) :
    graph.Outcome path left [v] (visit graph n path left v) := by
  induction n generalizing path left v with
  | zero =>
    -- A path without repetition never uses up the bound.
    have hlength := hway.length_le
    omega
  | succ n ih =>
    rw [visit]
    split
    next hactive => exact hway.isCycle (by simpa using hactive)
    next hactive =>
      have hfresh : v ∉ path := by simpa using hactive
      split
      next hdone => exact ⟨List.prefix_rfl, hleft, by simpa using hdone⟩
      next hdone =>
        have hnew : v ∉ left := by simpa using hdone
        have hnext : graph.Outcome (path ++ [v]) left (graph.next v)
            ((graph.next v).foldlM (fun left w => visit graph n (path ++ [v]) left w) left) := by
          refine foldlM_outcome ?_ (hleft.enter hnew)
          intro w hw left hleft
          have hlonger : graph.size < n + (path ++ [v]).length := by
            simp only [List.length_append, List.length_singleton]
            omega
          exact ih (path ++ [v]) left w hlonger (hway.step hinside hfresh hw) hleft
        cases hrun : (graph.next v).foldlM
            (fun left w => visit graph n (path ++ [v]) left w) left with
        | error cycle =>
          rw [hrun] at hnext
          simpa [bind, Except.bind] using hnext
        | ok after =>
          rw [hrun] at hnext
          obtain ⟨hgrown, hafter, hneeds⟩ := hnext
          exact ⟨hgrown.trans (List.prefix_append after [v]),
            hafter.leave hway hfresh hneeds, by simp⟩

/-- A search through the whole graph leaves all its vertices, or reports a cycle. -/
theorem order_outcome (hinside : graph.Inside) :
    graph.Outcome [] [] (List.range graph.size) (order graph) := by
  refine foldlM_outcome ?_ (behind_nil [])
  intro v hv left hleft
  have hway : graph.Way [] v :=
    ⟨List.nodup_nil, by simp, by simp, List.mem_range.mp hv⟩
  exact visit_outcome hinside (graph.size + 1) [] left v (by simp) hway hleft

theorem order_perm (hinside : graph.Inside) {vertices : List Nat}
    (h : order graph = .ok vertices) : vertices.Perm (List.range graph.size) := by
  have hout := order_outcome hinside
  rw [h] at hout
  obtain ⟨-, hbehind, hall⟩ := hout
  refine (List.perm_ext_iff_of_nodup hbehind.nodup List.nodup_range).mpr ?_
  intro v
  exact ⟨fun hv => List.mem_range.mpr (hbehind.lt_size v hv), hall v⟩

theorem order_settled (hinside : graph.Inside) {vertices : List Nat}
    (h : order graph = .ok vertices) : graph.Settled vertices := by
  have hout := order_outcome hinside
  rw [h] at hout
  exact hout.2.1.settled

theorem order_isCycle (hinside : graph.Inside) {cycle : List Nat}
    (h : order graph = .error cycle) : IsCycle graph.Edge cycle := by
  have hout := order_outcome hinside
  rw [h] at hout
  exact hout

/-- There is an order of the vertices exactly when the graph has no cycle. -/
theorem order_ok_iff (hinside : graph.Inside) :
    (∃ vertices, order graph = .ok vertices) ↔
      ¬ ∃ v, Relation.TransGen graph.Edge v v := by
  constructor
  · rintro ⟨vertices, h⟩ ⟨v, hcycle⟩
    refine (order_settled hinside h).not_transGen_self ?_ v hcycle
    intro u hu
    exact (order_perm hinside h).mem_iff.mpr (List.mem_range.mpr hu)
  · intro hacyclic
    cases h : order graph with
    | ok vertices => exact ⟨vertices, rfl⟩
    | error cycle => exact absurd (order_isCycle hinside h).transGen hacyclic

end Disentangle.Dependency
