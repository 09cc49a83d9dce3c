import Disentangle.Dependency.Graph

/-!
The tangles of a graph: its strongly connected components of two or more vertices, by Tarjan's
algorithm. A depth-first search numbers the vertices as it meets them and keeps those whose
component is still open on a stack. A component is closed when the search leaves that of its
vertices which it met first, so a component that is reached from another one is listed before it.
-/

namespace Disentangle.Dependency

/-- How far a search has come: the vertices met, in order; those whose component is still open,
the last one met first; the components closed, in order. -/
structure Trail where
  met : List Nat := []
  stack : List Nat := []
  components : List (List Nat) := []

namespace Trail

/-- The number under which `v` was met. -/
def number (trail : Trail) (v : Nat) : Nat := trail.met.idxOf v

/-- Meets `v`. -/
def enter (trail : Trail) (v : Nat) : Trail :=
  ⟨trail.met ++ [v], v :: trail.stack, trail.components⟩

/-- Takes `v` and all that stands above it from the stack, as a component. -/
def close (trail : Trail) (v : Nat) : Trail where
  met := trail.met
  stack := (trail.stack.dropWhile (· ≠ v)).tail
  components := trail.components ++ [trail.stack.takeWhile (· ≠ v) ++ [v]]

end Trail

/-- Goes along an edge to `w`, which `explore` searches from. The number that comes with a trail
is the lowest one that the vertex in hand is known to lead back to. -/
def followEdge (explore : Trail → Nat → Trail × Nat) (found : Trail × Nat) (w : Nat) :
    Trail × Nat :=
  if found.1.met.contains w then
    if found.1.stack.contains w then (found.1, min found.2 (found.1.number w)) else found
  else
    let deeper := explore found.1 w
    (deeper.1, min found.2 deeper.2)

/-- Searches from `v` on, which has not been met. The first argument bounds the depth of the
search. -/
def explore (graph : Graph) : Nat → Trail → Nat → Trail × Nat
  | 0, trail, _ => (trail, 0)
  | n + 1, trail, v =>
    let own := trail.met.length
    let (after, low) := (graph.next v).foldl (followEdge (explore graph n)) (trail.enter v, own)
    if low = own then (after.close v, low) else (after, low)

/-- Searches from `v` on, unless it has been met. -/
def exploreFresh (graph : Graph) (trail : Trail) (v : Nat) : Trail :=
  if trail.met.contains v then trail else (explore graph (graph.size + 1) trail v).1

/-- The strongly connected components of a graph, in the order in which they are closed. -/
def components (graph : Graph) : List (List Nat) :=
  ((List.range graph.size).foldl (exploreFresh graph) {}).components

/-- The groups of two or more vertices that reach each other. -/
def tangles (graph : Graph) : List (List Nat) :=
  (components graph).filter (2 ≤ ·.length)

/-- The groups of two or more records that need each other while they are loaded, as paths. -/
def tangledPaths (records : List FileRecord) (table : SymbolTable) :
    Except Failure (List (List Text)) := do
  let graph ← graph? records table
  return (tangles graph).map fun group => group.filterMap fun v => records[v]?.map (·.path)

end Disentangle.Dependency
