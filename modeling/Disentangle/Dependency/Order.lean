import Disentangle.Dependency.Graph

/-!
An order of the records in which every record comes after those it needs while it is loaded. It
is the order in which a depth-first search leaves the vertices. Where the search comes back to a
vertex that it has not left yet, there is a cycle and no such order.
-/

namespace Disentangle.Dependency

/-- Searches from `v` on. `path` leads from where the search began to `v`, `left` are the
vertices that it has left, in order. The result is the vertices left afterwards, or a cycle
that ends where it begins. The first argument bounds the length of the path; where that would
cut the search off, the cycle is the empty one, which no search reports otherwise. -/
def visit (graph : Graph) : Nat → List Nat → List Nat → Nat → Except (List Nat) (List Nat)
  | 0, _, _, _ => .error []
  | n + 1, path, left, v =>
    if path.contains v then .error (path.dropWhile (· ≠ v) ++ [v])
    else if left.contains v then .ok left
    else do
      let left ← (graph.next v).foldlM (fun left w => visit graph n (path ++ [v]) left w) left
      return left ++ [v]

/-- The vertices of a graph in an order in which every edge leads back, or a cycle. -/
def order (graph : Graph) : Except (List Nat) (List Nat) :=
  (List.range graph.size).foldlM (fun left v => visit graph (graph.size + 1) [] left v) []

/-- The records in an order in which each comes after those it needs while it is loaded. -/
def sortRecords (records : List FileRecord) (table : SymbolTable) :
    Except Failure (List FileRecord) := do
  let graph ← graph? records table
  match order graph with
  | .ok vertices => return vertices.filterMap (records[·]?)
  | .error cycle =>
    throw (.circularDependency (cycle.filterMap fun v => records[v]?.map (·.path)))

end Disentangle.Dependency
