namespace TermNet

/-!
# Bipartite graphs and their matchings

Left nodes are the slots of a commutative pattern, right nodes the arguments of
an operation, and an edge carries the ways in which the argument fits the slot.

* `Bipartite` — one row per left node, listing its right neighbours in
  increasing order with the values of the edges;
* `maximumMatching` — a largest matching, found with augmenting paths;
* `completeMatchings` — every matching that covers the left side, up to
  exchanging nodes that are alike.
-/

/-- A bipartite graph whose edges carry values. -/
structure Bipartite (ε : Type) where
  /-- Number of right nodes. -/
  right : Nat
  /-- The edges of each left node, by increasing right node. -/
  rows : List (List (Nat × ε))
deriving Repr

namespace Bipartite

variable {ε : Type}

/-- The graph without edges. -/
def empty (left right : Nat) : Bipartite ε where
  right := right
  rows := List.replicate left []

/-- Number of left nodes. -/
def left (graph : Bipartite ε) : Nat := graph.rows.length

/-- Set the edge to `node` in a row. -/
def insertEdge (node : Nat) (value : ε) : List (Nat × ε) → List (Nat × ε)
  | [] => [(node, value)]
  | (other, old) :: rest =>
    if node < other then (node, value) :: (other, old) :: rest
    else if node = other then (node, value) :: rest
    else (other, old) :: insertEdge node value rest

/-- Add the edge between `l` and `r`, or change its value. -/
def addEdge (graph : Bipartite ε) (l r : Nat) (value : ε) : Bipartite ε where
  right := graph.right
  rows := graph.rows.modify l (insertEdge r value)

/-- The edges of a left node, none for a node outside the graph. -/
def row (graph : Bipartite ε) (l : Nat) : List (Nat × ε) := graph.rows[l]?.getD []

/-- The right neighbours of a left node, in increasing order. -/
def neighbors (graph : Bipartite ε) (l : Nat) : List Nat := (graph.row l).map Prod.fst

/-- The value of the edge between `l` and `r`. -/
def edge? (graph : Bipartite ε) (l r : Nat) : Option ε := (graph.row l).lookup r

/-- All edges by left, then by right node. -/
def edges (graph : Bipartite ε) : List (Nat × Nat × ε) :=
  graph.rows.zipIdx.flatMap fun (row, l) => row.map fun (r, value) => (l, r, value)

/-- Number of edges. -/
def edgeCount (graph : Bipartite ε) : Nat := graph.rows.flatten.length

/-! ### Maximum matchings -/

/-- A matching under construction: the right nodes that the current search has
    visited, and the left node that each right node belongs to. -/
structure Search where
  visited : List Nat
  owners : List (Option Nat)
deriving Repr

/-- The left node that a right node belongs to. -/
def Search.owner? (search : Search) (r : Nat) : Option Nat := search.owners[r]?.join

/-- Try to give `l` one of the right nodes of a list.  A node that is taken is
    given to `l` if `retry` finds another one for its owner. -/
def tryNodes (retry : Nat → Search → Bool × Search) (l : Nat) : List Nat → Search → Bool × Search
  | [], search => (false, search)
  | r :: rest, search =>
    if search.visited.contains r then tryNodes retry l rest search
    else
      let search := { search with visited := r :: search.visited }
      let (free, search) := match search.owner? r with
        | none => (true, search)
        | some other => retry other search
      if free then (true, { search with owners := search.owners.set r (some l) })
      else tryNodes retry l rest search

/-- Search for an augmenting path from `l` that reassigns at most `length` nodes. -/
def augment (graph : Bipartite ε) : (length : Nat) → Nat → Search → Bool × Search
  | 0, _, search => (false, search)
  | length + 1, l, search => tryNodes (graph.augment length) l (graph.neighbors l) search

/-- The owners of the right nodes after an augmenting path from each left node in
    turn.  A path reassigns every right node at most once, which bounds its length. -/
def matchedOwners (graph : Bipartite ε) : List (Option Nat) :=
  (List.range graph.left).foldl
    (fun owners l => (graph.augment (graph.right + 1) l ⟨[], owners⟩).2.owners)
    (List.replicate graph.right none)

/-- **A maximum matching:** the right node of each left node. -/
def maximumMatching (graph : Bipartite ε) : List (Option Nat) :=
  graph.matchedOwners.zipIdx.foldl
    (fun matching (owner, r) => match owner with
      | some l => matching.set l (some r)
      | none => matching)
    (List.replicate graph.left none)

/-- Number of edges of a maximum matching. -/
def maximumMatchingSize (graph : Bipartite ε) : Nat := graph.maximumMatching.countP Option.isSome

/-! ### Complete matchings -/

/-- Whether the next left node may be given `r`: the node is free, it comes after
    the node of an alike left neighbour, and no alike right neighbour before it is
    free. -/
def mayAssign (sameLeft sameRight : Nat → Nat → Bool) (assigned : List Nat) (r : Nat) : Bool :=
  let l := assigned.length
  !assigned.contains r
    && (match assigned.getLast? with
      | some previous => !sameLeft (l - 1) l || previous < r
      | none => true)
    && !(0 < r && !assigned.contains (r - 1) && sameRight (r - 1) r)

/-- The ways to give each of the remaining rows a right node. -/
def assignments (sameLeft sameRight : Nat → Nat → Bool) :
    List (List (Nat × ε)) → (assigned : List Nat) → List (List Nat)
  | [], assigned => [assigned]
  | row :: rows, assigned =>
    ((row.map Prod.fst).filter (mayAssign sameLeft sameRight assigned)).flatMap fun r =>
      assignments sameLeft sameRight rows (assigned ++ [r])

/-- **Every complete matching,** as the right nodes of the left nodes in turn.

    `sameLeft a b` and `sameRight a b` tell which neighbouring nodes are alike;
    they are only asked for `b = a + 1`.  Matchings that differ only by exchanging
    alike nodes are listed once: alike left nodes take increasing right nodes, and
    of alike right nodes the first free one is taken. -/
def completeMatchings (graph : Bipartite ε) (sameLeft sameRight : Nat → Nat → Bool) :
    List (List Nat) :=
  if graph.right < graph.left then [] else assignments sameLeft sameRight graph.rows []

end Bipartite

end TermNet
