/-! A minimum-degree elimination order for a symmetric pattern: the node of least remaining degree
comes next, the lowest index on a tie, and its neighbours are joined as elimination fills them. -/

namespace ConvexQp

namespace Ordering

/-- The pattern with all of `nodes` joined to one another. -/
def joinAll (adj : Array (Array Bool)) (nodes : List Nat) : Array (Array Bool) :=
  nodes.foldl (fun adj a => nodes.foldl (fun adj b =>
    if a != b then adj.modify a (·.set! b true) else adj) adj) adj

/-- The node to eliminate next: of least degree among the live nodes, the lowest of equals;
`none` when no node is live. -/
def nextNode (n : Nat) (adj : Array (Array Bool)) (live : Array Bool) : Option Nat :=
  let degree (v : Nat) : Nat :=
    (List.range n).countP fun u => live.getD u false && (adj.getD v #[]).getD u false
  let best := (List.range n).foldl (fun best v =>
    if live.getD v false then
      match best with
      | none => some (degree v, v)
      | some (d, _) => if degree v < d then some (degree v, v) else best
    else best) none
  best.map (·.2)

/-- Eliminates the live nodes one by one, at most `fuel` of them, appending each to `order`. -/
def eliminate (n : Nat) : (fuel : Nat) → Array (Array Bool) → Array Bool → Array Nat → Array Nat
  | 0, _, _, order => order
  | fuel + 1, adj, live, order =>
    match nextNode n adj live with
    | none => order
    | some v =>
      let nbrs := (List.range n).filter fun u => live.getD u false && (adj.getD v #[]).getD u false
      eliminate n fuel (joinAll adj nbrs) (live.set! v false) (order.push v)

/-- The minimum-degree order of the `n` nodes of a symmetric pattern given by its edges. -/
def minimumDegree (n : Nat) (edges : List (Nat × Nat)) : Array Nat :=
  let adj := edges.foldl (fun adj (a, b) =>
    if a != b then (adj.modify a (·.set! b true)).modify b (·.set! a true) else adj)
    (Array.replicate n (Array.replicate n false))
  eliminate n n adj (Array.replicate n true) #[]

end Ordering

end ConvexQp
