import ConceptLang.Tree.Basic

/-!
# Walks along a tree

Upwards, `Tree.container` climbs from a node to the function or predicate around
it. Downwards, `Tree.references` lists the name occurrences below the top-level
declarations; it keeps the nodes still to be visited on a stack, and
`Tree.preorder` is the recursive walk that visits the same nodes in the same
order.

A path from a node to ever new nodes is at most as long as the tree has nodes,
so every walk carries that many steps. A walk that runs out of them has met a
node again, and `TreeError.endless` says so.
-/

namespace ConceptLang

namespace Tree

/-- The nearest function or predicate above `id`, in at most `steps + 1` steps
upwards. -/
def climb (tree : Tree) (steps : Nat) (id : NodeId) :
    Except TreeError (Option NodeId) := do
  match ← tree.parent id with
  | none => return none
  | some above =>
    if (← tree.construct above).isBinder then
      return some above
    else
      match steps with
      | 0 => throw (.endless id)
      | steps + 1 => tree.climb steps above

/-- The nearest function or predicate that `id` is inside of. -/
def container (tree : Tree) (id : NodeId) : Except TreeError (Option NodeId) :=
  tree.climb tree.size id

/-- The most children that a node has. -/
def width (tree : Tree) : Nat :=
  (tree.nodes.toList.map (·.construct.children.length)).foldr max 0

theorem le_foldr_max (ns : List Nat) (n : Nat) (h : n ∈ ns) :
    n ≤ ns.foldr max 0 := by
  induction ns with
  | nil => simp at h
  | cons m ns ih =>
      rcases List.mem_cons.mp h with rfl | h
      · exact Nat.le_max_left _ _
      · exact Nat.le_trans (ih h) (Nat.le_max_right _ _)

theorem length_children_le_width (tree : Tree) (id : NodeId) (node : Node)
    (h : tree.get? id = some node) :
    node.construct.children.length ≤ tree.width := by
  apply le_foldr_max
  apply List.mem_map.mpr
  refine ⟨node, ?_, rfl⟩
  rw [get?, ← Array.getElem?_toList] at h
  exact List.mem_of_getElem? h

/-- How much work a stack of nodes can still bring: a node with `n` steps left
has at most `width` children, each with one step less. -/
def workload (tree : Tree) : List (NodeId × Nat) → Nat
  | [] => 0
  | (_, steps) :: stack => (tree.width + 1).pow steps + tree.workload stack

theorem workload_append (tree : Tree) (stack stack' : List (NodeId × Nat)) :
    tree.workload (stack ++ stack') =
      tree.workload stack + tree.workload stack' := by
  induction stack with
  | nil => rw [List.nil_append, workload, Nat.zero_add]
  | cons entry stack ih =>
      rw [List.cons_append, workload, workload, ih, Nat.add_assoc]

theorem workload_map (tree : Tree) (children : List NodeId) (steps : Nat) :
    tree.workload (children.map (fun child => (child, steps))) =
      children.length * (tree.width + 1).pow steps := by
  induction children with
  | nil => rw [List.map_nil, workload, List.length_nil, Nat.zero_mul]
  | cons child children ih =>
      rw [List.map_cons, workload, ih, List.length_cons, Nat.succ_mul,
        Nat.add_comm]

theorem workload_children_lt (tree : Tree) (children : List NodeId)
    (steps : Nat) (stack : List (NodeId × Nat)) (id : NodeId)
    (h : children.length ≤ tree.width) :
    tree.workload (children.map (fun child => (child, steps)) ++ stack) <
      tree.workload ((id, steps + 1) :: stack) := by
  have hpos : 0 < (tree.width + 1).pow steps := Nat.pow_pos (Nat.succ_pos _)
  have hle : children.length * (tree.width + 1).pow steps ≤
      tree.width * (tree.width + 1).pow steps :=
    Nat.mul_le_mul_right _ h
  have hpow : (tree.width + 1).pow (steps + 1) =
      tree.width * (tree.width + 1).pow steps + (tree.width + 1).pow steps := by
    rw [Nat.mul_comm tree.width]
    exact Nat.mul_succ _ _
  rw [workload_append, workload_map, workload, hpow]
  omega

/-- Visits the nodes of a stack and all nodes below them, each node before its
children, and collects the references after those already `found` (the last one
first). -/
def visit (tree : Tree) (stack : List (NodeId × Nat)) (found : List NodeId) :
    Except TreeError (List NodeId) :=
  match stack with
  | [] => .ok found.reverse
  | (id, steps) :: stack =>
    match _h : tree.get? id with
    | none => .error (.unknownNode id)
    | some node =>
      match steps with
      | 0 => .error (.endless id)
      | steps + 1 =>
        tree.visit (node.construct.children.map (fun child => (child, steps)) ++
          stack) (if node.construct.isReference then id :: found else found)
termination_by tree.workload stack
decreasing_by
  exact workload_children_lt tree _ _ _ _
    (length_children_le_width tree id node _h)

/-- Every reference below the top-level declarations, in preorder: in particular
those of the left side of a join before its field. A reference that can be
reached twice is listed twice. -/
def references (tree : Tree) : Except TreeError (List NodeId) :=
  tree.visit (tree.roots.map fun root => (root, tree.size)) []

/-- The node `id` and the nodes below it, each node before its children, at most
`steps` nodes deep. -/
def preorder (tree : Tree) (steps : Nat) (id : NodeId) :
    Except TreeError (List NodeId) := do
  let children ← tree.children id
  match steps with
  | 0 => throw (.endless id)
  | steps + 1 =>
    let below ← children.mapM (tree.preorder steps)
    return id :: below.flatten

end Tree

end ConceptLang
