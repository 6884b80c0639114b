import ConceptLang.Tree.Walk

/-!
# Ancestry of concepts

A concept may extend several others, so concepts form a graph, in which diamonds
are usual and cycles can be written down. `Tree.ancestors` lists a concept and
all it extends, directly or not, each once, in the order of depth-first
discovery; `Tree.discover` is the recursive form of that search. Only parents
that are linked to concepts count.

The relations that a concept declares or inherits are listed in ancestor order,
so a concept's own relation comes before an inherited one of the same name.
-/

namespace ConceptLang

namespace Tree

/-- The concepts that the references `parents` are linked to, in order. -/
def linkedConcepts (tree : Tree) : List NodeId → Except TreeError (List NodeId)
  | [] => .ok []
  | parent :: parents => do
    match ← tree.target parent with
    | none => tree.linkedConcepts parents
    | some target =>
      if (← tree.construct target).isConcept then
        return target :: (← tree.linkedConcepts parents)
      else
        tree.linkedConcepts parents

/-- The concepts that the node `id` extends directly; a node that is not a
concept extends none. -/
def conceptParents (tree : Tree) (id : NodeId) :
    Except TreeError (List NodeId) := do
  match ← tree.construct id with
  | .concept _ parents _ => tree.linkedConcepts parents
  | _ => return []

theorem length_linkedConcepts_le (tree : Tree) (parents concepts : List NodeId)
    (h : tree.linkedConcepts parents = .ok concepts) :
    concepts.length ≤ parents.length := by
  induction parents generalizing concepts with
  | nil =>
      cases h
      exact Nat.le_refl _
  | cons parent parents ih =>
      simp only [linkedConcepts, bind, Except.bind] at h
      split at h
      · contradiction
      · split at h
        · exact Nat.le_succ_of_le (ih _ h)
        · split at h
          · contradiction
          · split at h
            · split at h
              · contradiction
              · next rest hrest =>
                  cases h
                  exact Nat.succ_le_succ (ih rest hrest)
            · exact Nat.le_succ_of_le (ih _ h)

theorem conceptParents_eq_ok (tree : Tree) (id : NodeId)
    (concepts : List NodeId) (h : tree.conceptParents id = .ok concepts) :
    id < tree.size ∧ concepts.length ≤ tree.width := by
  simp only [conceptParents, construct, node, bind, Except.bind] at h
  cases hnode : tree.get? id with
  | none => simp [hnode, Except.map] at h
  | some node =>
      refine ⟨(Array.getElem?_eq_some_iff.mp hnode).1, ?_⟩
      have hwidth := length_children_le_width tree id node hnode
      simp only [hnode, Except.map] at h
      split at h
      · next name parents relations hconcept =>
          have hle := length_linkedConcepts_le tree parents concepts h
          rw [hconcept] at hwidth
          simp only [Construct.children, List.length_append] at hwidth
          omega
      · cases h
        exact Nat.zero_le _

/-- How many nodes of the tree are not in `seen`. -/
def unseen (tree : Tree) (seen : List NodeId) : Nat :=
  (List.range tree.size).countP (fun id => !seen.contains id)

theorem countP_lt_of_imp (p q : NodeId → Bool) (ids : List NodeId) (id : NodeId)
    (hid : id ∈ ids) (himp : ∀ x, q x = true → p x = true) (hp : p id = true)
    (hq : q id = false) :
    ids.countP q < ids.countP p := by
  induction ids with
  | nil => simp at hid
  | cons x xs ih =>
      have hle : xs.countP q ≤ xs.countP p :=
        List.countP_mono_left (fun y _ => himp y)
      rcases List.mem_cons.mp hid with rfl | hmem
      · rw [List.countP_cons_of_neg (by simp [hq]), List.countP_cons_of_pos hp]
        omega
      · have := ih hmem
        by_cases hx : q x = true
        · rw [List.countP_cons_of_pos hx, List.countP_cons_of_pos (himp x hx)]
          omega
        · rw [List.countP_cons_of_neg hx, List.countP_cons]
          omega

theorem unseen_cons_lt (tree : Tree) (seen : List NodeId) (id : NodeId)
    (hlt : id < tree.size) (hnew : seen.contains id = false) :
    tree.unseen (id :: seen) < tree.unseen seen := by
  apply countP_lt_of_imp _ _ _ id (List.mem_range.mpr hlt)
  · intro x hx
    simp only [List.contains_cons, Bool.not_or, Bool.and_eq_true] at hx
    exact hx.2
  · simp only [hnew, Bool.not_false]
  · simp

/-- How much work a search can still bring: each unseen node is visited once and
puts at most `width` nodes on the stack. -/
def searchload (tree : Tree) (stack seen : List NodeId) : Nat :=
  tree.unseen seen * (tree.width + 1) + stack.length

theorem searchload_parents_lt (tree : Tree) (id : NodeId)
    (parents stack seen : List NodeId) (hnew : seen.contains id = false)
    (h : tree.conceptParents id = .ok parents) :
    tree.searchload (parents ++ stack) (id :: seen) <
      tree.searchload (id :: stack) seen := by
  obtain ⟨hlt, hlen⟩ := conceptParents_eq_ok tree id parents h
  have hmul : (tree.unseen (id :: seen) + 1) * (tree.width + 1) ≤
      tree.unseen seen * (tree.width + 1) :=
    Nat.mul_le_mul_right _ (unseen_cons_lt tree seen id hlt hnew)
  rw [Nat.succ_mul] at hmul
  simp only [searchload, List.length_append, List.length_cons]
  omega

/-- Searches depth first from a stack of nodes, after the nodes already `seen`
(the last one first). -/
def search (tree : Tree) (stack seen : List NodeId) :
    Except TreeError (List NodeId) :=
  match stack with
  | [] => .ok seen.reverse
  | id :: stack =>
    if _hseen : seen.contains id then
      tree.search stack seen
    else
      match _h : tree.conceptParents id with
      | .error e => .error e
      | .ok parents => tree.search (parents ++ stack) (id :: seen)
termination_by tree.searchload stack seen
decreasing_by
  · exact Nat.lt_succ_self _
  · exact searchload_parents_lt tree id parents stack seen
      (by simpa using _hseen) _h

/-- The concept `id`, then every concept it extends, directly or not, each
once. -/
def ancestors (tree : Tree) (id : NodeId) : Except TreeError (List NodeId) :=
  tree.search [id] []

/-- The nodes `seen` so far (the last one first) after a depth-first discovery
from `id`, which skips nodes seen before and goes at most `steps` nodes deep. -/
def discover (tree : Tree) (steps : Nat) (seen : List NodeId) (id : NodeId) :
    Except TreeError (List NodeId) := do
  if seen.contains id then
    return seen
  else
    let parents ← tree.conceptParents id
    match steps with
    | 0 => throw (.endless id)
    | steps + 1 => parents.foldlM (tree.discover steps) (id :: seen)

/-- The relations that the concept `id` itself declares. -/
def declaredRelations (tree : Tree) (id : NodeId) :
    Except TreeError (List NodeId) := do
  match ← tree.construct id with
  | .concept _ _ relations => return relations
  | _ => return []

/-- Every relation of the concept `id` or inherited by it, each with the concept
that declares it.
-/
def visibleRelations (tree : Tree) (id : NodeId) :
    Except TreeError (List (NodeId × NodeId)) := do
  let owners ← tree.ancestors id
  let groups ← owners.mapM fun owner => do
    return (← tree.declaredRelations owner).map fun relation =>
      (owner, relation)
  return groups.flatten

/-- The first of the nodes paired with an owner that declares the name `name`.
Nodes after it are not looked at. -/
def findNamed (tree : Tree) (name : String) :
    List (NodeId × NodeId) → Except TreeError (Option (NodeId × NodeId))
  | [] => .ok none
  | (owner, id) :: rest => do
    if (← tree.nameOf id) = some name then
      return some (owner, id)
    else
      tree.findNamed name rest

/-- The relation that the name `name` means on the concept `id`, with the
concept that declares it. -/
def findRelation (tree : Tree) (id : NodeId) (name : String) :
    Except TreeError (Option (NodeId × NodeId)) := do
  tree.findNamed name (← tree.visibleRelations id)

/-- The nodes among `ids` that declare a name, each with that name. -/
def named (tree : Tree) :
    List NodeId → Except TreeError (List (String × NodeId))
  | [] => .ok []
  | id :: ids => do
    match ← tree.nameOf id with
    | some name => return (name, id) :: (← tree.named ids)
    | none => tree.named ids

/-- The names of the relations visible on the concept `id`, each once, in the
order of their first occurrence. -/
def relationNames (tree : Tree) (id : NodeId) :
    Except TreeError (List String) := do
  let relations ← tree.visibleRelations id
  let entries ← tree.named (relations.map (·.2))
  return (entries.map (·.1)).eraseDups

end Tree

end ConceptLang
