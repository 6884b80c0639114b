import Mathlib.Data.List.Forall2
import ConceptLang.Proofs.Edits

/-!
# The order of references

The walk over references keeps the nodes still to be visited on a stack, puts
all parts of a node there at once, and does not remember where it has been. If
every node comes after its parts (`Tree.BottomUp`), it ends, and it is the
recursive walk `Tree.walk`: a node is visited by its walk before anything below
it on the stack (`Tree.BottomUp.visits_walk`). A node that is shared is visited
once for every way that leads to it, and each of its visits is a whole walk.

So the references of a join are those of its left side and then its field. A
chain of joins drafted as a path has its names in the order in which they are
written, whatever is done to the tree after that, since no edit changes what a
node says but for its link.
-/

namespace ConceptLang

theorem mapM_eq_ok_map {α β : Type} {f : α → Except TreeError β} {g : α → β}
    (as : List α) (h : ∀ a ∈ as, f a = .ok (g a)) :
    as.mapM f = .ok (as.map g) := by
  induction as with
  | nil => rfl
  | cons a as ih =>
      rw [List.mapM_cons, h a (by simp), ih fun b hb => h b (by simp [hb])]
      rfl

/-- Whatever stands in a concatenation stands in one of its parts. -/
theorem exists_eq_append_of_flatMap {α β : Type} {f : α → List β} {as : List α}
    {before after : List β} {b : β} (h : as.flatMap f = before ++ b :: after) :
    ∃ a ∈ as, ∃ first last rest, f a = first ++ b :: last ∧
      after = last ++ rest := by
  induction as generalizing before with
  | nil => simp at h
  | cons a as ih =>
      rw [List.flatMap_cons] at h
      obtain ⟨between, -, h⟩ | ⟨between, hfirst, h⟩ :=
        List.append_eq_append_iff.mp h
      · obtain ⟨other, hother, hsplit⟩ := ih h
        exact ⟨other, List.mem_cons_of_mem a hother, hsplit⟩
      · cases between with
        | nil =>
            have hrest : as.flatMap f = [] ++ b :: after := h.symm
            obtain ⟨other, hother, hsplit⟩ := ih hrest
            exact ⟨other, List.mem_cons_of_mem a hother, hsplit⟩
        | cons b' last =>
            obtain ⟨rfl, rfl⟩ := List.cons.inj h
            exact ⟨a, List.mem_cons_self, before, last, _, hfirst, rfl⟩

namespace Tree

/-- Every node comes after its parts, and the top-level declarations are nodes.
Parts may be shared.
-/
structure BottomUp (tree : Tree) : Prop where
  before : ∀ id < tree.size, ∀ part ∈ tree.parts id, part.2 < id
  roots : ∀ root ∈ tree.roots, root < tree.size

/-- The node `id` and the nodes below it, each node before its parts. -/
def walk (tree : Tree) (id : NodeId) : List NodeId :=
  match tree.preorder tree.size id with
  | .ok nodes => nodes
  | .error _ => []

/-- The references among some nodes. -/
def refsAmong (tree : Tree) (ids : List NodeId) : List NodeId :=
  ids.filter (tree.holds (·.isReference))

/-- What the walk over references takes from its stack, one node after the
other, if there is no bound on its depth. All parts of a node are put in its
place; the walk ends when the stack is empty.
-/
inductive Visits (tree : Tree) : List NodeId → List NodeId → Prop where
  | done : Visits tree [] []
  | next {id : NodeId} {node : Node} {stack visited : List NodeId}
      (hnode : tree.get? id = some node)
      (hrest : Visits tree (node.construct.children ++ stack) visited) :
      Visits tree (id :: stack) (id :: visited)

section Walk

variable {tree : Tree}

theorem refsAmong_append (ids ids' : List NodeId) :
    tree.refsAmong (ids ++ ids') = tree.refsAmong ids ++ tree.refsAmong ids' :=
  List.filter_append ..

theorem refsAmong_cons_of_get? {id : NodeId} {node : Node}
    (h : tree.get? id = some node) (ids : List NodeId) :
    tree.refsAmong (id :: ids) =
      if node.construct.isReference then id :: tree.refsAmong ids else
        tree.refsAmong ids := by
  rw [refsAmong, List.filter_cons, holds_of_get? h]
  rfl

namespace BottomUp

variable (bottomUp : tree.BottomUp)

/-- If each node of a list is visited by its walk, then they are visited one
after the other. -/
theorem visits_append {ids stack visited : List NodeId}
    (hone : ∀ id ∈ ids, ∀ stack visited, tree.Visits stack visited →
      tree.Visits (id :: stack) (tree.walk id ++ visited))
    (h : tree.Visits stack visited) :
    tree.Visits (ids ++ stack) (ids.flatMap tree.walk ++ visited) := by
  induction ids with
  | nil => exact h
  | cons id ids ih =>
      rw [List.flatMap_cons, List.append_assoc]
      exact hone id (by simp) _ _ (ih fun other hother =>
        hone other (by simp [hother]))

include bottomUp

theorem part_lt {id part : NodeId} {node : Node} (h : tree.get? id = some node)
    (hpart : part ∈ node.construct.children) : part < id := by
  obtain ⟨role, hrole⟩ := (Construct.mem_children_iff _ part).mp hpart
  rw [← parts_eq_of_construct (construct_of_get? h)] at hrole
  exact bottomUp.before id (lt_size_of_get? h) (role, part) hrole

/-- The walk from a node is the node and then the walks from its parts. No bound
on the depth above the identity of the node makes a difference. The induction is
on that identity. -/
theorem walk_eq {id : NodeId} {node : Node} (h : tree.get? id = some node) :
    tree.walk id = id :: node.construct.children.flatMap tree.walk ∧
      ∀ steps, id < steps → tree.preorder steps id = .ok (tree.walk id) := by
  induction id using Nat.strongRecOn generalizing node with
  | ind id ih =>
      have hlt := lt_size_of_get? h
      have hchildren : tree.children id = .ok node.construct.children := by
        rw [children, construct_of_get? h]
        rfl
      have hsteps : ∀ steps, id < steps → tree.preorder steps id =
          .ok (id :: node.construct.children.flatMap tree.walk) := by
        intro steps hsteps
        obtain ⟨fewer, rfl⟩ : ∃ fewer, steps = fewer + 1 :=
          ⟨steps - 1, by omega⟩
        have hparts : ∀ part ∈ node.construct.children,
            tree.preorder fewer part = .ok (tree.walk part) := by
          intro part hpart
          have hless := bottomUp.part_lt h hpart
          obtain ⟨child, hchild⟩ := exists_get? (Nat.lt_trans hless hlt)
          exact (ih part hless hchild).2 fewer
            (Nat.lt_of_lt_of_le hless (Nat.le_of_lt_succ hsteps))
        rw [preorder, hchildren]
        simp only [bind, Except.bind, mapM_eq_ok_map _ hparts, List.flatMap]
        rfl
      have hwalk :
          tree.walk id = id :: node.construct.children.flatMap tree.walk := by
        rw [walk, hsteps tree.size hlt]
      exact ⟨hwalk, fun steps hless => hwalk ▸ hsteps steps hless⟩

/-! ### The stack and the recursion -/

/-- Before anything below it on the stack, a node is visited by its walk. -/
theorem visits_walk {id : NodeId} (hid : id < tree.size)
    {stack visited : List NodeId} (h : tree.Visits stack visited) :
    tree.Visits (id :: stack) (tree.walk id ++ visited) := by
  induction id using Nat.strongRecOn generalizing stack visited with
  | ind id ih =>
      obtain ⟨node, hnode⟩ := exists_get? hid
      rw [(bottomUp.walk_eq hnode).1]
      refine .next hnode
        (visits_append (fun part hpart stack visited h => ?_) h)
      have hless := bottomUp.part_lt hnode hpart
      exact ih part hless (Nat.lt_trans hless hid) h

theorem visits_roots :
    tree.Visits tree.roots (tree.roots.flatMap tree.walk) := by
  simpa using visits_append (fun root hroot _ _ =>
    bottomUp.visits_walk (bottomUp.roots root hroot))
    Visits.done

/-- A bound on the depth makes no difference if it is above the identity of the
node. This holds for the nodes on the stack, and then for the parts that take
the place of one of them, since these have smaller identities. -/
theorem visit_eq_ok {ids visited : List NodeId} (h : tree.Visits ids visited)
    {stack : List (NodeId × Nat)} (hstack : stack.map (·.1) = ids)
    (hsteps : ∀ entry ∈ stack, entry.1 < entry.2) (found : List NodeId) :
    tree.visit stack found = .ok (found.reverse ++ tree.refsAmong visited) := by
  induction h generalizing stack found with
  | done =>
      obtain rfl := List.map_eq_nil_iff.mp hstack
      rw [visit, refsAmong, List.filter_nil, List.append_nil]
  | @next id node ids visited hnode hrest ih =>
      obtain ⟨⟨id, steps⟩, stack, rfl, rfl, rfl⟩ :=
        List.map_eq_cons_iff.mp hstack
      obtain ⟨hless, hbelow⟩ := List.forall_mem_cons.mp hsteps
      obtain ⟨fewer, rfl⟩ : ∃ fewer, steps = fewer + 1 := ⟨steps - 1, by grind⟩
      have hnext :
          ∀ entry ∈ node.construct.children.map (fun part => (part, fewer)) ++
            stack, entry.1 < entry.2 := by
        refine List.forall_mem_append.mpr ⟨List.forall_mem_map.mpr
          fun part hpart => ?_, hbelow⟩
        exact Nat.lt_of_lt_of_le (bottomUp.part_lt hnode hpart)
          (Nat.le_of_lt_succ hless)
      rw [visit_succ hnode, ih (by simp [Function.comp_def]) hnext,
        refsAmong_cons_of_get? hnode]
      split <;> simp

theorem references_eq :
    tree.references = .ok (tree.refsAmong (tree.roots.flatMap tree.walk)) := by
  refine bottomUp.visit_eq_ok bottomUp.visits_roots ?_ ?_ []
  · simp [Function.comp_def]
  · intro entry hentry
    obtain ⟨root, hroot, rfl⟩ := List.mem_map.mp hentry
    exact bottomUp.roots root hroot

/-! ### Visits -/

/-- Wherever a node is met on the walk from another one, its own walk
follows. -/
theorem exists_walk_eq_append {whole id : NodeId} (hwhole : whole < tree.size)
    {before after : List NodeId} (h : tree.walk whole = before ++ id :: after) :
    ∃ rest, id :: after = tree.walk id ++ rest := by
  induction whole using Nat.strongRecOn generalizing before after with
  | ind whole ih =>
      obtain ⟨node, hnode⟩ := exists_get? hwhole
      rw [(bottomUp.walk_eq hnode).1] at h
      cases before with
      | nil =>
          obtain ⟨rfl, rfl⟩ := List.cons.inj h
          exact ⟨[], by rw [List.append_nil, (bottomUp.walk_eq hnode).1]⟩
      | cons first before =>
          obtain ⟨part, hpart, first, last, tail, hwalk, rfl⟩ :=
            exists_eq_append_of_flatMap (List.cons.inj h).2
          have hless := bottomUp.part_lt hnode hpart
          obtain ⟨rest, hrest⟩ :=
            ih part hless (Nat.lt_trans hless hwhole) hwalk
          exact ⟨rest ++ tail, by
            rw [← List.cons_append, hrest, List.append_assoc]⟩

theorem exists_visit_eq_append {id : NodeId} {before after : List NodeId}
    (h : tree.roots.flatMap tree.walk = before ++ id :: after) :
    ∃ rest, id :: after = tree.walk id ++ rest := by
  obtain ⟨root, hroot, first, last, tail, hwalk, rfl⟩ :=
    exists_eq_append_of_flatMap h
  obtain ⟨rest, hrest⟩ :=
    bottomUp.exists_walk_eq_append (bottomUp.roots root hroot) hwalk
  exact ⟨rest ++ tail, by rw [← List.cons_append, hrest, List.append_assoc]⟩

theorem refsAmong_walk_reference {ref : NodeId} {text : String} {link : Link}
    (h : tree.construct ref = .ok (.reference text link)) :
    tree.refsAmong (tree.walk ref) = [ref] := by
  obtain ⟨node, hnode, hconstruct⟩ := (construct_eq_ok_iff tree ref _).mp h
  rw [(bottomUp.walk_eq hnode).1, refsAmong_cons_of_get? hnode, hconstruct]
  rfl

/-- The references of a join are those of its left side, and then those of its
field. -/
theorem refsAmong_walk_join {join left right : NodeId}
    (h : tree.construct join = .ok (.join left right)) :
    tree.refsAmong (tree.walk join) =
      tree.refsAmong (tree.walk left) ++ tree.refsAmong (tree.walk right) := by
  obtain ⟨node, hnode, hconstruct⟩ := (construct_eq_ok_iff tree join _).mp h
  rw [(bottomUp.walk_eq hnode).1, refsAmong_cons_of_get? hnode, hconstruct]
  change tree.refsAmong ([left, right].flatMap tree.walk) = _
  rw [List.flatMap_cons, List.flatMap_cons, List.flatMap_nil, List.append_nil,
    refsAmong_append]

end BottomUp

end Walk

/-! ### Paths -/

/-- The node `id` is the path of `texts`: joins nested to the left over the
references `refs`, each of which was added after those that are written before
it. -/
inductive IsPath (tree : Tree) : NodeId → List NodeId → List String → Prop where
  | start {id : NodeId} {text : String} {link : Link}
      (h : tree.construct id = .ok (.reference text link)) :
      IsPath tree id [id] [text]
  | join {id left right : NodeId} {refs : List NodeId} {texts : List String}
      {text : String} {link : Link} (hleft : IsPath tree left refs texts)
      (hright : tree.construct right = .ok (.reference text link))
      (hlater : ∀ ref ∈ refs, ref < right)
      (h : tree.construct id = .ok (.join left right)) :
      IsPath tree id (refs ++ [right]) (texts ++ [text])

section Path

variable {tree : Tree} {id : NodeId} {refs : List NodeId} {texts : List String}

theorem IsPath.pairwise (h : tree.IsPath id refs texts) :
    refs.Pairwise (· < ·) := by
  induction h with
  | start h => exact List.pairwise_singleton _ _
  | join hleft hright hlater h ih =>
      refine List.pairwise_append.mpr ⟨ih, List.pairwise_singleton _ _, ?_⟩
      intro ref href other hother
      obtain rfl := List.mem_singleton.mp hother
      exact hlater ref href

theorem IsPath.forall₂ (h : tree.IsPath id refs texts) :
    List.Forall₂
      (fun ref text => ∃ link, tree.construct ref = .ok (.reference text link))
      refs texts := by
  induction h with
  | start h => exact .cons ⟨_, h⟩ .nil
  | join hleft hright hlater h ih =>
      exact List.rel_append ih (.cons ⟨_, hright⟩ .nil)

theorem IsPath.lt_size (h : tree.IsPath id refs texts) :
    ∀ ref ∈ refs, ref < tree.size := by
  intro ref href
  induction h with
  | start h =>
      obtain rfl := List.mem_singleton.mp href
      exact lt_size_of_construct h
  | join hleft hright hlater h ih =>
      rcases List.mem_append.mp href with href | href
      · exact ih href
      · obtain rfl := List.mem_singleton.mp href
        exact lt_size_of_construct hright

/-- An edit keeps references, but perhaps for their links. -/
theorem exists_reference_edited {ref : NodeId} {text : String} {link : Link}
    (h : tree.construct ref = .ok (.reference text link)) (edits : List Edit) :
    ∃ link', (tree.edited edits).construct ref =
      .ok (.reference text link') := by
  obtain ⟨construct, hconstruct, heq⟩ := construct_edited h edits
  obtain rfl | ⟨text', link', old, rfl, hsame⟩ :=
    Construct.eq_or_of_unlinked_eq heq
  · exact ⟨link, hconstruct⟩
  · cases hsame
    exact ⟨link', hconstruct⟩

/-- Edits keep paths. -/
theorem IsPath.edited (h : tree.IsPath id refs texts) (edits : List Edit) :
    (tree.edited edits).IsPath id refs texts := by
  induction h with
  | start h =>
      obtain ⟨link, h⟩ := exists_reference_edited h edits
      exact .start h
  | join hleft hright hlater h ih =>
      obtain ⟨link, hright⟩ := exists_reference_edited hright edits
      obtain ⟨construct, hjoin, heq⟩ := construct_edited h edits
      obtain rfl | ⟨_, _, _, -, hsame⟩ := Construct.eq_or_of_unlinked_eq heq
      · exact .join ih hright hlater hjoin
      · cases hsame

/-- The references of a path are visited as they are written. -/
theorem BottomUp.refsAmong_walk_path (bottomUp : tree.BottomUp)
    (h : tree.IsPath id refs texts) :
    tree.refsAmong (tree.walk id) = refs := by
  induction h with
  | start h => exact bottomUp.refsAmong_walk_reference h
  | join hleft hright hlater h ih =>
      rw [bottomUp.refsAmong_walk_join h, ih,
        bottomUp.refsAmong_walk_reference hright]

end Path

end Tree

namespace Draft

/-- The node that was placed says what it was to say. -/
theorem construct_place (construct : Construct) (draft : Draft) :
    (place construct draft).2.tree.construct (place construct draft).1 =
      .ok construct :=
  Tree.construct_of_get? (Tree.get?_add_size ..)

/-- A join puts its field at the end of a path. The field is the first of two
nodes that are added, so it comes after all references of the path. -/
theorem isPath_join {draft : Draft} {left : NodeId} {refs : List NodeId}
    {texts : List String} (h : draft.tree.IsPath left refs texts)
    (field : String) :
    ∃ refs', (Draft.join left field draft).2.tree.IsPath
      (Draft.join left field draft).1 refs'
      (texts ++ [field]) := by
  obtain ⟨edits, hedits⟩ := edits_join left field draft
  obtain ⟨edits', hedits'⟩ : ∃ edits', (Draft.join left field draft).2.tree =
      (Draft.reference field draft).2.tree.edited edits' := edits_place _ _
  have hleft := h.edited edits
  have hfield : (Draft.reference field draft).2.tree.construct draft.tree.size =
      .ok (.reference field .pending) := construct_place _ draft
  obtain ⟨link, hright⟩ := Tree.exists_reference_edited hfield edits'
  rw [← hedits] at hleft
  rw [← hedits'] at hright
  exact ⟨_, .join hleft hright h.lt_size
    (construct_place _ (Draft.reference field draft).2)⟩

theorem isPath_foldlM {draft : Draft} {left : NodeId} {refs : List NodeId}
    {texts : List String} (h : draft.tree.IsPath left refs texts)
    (fields : List String) :
    ∃ refs', (fields.foldlM Draft.join left draft).2.tree.IsPath
      (fields.foldlM Draft.join left draft).1 refs' (texts ++ fields) := by
  induction fields generalizing draft left refs texts with
  | nil => exact ⟨refs, by rw [List.append_nil]; exact h⟩
  | cons field fields ih =>
      obtain ⟨refs', h'⟩ := isPath_join h field
      obtain ⟨refs'', h''⟩ := ih h'
      rw [List.append_assoc] at h''
      exact ⟨refs'', h''⟩

/-- The step for a path makes a path. -/
theorem isPath_perform {draft drafted : Draft} {root : String}
    {fields : List String} {id : NodeId}
    (h : (Step.path root fields).perform draft = (id, drafted)) :
    ∃ refs, drafted.tree.IsPath id refs (root :: fields) := by
  have hstart := construct_place (.reference root .pending) draft
  obtain ⟨refs, hpath⟩ := isPath_foldlM (.start hstart) fields
  obtain ⟨rfl, rfl⟩ := Prod.mk.inj h
  exact ⟨refs, hpath⟩

end Draft

namespace Tree

/-- The references of a tree in which every node comes after its parts are those
of the recursive walks from the top-level declarations, as often as the walks
meet them, and the stack of the loop becomes empty. Each visit of a node is a
whole walk from it. On a walk from a join the references of the left side come
before those of the field, and on a walk from a path that was drafted, whatever
was drafted and edited after it, its names come in the order in which they were
written. -/
theorem references_eq_walk {tree : Tree} (bottomUp : tree.BottomUp) :
    (∀ id < tree.size, ∃ construct, tree.construct id = .ok construct ∧
      tree.walk id = id :: construct.children.flatMap tree.walk) ∧
    tree.Visits tree.roots (tree.roots.flatMap tree.walk) ∧
    tree.references = .ok (tree.refsAmong (tree.roots.flatMap tree.walk)) ∧
    (∀ id before after, tree.roots.flatMap tree.walk = before ++ id :: after →
      ∃ rest, id :: after = tree.walk id ++ rest ∧
        tree.references =
          .ok (tree.refsAmong before ++ tree.refsAmong (tree.walk id) ++
            tree.refsAmong rest)) ∧
    (∀ join left right text link, tree.construct join = .ok (.join left right) →
      tree.construct right = .ok (.reference text link) →
      tree.refsAmong (tree.walk join) =
        tree.refsAmong (tree.walk left) ++ [right]) ∧
    ∀ draft drafted root fields id calls edits,
      (Draft.Step.path root fields).perform draft = (id, drafted) →
      (drafted.run calls).tree.edited edits = tree →
      (tree.refsAmong (tree.walk id)).Pairwise (· < ·) ∧
        List.Forall₂
          (fun ref text =>
            ∃ link, tree.construct ref = .ok (.reference text link))
          (tree.refsAmong (tree.walk id)) (root :: fields) := by
  refine ⟨?walk, bottomUp.visits_roots, bottomUp.references_eq, ?visit, ?join,
    ?path⟩
  case walk =>
    intro id hid
    obtain ⟨node, hnode⟩ := exists_get? hid
    exact ⟨node.construct, construct_of_get? hnode, (bottomUp.walk_eq hnode).1⟩
  case visit =>
    intro id before after hvisit
    obtain ⟨rest, hrest⟩ := bottomUp.exists_visit_eq_append hvisit
    refine ⟨rest, hrest, ?_⟩
    rw [bottomUp.references_eq, hvisit, hrest, refsAmong_append,
      refsAmong_append, List.append_assoc]
  case join =>
    intro join left right text link hjoin hright
    rw [bottomUp.refsAmong_walk_join hjoin,
      bottomUp.refsAmong_walk_reference hright]
  case path =>
    intro draft drafted root fields id calls edits hperform htree
    obtain ⟨refs, hpath⟩ := Draft.isPath_perform hperform
    obtain ⟨edits', hedits⟩ := Draft.exists_edits_run drafted calls
    have hkept := (hpath.edited edits').edited edits
    rw [← hedits, htree] at hkept
    rw [bottomUp.refsAmong_walk_path hkept]
    exact ⟨hkept.pairwise, hkept.forall₂⟩

/-- A path of three names that is both sides of a sum, and the start of which is
the value of a variable as well. Two of its names are linked, one by the draft
and one by an edit. -/
def sharedPath : Tree :=
  ((((Draft.Step.path "x" ["f", "g"]).perform Draft.empty).2.run
    [.step (.binary .add 4 4), .step (.var "v" none (some 5)),
      .step (.var "w" none (some 2)), .link 0 7]).tree).edited
      [.setLink 3 (.resolved 6)]

theorem references_eq_walk_sharedPath :
    sharedPath.BottomUp ∧ sharedPath.references = .ok [0, 1, 3, 0, 1, 3, 0, 1] ∧
      List.Forall₂ (fun ref text => ∃ link, sharedPath.construct ref =
        .ok (.reference text link)) [0, 1, 3] ["x", "f", "g"] := by
  have hbottomUp : sharedPath.BottomUp := ⟨by decide +kernel, by decide +kernel⟩
  obtain ⟨-, -, hreferences, -, -, hpath⟩ := references_eq_walk hbottomUp
  have hroots :
      sharedPath.refsAmong (sharedPath.roots.flatMap sharedPath.walk) =
        [0, 1, 3, 0, 1, 3, 0, 1] := by decide +kernel
  have hwalk : sharedPath.refsAmong (sharedPath.walk 4) = [0, 1, 3] := by
    decide +kernel
  exact ⟨hbottomUp, hroots ▸ hreferences,
    hwalk ▸ (hpath Draft.empty _ _ _ 4 _ _ rfl rfl).2⟩

end Tree

end ConceptLang
