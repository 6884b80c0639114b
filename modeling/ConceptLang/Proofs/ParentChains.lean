import Mathlib.Data.List.Perm.Subperm
import Mathlib.Order.Bounds.Basic
import ConceptLang.Proofs.Edits

/-!
# Chains of parents

Nothing is checked when a node is added: its parts may be missing, come later,
be the node itself, or be parts of other nodes already. All the same a parent
always comes after its parts, since a node can only be made the parent of nodes
that are there before it, and setting a link does not touch parents. So the
parent of a node is the last of the later nodes that name it as a part, a way
upwards goes to ever later nodes and ends, and the climb to the function or
predicate around a node has a result (`Tree.parent_isGreatest`).
-/

namespace ConceptLang

namespace Tree

/-- The nodes above a node: its parent, the parent of that, and so on up to a
node without one. -/
inductive ParentChain (tree : Tree) : NodeId → List NodeId → Prop where
  | top {id : NodeId} (h : tree.parent id = .ok none) : ParentChain tree id []
  | above {id above : NodeId} {chain : List NodeId}
      (h : tree.parent id = .ok (some above))
      (hrest : ParentChain tree above chain) :
      ParentChain tree id (above :: chain)

section Chains

variable {tree : Tree} {id : NodeId} {chain : List NodeId}

/-- The climb looks at the nodes of the chain, one after the other. -/
theorem ParentChain.climb_eq (h : tree.ParentChain id chain) {steps : Nat}
    (hsteps : chain.length ≤ steps) :
    tree.climb steps id = .ok (chain.find? (tree.holds (·.isBinder))) := by
  induction h generalizing steps with
  | top h =>
      rw [climb.eq_def, h]
      rfl
  | @above id above chain h hrest ih =>
      obtain ⟨fewer, rfl⟩ : ∃ fewer, steps = fewer + 1 := ⟨steps - 1, by grind⟩
      obtain ⟨node, hnode⟩ : ∃ node, tree.get? above = some node := by
        cases hrest with
        | top h | above h _ =>
            obtain ⟨node, hnode, -⟩ := (parent_eq_ok_iff tree _ _).mp h
            exact ⟨node, hnode⟩
      rw [climb, h, List.find?_cons, holds_of_get? hnode]
      simp only [bind, Except.bind, construct_of_get? hnode]
      cases node.construct.isBinder with
      | true => rfl
      | false => exact ih (Nat.le_of_succ_le_succ hsteps)

namespace Grown

variable (grown : tree.Grown)

include grown

theorem parent_lt_size {above : NodeId}
    (h : tree.parent id = .ok (some above)) :
    above < tree.size := by
  obtain ⟨-, node, hnode, -⟩ := grown.parent_spec h
  exact lt_size_of_get? hnode

/-- Going up from parent to parent leads to ever later nodes. -/
theorem pairwise_of_isChain {ids : List NodeId}
    (h : ids.IsChain fun id above => tree.parent id = .ok (some above)) :
    ids.Pairwise (· < ·) :=
  (h.imp fun _ _ hparent => (grown.parent_spec hparent).1).pairwise

theorem pairwise_parentChain (h : tree.ParentChain id chain) :
    (id :: chain).Pairwise (· < ·) := by
  refine grown.pairwise_of_isChain ?_
  induction h with
  | top h => exact .singleton _
  | above h hrest ih => exact .cons_cons h ih

theorem lt_size_of_mem_parentChain (h : tree.ParentChain id chain) :
    ∀ above ∈ chain, above < tree.size := by
  induction h with
  | top h => simp
  | above h hrest ih =>
      exact List.forall_mem_cons.mpr ⟨grown.parent_lt_size h, ih⟩

/-- Every way upwards ends. The induction is on how many nodes come later. -/
theorem exists_parentChain (hid : id < tree.size) :
    ∃ chain, tree.ParentChain id chain := by
  induction hlater : tree.size - id using Nat.strongRecOn generalizing id with
  | ind later ih =>
      obtain ⟨parent, hparent⟩ := exists_parent hid
      cases parent with
      | none => exact ⟨[], .top hparent⟩
      | some above =>
          have hlater' : tree.size - above < later :=
            hlater ▸ Nat.sub_lt_sub_left hid (grown.parent_spec hparent).1
          obtain ⟨chain, hchain⟩ :=
            ih _ hlater' (grown.parent_lt_size hparent) rfl
          exact ⟨above :: chain, .above hparent hchain⟩

/-- The function or predicate around a node is the first one of the chain above
it. -/
theorem container_eq (h : tree.ParentChain id chain) :
    tree.container id = .ok (chain.find? (tree.holds (·.isBinder))) := by
  refine h.climb_eq ?_
  have hnodup : chain.Nodup :=
    (List.pairwise_cons.mp (grown.pairwise_parentChain h)).2.imp Nat.ne_of_lt
  have hsub : chain ⊆ List.range tree.size := fun above habove =>
    List.mem_range.mpr (grown.lt_size_of_mem_parentChain h above habove)
  calc chain.length
      ≤ (List.range tree.size).length := (hnodup.subperm hsub).length_le
    _ = tree.size := List.length_range

/-- A node has a parent if a later node names it as a part, and then the last of
these. -/
theorem parent_iff {parent : Option NodeId} (h : tree.parent id = .ok parent) :
    (∀ above, parent = some above ↔
      IsGreatest {whole | id < whole ∧ tree.IsPart id whole} above) ∧
      (parent = none ↔ ∀ whole, id < whole → ¬ tree.IsPart id whole) := by
  obtain ⟨node, hnode, rfl⟩ := (parent_eq_ok_iff tree id parent).mp h
  have hisPart := fun above => grown.parentsFit.isPart id node above hnode
  have hisLast := fun whole => grown.parentsFit.isLast id node whole hnode
  constructor
  · intro above
    constructor
    · intro hparent
      refine ⟨hisPart above hparent, fun whole hwhole => ?_⟩
      obtain ⟨last, hlast, hle⟩ := hisLast whole hwhole.1 hwhole.2
      obtain rfl := Option.some.inj (hparent.symm.trans hlast)
      exact hle
    · rintro ⟨⟨hlt, hpart⟩, hgreatest⟩
      obtain ⟨last, hlast, hle⟩ := hisLast above hlt hpart
      rw [hlast, Nat.le_antisymm (hgreatest (hisPart last hlast)) hle]
  · constructor
    · intro hnone whole hlt hpart
      obtain ⟨last, hlast, -⟩ := hisLast whole hlt hpart
      cases hnone.symm.trans hlast
    · intro hno
      cases hparent : node.parent with
      | none => rfl
      | some above =>
          obtain ⟨hlt, hpart⟩ := hisPart above hparent
          exact absurd hpart (hno above hlt)

end Grown

end Chains

/-- Whatever nodes are added, whatever is made top-level and whatever links are
set: the parent of a node is the last of the later nodes that name it as a part,
and there is none only if no later node does. So all ways upwards go to ever
later nodes. The way from a node ends, and the function or predicate around it
is the first one on that way. -/
theorem parent_isGreatest (edits : List Edit) {tree : Tree}
    (htree : empty.edited edits = tree) :
    (∀ id < tree.size, ∃ parent chain,
      tree.parent id = .ok parent ∧
      (∀ above, parent = some above ↔
        IsGreatest {whole | id < whole ∧ tree.IsPart id whole} above) ∧
      (parent = none ↔ ∀ whole, id < whole → ¬ tree.IsPart id whole) ∧
      tree.ParentChain id chain ∧ (id :: chain).Pairwise (· < ·) ∧
      tree.container id = .ok (chain.find? (tree.holds (·.isBinder)))) ∧
    ∀ ids : List NodeId,
      (ids.IsChain fun id above => tree.parent id = .ok (some above)) →
      ids.Pairwise (· < ·) := by
  have grown : tree.Grown := (grown_iff_edited tree).mpr ⟨edits, htree⟩
  refine ⟨fun id hid => ?_, fun ids => grown.pairwise_of_isChain⟩
  obtain ⟨parent, hparent⟩ := exists_parent hid
  obtain ⟨chain, hchain⟩ := grown.exists_parentChain hid
  obtain ⟨hgreatest, hnone⟩ := grown.parent_iff hparent
  exact ⟨parent, chain, hparent, hgreatest, hnone, hchain,
    grown.pairwise_parentChain hchain, grown.container_eq hchain⟩

/-- Edits that name parts with little care. Node 1 names a node that comes
later, node 2 is a part of itself, and node 3 names parts of node 1, one part
twice and one that never exists. Top-level declarations that do not exist and
links that cannot be set are asked for in between. -/
def carelessEdits : List Edit :=
  let named (name : String) : Ident := ⟨name, Span.unknown⟩
  [.add (.intLit 1) Span.unknown, .add (.binary .add 0 2) Span.unknown,
    .add (.join 2 2) Span.unknown, .add (.call 0 [1, 1, 9]) Span.unknown,
    .addRoot 40,
    .add (.reference "f" .pending) Span.unknown, .setLink 4 (.resolved 77),
    .add (.function (named "f") [] [] 3) Span.unknown, .setLink 3 (.resolved 0),
    .setLink 4 (.resolved 5),
    .add (.predicate (named "p") [] (some 5)) Span.unknown, .addRoot 6]

/-- Node 0 was a part of node 1 first, and then of node 3, which is inside of
the function. -/
theorem parent_isGreatest_carelessEdits :
    0 < (empty.edited carelessEdits).size ∧
    (empty.edited carelessEdits).parent 0 = .ok (some 3) ∧
      IsGreatest {whole | 0 < whole ∧
        (empty.edited carelessEdits).IsPart 0 whole} 3 ∧
      (empty.edited carelessEdits).ParentChain 0 [3, 5, 6] ∧
      (empty.edited carelessEdits).container 0 = .ok (some 5) := by
  obtain ⟨hnodes, -⟩ := parent_isGreatest carelessEdits rfl
  have hsize : 0 < (empty.edited carelessEdits).size := by decide
  have hparent : (empty.edited carelessEdits).parent 0 = .ok (some 3) := by
    decide
  have hchain : (empty.edited carelessEdits).ParentChain 0 [3, 5, 6] :=
    .above hparent (.above (by decide) (.above (by decide) (.top (by decide))))
  obtain ⟨parent, chain, hparent', hgreatest, -⟩ := hnodes 0 hsize
  obtain rfl := Except.ok.inj (hparent'.symm.trans hparent)
  exact ⟨hsize, hparent, (hgreatest 3).mp rfl, hchain, by decide +kernel⟩

end Tree

end ConceptLang
