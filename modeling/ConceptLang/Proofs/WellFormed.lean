import Mathlib.Data.List.Nodup
import Mathlib.Data.List.Pairwise
import Mathlib.Logic.Relation
import ConceptLang.Proofs.Growth

/-!
# Well-formed trees

`Tree.Complete` are the grown trees in which every identity that is named leads
to a node, as a part or as the target of a link. A node may still be inside of
itself.

`Tree.Closed` are those in which the parts of a node come before it. Nothing is
asked of what the nodes say, so a part may be of any kind, and several nodes may
share it.

`Tree.WellFormed` are the closed trees that a parser makes. Every position holds
what belongs there (`Role.admits`), no node is a part twice, the top-level
declarations are declarations that can stand there, and links lead to
declarations. Links may still form cycles. Since no position admits a top-level
declaration, such a declaration is nobody's part.
-/

namespace ConceptLang

namespace Construct

/-- Whether a construct is an expression. -/
def isExpression : Construct → Bool
  | .reference _ _ | .join _ _ | .stringLit _ | .boolLit _ | .intLit _
  | .binary _ _ _
  | .call _ _ | .conditional _ _ _ => true
  | _ => false

/-- Whether a construct is a type annotation. -/
def isTypeNode : Construct → Bool
  | .keywordType _ | .conceptType _ => true
  | _ => false

/-- Whether a construct can be a top-level declaration. -/
def isTopLevel (construct : Construct) : Bool :=
  construct.isConcept || construct.isBinder || construct.isVar

/-- Whether a construct declares something that a name can be linked to. -/
def isDecl : Construct → Bool
  | .concept _ _ _ | .relation _ _ | .function _ _ _ _ | .predicate _ _ _
  | .param _
  | .var _ _ _ => true
  | _ => false

end Construct

/-- What a position of a construct is for. -/
inductive Role where
  | expression
  | typeNode
  | name
  | param
  | typedParam
  | relation
deriving DecidableEq, Repr, Inhabited

/-- Whether a construct belongs in a position. -/
def Role.admits : Role → Construct → Bool
  | .expression, construct => construct.isExpression
  | .typeNode, construct => construct.isTypeNode
  | .name, .reference _ _ => true
  | .param, .param _ => true
  | .typedParam, .typedParam _ _ => true
  | .relation, .relation _ _ => true
  | _, _ => false

namespace Construct

/-- The parts of a construct with the positions they hold. -/
def parts : Construct → List (Role × NodeId)
  | .concept _ parents relations =>
      parents.map (.name, ·) ++ relations.map (.relation, ·)
  | .relation _ relatum => [(.typeNode, relatum)]
  | .function _ params signature body =>
    params.map (.param, ·) ++ signature.map (.typeNode, ·) ++
      [(.expression, body)]
  | .predicate _ params body =>
      params.map (.typedParam, ·) ++ body.toList.map (.expression, ·)
  | .typedParam formal typeNode => [(.param, formal), (.typeNode, typeNode)]
  | .var _ typeNode value =>
      typeNode.toList.map (.typeNode, ·) ++ value.toList.map (.expression, ·)
  | .conceptType ref => [(.name, ref)]
  | .join left field => [(.expression, left), (.name, field)]
  | .binary _ lhs rhs => [(.expression, lhs), (.expression, rhs)]
  | .call callee args => (.name, callee) :: args.map (.expression, ·)
  | .conditional condition thenBranch elseBranch =>
    [(.expression, condition), (.expression, thenBranch),
      (.expression, elseBranch)]
  | .param _ | .keywordType _ | .reference _ _ | .stringLit _ | .boolLit _
  | .intLit _ => []

theorem map_snd_parts (construct : Construct) :
    construct.parts.map (·.2) = construct.children := by
  cases construct <;> simp [parts, children, Function.comp_def]

theorem mem_children_iff (construct : Construct) (id : NodeId) :
    id ∈ construct.children ↔ ∃ role, (role, id) ∈ construct.parts := by
  rw [← map_snd_parts]
  simp

end Construct

namespace Tree

/-- The parts of the node `id` with the positions they hold. -/
def parts (tree : Tree) (id : NodeId) : List (Role × NodeId) :=
  ((tree.get? id).map (·.construct.parts)).getD []

/-- Whether there is a node `id` and its construct is of the kind `keep`. -/
def holds (tree : Tree) (keep : Construct → Bool) (id : NodeId) : Bool :=
  (tree.get? id).any (keep ·.construct)

/-- What the node `id` is linked to, if it is a linked reference. -/
def linked? (tree : Tree) (id : NodeId) : Option NodeId :=
  ((tree.get? id).bind (·.construct.link?)).bind (·.target?)

theorem parts_eq_of_construct {tree : Tree} {id : NodeId}
    {construct : Construct} (h : tree.construct id = .ok construct) :
    tree.parts id = construct.parts := by
  obtain ⟨node, hnode, rfl⟩ := (construct_eq_ok_iff tree id construct).mp h
  simp [parts, hnode]

theorem holds_of_get? {tree : Tree} {id : NodeId} {node : Node}
    (h : tree.get? id = some node) (keep : Construct → Bool) :
    tree.holds keep id = keep node.construct := by
  simp [holds, h]

theorem holds_iff (tree : Tree) (keep : Construct → Bool) (id : NodeId) :
    tree.holds keep id = true ↔ ∃ construct, tree.construct id = .ok construct ∧
      keep construct = true := by
  simp only [holds, Option.any_eq_true, construct_eq_ok_iff]
  constructor
  · rintro ⟨node, hnode, hkeep⟩
    exact ⟨node.construct, ⟨node, hnode, rfl⟩, hkeep⟩
  · rintro ⟨_, ⟨node, hnode, rfl⟩, hkeep⟩
    exact ⟨node, hnode, hkeep⟩

theorem lt_size_of_holds {tree : Tree} {keep : Construct → Bool} {id : NodeId}
    (h : tree.holds keep id = true) : id < tree.size := by
  obtain ⟨construct, hconstruct, -⟩ := (holds_iff tree keep id).mp h
  exact lt_size_of_construct hconstruct

theorem not_holds {tree : Tree} {keep : Construct → Bool} {id : NodeId}
    {construct : Construct} (h : tree.construct id = .ok construct)
    (hkeep : keep construct = false) :
    ¬ tree.holds keep id = true := by
  rw [holds_iff]
  rintro ⟨construct', h', htrue⟩
  obtain rfl := Except.ok.inj (h.symm.trans h')
  rw [hkeep] at htrue
  contradiction

theorem linked?_of_construct {tree : Tree} {id : NodeId} {text : String}
    {link : Link} (h : tree.construct id = .ok (.reference text link)) :
    tree.linked? id = link.target? := by
  obtain ⟨node, hnode, hconstruct⟩ := (construct_eq_ok_iff tree id _).mp h
  simp [linked?, hnode, hconstruct, Construct.link?]

/-- The node `id` is `above` or inside of it. -/
abbrev Below (tree : Tree) (id above : NodeId) : Prop :=
  Relation.ReflTransGen tree.IsPart id above

/-- A grown tree whose parts and targets are nodes. -/
structure Complete (tree : Tree) : Prop where
  grown : tree.Grown
  parts : ∀ id < tree.size, ∀ part ∈ tree.parts id, part.2 < tree.size
  links : ∀ id < tree.size, ∀ target ∈ tree.linked? id, target < tree.size

/-- A grown tree whose nodes name only earlier nodes, and whose links lead to
nodes. -/
structure Closed (tree : Tree) : Prop where
  grown : tree.Grown
  before : ∀ id < tree.size, ∀ part ∈ tree.parts id, part.2 < id
  links : ∀ id < tree.size, ∀ target ∈ tree.linked? id, target < tree.size

/-- A closed tree in which everything stands where it belongs. -/
structure WellFormed (tree : Tree) : Prop extends tree.Closed where
  once : ((List.range tree.size).flatMap fun id =>
    (tree.parts id).map (·.2)).Nodup
  roles : ∀ id < tree.size, ∀ part ∈ tree.parts id,
    tree.holds part.1.admits part.2 = true
  roots : ∀ root ∈ tree.roots, tree.holds (·.isTopLevel) root = true
  targets : ∀ id < tree.size, ∀ target ∈ tree.linked? id,
    tree.holds (·.isDecl) target = true

namespace Complete

variable {tree : Tree} (complete : tree.Complete)

include complete

theorem part_lt_size {id part : NodeId} {construct : Construct}
    (h : tree.construct id = .ok construct)
    (hpart : part ∈ construct.children) :
    part < tree.size := by
  obtain ⟨role, hrole⟩ := (Construct.mem_children_iff construct part).mp hpart
  rw [← parts_eq_of_construct h] at hrole
  exact complete.parts id (lt_size_of_construct h) (role, part) hrole

theorem target_lt_size {id target : NodeId} {text : String}
    (h : tree.construct id = .ok (.reference text (.resolved target))) :
    target < tree.size :=
  complete.links id (lt_size_of_construct h) target
    (by rw [linked?_of_construct h]; rfl)

theorem parent_spec {id above : NodeId}
    (h : tree.parent id = .ok (some above)) :
    id < above ∧ tree.IsPart id above :=
  complete.grown.parent_spec h

theorem parent_lt_size {id above : NodeId}
    (h : tree.parent id = .ok (some above)) :
    above < tree.size := by
  obtain ⟨-, node, hnode, -⟩ := complete.parent_spec h
  exact lt_size_of_get? hnode

end Complete

namespace Closed

variable {tree : Tree} (closed : tree.Closed)

include closed

theorem complete : tree.Complete where
  grown := closed.grown
  parts id hid part hpart := Nat.lt_trans (closed.before id hid part hpart) hid
  links := closed.links

theorem part_lt {id part : NodeId} {construct : Construct}
    (h : tree.construct id = .ok construct)
    (hpart : part ∈ construct.children) : part < id := by
  obtain ⟨role, hrole⟩ := (Construct.mem_children_iff construct part).mp hpart
  rw [← parts_eq_of_construct h] at hrole
  exact closed.before id (lt_size_of_construct h) (role, part) hrole

theorem le_of_below {id above : NodeId} (h : tree.Below id above) :
    id ≤ above := by
  induction h with
  | refl => exact Nat.le_refl _
  | tail _ hpart ih =>
      obtain ⟨construct, hconstruct, hmem⟩ :=
        (isPart_iff_construct tree _ _).mp hpart
      exact Nat.le_trans ih (Nat.le_of_lt (closed.part_lt hconstruct hmem))

end Closed

namespace WellFormed

variable {tree : Tree} (wf : tree.WellFormed)

include wf

theorem role {id part : NodeId} {construct : Construct} {role : Role}
    (h : tree.construct id = .ok construct)
    (hpart : (role, part) ∈ construct.parts) :
    ∃ child, tree.construct part = .ok child ∧ role.admits child = true := by
  rw [← parts_eq_of_construct h] at hpart
  exact (holds_iff tree _ part).mp
    (wf.roles id (lt_size_of_construct h) (role, part) hpart)

/-- Each position holds what belongs there. -/
theorem holds_part (role : Role) {id part : NodeId} {construct : Construct}
    (h : tree.construct id = .ok construct)
    (hpart : (role, part) ∈ construct.parts) :
    tree.holds role.admits part = true :=
  (holds_iff tree _ part).mpr (wf.role h hpart)

theorem target_isDecl {id target : NodeId} {text : String}
    (h : tree.construct id = .ok (.reference text (.resolved target))) :
    ∃ decl, tree.construct target = .ok decl ∧ decl.isDecl = true :=
  (holds_iff tree _ target).mp
    (wf.targets id (lt_size_of_construct h) target
      (by rw [linked?_of_construct h]; rfl))

theorem root_isTopLevel {root : NodeId} (h : root ∈ tree.roots) :
    ∃ decl, tree.construct root = .ok decl ∧ decl.isTopLevel = true :=
  (holds_iff tree _ root).mp (wf.roots root h)

theorem root_lt_size : ∀ root ∈ tree.roots, root < tree.size :=
  fun root h => lt_size_of_holds (wf.roots root h)

theorem nodup_children {id : NodeId} {construct : Construct}
    (h : tree.construct id = .ok construct) : construct.children.Nodup := by
  have hmem : id ∈ List.range tree.size :=
    List.mem_range.mpr (lt_size_of_construct h)
  have hnodup := (List.nodup_flatMap.mp wf.once).1 id hmem
  rwa [parts_eq_of_construct h, Construct.map_snd_parts] at hnodup

/-- A node is part of at most one node. -/
theorem isPart_unique {part above other : NodeId} (h : tree.IsPart part above)
    (hother : tree.IsPart part other) : above = other := by
  by_contra hne
  have hpart : ∀ id, tree.IsPart part id →
      id ∈ List.range tree.size ∧ part ∈ (tree.parts id).map (·.2) := by
    rintro id ⟨node, hnode, hmem⟩
    refine ⟨List.mem_range.mpr (lt_size_of_get? hnode), ?_⟩
    rwa [parts_eq_of_construct (construct_of_get? hnode),
      Construct.map_snd_parts]
  obtain ⟨hin, hmem⟩ := hpart above h
  obtain ⟨hin', hmem'⟩ := hpart other hother
  have hdisjoint := (List.nodup_flatMap.mp wf.once).2
  have : Std.Symm (Function.onFun List.Disjoint fun id =>
      (tree.parts id).map (·.2)) :=
    ⟨fun _ _ h _ hl hr => h hr hl⟩
  exact hdisjoint.forall hin hin' hne hmem hmem'

theorem parent_of_part {id part : NodeId} {construct : Construct}
    (h : tree.construct id = .ok construct)
    (hpart : part ∈ construct.children) :
    tree.parent part = .ok (some id) := by
  have hisPart : tree.IsPart part id :=
    (isPart_iff_construct tree part id).mpr ⟨_, h, hpart⟩
  obtain ⟨node, hnode⟩ := exists_get? (wf.complete.part_lt_size h hpart)
  obtain ⟨last, hlast, -⟩ :=
    wf.grown.parentsFit.isLast part node id hnode (wf.part_lt h hpart) hisPart
  have hlastPart := (wf.grown.parentsFit.isPart part node last hnode hlast).2
  rw [wf.isPart_unique hisPart hlastPart]
  exact (parent_eq_ok_iff tree part _).mpr ⟨node, hnode, hlast⟩

end WellFormed

end Tree

end ConceptLang
