import ConceptLang.Proofs.Walks

/-!
# Trees that differ in their links

Linking changes links and nothing else: without its links the tree stays the
same (`Tree.SameShape`). So all that is read off the tree without a look at
links stays the same too: what contains what, where a reference stands, and what
the names in its lexical scope are. Which relations are visible on a concept
depends on links, but only on those between a concept and its parents.
-/

namespace ConceptLang

/-- The construct without its link. -/
def Construct.unlinked : Construct → Construct
  | .reference text _ => .reference text .pending
  | construct => construct

theorem Construct.unlinked_of_not_reference {construct : Construct}
    (h : construct.isReference = false) : construct.unlinked = construct := by
  cases construct with
  | reference text link => cases h
  | _ => rfl

theorem Construct.isReference_unlinked (construct : Construct) :
    construct.unlinked.isReference = construct.isReference := by
  cases construct <;> rfl

theorem Construct.children_unlinked (construct : Construct) :
    construct.unlinked.children = construct.children := by
  cases construct <;> rfl

/-- Constructs that are the same without their links are the same, or they are
occurrences of the same name. -/
theorem Construct.eq_or_of_unlinked_eq {a b : Construct}
    (h : a.unlinked = b.unlinked) :
    a = b ∨ ∃ text link link',
      a = .reference text link ∧ b = .reference text link' := by
  cases ha : a.isReference with
  | false =>
      have hb : b.isReference = false := by
        rw [← isReference_unlinked, ← h, isReference_unlinked, ha]
      rw [unlinked_of_not_reference ha, unlinked_of_not_reference hb] at h
      exact Or.inl h
  | true =>
      have hb : b.isReference = true := by
        rw [← isReference_unlinked, ← h, isReference_unlinked, ha]
      cases a with
      | reference text link =>
          cases b with
          | reference text' link' =>
              obtain rfl : text = text' := by simpa [unlinked] using h
              exact Or.inr ⟨text, link, link', rfl, rfl⟩
          | _ => cases hb
      | _ => cases ha

namespace Tree

/-- The tree without its links. -/
def unlinked (tree : Tree) : Tree :=
  { tree with
    nodes := tree.nodes.map fun node =>
      { node with construct := node.construct.unlinked } }

theorem get?_unlinked (tree : Tree) (id : NodeId) :
    tree.unlinked.get? id = (tree.get? id).map fun node =>
      { node with construct := node.construct.unlinked } := by
  simp [get?, unlinked]

/-- The trees differ at most in their links. -/
def SameShape (tree tree' : Tree) : Prop :=
  tree.unlinked = tree'.unlinked

/-- Setting a link keeps the shape. -/
theorem sameShape_putConstruct {tree : Tree} {ref : NodeId} {text : String}
    {old : Link} (h : tree.construct ref = .ok (.reference text old))
    (new : Link) :
    tree.SameShape (tree.putConstruct ref (.reference text new)) := by
  obtain ⟨node, hnode, hconstruct⟩ := (construct_eq_ok_iff tree ref _).mp h
  refine (Tree.mk.injEq _ _ _ _).mpr ⟨Array.ext_getElem? fun id => ?_, rfl⟩
  simp only [putConstruct, Array.getElem?_map, Array.getElem?_modify]
  by_cases heq : ref = id
  · subst heq
    rw [show tree.nodes[ref]? = some node from hnode]
    simp [hconstruct, Construct.unlinked]
  · simp [heq]

theorem visit_succ {tree : Tree} {id : NodeId} {node : Node}
    (h : tree.get? id = some node) (steps : Nat) (stack : List (NodeId × Nat))
    (found : List NodeId) :
    tree.visit ((id, steps + 1) :: stack) found =
      tree.visit (node.construct.children.map (fun child => (child, steps)) ++
        stack) (if node.construct.isReference then id :: found else found) := by
  rw [visit]
  split
  · next hnone => simp [h] at hnone
  · next other hother =>
      obtain rfl : node = other := by simpa [h] using hother
      rfl

namespace SameShape

variable {tree tree' tree'' : Tree} (h : tree.SameShape tree')

theorem refl (tree : Tree) : tree.SameShape tree := rfl

include h

theorem symm : tree'.SameShape tree := Eq.symm h

theorem trans (h' : tree'.SameShape tree'') :
    tree.SameShape tree'' := Eq.trans h h'

theorem unlinked_eq : tree.unlinked = tree'.unlinked := h

theorem roots : tree.roots = tree'.roots := by
  have hroots := congrArg Tree.roots h.unlinked_eq
  exact hroots

theorem size : tree.size = tree'.size := by
  have hsize := congrArg Tree.size h.unlinked_eq
  simpa [Tree.size, unlinked] using hsize

theorem get? (id : NodeId) : tree.get? id = none ∧ tree'.get? id = none ∨
    ∃ node node', tree.get? id = some node ∧ tree'.get? id = some node' ∧
      node.parent = node'.parent ∧
      node.construct.unlinked = node'.construct.unlinked := by
  have hget := congrArg (Tree.get? · id) h.unlinked_eq
  simp only [get?_unlinked] at hget
  cases hnode : tree.get? id with
  | none =>
      rw [hnode, Option.map_none] at hget
      exact Or.inl ⟨rfl, Option.map_eq_none_iff.mp hget.symm⟩
  | some node =>
      rw [hnode, Option.map_some] at hget
      obtain ⟨node', hnode', heq⟩ := Option.map_eq_some_iff.mp hget.symm
      rw [Node.mk.injEq] at heq
      exact Or.inr ⟨node, node', rfl, hnode', heq.2.1.symm, heq.1.symm⟩

/-- Each node is as before, or it is an occurrence of the same name. -/
theorem construct (id : NodeId) : tree.construct id = tree'.construct id ∨
    ∃ text link link', tree.construct id = .ok (.reference text link) ∧
      tree'.construct id = .ok (.reference text link') := by
  simp only [Tree.construct, node]
  rcases h.get? id with ⟨hnone, hnone'⟩ | ⟨node, node', hnode, hnode', -, heq⟩
  · exact Or.inl (by rw [hnone, hnone'])
  · rw [hnode, hnode']
    rcases Construct.eq_or_of_unlinked_eq heq with
      heq | ⟨text, link, link', heq, heq'⟩
    · exact Or.inl (congrArg Except.ok heq)
    · exact Or.inr ⟨text, link, link', congrArg Except.ok heq,
        congrArg Except.ok heq'⟩

theorem parent (id : NodeId) : tree.parent id = tree'.parent id := by
  simp only [Tree.parent, node]
  rcases h.get? id with ⟨hnone, hnone'⟩ | ⟨node, node', hnode, hnode', heq, -⟩
  · rw [hnone, hnone']
  · rw [hnode, hnode']
    exact congrArg Except.ok heq

/-- A reference has the same text in both trees. -/
theorem reference {id : NodeId} {text : String} {link : Link}
    (href : tree.construct id = .ok (.reference text link)) :
    ∃ link', tree'.construct id = .ok (.reference text link') := by
  rcases h.construct id with heq | ⟨text', old, new, heq, heq'⟩
  · exact ⟨link, heq ▸ href⟩
  · obtain ⟨rfl, -⟩ : text = text' ∧ link = old := by
      simpa using href.symm.trans heq
    exact ⟨new, heq'⟩

/-- What is not a reference is the same in both trees. -/
theorem construct_eq {id : NodeId} {construct : Construct}
    (hid : tree.construct id = .ok construct)
    (hkind : construct.isReference = false) :
    tree'.construct id = .ok construct := by
  rcases h.construct id with heq | ⟨text, link, link', heq, -⟩
  · exact heq ▸ hid
  · obtain rfl := Except.ok.inj (hid.symm.trans heq)
    cases hkind

/-- What does not depend on the link of a node is the same for both trees. -/
theorem construct_bind {α : Type} (id : NodeId)
    (f : Construct → Except TreeError α)
    (hf : ∀ text link link',
      f (.reference text link) = f (.reference text link')) :
    tree.construct id >>= f = tree'.construct id >>= f := by
  rcases h.construct id with heq | ⟨text, link, link', heq, heq'⟩
  · rw [heq]
  · rw [heq, heq']
    exact hf text link link'

theorem construct_map {α : Type} (id : NodeId) (f : Construct → α)
    (hf : ∀ text link link',
      f (.reference text link) = f (.reference text link')) :
    (tree.construct id).map f = (tree'.construct id).map f := by
  rcases h.construct id with heq | ⟨text, link, link', heq, heq'⟩
  · rw [heq]
  · rw [heq, heq']
    exact congrArg Except.ok (hf text link link')

theorem holds (keep : Construct → Bool)
    (hkeep : ∀ text link link',
      keep (.reference text link) = keep (.reference text link'))
    (id : NodeId) : tree.holds keep id = tree'.holds keep id := by
  rw [Bool.eq_iff_iff, holds_iff, holds_iff]
  rcases h.construct id with heq | ⟨text, link, link', heq, heq'⟩
  · rw [heq]
  · simp only [heq, heq', Except.ok.injEq, exists_eq_left']
    rw [hkeep text link link']

theorem parts (id : NodeId) : tree.parts id = tree'.parts id := by
  rw [Tree.parts, Tree.parts]
  rcases h.get? id with ⟨hnone, hnone'⟩ | ⟨node, node', hnode, hnode', -, heq⟩
  · rw [hnone, hnone']
  · rw [hnode, hnode', Option.map_some, Option.map_some]
    rcases Construct.eq_or_of_unlinked_eq heq with
      heq | ⟨text, link, link', heq, heq'⟩
    · rw [heq]
    · rw [heq, heq']
      rfl

/-! ### Names and positions -/

theorem nameOf (id : NodeId) : tree.nameOf id = tree'.nameOf id :=
  h.construct_map id (·.name?) fun _ _ _ => rfl

theorem named (ids : List NodeId) : tree.named ids = tree'.named ids := by
  induction ids with
  | nil => rfl
  | cons id ids ih => rw [Tree.named, Tree.named, h.nameOf id, ih]

theorem select (keep : Construct → Bool)
    (hkeep : ∀ text link link',
      keep (.reference text link) = keep (.reference text link'))
    (ids : List NodeId) : tree.select keep ids = tree'.select keep ids := by
  induction ids with
  | nil => rfl
  | cons id ids ih =>
      rw [Tree.select, Tree.select, ih]
      refine h.construct_bind id _ fun text link link' => ?_
      rw [hkeep text link link']

theorem topLevel (keep : Construct → Bool)
    (hkeep : ∀ text link link',
      keep (.reference text link) = keep (.reference text link')) :
    tree.topLevel keep = tree'.topLevel keep := by
  rw [Tree.topLevel, Tree.topLevel, h.roots, h.select keep hkeep,
    show tree.named = tree'.named from funext h.named]

theorem contextOf (ref : NodeId) :
    tree.contextOf ref = tree'.contextOf ref := by
  rw [Tree.contextOf, Tree.contextOf, h.parent ref]
  refine bind_congr fun parent => ?_
  cases parent with
  | none => rfl
  | some above => exact h.construct_bind above _ fun _ _ _ => rfl

theorem owner? (id : NodeId) : tree.owner? id = tree'.owner? id := by
  rw [Tree.owner?, Tree.owner?, h.parent id]
  refine bind_congr fun parent => ?_
  cases parent with
  | none => rfl
  | some above => exact h.construct_bind above _ fun _ _ _ => rfl

theorem climb (steps : Nat) (id : NodeId) :
    tree.climb steps id = tree'.climb steps id := by
  induction steps generalizing id with
  | zero =>
      rw [Tree.climb, Tree.climb, h.parent id]
      refine bind_congr fun parent => ?_
      cases parent with
      | none => rfl
      | some above => exact h.construct_bind above _ fun _ _ _ => rfl
  | succ steps ih =>
      rw [Tree.climb, Tree.climb, h.parent id]
      refine bind_congr fun parent => ?_
      cases parent with
      | none => rfl
      | some above =>
          dsimp only
          rw [ih above]
          exact h.construct_bind above _ fun _ _ _ => rfl

theorem untyped (param : NodeId) : tree.untyped param = tree'.untyped param :=
  h.construct_bind param _ fun _ _ _ => rfl

theorem formals (binder : NodeId) :
    tree.formals binder = tree'.formals binder := by
  rw [Tree.formals, Tree.formals, show tree.untyped = tree'.untyped
    from funext h.untyped]
  exact h.construct_bind binder _ fun _ _ _ => rfl

theorem paramsInScope (id : NodeId) :
    tree.paramsInScope id = tree'.paramsInScope id := by
  rw [Tree.paramsInScope, Tree.paramsInScope, container, container, h.size,
    h.climb, show tree.formals = tree'.formals from funext h.formals,
    show tree.named = tree'.named from funext h.named]

theorem lexicalScope (ref : NodeId) (context : RefContext) :
    tree.lexicalScope ref context = tree'.lexicalScope ref context := by
  cases context with
  | joinField join => rfl
  | concept => exact h.topLevel _ fun _ _ _ => rfl
  | callee => exact h.topLevel _ fun _ _ _ => rfl
  | value =>
      rw [Tree.lexicalScope, Tree.lexicalScope, h.paramsInScope ref,
        h.topLevel _ fun _ _ _ => rfl]

theorem visit (stack : List (NodeId × Nat)) (found : List NodeId) :
    tree.visit stack found = tree'.visit stack found := by
  fun_induction Tree.visit tree stack found with
  | case1 found => rw [Tree.visit]
  | case2 found id steps stack hnone =>
      rcases h.get? id with ⟨-, hnone'⟩ | ⟨node, _, hnode, _⟩
      · rw [Tree.visit]
        split
        · rfl
        · next node hnode => simp [hnone'] at hnode
      · simp [hnone] at hnode
  | case3 found id stack node hnode =>
      rcases h.get? id with ⟨hnone, -⟩ | ⟨_, node', _, hnode', _⟩
      · simp [hnode] at hnone
      · rw [Tree.visit]
        split
        · next hnone => simp [hnode'] at hnone
        · rfl
  | case4 found id stack node hnode steps ih =>
      rcases h.get? id with ⟨hnone, -⟩ | ⟨other, node', hother, hnode', -, heq⟩
      · simp [hnode] at hnone
      · obtain rfl : node = other := by simpa [hnode] using hother
        rw [visit_succ hnode', ← Construct.children_unlinked node'.construct,
          ← Construct.isReference_unlinked node'.construct, ← heq,
          Construct.children_unlinked,
          Construct.isReference_unlinked]
        simpa using ih

theorem references : tree.references = tree'.references := by
  rw [Tree.references, Tree.references, h.roots, h.size, h.visit]

/-! ### Ancestry -/

theorem linkedConcepts (parents : List NodeId)
    (hparents : ∀ parent ∈ parents, tree.target parent = tree'.target parent) :
    tree.linkedConcepts parents = tree'.linkedConcepts parents := by
  induction parents with
  | nil => rfl
  | cons parent parents ih =>
      have hrest := ih fun other hother => hparents other (by simp [hother])
      rw [Tree.linkedConcepts, Tree.linkedConcepts, hparents parent (by simp),
        hrest]
      refine bind_congr fun target => ?_
      cases target with
      | none => rfl
      | some decl => exact h.construct_bind decl _ fun _ _ _ => rfl

/-- A concept extends the same concepts if the references to its parents have
the same links. -/
theorem conceptParents (id : NodeId) (hparents : ∀ name parents relations,
    tree.construct id = .ok (.concept name parents relations) →
      ∀ parent ∈ parents, tree.target parent = tree'.target parent) :
    tree.conceptParents id = tree'.conceptParents id := by
  rw [Tree.conceptParents, Tree.conceptParents]
  rcases h.construct id with heq | ⟨text, link, link', heq, heq'⟩
  · rw [← heq]
    cases hconstruct : tree.construct id with
    | error e => rfl
    | ok construct =>
        cases construct with
        | concept name parents relations =>
            exact h.linkedConcepts parents
              (hparents name parents relations hconstruct)
        | _ => rfl
  · rw [heq, heq']
    rfl

theorem declaredRelations (id : NodeId) :
    tree.declaredRelations id = tree'.declaredRelations id :=
  h.construct_bind id _ fun _ _ _ => rfl

theorem findNamed (name : String) (pairs : List (NodeId × NodeId)) :
    tree.findNamed name pairs = tree'.findNamed name pairs := by
  induction pairs with
  | nil => rfl
  | cons pair pairs ih => rw [Tree.findNamed, Tree.findNamed, h.nameOf, ih]

end SameShape

section Ancestry

variable {tree tree' : Tree} (h : tree.SameShape tree')
  (hparents : ∀ id, tree.conceptParents id = tree'.conceptParents id)

include hparents

theorem search_congr (stack seen : List NodeId) :
    tree.search stack seen = tree'.search stack seen := by
  fun_induction Tree.search tree stack seen with
  | case1 seen => rw [search]
  | case2 seen id stack hold ih => rw [ih, search.eq_2 tree', dif_pos hold]
  | case3 seen id stack hnew e herror =>
      rw [hparents] at herror
      rw [search, dif_neg hnew]
      split
      · next e' herror' => simpa [herror] using herror'
      · next parents hok => simp [herror] at hok
  | case4 seen id stack hnew parents hok ih =>
      rw [hparents] at hok
      rw [ih, search.eq_2 tree', dif_neg hnew]
      split
      · next e herror => simp [hok] at herror
      · next parents' hok' =>
          obtain rfl : parents = parents' := by simpa [hok] using hok'
          rfl

include h

theorem visibleRelations_congr (id : NodeId) :
    tree.visibleRelations id = tree'.visibleRelations id := by
  rw [visibleRelations, visibleRelations, ancestors, ancestors,
    search_congr hparents, show tree.declaredRelations = tree'.declaredRelations
      from funext h.declaredRelations]

/-- If every concept extends the same concepts, then a name means the same
relation. -/
theorem findRelation_congr (id : NodeId) (name : String) :
    tree.findRelation id name = tree'.findRelation id name := by
  rw [findRelation, findRelation, visibleRelations_congr h hparents,
    show tree.findNamed name = tree'.findNamed name
      from funext (h.findNamed name)]

end Ancestry

/-- The second tree has the shape of the first, keeps the links of the
references `on`, and lets every concept extend the same concepts. -/
structure ExtendsOn (on : NodeId → Prop) (tree tree' : Tree) : Prop where
  shape : tree.SameShape tree'
  kept : ∀ ref text target, on ref →
    tree.construct ref = .ok (.reference text (.resolved target)) →
    tree'.construct ref = .ok (.reference text (.resolved target))
  parents : ∀ id, tree.conceptParents id = tree'.conceptParents id

/-- The second tree has the shape of the first, keeps its links, and lets every
concept extend the same concepts. -/
structure Extends (tree tree' : Tree) : Prop where
  shape : tree.SameShape tree'
  kept : ∀ ref text target,
    tree.construct ref = .ok (.reference text (.resolved target)) →
    tree'.construct ref = .ok (.reference text (.resolved target))
  parents : ∀ id, tree.conceptParents id = tree'.conceptParents id

theorem Extends.refl (tree : Tree) : tree.Extends tree :=
  ⟨.refl tree, fun _ _ _ h => h, fun _ => rfl⟩

theorem Extends.on {tree tree' : Tree} (h : tree.Extends tree')
    (on : NodeId → Prop) :
    ExtendsOn on tree tree' :=
  ⟨h.shape, fun ref text target _ => h.kept ref text target, h.parents⟩

/-- A reference that has a target has a link to it. -/
theorem SameShape.construct_of_target {tree tree' : Tree}
    (h : tree.SameShape tree') {ref target : NodeId} {text : String}
    {link : Link} (href : tree.construct ref = .ok (.reference text link))
    (htarget : tree'.target ref = .ok (some target)) :
    tree'.construct ref = .ok (.reference text (.resolved target)) := by
  obtain ⟨link', href'⟩ := h.reference href
  rw [target_eq_of_construct href'] at htarget
  cases link' with
  | resolved target' =>
      obtain rfl : target' = target := by
        simpa [Construct.link?, Link.target?] using htarget
      exact href'
  | unresolved note => simp [Construct.link?, Link.target?] at htarget

/-- A tree with the same links but other notes extends the tree. -/
theorem SameShape.extends {tree tree' : Tree} (h : tree.SameShape tree')
    (htarget : ∀ id, tree.target id = tree'.target id) :
    tree.Extends tree' := by
  refine ⟨h, fun ref text target href => ?_, fun id => ?_⟩
  · refine h.construct_of_target href ?_
    rw [← htarget ref, target_eq_of_construct href]
    rfl
  · exact h.conceptParents id fun _ _ _ _ parent _ => htarget parent

end Tree

end ConceptLang
