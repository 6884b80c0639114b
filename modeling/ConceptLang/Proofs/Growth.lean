import ConceptLang.Tree.Basic

/-!
# Trees as they grow

`Tree.Grown` are the trees that can be made: from the empty tree, by adding
nodes, by declaring nodes to be top-level and by setting links. In such a tree
the parent of a node is the last later node that has it as a part, so parents
have larger identities than their parts and are nodes of the tree.
-/

namespace ConceptLang

theorem bind_eq_ok_iff {ε α β : Type} {x : Except ε α} {f : α → Except ε β}
    {b : β} :
    x >>= f = .ok b ↔ ∃ a, x = .ok a ∧ f a = .ok b := by
  cases x <;> simp [bind, Except.bind]

namespace Tree

/-- The trees that can be made one step after the other. -/
inductive Grown : Tree → Prop where
  | empty : Grown empty
  | add {tree : Tree} (construct : Construct) (span : Span) :
      Grown tree → Grown (tree.add construct span)
  | addRoot {tree : Tree} (id : NodeId) : Grown tree → Grown (tree.addRoot id)
  | setLink {tree linked : Tree} (id : NodeId) (link : Link) :
      Grown tree → tree.setLink id link = .ok linked → Grown linked

/-- The tree of the given nodes, in the order of creation, with the given
top-level declarations. -/
def ofConstructs (constructs : List Construct) (roots : List NodeId) : Tree :=
  roots.foldl addRoot
    (constructs.foldl (fun tree construct => tree.add construct Span.unknown)
      empty)

theorem grown_ofConstructs (constructs : List Construct) (roots : List NodeId) :
    (ofConstructs constructs roots).Grown := by
  have hnodes : ∀ tree : Tree, tree.Grown →
      (constructs.foldl (fun tree construct => tree.add construct Span.unknown)
        tree).Grown := by
    induction constructs with
    | nil => exact fun _ h => h
    | cons construct constructs ih =>
        exact fun tree h => ih _ (.add construct Span.unknown h)
  have hroots : ∀ tree : Tree, tree.Grown →
      (roots.foldl addRoot tree).Grown := by
    induction roots with
    | nil => exact fun _ h => h
    | cons root roots ih => exact fun tree h => ih _ (.addRoot root h)
  exact hroots _ (hnodes _ .empty)

/-- The node `above` names `id` as one of its parts. -/
def IsPart (tree : Tree) (id above : NodeId) : Prop :=
  ∃ node, tree.get? above = some node ∧ id ∈ node.construct.children

theorem construct_eq_ok_iff (tree : Tree) (id : NodeId)
    (construct : Construct) :
    tree.construct id = .ok construct ↔ ∃ node, tree.get? id = some node ∧
      node.construct = construct := by
  rw [Tree.construct, Tree.node]
  cases tree.get? id <;> simp [Except.map]

theorem construct_of_get? {tree : Tree} {id : NodeId} {node : Node}
    (h : tree.get? id = some node) : tree.construct id = .ok node.construct :=
  (construct_eq_ok_iff tree id _).mpr ⟨node, h, rfl⟩

theorem parent_eq_ok_iff (tree : Tree) (id : NodeId) (parent : Option NodeId) :
    tree.parent id = .ok parent ↔
      ∃ node, tree.get? id = some node ∧ node.parent = parent := by
  rw [Tree.parent, Tree.node]
  cases tree.get? id <;> simp [Except.map]

theorem lt_size_of_get? {tree : Tree} {id : NodeId} {node : Node}
    (h : tree.get? id = some node) :
    id < tree.size :=
  (Array.getElem?_eq_some_iff.mp h).1

theorem exists_get? {tree : Tree} {id : NodeId} (h : id < tree.size) :
    ∃ node, tree.get? id = some node :=
  ⟨tree.nodes[id], Array.getElem?_eq_getElem h⟩

theorem lt_size_of_construct {tree : Tree} {id : NodeId} {construct : Construct}
    (h : tree.construct id = .ok construct) : id < tree.size := by
  obtain ⟨node, hnode, -⟩ := (construct_eq_ok_iff tree id construct).mp h
  exact lt_size_of_get? hnode

theorem exists_construct {tree : Tree} {id : NodeId} (h : id < tree.size) :
    ∃ construct, tree.construct id = .ok construct := by
  obtain ⟨node, hnode⟩ := exists_get? h
  exact ⟨node.construct, construct_of_get? hnode⟩

theorem exists_parent {tree : Tree} {id : NodeId} (h : id < tree.size) :
    ∃ parent, tree.parent id = .ok parent := by
  obtain ⟨node, hnode⟩ := exists_get? h
  exact ⟨node.parent, (parent_eq_ok_iff tree id _).mpr ⟨node, hnode, rfl⟩⟩

theorem isPart_iff_construct (tree : Tree) (id above : NodeId) :
    tree.IsPart id above ↔ ∃ construct, tree.construct above = .ok construct ∧
      id ∈ construct.children := by
  simp only [IsPart, construct_eq_ok_iff]
  constructor
  · rintro ⟨node, hnode, hmem⟩
    exact ⟨_, ⟨node, hnode, rfl⟩, hmem⟩
  · rintro ⟨_, ⟨node, hnode, rfl⟩, hmem⟩
    exact ⟨node, hnode, hmem⟩

/-! ### What each step does to a node -/

theorem get?_foldl_adopt (above : NodeId) (children : List NodeId)
    (nodes : Array Node) (id : NodeId) :
    (children.foldl (adopt above) nodes)[id]? =
      (nodes[id]?).map fun node =>
        if id ∈ children then { node with parent := some above } else node := by
  induction children generalizing nodes with
  | nil => simp
  | cons child children ih =>
      rw [List.foldl_cons, ih, adopt, Array.getElem?_modify]
      by_cases hchild : child = id
      · subst hchild
        cases nodes[child]? <;> simp
      · have hne : id ≠ child := fun h => hchild h.symm
        simp [hchild, hne]

/-- A node that was there before keeps all but perhaps its parent when a node is
added. -/
theorem get?_add_of_lt (tree : Tree) (construct : Construct) (span : Span)
    (id : NodeId) (h : id < tree.size) :
    (tree.add construct span).get? id = (tree.get? id).map fun node =>
      if id ∈ construct.children then { node with parent := some tree.size }
        else node := by
  have hne : id ≠ tree.nodes.size := Nat.ne_of_lt h
  simp only [get?, add, Array.getElem?_push, size_foldl_adopt, if_neg hne,
    get?_foldl_adopt]

theorem get?_putConstruct (tree : Tree) (id : NodeId) (construct : Construct)
    (other : NodeId) :
    (tree.putConstruct id construct).get? other = (tree.get? other).map
      fun node =>
      if other = id then { node with construct } else node := by
  simp only [get?, putConstruct, Array.getElem?_modify]
  by_cases h : id = other
  · subst h
    simp
  · have hne : other ≠ id := fun heq => h heq.symm
    simp [h, hne]

/-- Setting a link puts a reference with the new link in the place of one with
the old link. -/
theorem setLink_eq_ok {tree linked : Tree} {id : NodeId} {link : Link}
    (h : tree.setLink id link = .ok linked) :
    ∃ text old, tree.construct id = .ok (.reference text old) ∧
      linked = tree.putConstruct id (.reference text link) := by
  unfold setLink at h
  split at h
  · obtain ⟨_, _, h⟩ := bind_eq_ok_iff.mp h
    obtain ⟨construct, hconstruct, h⟩ := bind_eq_ok_iff.mp h
    cases construct with
    | reference text old =>
        exact ⟨text, old, hconstruct, (Except.ok.inj h).symm⟩
    | _ => cases h
  · obtain ⟨construct, hconstruct, h⟩ := bind_eq_ok_iff.mp h
    cases construct with
    | reference text old =>
        exact ⟨text, old, hconstruct, (Except.ok.inj h).symm⟩
    | _ => cases h

/-! ### Parents -/

/-- The parent of every node is the last of the later nodes that have it as a
part. -/
structure ParentsFit (tree : Tree) : Prop where
  isPart : ∀ id node above, tree.get? id = some node →
    node.parent = some above → id < above ∧ tree.IsPart id above
  isLast : ∀ id node above, tree.get? id = some node → id < above →
    tree.IsPart id above → ∃ last, node.parent = some last ∧ above ≤ last

theorem isPart_add_iff (tree : Tree) (construct : Construct) (span : Span)
    (id above : NodeId) :
    (tree.add construct span).IsPart id above ↔
      tree.IsPart id above ∨ above = tree.size ∧ id ∈ construct.children := by
  constructor
  · rintro ⟨node, hnode, hmem⟩
    have hle : above < tree.size + 1 := by
      have := lt_size_of_get? hnode
      rwa [size_add] at this
    rcases Nat.lt_succ_iff_lt_or_eq.mp hle with hlt | rfl
    · rw [get?_add_of_lt tree construct span above hlt] at hnode
      obtain ⟨old, hold, rfl⟩ := Option.map_eq_some_iff.mp hnode
      refine Or.inl ⟨old, hold, ?_⟩
      split at hmem <;> exact hmem
    · rw [get?_add_size] at hnode
      cases hnode
      exact Or.inr ⟨rfl, hmem⟩
  · rintro (⟨node, hnode, hmem⟩ | ⟨rfl, hmem⟩)
    · have hlt := lt_size_of_get? hnode
      refine ⟨if above ∈ construct.children then
        { node with parent := some tree.size } else node,
        ?_, ?_⟩
      · rw [get?_add_of_lt tree construct span above hlt, hnode,
          Option.map_some]
      · split <;> exact hmem
    · exact ⟨_, get?_add_size tree construct span, hmem⟩

theorem isPart_putConstruct_iff (tree : Tree) (ref : NodeId) (text : String)
    (old new : Link) (href : tree.construct ref = .ok (.reference text old))
    (id above : NodeId) :
    (tree.putConstruct ref (.reference text new)).IsPart id above ↔
      tree.IsPart id above := by
  simp only [IsPart, get?_putConstruct, Option.map_eq_some_iff]
  obtain ⟨refNode, hrefNode, hconstruct⟩ :=
    (construct_eq_ok_iff tree ref _).mp href
  constructor
  · rintro ⟨_, ⟨node, hnode, rfl⟩, hmem⟩
    by_cases h : above = ref
    · simp [h, Construct.children] at hmem
    · exact ⟨node, hnode, by simpa [h] using hmem⟩
  · rintro ⟨node, hnode, hmem⟩
    by_cases h : above = ref
    · subst h
      rw [hnode] at hrefNode
      cases hrefNode
      simp [hconstruct, Construct.children] at hmem
    · exact ⟨node, ⟨node, hnode, by simp [h]⟩, hmem⟩

theorem ParentsFit.add {tree : Tree} (h : tree.ParentsFit)
    (construct : Construct) (span : Span) :
    (tree.add construct span).ParentsFit := by
  constructor
  · intro id node above hnode hparent
    rw [isPart_add_iff]
    have hle : id < tree.size + 1 := by
      have := lt_size_of_get? hnode
      rwa [size_add] at this
    rcases Nat.lt_succ_iff_lt_or_eq.mp hle with hlt | rfl
    · rw [get?_add_of_lt tree construct span id hlt] at hnode
      obtain ⟨old, hold, rfl⟩ := Option.map_eq_some_iff.mp hnode
      split at hparent
      · next hmem =>
          cases hparent
          exact ⟨hlt, Or.inr ⟨rfl, hmem⟩⟩
      · obtain ⟨hbefore, hpart⟩ := h.isPart id old above hold hparent
        exact ⟨hbefore, Or.inl hpart⟩
    · rw [get?_add_size] at hnode
      cases hnode
      contradiction
  · intro id node above hnode hlt hpart
    rw [isPart_add_iff] at hpart
    have hid : id < tree.size := by
      rcases hpart with ⟨_, habove, _⟩ | ⟨rfl, _⟩
      · exact Nat.lt_trans hlt (lt_size_of_get? habove)
      · exact hlt
    rw [get?_add_of_lt tree construct span id hid] at hnode
    obtain ⟨old, hold, rfl⟩ := Option.map_eq_some_iff.mp hnode
    by_cases hmem : id ∈ construct.children
    · refine ⟨tree.size, by simp [hmem], ?_⟩
      rcases hpart with ⟨_, habove, _⟩ | ⟨rfl, _⟩
      · exact Nat.le_of_lt (lt_size_of_get? habove)
      · exact Nat.le_refl _
    · rcases hpart with hpart | ⟨_, hmem'⟩
      · obtain ⟨last, hlast, hle⟩ := h.isLast id old above hold hlt hpart
        exact ⟨last, by simpa [hmem] using hlast, hle⟩
      · exact absurd hmem' hmem

theorem ParentsFit.putConstruct {tree : Tree} (h : tree.ParentsFit)
    {ref : NodeId} {text : String} {old : Link}
    (href : tree.construct ref = .ok (.reference text old)) (new : Link) :
    (tree.putConstruct ref (.reference text new)).ParentsFit := by
  have hget : ∀ id node,
      (tree.putConstruct ref (.reference text new)).get? id = some node →
        ∃ before, tree.get? id = some before ∧ before.parent = node.parent := by
    intro id node hnode
    rw [get?_putConstruct] at hnode
    obtain ⟨before, hbefore, rfl⟩ := Option.map_eq_some_iff.mp hnode
    exact ⟨before, hbefore, by split <;> rfl⟩
  constructor
  · intro id node above hnode hparent
    obtain ⟨before, hbefore, heq⟩ := hget id node hnode
    rw [isPart_putConstruct_iff tree ref text old new href]
    exact h.isPart id before above hbefore (heq.trans hparent)
  · intro id node above hnode hlt hpart
    obtain ⟨before, hbefore, heq⟩ := hget id node hnode
    rw [isPart_putConstruct_iff tree ref text old new href] at hpart
    obtain ⟨last, hlast, hle⟩ := h.isLast id before above hbefore hlt hpart
    exact ⟨last, heq.symm.trans hlast, hle⟩

theorem Grown.parentsFit {tree : Tree} (h : tree.Grown) : tree.ParentsFit := by
  induction h with
  | empty => exact ⟨fun _ _ _ h => by simp [get?, Tree.empty] at h,
      fun _ _ _ h => by simp [get?, Tree.empty] at h⟩
  | add construct span _ ih => exact ih.add construct span
  | addRoot id _ ih => exact ⟨ih.isPart, ih.isLast⟩
  | setLink id link _ hset ih =>
      obtain ⟨text, old, href, rfl⟩ := setLink_eq_ok hset
      exact ih.putConstruct href link

/-- The parent of a node comes after it and has it as a part. -/
theorem Grown.parent_spec {tree : Tree} (h : tree.Grown) {id above : NodeId}
    (hparent : tree.parent id = .ok (some above)) :
    id < above ∧ tree.IsPart id above := by
  obtain ⟨node, hnode, hparent⟩ := (parent_eq_ok_iff tree id _).mp hparent
  exact h.parentsFit.isPart id node above hnode hparent

end Tree

end ConceptLang
