import ConceptLang.Proofs.Walks

/-!
# What the walk over references meets

`Tree.references` lists the references that are parts of top-level declarations,
directly or not. A well-formed tree is a forest: its nodes have at most one
parent, and its top-level declarations have none. If no declaration is top-level
twice, the walk meets every reference at most once.
-/

namespace ConceptLang

/-- No position admits a top-level declaration. -/
theorem Role.admits_of_isTopLevel {construct : Construct}
    (h : construct.isTopLevel = true) (role : Role) :
    role.admits construct = false := by
  cases construct with
  | concept | function | predicate | var => cases role <;> rfl
  | _ => cases h

namespace Tree

section Walk

variable {tree : Tree}

theorem below_iff {id other : NodeId} {node : Node}
    (h : tree.get? id = some node) :
    tree.Below other id ↔ other = id ∨
      ∃ child ∈ node.construct.children, tree.Below other child := by
  constructor
  · intro hbelow
    rcases Relation.ReflTransGen.cases_tail hbelow with
      heq | ⟨child, hchild, node', hnode', hmem⟩
    · exact Or.inl heq.symm
    · obtain rfl : node = node' := by simpa [h] using hnode'
      exact Or.inr ⟨child, hmem, hchild⟩
  · rintro (rfl | ⟨child, hmem, hbelow⟩)
    · exact .refl
    · exact hbelow.tail ⟨node, h, hmem⟩

/-- A walk finds the references below the nodes it starts from. -/
theorem mem_of_visit {stack : List (NodeId × Nat)} {found refs : List NodeId}
    (h : tree.visit stack found = .ok refs) (ref : NodeId) :
    ref ∈ refs ↔ ref ∈ found ∨ tree.holds (·.isReference) ref = true ∧
      ∃ entry ∈ stack, tree.Below ref entry.1 := by
  fun_induction visit tree stack found with
  | case1 found =>
      cases h
      simp
  | case2 found id steps stack hnone => cases h
  | case3 found id stack node hnode => cases h
  | case4 found id stack node hnode steps ih =>
      rw [ih (by simpa using h)]
      have hkind := holds_of_get? hnode (·.isReference)
      constructor
      · rintro (hmem | ⟨href, entry, hentry, hbelow⟩)
        · split at hmem
          · next hself =>
              rcases List.mem_cons.mp hmem with rfl | hmem
              · exact Or.inr ⟨hkind.trans hself, _, List.mem_cons_self, .refl⟩
              · exact Or.inl hmem
          · exact Or.inl hmem
        · rcases List.mem_append.mp hentry with hentry | hentry
          · obtain ⟨child, hchild, rfl⟩ := List.mem_map.mp hentry
            exact Or.inr ⟨href, _, List.mem_cons_self,
              hbelow.tail ⟨node, hnode, hchild⟩⟩
          · exact Or.inr ⟨href, entry, List.mem_cons_of_mem _ hentry, hbelow⟩
      · rintro (hmem | ⟨href, entry, hentry, hbelow⟩)
        · left
          split
          · exact List.mem_cons_of_mem _ hmem
          · exact hmem
        · rcases List.mem_cons.mp hentry with rfl | hentry
          · rcases (below_iff hnode).mp hbelow with
              rfl | ⟨child, hchild, hbelow⟩
            · exact Or.inl (by simp [← hkind, href])
            · exact Or.inr ⟨href, (child, steps), by simp [hchild], hbelow⟩
          · exact Or.inr ⟨href, entry, by simp [hentry], hbelow⟩

/-- The references that are listed are those below the top-level
declarations. -/
theorem mem_references_iff {refs : List NodeId} (h : tree.references = .ok refs)
    (ref : NodeId) :
    ref ∈ refs ↔ tree.holds (·.isReference) ref = true ∧
      ∃ root ∈ tree.roots, tree.Below ref root := by
  rw [mem_of_visit h]
  simp

end Walk

/-! ### Forests -/

section Forest

/-- Neither of the two nodes is below the other. -/
def Apart (tree : Tree) (a b : NodeId) : Prop :=
  ¬ tree.Below a b ∧ ¬ tree.Below b a

variable {tree : Tree} (wf : tree.WellFormed)

include wf

/-- What is inside of a node has the node it is part of inside of it too, unless
it is that node. -/
theorem WellFormed.below_of_isPart {above part whole : NodeId}
    (h : tree.Below part above) (hpart : tree.IsPart part whole) :
    part = above ∨ tree.Below whole above := by
  rcases Relation.ReflTransGen.cases_head h with heq | ⟨other, hpart', hother⟩
  · exact Or.inl heq
  · exact Or.inr (wf.isPart_unique hpart hpart' ▸ hother)

theorem WellFormed.apart_part {whole part other : NodeId}
    (h : tree.Apart whole other) (hpart : tree.IsPart part whole) :
    tree.Apart part other := by
  refine ⟨fun hbelow => ?_, fun hbelow => h.2 (hbelow.tail hpart)⟩
  rcases wf.below_of_isPart hbelow hpart with rfl | hwhole
  · exact h.2 (.single hpart)
  · exact h.1 hwhole

theorem WellFormed.apart_parts {whole part other : NodeId}
    (hpart : tree.IsPart part whole) (hother : tree.IsPart other whole)
    (hne : part ≠ other) : tree.Apart part other := by
  have hlt : ∀ id, tree.IsPart id whole → ¬ tree.Below whole id := by
    intro id hid hbelow
    obtain ⟨construct, hconstruct, hmem⟩ :=
      (isPart_iff_construct tree _ _).mp hid
    exact Nat.not_le_of_lt (wf.part_lt hconstruct hmem) (wf.le_of_below hbelow)
  constructor
  · intro hbelow
    rcases wf.below_of_isPart hbelow hpart with heq | hwhole
    · exact hne heq
    · exact hlt other hother hwhole
  · intro hbelow
    rcases wf.below_of_isPart hbelow hother with heq | hwhole
    · exact hne heq.symm
    · exact hlt part hpart hwhole

/-- A top-level declaration is nobody's part. -/
theorem WellFormed.not_isPart_root {root whole : NodeId}
    (hroot : root ∈ tree.roots) :
    ¬ tree.IsPart root whole := by
  intro hpart
  obtain ⟨construct, hconstruct, hmem⟩ :=
    (isPart_iff_construct tree _ _).mp hpart
  obtain ⟨role, hrole⟩ := (Construct.mem_children_iff construct root).mp hmem
  obtain ⟨child, hchild, hadmits⟩ := wf.role hconstruct hrole
  obtain ⟨decl, hdecl, htop⟩ := wf.root_isTopLevel hroot
  obtain rfl := Except.ok.inj (hchild.symm.trans hdecl)
  rw [Role.admits_of_isTopLevel htop] at hadmits
  cases hadmits

theorem WellFormed.nodup_visit {stack : List (NodeId × Nat)}
    {found refs : List NodeId} (h : tree.visit stack found = .ok refs)
    (hapart : stack.Pairwise fun a b => tree.Apart a.1 b.1)
    (hfound : found.Nodup)
    (hnew : ∀ entry ∈ stack, ∀ id ∈ found, ¬ tree.Below id entry.1) :
    refs.Nodup := by
  fun_induction visit tree stack found with
  | case1 found =>
      cases h
      exact List.nodup_reverse.mpr hfound
  | case2 found id steps stack hnone => cases h
  | case3 found id stack node hnode => cases h
  | case4 found id stack node hnode steps ih =>
      have hconstruct := construct_of_get? hnode
      have hpart : ∀ child ∈ node.construct.children, tree.IsPart child id :=
        fun child hchild =>
        ⟨node, hnode, hchild⟩
      obtain ⟨hhead, htail⟩ := List.pairwise_cons.mp hapart
      refine ih (by simpa using h) ?_ ?_ ?_
      · rw [List.pairwise_append]
        refine ⟨?_, htail, fun entry hentry other hother => ?_⟩
        · rw [List.pairwise_map]
          exact (wf.nodup_children hconstruct).imp_of_mem fun ha hb hne =>
            wf.apart_parts (hpart _ ha) (hpart _ hb) hne
        · obtain ⟨child, hchild, rfl⟩ := List.mem_map.mp hentry
          exact wf.apart_part (hhead other hother) (hpart child hchild)
      · have hself : id ∉ found :=
          fun hmem => hnew _ List.mem_cons_self id hmem .refl
        simp only [dite_eq_ite]
        split
        · exact List.nodup_cons.mpr ⟨hself, hfound⟩
        · exact hfound
      · intro entry hentry other hother hbelow
        have hother : other = id ∨ other ∈ found := by
          simp only [dite_eq_ite] at hother
          split at hother
          · exact List.mem_cons.mp hother
          · exact Or.inr hother
        rcases List.mem_append.mp hentry with hentry | hentry
        · obtain ⟨child, hchild, rfl⟩ := List.mem_map.mp hentry
          rcases hother with rfl | hother
          · exact Nat.not_le_of_lt (wf.part_lt hconstruct hchild)
              (wf.le_of_below hbelow)
          · exact hnew _ List.mem_cons_self other hother
              (hbelow.tail (hpart child hchild))
        · rcases hother with rfl | hother
          · exact (hhead entry hentry).1 hbelow
          · exact hnew entry (List.mem_cons_of_mem _ hentry) other hother hbelow

/-- If no declaration is top-level twice, no reference is met twice. -/
theorem WellFormed.nodup_references (hroots : tree.roots.Nodup)
    {refs : List NodeId} (h : tree.references = .ok refs) : refs.Nodup := by
  refine wf.nodup_visit h ?_ List.nodup_nil (by simp)
  rw [List.pairwise_map]
  refine hroots.imp_of_mem fun ha hb hne => ?_
  have hroot : ∀ root ∈ tree.roots, ∀ above, tree.Below root above →
      root = above := by
    intro root hroot above hbelow
    rcases Relation.ReflTransGen.cases_head hbelow with heq | ⟨whole, hpart, -⟩
    · exact heq
    · exact absurd hpart (wf.not_isPart_root hroot)
  exact ⟨fun hbelow => hne (hroot _ ha _ hbelow),
    fun hbelow => hne (hroot _ hb _ hbelow).symm⟩

end Forest

end Tree

end ConceptLang
