import ConceptLang.Linking.Candidates
import ConceptLang.Proofs.WellFormed

/-!
# Walks along complete and closed trees

A look at a tree fails if it meets an identity without a node or comes back to
where it was. In a complete tree parts, parents and targets are nodes, and
parents come after their parts. So every walk upwards or along the ancestry that
starts at nodes of the tree has a result, and all it leads to are nodes of the
tree; for the ancestry it is enough that the tree is traceable. In a closed tree
this holds of walks downwards too, since parts come before the whole.

`Yields x post` says that a look has a result, and what is known about it.
-/

namespace ConceptLang

/-- The computation has a result, which is as `post` says. -/
def Yields {α : Type} (x : Except TreeError α) (post : α → Prop) : Prop :=
  ∃ a, x = .ok a ∧ post a

section Yields

variable {α β : Type} {x : Except TreeError α} {post post' : α → Prop}

theorem yields_ok {a : α} (h : post a) : Yields (.ok a) post :=
  ⟨a, rfl, h⟩

theorem Yields.mono (h : Yields x post) (hpost : ∀ a, post a → post' a) :
    Yields x post' := by
  obtain ⟨a, ha, hp⟩ := h
  exact ⟨a, ha, hpost a hp⟩

theorem Yields.bind {f : α → Except TreeError β} {post' : β → Prop}
    (h : Yields x post) (hf : ∀ a, x = .ok a → post a → Yields (f a) post') :
    Yields (x >>= f) post' := by
  obtain ⟨a, rfl, hp⟩ := h
  exact hf a rfl hp

theorem yields_mapM (post : β → Prop) (xs : List α) (f : α → Except TreeError β)
    (h : ∀ a ∈ xs, Yields (f a) post) :
    Yields (xs.mapM f) (fun bs => ∀ b ∈ bs, post b) := by
  induction xs with
  | nil => exact ⟨[], rfl, by simp⟩
  | cons a xs ih =>
      rw [List.mapM_cons]
      refine (h a (by simp)).bind fun b _ hb => ?_
      refine (ih fun a' ha' => h a' (by simp [ha'])).bind fun bs _ hbs =>
        yields_ok ?_
      simpa using ⟨hb, hbs⟩

end Yields

theorem mem_of_lookup {α β : Type} [BEq α] [LawfulBEq α]
    {entries : List (α × β)} {a : α} {b : β} (h : entries.lookup a = some b) :
    (a, b) ∈ entries := by
  obtain ⟨before, after, rfl, -⟩ := List.lookup_eq_some_iff.mp h
  simp

namespace Tree

theorem yields_construct {tree : Tree} {id : NodeId} (h : id < tree.size) :
    Yields (tree.construct id) (fun _ => True) := by
  obtain ⟨construct, hconstruct⟩ := exists_construct h
  exact ⟨construct, hconstruct, trivial⟩

theorem yields_nameOf {tree : Tree} {id : NodeId} (h : id < tree.size) :
    Yields (tree.nameOf id) (fun _ => True) := by
  obtain ⟨construct, hconstruct⟩ := exists_construct h
  exact ⟨construct.name?, by rw [nameOf, hconstruct]; rfl, trivial⟩

/-- What a node is linked to is read off its construct. -/
theorem target_eq_of_construct {tree : Tree} {id : NodeId}
    {construct : Construct} (h : tree.construct id = .ok construct) :
    tree.target id = .ok (construct.link?.bind (·.target?)) := by
  rw [target, h]
  rfl

theorem target_eq_linked? {tree : Tree} {id : NodeId} (h : id < tree.size) :
    tree.target id = .ok (tree.linked? id) := by
  obtain ⟨node, hnode⟩ := exists_get? h
  rw [target_eq_of_construct (construct_of_get? hnode), linked?, hnode]
  rfl

/-- The concept `owner` lists `relation` among its own relations. -/
def Declares (tree : Tree) (owner relation : NodeId) : Prop :=
  ∃ name parents relations,
    tree.construct owner = .ok (.concept name parents relations) ∧
    relation ∈ relations

/-- The relations that are listed for a node are those that it declares. -/
theorem mem_declaredRelations_iff {tree : Tree} {id : NodeId}
    {relations : List NodeId} (h : tree.declaredRelations id = .ok relations)
    (relation : NodeId) :
    relation ∈ relations ↔ tree.Declares id relation := by
  rw [declaredRelations] at h
  obtain ⟨construct, hconstruct, h⟩ := bind_eq_ok_iff.mp h
  have hdeclares : tree.Declares id relation ↔ ∃ name parents listed,
      construct = .concept name parents listed ∧ relation ∈ listed := by
    simp only [Declares, hconstruct, Except.ok.injEq]
  rw [hdeclares]
  cases construct with
  | concept name parents listed =>
      cases h
      simp
  | _ =>
      cases h
      simp

/-- The nodes that a walk starts from are nodes of the tree. -/
theorem lt_size_of_visit {tree : Tree} {stack : List (NodeId × Nat)}
    {found refs : List NodeId} (h : tree.visit stack found = .ok refs) :
    ∀ entry ∈ stack, entry.1 < tree.size := by
  fun_induction visit tree stack found with
  | case1 found => simp
  | case2 found id steps stack hnone => cases h
  | case3 found id stack node hnode => cases h
  | case4 found id stack node hnode steps ih =>
      intro entry hentry
      rcases List.mem_cons.mp hentry with rfl | hentry
      · exact lt_size_of_get? hnode
      · exact ih (by simpa using h) entry (by simp [hentry])

theorem lt_size_of_references {tree : Tree} {refs : List NodeId}
    (h : tree.references = .ok refs) :
    ∀ root ∈ tree.roots, root < tree.size := by
  intro root hroot
  exact lt_size_of_visit h (root, tree.size)
    (List.mem_map.mpr ⟨root, hroot, rfl⟩)

/-! ### Ancestry -/

/-- The concept that the node `id` is linked to. -/
def linkedConcept? (tree : Tree) (id : NodeId) : Option NodeId :=
  (tree.linked? id).filter (tree.holds (·.isConcept))

/-- The references to the parents of concepts are nodes of the tree, and so is
all that they are linked to. Whether a parent is a concept, and whether it comes
back to where it is named, is left open. -/
structure Traceable (tree : Tree) : Prop where
  parents : ∀ id name parents relations,
    tree.construct id = .ok (.concept name parents relations) →
    ∀ parent ∈ parents, parent < tree.size
  targets : ∀ id name parents relations,
    tree.construct id = .ok (.concept name parents relations) →
    ∀ parent ∈ parents, ∀ target ∈ tree.linked? parent, target < tree.size

theorem linkedConcepts_eq {tree : Tree} (parents : List NodeId)
    (hparents : ∀ parent ∈ parents, parent < tree.size)
    (htargets : ∀ parent ∈ parents, ∀ target ∈ tree.linked? parent, target <
      tree.size) :
    tree.linkedConcepts parents =
      .ok (parents.filterMap tree.linkedConcept?) := by
  induction parents with
  | nil => rfl
  | cons parent parents ih =>
      have hrest := ih (fun other hother => hparents other (by simp [hother]))
        fun other hother => htargets other (by simp [hother])
      rw [linkedConcepts, target_eq_linked? (hparents parent (by simp)),
        List.filterMap_cons, linkedConcept?]
      cases hlinked : tree.linked? parent with
      | none => exact hrest
      | some decl =>
          obtain ⟨node, hnode⟩ :=
            exists_get? (htargets parent (by simp) decl hlinked)
          have hconstruct := construct_of_get? hnode
          have hholds := holds_of_get? hnode (·.isConcept)
          simp only [bind, Except.bind, hconstruct, hrest, Option.filter_some,
            hholds]
          cases node.construct.isConcept <;> rfl

namespace Traceable

variable {tree : Tree} (traceable : tree.Traceable)

include traceable

/-- A concept extends the concepts that its parents are linked to, in the order
of declaration. -/
theorem conceptParents_eq {id : NodeId} {name : Ident}
    {parents relations : List NodeId}
    (h : tree.construct id = .ok (.concept name parents relations)) :
    tree.conceptParents id = .ok (parents.filterMap tree.linkedConcept?) := by
  rw [conceptParents, h]
  exact linkedConcepts_eq parents
    (traceable.parents id name parents relations h)
    (traceable.targets id name parents relations h)

theorem yields_conceptParents {id : NodeId} (h : id < tree.size) :
    Yields (tree.conceptParents id)
      (fun concepts => ∀ c ∈ concepts, c < tree.size) := by
  obtain ⟨construct, hconstruct⟩ := exists_construct h
  cases construct with
  | concept name parents relations =>
      refine ⟨_, traceable.conceptParents_eq hconstruct,
        fun concept hconcept => ?_⟩
      obtain ⟨parent, -, hlinked⟩ := List.mem_filterMap.mp hconcept
      exact lt_size_of_holds (Option.filter_eq_some_iff.mp hlinked).2
  | _ =>
      rw [conceptParents, hconstruct]
      exact yields_ok (by simp)

theorem yields_search (stack seen : List NodeId)
    (hstack : ∀ id ∈ stack, id < tree.size)
    (hseen : ∀ id ∈ seen, id < tree.size) :
    Yields (tree.search stack seen)
      (fun found => ∀ id ∈ found, id < tree.size) := by
  fun_induction search tree stack seen with
  | case1 seen => exact yields_ok (by simpa using hseen)
  | case2 seen id stack hold ih =>
      exact ih (fun x hx => hstack x (by simp [hx])) hseen
  | case3 seen id stack hnew e herror =>
      obtain ⟨parents, hparents, -⟩ :=
        traceable.yields_conceptParents (hstack id (by simp))
      rw [hparents] at herror
      contradiction
  | case4 seen id stack hnew parents hparents ih =>
      obtain ⟨parents', hparents', hlt⟩ :=
        traceable.yields_conceptParents (hstack id (by simp))
      obtain rfl := Except.ok.inj (hparents.symm.trans hparents')
      refine ih (fun x hx => ?_) (by simpa using ⟨hstack id (by simp), hseen⟩)
      rcases List.mem_append.mp hx with hx | hx
      · exact hlt x hx
      · exact hstack x (by simp [hx])

theorem yields_ancestors {id : NodeId} (h : id < tree.size) :
    Yields (tree.ancestors id)
      (fun found => ∀ other ∈ found, other < tree.size) :=
  traceable.yields_search [id] [] (by simpa using h) (by simp)

end Traceable

namespace Complete

variable {tree : Tree} (complete : tree.Complete)

include complete

theorem yields_target {id : NodeId} (h : id < tree.size) :
    Yields (tree.target id) (fun target => ∀ decl, target = some decl →
      decl < tree.size) :=
  ⟨tree.linked? id, target_eq_linked? h, fun decl hdecl =>
    complete.links id h decl hdecl⟩

theorem traceable : tree.Traceable := by
  have hparents : ∀ id name parents relations,
      tree.construct id = .ok (.concept name parents relations) →
        ∀ parent ∈ parents, parent < tree.size :=
          fun id name parents relations h parent hparent =>
    complete.part_lt_size h (by simp [Construct.children, hparent])
  exact ⟨hparents, fun id name parents relations h parent hparent =>
    complete.links parent (hparents id name parents relations h parent hparent)⟩

/-! ### Visible relations -/

omit complete in
theorem yields_declaredRelations {id : NodeId} (h : id < tree.size) :
    Yields (tree.declaredRelations id)
      (fun relations => ∀ relation ∈ relations, tree.Declares id relation) := by
  obtain ⟨construct, hconstruct⟩ := exists_construct h
  have hok : ∃ relations, tree.declaredRelations id = .ok relations := by
    rw [declaredRelations, hconstruct]
    cases construct <;> exact ⟨_, rfl⟩
  obtain ⟨relations, hrelations⟩ := hok
  exact ⟨relations, hrelations, fun relation =>
    (mem_declaredRelations_iff hrelations relation).mp⟩

theorem yields_visibleRelations {id : NodeId} (h : id < tree.size) :
    Yields (tree.visibleRelations id)
      (fun pairs => ∀ pair ∈ pairs, tree.Declares pair.1 pair.2) := by
  rw [visibleRelations]
  refine (complete.traceable.yields_ancestors h).bind fun owners _ howners => ?_
  refine (yields_mapM (fun group => ∀ pair ∈ group, tree.Declares pair.1 pair.2)
    owners _ fun owner howner => ?_).bind fun groups _ hgroups => yields_ok
    fun pair hpair => ?_
  · refine (yields_declaredRelations (howners owner howner)).bind
      fun relations _ hrelations => ?_
    refine yields_ok fun pair hpair => ?_
    obtain ⟨relation, hrelation, rfl⟩ := List.mem_map.mp hpair
    exact hrelations relation hrelation
  · obtain ⟨group, hgroup, hmem⟩ := List.mem_flatten.mp hpair
    exact hgroups group hgroup pair hmem

theorem declares_lt_size {owner relation : NodeId}
    (h : tree.Declares owner relation) :
    relation < tree.size := by
  obtain ⟨name, parents, relations, hconstruct, hmem⟩ := h
  exact complete.part_lt_size hconstruct (by simp [Construct.children, hmem])

theorem yields_findNamed (name : String) (pairs : List (NodeId × NodeId))
    (h : ∀ pair ∈ pairs, tree.Declares pair.1 pair.2) :
    Yields (tree.findNamed name pairs)
      (fun found => ∀ owner relation, found = some (owner, relation) →
        tree.Declares owner relation) := by
  induction pairs with
  | nil => exact yields_ok (by simp)
  | cons pair pairs ih =>
      obtain ⟨owner, relation⟩ := pair
      have hhead : tree.Declares owner relation := h (owner, relation) (by simp)
      rw [findNamed]
      refine (yields_nameOf (complete.declares_lt_size hhead)).bind
        fun found _ _ => ?_
      split
      · refine yields_ok fun owner' relation' heq => ?_
        cases heq
        exact hhead
      · exact ih fun pair hpair => h pair (by simp [hpair])

theorem yields_findRelation {id : NodeId} (h : id < tree.size) (name : String) :
    Yields (tree.findRelation id name)
      (fun found => ∀ owner relation, found = some (owner, relation) →
        tree.Declares owner relation) := by
  rw [findRelation]
  exact (complete.yields_visibleRelations h).bind fun pairs _ hpairs =>
    complete.yields_findNamed name pairs hpairs

/-! ### Names -/

omit complete in
theorem yields_named (ids : List NodeId) (h : ∀ id ∈ ids, id < tree.size) :
    Yields (tree.named ids)
      (fun entries => ∀ entry ∈ entries, entry.2 ∈ ids) := by
  induction ids with
  | nil => exact yields_ok (by simp)
  | cons id ids ih =>
      have hrest := ih fun other hother => h other (by simp [hother])
      rw [named]
      refine (yields_nameOf (h id (by simp))).bind fun name _ _ => ?_
      cases name with
      | some name =>
          refine hrest.bind fun entries _ hentries => yields_ok ?_
          intro entry hentry
          rcases List.mem_cons.mp hentry with rfl | hentry
          · simp
          · exact List.mem_cons_of_mem _ (hentries entry hentry)
      | none => exact hrest.mono fun entries hentries entry hentry =>
          List.mem_cons_of_mem _ (hentries entry hentry)

theorem yields_relationCandidates {id : NodeId} (h : id < tree.size) :
    Yields (tree.relationCandidates id)
      (fun entries => ∀ entry ∈ entries, entry.2 < tree.size) := by
  rw [relationCandidates]
  refine (complete.yields_visibleRelations h).bind fun pairs _ hpairs => ?_
  have hlt : ∀ id ∈ pairs.map (·.2), id < tree.size := by
    intro id hid
    obtain ⟨pair, hpair, rfl⟩ := List.mem_map.mp hid
    exact complete.declares_lt_size (hpairs pair hpair)
  exact (yields_named _ hlt).mono fun entries hentries entry hentry =>
    hlt entry.2 (hentries entry hentry)

omit complete in
theorem yields_select (keep : Construct → Bool) (ids : List NodeId)
    (h : ∀ id ∈ ids, id < tree.size) :
    Yields (tree.select keep ids) (fun kept => ∀ id ∈ kept, id ∈ ids) := by
  induction ids with
  | nil => exact yields_ok (by simp)
  | cons id ids ih =>
      rw [select]
      refine (yields_construct (h id (by simp))).bind fun construct _ _ => ?_
      refine (ih fun other hother => h other (by simp [hother])).bind
        fun rest _ hrest => ?_
      refine yields_ok fun other hother => ?_
      split at hother
      · rcases List.mem_cons.mp hother with rfl | hother
        · simp
        · exact List.mem_cons_of_mem _ (hrest other hother)
      · exact List.mem_cons_of_mem _ (hrest other hother)

omit complete in
/-- The nodes that are selected are those of the right kind. -/
theorem select_eq_ok {keep : Construct → Bool} {ids kept : List NodeId}
    (h : tree.select keep ids = .ok kept) :
    kept = ids.filter (tree.holds keep) := by
  induction ids generalizing kept with
  | nil =>
      cases h
      rfl
  | cons id ids ih =>
      rw [select] at h
      obtain ⟨construct, hconstruct, h⟩ := bind_eq_ok_iff.mp h
      obtain ⟨rest, hrest, h⟩ := bind_eq_ok_iff.mp h
      obtain rfl := ih hrest
      obtain ⟨node, hnode, rfl⟩ := (construct_eq_ok_iff tree id _).mp hconstruct
      rw [List.filter_cons, ← Except.ok.inj h, holds, hnode]
      rfl

omit complete in
theorem lookup_named {name : String} {pairs : List (NodeId × NodeId)}
    {found : Option (NodeId × NodeId)} {entries : List (String × NodeId)}
    (hfound : tree.findNamed name pairs = .ok found)
    (hentries : tree.named (pairs.map (·.2)) = .ok entries) :
    entries.lookup name = found.map (·.2) := by
  induction pairs generalizing entries with
  | nil =>
      cases hfound
      cases hentries
      rfl
  | cons pair pairs ih =>
      rw [findNamed] at hfound
      rw [List.map_cons, named] at hentries
      obtain ⟨declared, hdeclared, hfound⟩ := bind_eq_ok_iff.mp hfound
      obtain ⟨declared', hdeclared', hentries⟩ := bind_eq_ok_iff.mp hentries
      obtain rfl := Except.ok.inj (hdeclared.symm.trans hdeclared')
      cases declared with
      | none => exact ih (by simpa using hfound) hentries
      | some other =>
          obtain ⟨rest, hrest, hentries⟩ := bind_eq_ok_iff.mp hentries
          cases hentries
          rw [List.lookup_cons]
          split at hfound
          · next heq =>
              cases heq
              cases hfound
              simp
          · next hne =>
              have hbeq : (name == other) = false := by
                simpa using fun heq : name = other =>
                  hne (congrArg some heq.symm)
              rw [hbeq]
              exact ih hfound hrest

omit complete in
/-- The first candidate with a name is the relation that the name means. -/
theorem lookup_relationCandidates {id : NodeId} {name : String}
    {found : Option (NodeId × NodeId)} {entries : List (String × NodeId)}
    (hfound : tree.findRelation id name = .ok found)
    (hentries : tree.relationCandidates id = .ok entries) :
    entries.lookup name = found.map (·.2) := by
  rw [findRelation] at hfound
  rw [relationCandidates] at hentries
  obtain ⟨pairs, hpairs, hfound⟩ := bind_eq_ok_iff.mp hfound
  obtain ⟨pairs', hpairs', hentries⟩ := bind_eq_ok_iff.mp hentries
  obtain rfl := Except.ok.inj (hpairs.symm.trans hpairs')
  exact lookup_named hfound hentries

omit complete in
theorem yields_topLevel (hroots : ∀ id ∈ tree.roots, id < tree.size)
    (keep : Construct → Bool) :
    Yields (tree.topLevel keep)
      (fun entries => ∀ entry ∈ entries, entry.2 < tree.size) := by
  rw [topLevel]
  refine (yields_select keep tree.roots hroots).bind fun kept _ hkept => ?_
  have hlt : ∀ id ∈ kept, id < tree.size :=
    fun id hid => hroots id (hkept id hid)
  exact (yields_named kept hlt).mono fun entries hentries entry hentry =>
    hlt entry.2 (hentries entry hentry)

/-! ### Upwards -/

theorem yields_contextOf {id : NodeId} (h : id < tree.size) :
    Yields (tree.contextOf id)
      (fun context => ∀ join, context = .joinField join →
        join < tree.size) := by
  obtain ⟨parent, hparent⟩ := exists_parent h
  rw [contextOf, hparent]
  cases parent with
  | none => exact yields_ok (by simp)
  | some above =>
      have hlt := complete.parent_lt_size hparent
      refine (yields_construct hlt).bind fun construct _ _ => yields_ok
        fun join hjoin => ?_
      cases construct with
      | join left field =>
          simp only [RefContext.ofPart] at hjoin
          split at hjoin
          · cases hjoin
            exact hlt
          · cases hjoin
      | concept name parents relations =>
          simp only [RefContext.ofPart] at hjoin
          split at hjoin <;> cases hjoin
      | call callee args =>
          simp only [RefContext.ofPart] at hjoin
          split at hjoin <;> cases hjoin
      | _ => cases hjoin

theorem exists_owner? {id : NodeId} (h : id < tree.size) :
    ∃ owner, tree.owner? id = .ok owner := by
  obtain ⟨parent, hparent⟩ := exists_parent h
  cases parent with
  | none => exact ⟨none, by rw [owner?, hparent]; rfl⟩
  | some above =>
      obtain ⟨construct, hconstruct⟩ :=
        exists_construct (complete.parent_lt_size hparent)
      rw [owner?, hparent]
      simp only [bind, Except.bind, hconstruct]
      cases construct <;> exact ⟨_, rfl⟩

/-- Parents come after their parts, so a climb ends at the last node at the
latest. -/
theorem yields_climb (steps : Nat) (id : NodeId) (h : id < tree.size)
    (hsteps : tree.size ≤ id + steps + 1) :
    Yields (tree.climb steps id) (fun binder => ∀ above, binder = some above →
      above < tree.size) := by
  induction steps generalizing id with
  | zero =>
      obtain ⟨parent, hparent⟩ := exists_parent h
      rw [climb, hparent]
      cases parent with
      | none => exact yields_ok (by simp)
      | some above =>
          have hlt : Nat.succ id ≤ above := (complete.parent_spec hparent).1
          have hsize : Nat.succ above ≤ tree.size :=
            complete.parent_lt_size hparent
          omega
  | succ steps ih =>
      obtain ⟨parent, hparent⟩ := exists_parent h
      rw [climb, hparent]
      cases parent with
      | none => exact yields_ok (by simp)
      | some above =>
          have hlt : Nat.succ id ≤ above := (complete.parent_spec hparent).1
          have hsize : Nat.succ above ≤ tree.size :=
            complete.parent_lt_size hparent
          refine (yields_construct hsize).bind fun construct _ _ => ?_
          split
          · refine yields_ok fun above' habove' => ?_
            cases habove'
            exact hsize
          · exact ih above hsize (by omega)

theorem yields_untyped {id : NodeId} (h : id < tree.size) :
    Yields (tree.untyped id) (fun formal => formal < tree.size) := by
  rw [untyped]
  refine (yields_construct h).bind fun construct hconstruct _ => ?_
  cases construct with
  | typedParam formal typeNode =>
      exact yields_ok
        (complete.part_lt_size hconstruct (by simp [Construct.children]))
  | _ => exact yields_ok h

theorem yields_formals {id : NodeId} (h : id < tree.size) :
    Yields (tree.formals id)
      (fun formals => ∀ formal ∈ formals, formal < tree.size) := by
  rw [formals]
  refine (yields_construct h).bind fun construct hconstruct _ => ?_
  cases construct with
  | function name params signature body =>
      refine yields_ok fun formal hformal => ?_
      exact complete.part_lt_size hconstruct
        (by simp [Construct.children, hformal])
  | predicate name params body =>
      refine yields_mapM (· < tree.size) params _ fun param hparam => ?_
      exact complete.yields_untyped
        (complete.part_lt_size hconstruct
          (by simp [Construct.children, hparam]))
  | _ => exact yields_ok (by simp)

theorem yields_paramsInScope {id : NodeId} (h : id < tree.size) :
    Yields (tree.paramsInScope id)
      (fun entries => ∀ entry ∈ entries, entry.2 < tree.size) := by
  rw [paramsInScope, container]
  refine (complete.yields_climb tree.size id h (by omega)).bind
    fun binder _ hbinder => ?_
  cases binder with
  | none => exact yields_ok (by simp)
  | some binder =>
      refine (complete.yields_formals (hbinder binder rfl)).bind
        fun formals _ hformals => ?_
      exact (yields_named formals hformals).mono
        fun entries hentries entry hentry =>
        hformals entry.2 (hentries entry hentry)

theorem yields_lexicalScope (hroots : ∀ id ∈ tree.roots, id < tree.size)
    {ref : NodeId} (h : ref < tree.size) (context : RefContext) :
    Yields (tree.lexicalScope ref context)
      (fun entries => ∀ entry ∈ entries, entry.2 < tree.size) := by
  cases context with
  | joinField join => exact yields_ok (by simp)
  | concept => exact yields_topLevel hroots _
  | callee => exact yields_topLevel hroots _
  | value =>
      rw [lexicalScope]
      refine (complete.yields_paramsInScope h).bind fun params _ hparams => ?_
      refine (yields_topLevel hroots _).bind fun decls _ hdecls => yields_ok
        fun entry hentry => ?_
      rcases List.mem_append.mp hentry with hentry | hentry
      · exact hparams entry hentry
      · exact hdecls entry hentry

end Complete

namespace Closed

variable {tree : Tree} (closed : tree.Closed)

include closed

/-! ### Downwards -/

/-- Parts come before the whole, so no path downwards is longer than the
identity it starts from. -/
theorem yields_visit (stack : List (NodeId × Nat)) (found : List NodeId)
    (hstack : ∀ entry ∈ stack, entry.1 < tree.size ∧ entry.1 < entry.2)
    (hfound : ∀ id ∈ found, tree.holds (·.isReference) id = true) :
    Yields (tree.visit stack found)
      (fun refs => ∀ id ∈ refs, tree.holds (·.isReference) id = true) := by
  fun_induction visit tree stack found with
  | case1 found => exact yields_ok (by simpa using hfound)
  | case2 found id steps stack hnone =>
      obtain ⟨node, hnode⟩ := exists_get? (hstack (id, steps) (by simp)).1
      rw [hnode] at hnone
      contradiction
  | case3 found id stack node hnode =>
      exact absurd (hstack (id, 0) (by simp)).2 (Nat.not_lt_zero id)
  | case4 found id stack node hnode steps ih =>
      have hconstruct := construct_of_get? hnode
      refine ih (fun entry hentry => ?_) (fun other hother => ?_)
      · rcases List.mem_append.mp hentry with hentry | hentry
        · obtain ⟨child, hchild, rfl⟩ := List.mem_map.mp hentry
          have hlt := closed.part_lt hconstruct hchild
          have hid := hstack (id, steps + 1) (by simp)
          exact ⟨Nat.lt_trans hlt hid.1,
            Nat.lt_of_lt_of_le hlt (Nat.le_of_lt_succ hid.2)⟩
        · exact hstack entry (by simp [hentry])
      · split at hother
        · next href =>
            rcases List.mem_cons.mp hother with rfl | hother
            · exact (holds_iff tree _ _).mpr ⟨_, hconstruct, href⟩
            · exact hfound other hother
        · exact hfound other hother

theorem yields_references (hroots : ∀ id ∈ tree.roots, id < tree.size) :
    Yields tree.references
      (fun refs => ∀ id ∈ refs, tree.holds (·.isReference) id = true) := by
  refine closed.yields_visit _ [] (fun entry hentry => ?_) (by simp)
  obtain ⟨root, hroot, rfl⟩ := List.mem_map.mp hentry
  exact ⟨hroots root hroot, hroots root hroot⟩

end Closed

end Tree

end ConceptLang
