import Mathlib.Logic.Relation
import ConceptLang.Proofs.Walks

/-!
# Depth-first discovery of ancestors

The walk over the ancestors of a concept keeps the nodes still to be gone to on
a stack. A node can stand there several times, and it counts as seen only when
it is taken off, so the stack says little about what is left to do. Still the
walk is the recursive depth-first discovery `Tree.discover`: what stands above a
node on the stack is done with before the node is taken off, just as a call ends
before the next one starts (`Tree.search_eq_discover`). The recursion goes at
most one call deeper for each node that was not seen before, so the number of
unseen nodes bounds its depth.

What is discovered is what can be reached by going from concepts to concepts
that they extend (`Tree.Inherits`), each node once, from any node and in any
graph of parents (`Tree.ancestors_eq_discover`).
-/

namespace ConceptLang

namespace Tree

/-- The concept `id` extends the concept `other` directly: one of its parents is
linked to it. -/
def Inherits (tree : Tree) (id other : NodeId) : Prop :=
  ∃ name parents relations,
    tree.construct id = .ok (.concept name parents relations) ∧
    ∃ parent ∈ parents, tree.linkedConcept? parent = some other

section Steps

variable {tree : Tree} {id : NodeId} {stack seen : List NodeId}

theorem Traceable.mem_conceptParents_iff (traceable : tree.Traceable)
    {parents : List NodeId} (h : tree.conceptParents id = .ok parents)
    (other : NodeId) :
    other ∈ parents ↔ tree.Inherits id other := by
  obtain ⟨construct, hconstruct⟩ :=
    exists_construct (conceptParents_eq_ok tree id parents h).1
  have hinherits : tree.Inherits id other ↔ ∃ name parents relations,
      construct = .concept name parents relations ∧
        ∃ parent ∈ parents, tree.linkedConcept? parent = some other := by
    simp only [Inherits, hconstruct, Except.ok.injEq]
  rw [hinherits]
  cases construct with
  | concept name listed relations =>
      rw [traceable.conceptParents_eq hconstruct] at h
      cases h
      simp
  | _ =>
      rw [conceptParents, hconstruct] at h
      cases h
      simp

/-! ### One node more -/

theorem search_of_seen (h : seen.contains id = true) :
    tree.search (id :: stack) seen = tree.search stack seen := by
  rw [search, dif_pos h]

theorem search_of_new (h : seen.contains id = false) :
    tree.search (id :: stack) seen =
      tree.conceptParents id >>= fun parents =>
        tree.search (parents ++ stack) (id :: seen) := by
  rw [search, dif_neg (by rw [h]; decide)]
  split
  · next e herror => rw [herror]; rfl
  · next parents hparents => rw [hparents]; rfl

theorem discover_of_seen (steps : Nat) (h : seen.contains id = true) :
    tree.discover steps seen id = .ok seen := by
  rw [discover.eq_def, if_pos h]
  rfl

theorem discover_of_new (steps : Nat) (h : seen.contains id = false) :
    tree.discover (steps + 1) seen id =
      tree.conceptParents id >>= fun parents =>
        parents.foldlM (tree.discover steps) (id :: seen) := by
  rw [discover, if_neg (by rw [h]; decide)]

theorem unseen_le_of_subset {seen' : List NodeId} (h : seen ⊆ seen') :
    tree.unseen seen' ≤ tree.unseen seen := by
  refine List.countP_mono_left fun other _ hother => ?_
  simp only [Bool.not_eq_true', List.contains_eq_mem, decide_eq_false_iff_not]
    at hother ⊢
  exact fun hmem => hother (h hmem)

/-- What has been seen stays seen. -/
theorem subset_of_foldlM
    {visit : List NodeId → NodeId → Except TreeError (List NodeId)}
    (hvisit : ∀ {seen id seen'}, visit seen id = .ok seen' → seen ⊆ seen')
    {ids seen' : List NodeId} (h : ids.foldlM visit seen = .ok seen') :
    seen ⊆ seen' := by
  induction ids generalizing seen with
  | nil =>
      cases h
      exact List.Subset.refl _
  | cons id ids ih =>
      rw [List.foldlM_cons] at h
      obtain ⟨middle, hmiddle, h⟩ := bind_eq_ok_iff.mp h
      exact List.Subset.trans (hvisit hmiddle) (ih h)

theorem subset_of_discover {steps : Nat} {seen' : List NodeId}
    (h : tree.discover steps seen id = .ok seen') : seen ⊆ seen' := by
  induction steps generalizing seen id seen' with
  | zero =>
      rw [discover] at h
      split at h
      · cases h
        exact List.Subset.refl _
      · obtain ⟨parents, -, ⟨⟩⟩ := bind_eq_ok_iff.mp h
  | succ steps ih =>
      rw [discover] at h
      split at h
      · cases h
        exact List.Subset.refl _
      · obtain ⟨parents, -, h⟩ := bind_eq_ok_iff.mp h
        exact List.Subset.trans (List.subset_cons_self id seen)
          (subset_of_foldlM ih h)

end Steps

/-! ### The stack and the recursion -/

section Recursion

variable {tree : Tree} {steps : Nat}

/-- If the walk makes the recursive discovery from the top of its stack, then
also from several nodes at the top, one after the other. -/
theorem search_append
    (hone : ∀ {seen}, tree.unseen seen ≤ steps → ∀ id stack,
      tree.search (id :: stack) seen =
        tree.discover steps seen id >>= tree.search stack)
    {seen : List NodeId} (h : tree.unseen seen ≤ steps)
    (ids stack : List NodeId) :
    tree.search (ids ++ stack) seen =
      ids.foldlM (tree.discover steps) seen >>= tree.search stack := by
  induction ids generalizing seen with
  | nil => rfl
  | cons id ids ih =>
      rw [List.cons_append, hone h, List.foldlM_cons, bind_assoc]
      cases hnext : tree.discover steps seen id with
      | error e => rfl
      | ok next =>
          exact ih (Nat.le_trans
            (unseen_le_of_subset (subset_of_discover hnext)) h)

/-- The walk makes the recursive discovery from the top of its stack, and goes
on with the rest. The induction is on the depth of the recursion, for which the
number of unseen nodes is enough. -/
theorem search_eq_discover {seen : List NodeId} (h : tree.unseen seen ≤ steps)
    (id : NodeId) (stack : List NodeId) :
    tree.search (id :: stack) seen = tree.discover steps seen id >>=
      tree.search stack := by
  induction steps generalizing seen id stack with
  | zero =>
      cases hseen : seen.contains id with
      | true => rw [search_of_seen hseen, discover_of_seen 0 hseen]; rfl
      | false =>
          rw [search_of_new hseen, discover, if_neg (by rw [hseen]; decide)]
          cases hparents : tree.conceptParents id with
          | error e => rfl
          | ok parents =>
              -- A node is not seen, so the bound is not zero.
              have hlt := (conceptParents_eq_ok tree id parents hparents).1
              have hless := unseen_cons_lt tree seen id hlt hseen
              omega
  | succ steps ih =>
      cases hseen : seen.contains id with
      | true => rw [search_of_seen hseen, discover_of_seen _ hseen]; rfl
      | false =>
          rw [search_of_new hseen, discover_of_new _ hseen, bind_assoc]
          cases hparents : tree.conceptParents id with
          | error e => rfl
          | ok parents =>
              have hlt := (conceptParents_eq_ok tree id parents hparents).1
              have hless := unseen_cons_lt tree seen id hlt hseen
              exact search_append ih (by omega) parents stack

/-- The ancestors are what the recursive discovery has seen in the end. -/
theorem discover_of_ancestors {id : NodeId} {found : List NodeId}
    (h : tree.ancestors id = .ok found) (hsteps : tree.size ≤ steps) :
    tree.discover steps [] id = .ok found.reverse := by
  have hunseen : tree.unseen [] ≤ steps := by
    refine Nat.le_trans List.countP_le_length ?_
    rwa [List.length_range]
  rw [ancestors, search_eq_discover hunseen] at h
  obtain ⟨seen, hseen, h⟩ := bind_eq_ok_iff.mp h
  rw [search] at h
  cases h
  rw [hseen, List.reverse_reverse]

end Recursion

/-! ### What is found -/

section Found

variable {tree : Tree} {stack seen found : List NodeId}

/-- What has been seen comes first. -/
theorem prefix_of_search (h : tree.search stack seen = .ok found) :
    seen.reverse <+: found := by
  fun_induction search tree stack seen with
  | case1 seen =>
      cases h
      exact List.prefix_rfl
  | case2 seen id stack hold ih => exact ih h
  | case3 seen id stack hnew e herror => cases h
  | case4 seen id stack hnew parents hparents ih =>
      refine List.IsPrefix.trans ?_ (ih h)
      rw [List.reverse_cons]
      exact List.prefix_append _ _

/-- Ancestors are found for nodes only, and the node itself is the first of
them. -/
theorem ancestors_eq_ok {id : NodeId} (h : tree.ancestors id = .ok found) :
    ∃ rest, found = id :: rest ∧ id < tree.size := by
  rw [ancestors, search_of_new rfl] at h
  obtain ⟨parents, hparents, h⟩ := bind_eq_ok_iff.mp h
  obtain ⟨rest, rfl⟩ := prefix_of_search h
  exact ⟨rest, rfl, (conceptParents_eq_ok tree id parents hparents).1⟩

theorem nodup_of_search (h : tree.search stack seen = .ok found)
    (hseen : seen.Nodup) :
    found.Nodup := by
  fun_induction search tree stack seen with
  | case1 seen =>
      cases h
      exact List.nodup_reverse.mpr hseen
  | case2 seen id stack hold ih => exact ih h hseen
  | case3 seen id stack hnew e herror => cases h
  | case4 seen id stack hnew parents hparents ih =>
      exact ih h (List.nodup_cons.mpr ⟨by simpa using hnew, hseen⟩)

variable (traceable : tree.Traceable)

include traceable

/-- All that is found had been seen or is an ancestor of a node of the stack. -/
theorem Traceable.mem_of_search (h : tree.search stack seen = .ok found) :
    ∀ other ∈ found, other ∈ seen ∨
      ∃ start ∈ stack, Relation.ReflTransGen tree.Inherits start other := by
  fun_induction search tree stack seen with
  | case1 seen =>
      cases h
      exact fun other hother => Or.inl (List.mem_reverse.mp hother)
  | case2 seen id stack hold ih =>
      intro other hother
      obtain hseen | ⟨start, hstart, hreach⟩ := ih h other hother
      · exact Or.inl hseen
      · exact Or.inr ⟨start, List.mem_cons_of_mem _ hstart, hreach⟩
  | case3 seen id stack hnew e herror => cases h
  | case4 seen id stack hnew parents hparents ih =>
      intro other hother
      obtain hseen | ⟨start, hstart, hreach⟩ := ih h other hother
      · obtain rfl | hseen := List.mem_cons.mp hseen
        · exact Or.inr ⟨other, List.mem_cons_self, .refl⟩
        · exact Or.inl hseen
      · obtain hparent | hstart := List.mem_append.mp hstart
        · have hinherits :=
            (traceable.mem_conceptParents_iff hparents start).mp hparent
          exact Or.inr ⟨id, List.mem_cons_self, .head hinherits hreach⟩
        · exact Or.inr ⟨start, List.mem_cons_of_mem _ hstart, hreach⟩

/-- The walk keeps that all a seen node extends is seen or on the stack. So in
the end all that a found node extends is found. -/
theorem Traceable.closed_of_search (h : tree.search stack seen = .ok found)
    (hseen : ∀ id ∈ seen, ∀ other, tree.Inherits id other →
      other ∈ seen ∨ other ∈ stack) :
    (∀ id ∈ stack, id ∈ found) ∧
      ∀ id ∈ found, ∀ other, tree.Inherits id other → other ∈ found := by
  fun_induction search tree stack seen with
  | case1 seen =>
      cases h
      simpa using hseen
  | case2 seen id stack hold ih =>
      have hid : id ∈ seen := by simpa using hold
      obtain ⟨hstack, hfound⟩ := ih h fun node hnode other hinherits => by
        obtain hother | hother := hseen node hnode other hinherits
        · exact Or.inl hother
        · obtain rfl | hother := List.mem_cons.mp hother
          · exact Or.inl hid
          · exact Or.inr hother
      have hfirst := (prefix_of_search h).subset (List.mem_reverse.mpr hid)
      exact ⟨List.forall_mem_cons.mpr ⟨hfirst, hstack⟩, hfound⟩
  | case3 seen id stack hnew e herror => cases h
  | case4 seen id stack hnew parents hparents ih =>
      obtain ⟨hstack, hfound⟩ := ih h fun node hnode other hinherits => by
        obtain rfl | hnode := List.mem_cons.mp hnode
        · have hparent :=
            (traceable.mem_conceptParents_iff hparents other).mpr hinherits
          exact Or.inr (List.mem_append_left stack hparent)
        · obtain hother | hother := hseen node hnode other hinherits
          · exact Or.inl (List.mem_cons_of_mem _ hother)
          · obtain rfl | hother := List.mem_cons.mp hother
            · exact Or.inl List.mem_cons_self
            · exact Or.inr (List.mem_append_right parents hother)
      have hfirst :=
        (prefix_of_search h).subset (List.mem_reverse.mpr List.mem_cons_self)
      exact ⟨List.forall_mem_cons.mpr ⟨hfirst, fun node hnode =>
        hstack node (List.mem_append_right parents hnode)⟩, hfound⟩

/-- The ancestors are what can be reached. -/
theorem Traceable.mem_ancestors_iff {id : NodeId}
    (h : tree.ancestors id = .ok found) (other : NodeId) :
    other ∈ found ↔ Relation.ReflTransGen tree.Inherits id other := by
  obtain ⟨hstart, hclosed⟩ := traceable.closed_of_search h (by simp)
  constructor
  · intro hother
    obtain hseen | ⟨start, hstart, hreach⟩ :=
      traceable.mem_of_search h other hother
    · cases hseen
    · rwa [List.mem_singleton.mp hstart] at hreach
  · intro hreach
    induction hreach with
    | refl => exact hstart id List.mem_cons_self
    | tail _ hinherits ih => exact hclosed _ ih _ hinherits

end Found

/-- The ancestors of a node are found for any graph of parents. The node itself
is the first, each is there once, and they are the nodes that can be reached
from concepts to those they extend. Their order is that of the recursive
discovery, which goes to what a concept extends in the order of its parents and
skips what it has seen. -/
theorem ancestors_eq_discover (tree : Tree) (traceable : tree.Traceable)
    {id : NodeId} (hid : id < tree.size) :
    ∃ found, tree.ancestors id = .ok found ∧ found.head? = some id ∧
      found.Nodup ∧
      (∀ other, other ∈ found ↔ Relation.ReflTransGen tree.Inherits id other) ∧
      (∀ steps, tree.size ≤ steps →
        tree.discover steps [] id = .ok found.reverse) ∧
      ∀ concept name parents relations,
        tree.construct concept = .ok (.concept name parents relations) →
        tree.conceptParents concept =
          .ok (parents.filterMap tree.linkedConcept?) := by
  obtain ⟨found, hfound, -⟩ := traceable.yields_ancestors hid
  obtain ⟨rest, rfl, -⟩ := ancestors_eq_ok hfound
  exact ⟨_, hfound, rfl, nodup_of_search hfound List.nodup_nil,
    traceable.mem_ancestors_iff hfound,
    fun steps => discover_of_ancestors hfound,
    fun concept name parents relations => traceable.conceptParents_eq⟩

/-- A model with a tangle of concepts. `Top` extends `Left`, `Right`, `Left`
again, a name that is not linked and a variable; `Left` extends `Base` and
itself, `Right` extends `Base`, and `Base` extends `Top`. -/
def tangledConcepts : Tree :=
  let named (name : String) : Ident := ⟨name, Span.unknown⟩
  ofConstructs [
    .reference "Base" (.resolved 6), .reference "Left" (.resolved 2),
    .concept (named "Left") [0, 1] [],
    .reference "Base" (.resolved 6), .concept (named "Right") [3] [],
    .reference "Top" (.resolved 12), .concept (named "Base") [5] [],
    .reference "Left" (.resolved 2), .reference "Right" (.resolved 4),
    .reference "Left" (.resolved 2), .reference "Ghost" .pending,
    .reference "v" (.resolved 13),
    .concept (named "Top") [7, 8, 9, 10, 11] [],
    .var (named "v") none none]
    [2, 4, 6, 12, 13]

theorem tangledConcepts_complete : tangledConcepts.Complete where
  grown := grown_ofConstructs _ _
  parts := by decide +kernel
  links := by decide +kernel

/-- `Base` is found through `Left`, before `Right`, and nothing is found
twice. -/
theorem ancestors_eq_discover_tangledConcepts :
    tangledConcepts.Traceable ∧ 12 < tangledConcepts.size ∧
      tangledConcepts.ancestors 12 = .ok [12, 2, 6, 4] ∧
      tangledConcepts.discover 14 [] 12 = .ok [4, 6, 2, 12] ∧
      ∀ other, other ∈ [12, 2, 6, 4] ↔
        Relation.ReflTransGen tangledConcepts.Inherits 12 other := by
  have hfound : tangledConcepts.ancestors 12 = .ok [12, 2, 6, 4] := by
    decide +kernel
  obtain ⟨found, hfound', -, -, hreach, hdiscover, -⟩ :=
    ancestors_eq_discover tangledConcepts
    tangledConcepts_complete.traceable
      (show 12 < tangledConcepts.size by decide)
  obtain rfl := Except.ok.inj (hfound.symm.trans hfound')
  exact ⟨tangledConcepts_complete.traceable, by decide, hfound,
    hdiscover 14 (by decide), hreach⟩

end Tree

end ConceptLang
