import ConceptLang.Proofs.LinkedTrees
import ConceptLang.Proofs.Repetition
import ConceptLang.Proofs.Soundness

/-!
# The fields of joins

The linker looks the field of a join up when its turn comes, among the relations
visible at that time on the concept on the left. The typing rules look it up
again in the linked tree. In between, further concepts may have got their
parents, so the two can find different relations.

What a reference names does not depend on links unless it is the field of a
join. So a reference to a parent of a concept is linked in the first round or
not at all. The two agree on every field that the first round leaves open, and
on every field behind which, in tree order, no reference to a parent is linked
(`Tree.link_joinFields`). They need not agree on other fields:
`Tree.link_joinFields_late` is a model where they do not.

A declaration may be listed twice. Then the references in it are met twice, and
a field may be linked again to something else. This does not matter to types,
since the rules never ask about the field of a join (`Tree.apart`).
-/

namespace ConceptLang

namespace Tree

variable {options : Options}

/-! ### References that do not depend on links -/

/-- What the reference names is the same in all trees of this shape. -/
def Steady (options : Options) (tree : Tree) (ref : NodeId) : Prop :=
  ∀ other, tree.SameShape other →
    other.resolveAfresh options ref = tree.resolveAfresh options ref

theorem WellFormed.steady_of_not_joinField {tree : Tree} (wf : tree.WellFormed)
    {ref : NodeId} {text : String} {link : Link}
    (href : tree.construct ref = .ok (.reference text link))
    (hfield : ¬ tree.JoinField ref) : Steady options tree ref := by
  have hlt := lt_size_of_construct href
  obtain ⟨context, hcontext, -⟩ := wf.complete.yields_contextOf hlt
  have hjoin : ∀ join, context ≠ .joinField join := by
    rintro join rfl
    obtain ⟨left, hjoin⟩ := construct_of_joinField hcontext
    exact hfield ⟨join, left, hjoin⟩
  obtain ⟨entries, hentries, -⟩ :=
    wf.complete.yields_lexicalScope wf.root_lt_size hlt context
  intro other hshape
  rw [resolveAfresh_of_lexical href hcontext hjoin hentries]
  obtain ⟨link', href'⟩ := hshape.reference href
  rw [hshape.contextOf] at hcontext
  rw [hshape.lexicalScope] at hentries
  exact resolveAfresh_of_lexical href' hcontext hjoin hentries

/-- What stands for a parent of a concept is a reference, and not the field of a
join. -/
theorem WellFormed.reference_of_parent {tree : Tree} (wf : tree.WellFormed)
    {concept parent : NodeId} {name : Ident} {parents relations : List NodeId}
    (h : tree.construct concept = .ok (.concept name parents relations))
    (hparent : parent ∈ parents) :
    (∃ text link, tree.construct parent = .ok (.reference text link)) ∧
      ¬ tree.JoinField parent := by
  obtain ⟨child, hchild, hadmits⟩ := wf.role h
    (show (Role.name, parent) ∈ Construct.parts _ by
      simp [Construct.parts, hparent])
  refine ⟨?_, wf.not_joinField_of_part h (by simp [Construct.children, hparent])
    (by simp)⟩
  cases child with
  | reference text link => exact ⟨text, link, hchild⟩
  | _ => cases hadmits

theorem WellFormed.steady_parent {tree : Tree} (wf : tree.WellFormed)
    {concept parent : NodeId} {name : Ident} {parents relations : List NodeId}
    (h : tree.construct concept = .ok (.concept name parents relations))
    (hparent : parent ∈ parents) : Steady options tree parent := by
  obtain ⟨⟨text, link, href⟩, hfield⟩ := wf.reference_of_parent h hparent
  exact wf.steady_of_not_joinField href hfield

/-! ### Links set one after the other -/

/-- One of the references `refs` is linked to what its name means at this time,
whether or not it has a link already. -/
inductive Relink (options : Options) (refs : List NodeId) (tree linked : Tree) :
    Prop where
  | intro (ref target : NodeId) (href : ref ∈ refs)
      (hresolve : tree.resolveAfresh options ref = .ok (some target))
      (hset : tree.setLink ref (.resolved target) = .ok linked)

/-- References are linked one after the other. -/
abbrev Relinks (options : Options) (refs : List NodeId) : Tree → Tree → Prop :=
  Relation.ReflTransGen (Relink options refs)

namespace Relinks

variable {tree last : Tree} {refs refs' : List NodeId}
  (h : Relinks options refs tree last)

include h

theorem mono (hsub : refs ⊆ refs') : Relinks options refs' tree last := by
  refine Relation.ReflTransGen.mono (fun first next hstep => ?_) _ _ h
  obtain ⟨ref, target, href, hresolve, hset⟩ := hstep
  exact ⟨ref, target, hsub href, hresolve, hset⟩

theorem sameShape : tree.SameShape last := by
  induction h with
  | refl => exact .refl tree
  | tail _ hstep ih =>
      obtain ⟨ref, target, -, -, hset⟩ := hstep
      exact ih.trans (sameShape_of_setLink hset)

theorem wellFormed (wf : tree.WellFormed) : last.WellFormed := by
  induction h with
  | refl => exact wf
  | tail _ hstep ih =>
      obtain ⟨ref, target, -, hresolve, hset⟩ := hstep
      exact ih.setLink_resolved hresolve hset

theorem get?_of_not_mem {id : NodeId} (hid : id ∉ refs) :
    last.get? id = tree.get? id := by
  induction h with
  | refl => rfl
  | tail _ hstep ih =>
      obtain ⟨ref, target, href, -, hset⟩ := hstep
      have hne : id ≠ ref := by
        rintro rfl
        exact hid href
      rw [get?_setLink_of_ne hset hne, ih]

/-- A reference that does not depend on links keeps its target or gets the one
that it names. -/
theorem target_cases {start : Tree} {ref : NodeId}
    (hsteady : Steady options start ref) (hshape : start.SameShape tree) :
    last.target ref = tree.target ref ∨ ∃ target,
      start.resolveAfresh options ref = .ok (some target) ∧
        last.target ref = .ok (some target) := by
  induction h with
  | refl => exact Or.inl rfl
  | @tail middle last hsteps hstep ih =>
      obtain ⟨other, found, -, hresolve, hset⟩ := hstep
      by_cases heq : ref = other
      · subst heq
        rw [hsteady middle (hshape.trans (sameShape hsteps))] at hresolve
        obtain ⟨text, old, -, hconstruct⟩ := construct_setLink_self hset
        exact Or.inr ⟨found, hresolve, target_eq_of_construct hconstruct⟩
      · have htarget : last.target ref = middle.target ref := by
          rw [target, target, construct_setLink_of_ne hset heq]
        rw [htarget]
        exact ih

end Relinks

section Rounds

variable {tree last : Tree} {refs others : List NodeId}

theorem Round.relinks (h : Round options tree refs last others) :
    Relinks options refs tree last := by
  induction h with
  | nil tree => exact .refl
  | @link tree middle last ref target refs others hresolve hset _ ih =>
      exact .head ⟨ref, target, List.mem_cons_self, hresolve, hset⟩
        (ih.mono (List.subset_cons_self ref refs))
  | @leave tree last ref refs others _ _ ih =>
      exact ih.mono (List.subset_cons_self ref refs)

theorem Rounds.relinks (h : Rounds options tree refs last others) :
    Relinks options refs tree last := by
  induction h with
  | stop _ => exact .refl
  | round hround _ ih => exact hround.relinks.trans (ih.mono hround.keeps.2.2)

/-- A round links every reference that names something whatever the links. -/
theorem Round.target_of_steady {start : Tree} {ref target : NodeId}
    (h : Round options tree refs last others)
    (hsteady : Steady options start ref) (hshape : start.SameShape tree)
    (hmeans : start.resolveAfresh options ref = .ok (some target))
    (href : ref ∈ refs) : last.target ref = .ok (some target) := by
  induction h with
  | nil => cases href
  | @link tree middle last head found refs others hresolve hset hrest ih =>
      by_cases hmem : ref ∈ refs
      · exact ih (hshape.trans (sameShape_of_setLink hset)) hmem
      · obtain rfl := (List.mem_cons.mp href).resolve_right hmem
        rw [hsteady tree hshape, hmeans] at hresolve
        cases hresolve
        obtain ⟨text, old, -, hconstruct⟩ := construct_setLink_self hset
        rw [← construct_eq_of_get? (hrest.get?_of_not_mem hmem)] at hconstruct
        exact target_eq_of_construct hconstruct
  | @leave tree last head refs others hresolve _ ih =>
      rcases List.mem_cons.mp href with rfl | hmem
      · rw [hsteady tree hshape, hmeans] at hresolve
        cases hresolve
      · exact ih hshape hmem

/-- In the end, a reference that does not depend on links has the target that it
names. -/
theorem Rounds.target_linked {linked : Tree} {ref : NodeId}
    {found : Option NodeId} (h : Rounds options tree refs last others)
    (hnote : last.noteUnresolved others = .ok linked)
    (hnoted : ∀ ref ∈ others, linked.Noted ref)
    (hsteady : Steady options tree ref) (href : ref ∈ refs)
    (hmeans : tree.resolveAfresh options ref = .ok found) :
    linked.target ref = .ok found := by
  by_cases hmem : ref ∈ others
  · obtain ⟨text, hconstruct⟩ := hnoted ref hmem
    have hnone := h.resolveAfresh_eq_none ref hmem
    rw [hsteady last h.keeps.1, hmeans] at hnone
    cases hnone
    exact target_eq_of_construct hconstruct
  · obtain ⟨middle, text, target, hshape, -, hresolve, hconstruct⟩ :=
      h.linked href hmem
    rw [hsteady middle hshape, hmeans] at hresolve
    cases hresolve
    rw [← construct_eq_of_get? (get?_noteUnresolved_of_not_mem hnote hmem)]
      at hconstruct
    exact target_eq_of_construct hconstruct

end Rounds

/-! ### When a reference is linked -/

section Stage

variable {tree middle last : Tree} {refs others rest : List NodeId}
  {ref : NodeId}

/-- The last time that a round links a reference comes after it has dealt with
those before it. -/
theorem Round.stage (h : Round options tree refs last others)
    (href : ref ∈ refs) (hlinked : ref ∉ others) :
    ∃ before after target earlier later kept, refs = earlier ++ ref :: later ∧
      Round options tree earlier before kept ∧
      before.resolveAfresh options ref = .ok (some target) ∧
      before.setLink ref (.resolved target) = .ok after ∧
      Relinks options refs after last ∧ last.get? ref = after.get? ref := by
  induction h with
  | nil => cases href
  | @link tree middle last head target refs others hresolve hset h ih =>
      by_cases hmem : ref ∈ refs
      · obtain ⟨before, after, found, earlier, later, kept, rfl, hround, hfound,
          hafter, hrest, hget⟩ := ih hmem hlinked
        exact ⟨before, after, found, head :: earlier, later, kept, rfl,
          .link hresolve hset hround, hfound, hafter,
          hrest.mono (List.subset_cons_self head _), hget⟩
      · obtain rfl := (List.mem_cons.mp href).resolve_right hmem
        exact ⟨tree, middle, target, [], refs, [], rfl, .nil tree, hresolve,
          hset, h.relinks.mono (List.subset_cons_self ref refs),
          h.get?_of_not_mem hmem⟩
  | @leave tree last head refs others hresolve h ih =>
      rw [List.mem_cons, not_or] at hlinked
      obtain ⟨before, after, found, earlier, later, kept, rfl, hround, hfound,
        hafter, hrest, hget⟩ :=
          ih ((List.mem_cons.mp href).resolve_left hlinked.1) hlinked.2
      exact ⟨before, after, found, head :: earlier, later, head :: kept, rfl,
        .leave hresolve hround, hfound, hafter,
        hrest.mono (List.subset_cons_self head _), hget⟩

/-- On the way from `tree` to `last`, the reference is linked to `target` in the
tree `before`, and this link is there in the end. -/
structure LinkedAt (options : Options) (refs : List NodeId) (tree : Tree)
    (ref target : NodeId) (before last : Tree) : Prop where
  start : Relinks options refs tree before
  resolve : before.resolveAfresh options ref = .ok (some target)
  rest : Relinks options refs before last
  kept : ∃ text, last.construct ref = .ok (.reference text (.resolved target))

/-- If the first round leaves no occurrence of a reference, then it was linked
last in that round. -/
theorem Round.linkedAt (h : Round options tree refs middle others)
    (hrest : Rounds options middle others last rest) (href : ref ∈ refs)
    (hlinked : ref ∉ others) :
    ∃ before target earlier later kept, refs = earlier ++ ref :: later ∧
      Round options tree earlier before kept ∧
      LinkedAt options refs tree ref target before last := by
  obtain ⟨before, after, target, earlier, later, kept, hrefs, hround, hresolve,
    hset, hlater, hget⟩ := h.stage href hlinked
  have hsub : earlier ⊆ refs :=
    hrefs ▸ List.subset_append_left earlier (ref :: later)
  obtain ⟨text, old, -, hconstruct⟩ := construct_setLink_self hset
  rw [← construct_eq_of_get? ((hrest.get?_of_not_mem hlinked).trans hget)]
    at hconstruct
  exact ⟨before, target, earlier, later, kept, hrefs, hround,
    hround.relinks.mono hsub, hresolve,
    .head ⟨ref, target, href, hresolve, hset⟩
      (hlater.trans (hrest.relinks.mono h.keeps.2.2)), text, hconstruct⟩

/-- A reference that a round leaves, but the rounds after it do not, is linked
last in one of these. -/
theorem LinkedAt.head {before : Tree} {target : NodeId}
    (h : LinkedAt options others middle ref target before last)
    (hround : Round options tree refs middle others) :
    LinkedAt options refs tree ref target before last :=
  ⟨hround.relinks.trans (h.start.mono hround.keeps.2.2), h.resolve,
    h.rest.mono hround.keeps.2.2, h.kept⟩

theorem Rounds.exists_linkedAt (h : Rounds options tree refs last rest)
    (href : ref ∈ refs) (hlinked : ref ∉ rest) :
    ∃ before target, LinkedAt options refs tree ref target before last := by
  induction h with
  | stop h => exact absurd href hlinked
  | @round tree middle last refs others rest h hrest ih =>
      by_cases hleft : ref ∈ others
      · obtain ⟨before, target, hat⟩ := ih hleft hlinked
        exact ⟨before, target, hat.head h⟩
      · obtain ⟨before, target, -, -, -, -, -, hat⟩ :=
          h.linkedAt hrest href hleft
        exact ⟨before, target, hat⟩

/-- When a reference is linked last, those that name something whatever the
links have their link already, if they do not stand behind it or if the first
round leaves it. -/
theorem Rounds.linkedAt (h : Rounds options tree refs last rest)
    (href : ref ∈ refs) (hlinked : ref ∉ rest) :
    ∃ before target, LinkedAt options refs tree ref target before last ∧
      ∀ other ∈ refs, other ≠ ref →
        (¬ [ref, other].Sublist refs ∨ ∃ middle others,
          linkRound options tree refs = .ok (middle, others) ∧ ref ∈ others) →
        ∀ found, Steady options tree other →
          tree.resolveAfresh options other = .ok (some found) →
          before.target other = .ok (some found) := by
  cases h with
  | stop h => exact absurd href hlinked
  | @round _ middle _ _ others _ h hrest =>
      by_cases hleft : ref ∈ others
      · obtain ⟨before, target, hat⟩ := hrest.exists_linkedAt hleft hlinked
        refine ⟨before, target, hat.head h, ?_⟩
        intro other hother _ _ found hsteady hmeans
        have hmiddle := h.target_of_steady hsteady (.refl tree) hmeans hother
        rcases hat.start.target_cases hsteady h.keeps.1 with
          heq | ⟨found', hmeans', heq⟩
        · rw [heq, hmiddle]
        · obtain rfl : found = found' := by
            simpa using hmeans.symm.trans hmeans'
          exact heq
      · obtain ⟨before, target, earlier, later, kept, rfl, hearlier, hat⟩ :=
          h.linkedAt hrest href hleft
        refine ⟨before, target, hat, ?_⟩
        rintro other hother hne (hbehind | ⟨middle', others', hround, hleft'⟩)
          found hsteady hmeans
        · have hmem : other ∈ earlier := by
            refine (List.mem_append.mp hother).resolve_right fun hmem =>
              hbehind ?_
            have hlater := (List.mem_cons.mp hmem).resolve_left hne
            exact ((List.singleton_sublist.mpr hlater).cons_cons ref).trans
              (List.sublist_append_right _ _)
          exact hearlier.target_of_steady hsteady (.refl tree) hmeans hmem
        · obtain ⟨-, rfl⟩ : middle = middle' ∧ others = others' := by
            simpa using (linkRound_eq_ok_iff.mpr h).symm.trans hround
          exact absurd hleft' hleft

end Stage

/-! ### Types without a look at fields -/

theorem SameShape.joinField {tree tree' : Tree} (h : tree.SameShape tree')
    {id : NodeId} (hid : tree.JoinField id) : tree'.JoinField id := by
  obtain ⟨join, left, hjoin⟩ := hid
  exact ⟨join, left, h.construct_eq hjoin rfl⟩

/-- The rules keep off the fields of joins. -/
def apart {tree : Tree} (wf : tree.WellFormed) : tree.Discipline where
  ask judgement := tree.Asks judgement ∧ ¬ tree.JoinField judgement.node
  answer := tree.Answers
  inside judgement h := (sound wf).inside judgement h.1
  bound scope node ty h := (sound wf).bound scope node ty h.1
  scopes scope scope' node ty h h' :=
    (sound wf).scopes scope scope' node ty h.1 h'.1
  checks scope scope' node expected expected' ty h h' :=
    (sound wf).checks scope scope' node expected expected' ty h.1 h'.1
  rule judgement h := by
    refine (meets_rule wf h.1).mono (fun premise hpremise =>
      ⟨hpremise.asks, ?_⟩) fun _ hanswer => hanswer
    have hnode := h.2
    rw [← Judgement.node_slot] at hnode ⊢
    exact wf.not_joinField_of_calls hpremise.calls hnode
  fault judgement cause h := (sound wf).fault judgement cause h.1

/-- What has a type has it in every tree that keeps all links but those of
fields. -/
theorem WellFormed.synth_of_extendsOn {tree tree' : Tree} (wf : tree.WellFormed)
    (h : ExtendsOn (fun id => ¬ tree.JoinField id) tree tree') {node : NodeId}
    (hlt : node < tree.size) (hnode : ¬ tree.JoinField node) {pass : Pass}
    {ty : Ty}
    (hrun : (tree.synth options Scope.empty node).run {} = .ok (ty, pass))
    (hty : ty.isError = false) :
    (tree'.synth options Scope.empty node).run {} = .ok (ty, pass) := by
  refine (apart wf).settle_repeats (fun judgement hask => ?_) (Nat.le_refl _)
    (List.Subset.refl _) ⟨.synth tree.fits_empty hlt, hnode⟩
    (apart wf).keeps_empty
    hrun hty
  exact h.repeats_rule judgement hask.2 fun ref href =>
    wf.not_joinField_of_part href (by simp [Construct.children]) (by simp)

/-! ### Fields -/

/-- A reference to a parent of a concept that stands behind `field` in the list
`refs` and gets its link between `tree` and `linked`. -/
structure LateParent (tree linked : Tree) (refs : List NodeId)
    (field parent : NodeId) :
    Prop where
  isParent : ∃ concept name parents relations,
    tree.construct concept = .ok (.concept name parents relations) ∧
    parent ∈ parents
  behind : [field, parent].Sublist refs
  opened : tree.holds (·.isOpen) parent = true
  linked : linked.holds (·.isOpen) parent = false

theorem target_of_isOpen {tree : Tree} {ref : NodeId}
    (h : tree.holds (·.isOpen) ref = true) : tree.target ref = .ok none := by
  obtain ⟨text, note, hconstruct⟩ := isOpen_iff.mp h
  rw [target_eq_of_construct hconstruct]
  rfl

section Extension

variable {tree before last linked : Tree} {refs others : List NodeId}
  (hrounds : Rounds options tree (refs.filter (tree.holds (·.isOpen))) last
    others)
  (hnote : last.noteUnresolved others = .ok linked)
  (hstart : Relinks options (refs.filter (tree.holds (·.isOpen))) tree before)

include hrounds hnote hstart

/-- The target of a reference that was not open is never changed. -/
theorem target_of_not_opened {id : NodeId}
    (hid : id ∉ refs.filter (tree.holds (·.isOpen))) :
    before.target id = linked.target id := by
  have hother : id ∉ others := fun hmem => hid (hrounds.keeps.2.2 hmem)
  have hget : before.get? id = linked.get? id := by
    rw [hstart.get?_of_not_mem hid, get?_noteUnresolved_of_not_mem hnote hother,
      hrounds.get?_of_not_mem hid]
  rw [target, target, construct_eq_of_get? hget]

/-- If all references to parents that get a link have it in `before`, then the
end keeps the links of `before`, but for those of fields. -/
theorem WellFormed.extendsOn_linked (wf : tree.WellFormed)
    (hshape : before.SameShape linked)
    (hnoted : ∀ ref ∈ others, linked.Noted ref)
    (hparents : ∀ concept name parents relations,
      tree.construct concept = .ok (.concept name parents relations) →
      ∀ parent ∈ parents, parent ∈ refs.filter (tree.holds (·.isOpen)) →
      ∀ target, tree.resolveAfresh options parent = .ok (some target) →
      before.target parent = .ok (some target)) :
    ExtendsOn (fun id => ¬ before.JoinField id) before linked := by
  refine ⟨hshape, fun ref text target hfield href => ?_, fun id => ?_⟩
  · obtain ⟨link, href'⟩ := hstart.sameShape.symm.reference href
    have hsteady : Steady options tree ref :=
      wf.steady_of_not_joinField href' fun h =>
        hfield (hstart.sameShape.joinField h)
    have hbefore : before.target ref = .ok (some target) :=
      target_eq_of_construct href
    refine hshape.construct_of_target href ?_
    by_cases hmem : ref ∈ refs.filter (tree.holds (·.isOpen))
    · rcases hstart.target_cases hsteady (.refl tree) with
        heq | ⟨found, hmeans, heq⟩
      · rw [heq, target_of_isOpen (List.of_mem_filter hmem)] at hbefore
        cases hbefore
      · obtain rfl : found = target := by simpa using heq.symm.trans hbefore
        exact hrounds.target_linked hnote hnoted hsteady hmem hmeans
    · rw [← target_of_not_opened hrounds hnote hstart hmem]
      exact hbefore
  · refine hshape.conceptParents id
      fun name parents relations hid parent hparent => ?_
    have hconcept := hstart.sameShape.symm.construct_eq hid rfl
    obtain ⟨⟨text, link, href⟩, -⟩ := wf.reference_of_parent hconcept hparent
    have hsteady : Steady options tree parent :=
      wf.steady_parent hconcept hparent
    by_cases hmem : parent ∈ refs.filter (tree.holds (·.isOpen))
    · obtain ⟨found, hmeans, -⟩ :=
        wf.yields_resolveAfresh wf.root_lt_size options
        (lt_size_of_construct href)
      rw [hrounds.target_linked hnote hnoted hsteady hmem hmeans]
      cases found with
      | some target =>
          exact hparents id name parents relations hconcept parent hparent hmem
            target hmeans
      | none =>
          rcases hstart.target_cases hsteady (.refl tree) with
            heq | ⟨_, hmeans', -⟩
          · rw [heq, target_of_isOpen (List.of_mem_filter hmem)]
          · cases hmeans.symm.trans hmeans'
    · exact target_of_not_opened hrounds hnote hstart hmem

end Extension

theorem WellFormed.contextOf_field {tree : Tree} (wf : tree.WellFormed)
    {join left field : NodeId}
    (h : tree.construct join = .ok (.join left field)) :
    tree.contextOf field = .ok (.joinField join) := by
  have hpart : field ∈ (Construct.join left field).children := by
    simp [Construct.children]
  exact contextOf_of_parent (wf.parent_of_part h hpart) h

/-- The field of a join is linked to what its name means on the concept on the
left. -/
theorem WellFormed.field_means {tree before last : Tree} {refs : List NodeId}
    (wf : tree.WellFormed) {join left field target : NodeId} {text : String}
    (hjoin : tree.construct join = .ok (.join left field))
    (hat : LinkedAt options refs tree field target before last)
    (hfield : last.construct field = .ok (.reference text (.resolved target))) :
    ∃ found owner pass,
      (before.synth options Scope.empty left).run {} =
        .ok (.concept found, pass) ∧
      before.findRelation found.decl text = .ok (some (owner, target)) := by
  have hshape := hat.start.sameShape
  have hcontext := wf.contextOf_field hjoin
  rw [hshape.contextOf] at hcontext
  have wf' := hat.start.wellFormed wf
  have hlt : field < before.size := by
    rw [hat.rest.sameShape.size]
    exact lt_size_of_construct hfield
  cases (wf'.resolveAfresh_eq_some_iff wf'.root_lt_size hlt).mp hat.resolve with
  | lexical _ hcontext' hlexical =>
      obtain rfl := Except.ok.inj (hcontext.symm.trans hcontext')
      exact absurd rfl (hlexical join)
  | @field text' _ join' left' owner found pass href hcontext' hjoin' hleft
      hfound =>
      obtain rfl : join = join' := by simpa using hcontext.symm.trans hcontext'
      have hjoin := hshape.construct_eq hjoin rfl
      obtain rfl : left = left' := by simpa using hjoin.symm.trans hjoin'
      obtain ⟨link', hlast⟩ := hat.rest.sameShape.reference href
      obtain ⟨rfl, -⟩ : text' = text ∧ _ := by
        simpa using hlast.symm.trans hfield
      exact ⟨found, owner, pass, hleft, hfound⟩

/-- The field of a join is among the references that the linker deals with. -/
theorem field_mem_references {tree : Tree} {refs : List NodeId}
    {join left field : NodeId} (hrefs : tree.references = .ok refs)
    (hreach : ∃ root ∈ tree.roots, tree.Below join root)
    (hjoin : tree.construct join = .ok (.join left field))
    (hopen : tree.holds (·.isOpen) field = true) :
    field ∈ refs.filter (tree.holds (·.isOpen)) := by
  obtain ⟨root, hroot, hbelow⟩ := hreach
  obtain ⟨text, note, hconstruct⟩ := isOpen_iff.mp hopen
  have hreference : tree.holds (·.isReference) field = true :=
    (holds_iff tree _ field).mpr ⟨_, hconstruct, rfl⟩
  have hpart : tree.IsPart field join :=
    (isPart_iff_construct tree _ _).mpr ⟨_, hjoin, by simp [Construct.children]⟩
  have hmem := (mem_references_iff hrefs field).mpr
    ⟨hreference, root, hroot, hbelow.head hpart⟩
  exact List.mem_filter.mpr ⟨hmem, hopen⟩

/-- Where the linker and the typing rules agree on the field of a join. In a
well-formed tree the linker has a result. Each field that it links gets the
relation that its name means, at the time of the last link, on the concept that
the left side has then as its type. The typing rules find this relation in the
end if no reference to a parent of a concept that stands behind the field is
linked, and also if the first round leaves the field. -/
theorem link_joinFields (tree : Tree) (wf : tree.WellFormed)
    (options : Options) :
    ∃ refs linked report, tree.references = .ok refs ∧
      tree.link options = .ok (linked, report) ∧
      ∀ join left field text target concept pass,
        (∃ root ∈ tree.roots, tree.Below join root) →
        tree.construct join = .ok (.join left field) →
        tree.holds (·.isOpen) field = true →
        linked.construct field = .ok (.reference text (.resolved target)) →
        (linked.synth options Scope.empty left).run {} =
          .ok (.concept concept, pass) →
        (∃ before last found owner pass',
          Relinks options (refs.filter (tree.holds (·.isOpen))) tree before ∧
          Relinks options (refs.filter (tree.holds (·.isOpen))) before last ∧
          last.noteUnresolved report.unresolved = .ok linked ∧
          (before.synth options Scope.empty left).run {} =
            .ok (.concept found, pass') ∧
          before.findRelation found.decl text = .ok (some (owner, target))) ∧
        ((∀ parent, ¬ tree.LateParent linked refs field parent) ∨
            (∃ middle others,
              linkRound options tree (refs.filter (tree.holds (·.isOpen))) =
                .ok (middle, others) ∧ field ∈ others) →
          ∃ owner, linked.findRelation concept.decl text =
            .ok (some (owner, target))) := by
  obtain ⟨linked, report, hlink⟩ := wf.exists_link wf.root_lt_size options
  obtain ⟨refs, last, hrefs, hrounds, hnote⟩ := link_eq_ok hlink
  obtain ⟨hsame, -, hnoted⟩ := wf.link_keeps hlink
  refine ⟨refs, linked, report, hrefs, hlink, ?_⟩
  intro join left field text target concept pass hreach hjoin hopen hfield hleft
  have hmem := field_mem_references hrefs hreach hjoin hopen
  have hlinked : field ∉ report.unresolved := by
    intro hmem'
    obtain ⟨text', hnote'⟩ := hnoted field hmem'
    cases hfield.symm.trans hnote'
  obtain ⟨before, target', hat, hearly⟩ := hrounds.linkedAt hmem hlinked
  obtain ⟨text', hlast⟩ := hat.kept
  have hkept := hlast
  rw [← construct_eq_of_get? (get?_noteUnresolved_of_not_mem hnote hlinked)]
    at hkept
  obtain ⟨rfl, rfl⟩ : text = text' ∧ target = target' := by
    simpa using hfield.symm.trans hkept
  obtain ⟨found, owner, pass', hfound, hrelation⟩ :=
    wf.field_means hjoin hat hlast
  refine ⟨⟨before, last, found, owner, pass', hat.start, hat.rest, hnote,
    hfound, hrelation⟩, fun hcondition => ?_⟩
  have hextends :
      ExtendsOn (fun id => ¬ before.JoinField id) before linked := by
    refine wf.extendsOn_linked hrounds hnote hat.start
      (hat.start.sameShape.symm.trans hsame) hnoted ?_
    intro id name parents relations hid parent hparent hopened target hmeans
    have hsteady : Steady options tree parent := wf.steady_parent hid hparent
    have hne : parent ≠ field := fun heq =>
      (wf.reference_of_parent hid hparent).2 (heq ▸ ⟨join, left, hjoin⟩)
    refine hearly parent hopened hne ?_ target hsteady hmeans
    refine hcondition.imp_left fun hnone hbehind => hnone parent
      ⟨⟨id, name, parents, relations, hid, hparent⟩,
        hbehind.trans List.filter_sublist, List.of_mem_filter hopened, ?_⟩
    have htarget := hrounds.target_linked hnote hnoted hsteady hopened hmeans
    by_contra hstill
    rw [target_of_isOpen (by simpa using hstill)] at htarget
    cases htarget
  have wf' := hat.start.wellFormed wf
  have hjoin' := hat.start.sameShape.construct_eq hjoin rfl
  have hleft' := wf'.synth_of_extendsOn hextends
    (wf'.complete.part_lt_size hjoin' (by simp [Construct.children]))
    (wf'.not_joinField_of_part hjoin' (by simp [Construct.children])
      (by simp +contextual)) hfound rfl
  obtain ⟨rfl, -⟩ : concept = found ∧ _ := by
    simpa using hleft.symm.trans hleft'
  rw [findRelation_congr hextends.shape hextends.parents] at hrelation
  exact ⟨owner, hrelation⟩

/-- Two concepts `B` and `C` with a field `f` each, a concept `S` that extends
`A` and `B`, a join of a variable of `S` and `f`, and `A`, which extends `C`.
The concept `A` is the last or the third of the top-level declarations. -/
def inheritance (late : Bool) : Tree :=
  let named (name : String) : Ident := ⟨name, Span.unknown⟩
  ofConstructs [
    .keywordType "Integer", .relation (named "f") 0,
    .concept (named "B") [] [1],
    .keywordType "String", .relation (named "f") 3, .concept (named "C") [] [4],
    .reference "A" .pending, .reference "B" .pending,
    .concept (named "S") [6, 7] [],
    .reference "S" .pending, .conceptType 9, .var (named "x") (some 10) none,
    .reference "x" .pending, .reference "f" .pending, .join 12 13,
    .var (named "y") none (some 14),
    .reference "C" .pending, .concept (named "A") [16] []]
    (if late then [2, 5, 8, 11, 15, 17] else [2, 5, 17, 8, 11, 15])

theorem inheritance_wellFormed (late : Bool) :
    (inheritance late).WellFormed where
  grown := grown_ofConstructs _ _
  before := by cases late <;> decide +kernel
  links := by cases late <;> decide +kernel
  once := by cases late <;> decide +kernel
  roles := by cases late <;> decide +kernel
  roots := by cases late <;> decide +kernel
  targets := by cases late <;> decide +kernel

/-- The join is a part of a top-level declaration. -/
theorem inheritance_below (late : Bool) :
    ∃ root ∈ (inheritance late).roots, (inheritance late).Below 14 root := by
  refine ⟨15, by cases late <;> decide +kernel, .single ?_⟩
  refine (isPart_iff_construct _ _ _).mpr
    ⟨.var ⟨"y", Span.unknown⟩ none (some 14), ?_, by decide⟩
  cases late <;> decide +kernel

/-- What the linker and the typing rules make of the join: the field with its
link, the concept on the left, and the relation that is found there. -/
def inheritedField (late : Bool) :
    Except TreeError
      (Construct × Option Concept × Option (NodeId × NodeId)) := do
  let (linked, _) ← (inheritance late).link {}
  let field ← linked.construct 13
  let (left, _) ← (linked.synth {} Scope.empty 12).run {}
  let found ← linked.findRelation 8 "f"
  match left with
  | .concept concept => return (field, some concept, found)
  | _ => return (field, none, found)

theorem of_inheritedField {late : Bool} {field : Construct} {concept : Concept}
    {found : Option (NodeId × NodeId)}
    (h : inheritedField late = .ok (field, some concept, found)) :
    ∃ linked report pass, (inheritance late).link {} = .ok (linked, report) ∧
      linked.construct 13 = .ok field ∧
      (linked.synth {} Scope.empty 12).run {} = .ok (.concept concept, pass) ∧
      linked.findRelation 8 "f" = .ok found := by
  rw [inheritedField] at h
  obtain ⟨⟨linked, report⟩, hlink, h⟩ := bind_eq_ok_iff.mp h
  obtain ⟨field, hfield, h⟩ := bind_eq_ok_iff.mp h
  obtain ⟨⟨left, pass⟩, hleft, h⟩ := bind_eq_ok_iff.mp h
  obtain ⟨found, hfound, h⟩ := bind_eq_ok_iff.mp h
  cases left with
  | concept concept =>
      cases h
      exact ⟨linked, report, pass, hlink, hfield, hleft, hfound⟩
  | _ => cases h

theorem link_joinFields_early :
    ∃ linked report, (inheritance false).link {} = .ok (linked, report) ∧
      linked.construct 13 = .ok (.reference "f" (.resolved 4)) ∧
      ∃ owner, linked.findRelation 8 "f" = .ok (some (owner, 4)) := by
  obtain ⟨refs, linked, report, hrefs, hlink, hfields⟩ :=
    link_joinFields (inheritance false) (inheritance_wellFormed false) {}
  have hrefs' : (inheritance false).references = .ok [16, 6, 7, 9, 12, 13] := by
    decide +kernel
  obtain rfl := Except.ok.inj (hrefs'.symm.trans hrefs)
  obtain ⟨linked', report', pass, hlink', hfield, hleft, -⟩ :=
    of_inheritedField (show inheritedField false =
      .ok (.reference "f" (.resolved 4), some ⟨8, "S"⟩, some (5, 4)) by
        decide +kernel)
  obtain ⟨rfl, rfl⟩ : linked = linked' ∧ report = report' := by
    simpa using hlink.symm.trans hlink'
  obtain ⟨-, hagree⟩ :=
    hfields 14 12 13 "f" 4 ⟨8, "S"⟩ pass (inheritance_below false)
    (by decide +kernel) (by decide +kernel) hfield hleft
  refine ⟨linked, report, hlink, hfield, hagree (Or.inl fun parent hlate => ?_)⟩
  have hbehind := hlate.behind
  simp [List.sublist_cons_iff] at hbehind

theorem link_joinFields_late :
    (inheritance true).WellFormed ∧ (inheritance true).roots.Nodup ∧
      (∃ root ∈ (inheritance true).roots, (inheritance true).Below 14 root) ∧
      (inheritance true).construct 14 = .ok (.join 12 13) ∧
      (inheritance true).construct 13 = .ok (.reference "f" .pending) ∧
      ∃ linked report pass, (inheritance true).link {} = .ok (linked, report) ∧
        linked.construct 13 = .ok (.reference "f" (.resolved 1)) ∧
        (linked.synth {} Scope.empty 12).run {} =
          .ok (.concept ⟨8, "S"⟩, pass) ∧
        linked.findRelation 8 "f" = .ok (some (5, 4)) :=
  ⟨inheritance_wellFormed true, by decide,
    inheritance_below true, by decide +kernel,
    by decide +kernel, of_inheritedField (by decide +kernel)⟩

end Tree

end ConceptLang
