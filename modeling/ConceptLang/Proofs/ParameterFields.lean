import ConceptLang.Proofs.JoinFields
import ConceptLang.Proofs.LinkedTrees
import ConceptLang.Proofs.PlainAgreement

/-!
# Fields of parameters

In the body of a function, a parameter that is annotated with a concept stands
for something that has the fields of that concept, its own and those it
inherits. When the linker is done, every join of such a parameter and the name
of such a field has its field linked (`Tree.link_parameterFields`).

The type of a parameter is found through the function around it, from the links
in the signature. The linker may have made these in the same round as the links
in the body or in a later one, so the proof looks at the last tree of its
rounds. If the field were still open there, it would name nothing there. But the
links of the linked tree are all in that tree, so the left side of the join has
the same type, and the concepts extend the same concepts, since what a reference
to a parent names does not change during linking.

Nothing of this holds for the parameters of a predicate, which have no type, and
for a function that is not a top-level declaration, since the linker does not go
there (`Tree.link_parameterFields_fails`).
-/

namespace ConceptLang

namespace Tree

variable {options : Options} {tree last linked : Tree}
  {refs others : List NodeId}

/-! ### Visible relations -/

theorem mem_of_mapM {α β : Type} {f : α → Except TreeError β} {xs : List α}
    {ys : List β} {x : α} (h : xs.mapM f = .ok ys) (hx : x ∈ xs) :
    ∃ y ∈ ys, f x = .ok y := by
  induction xs generalizing ys with
  | nil => cases hx
  | cons first xs ih =>
      rw [List.mapM_cons] at h
      obtain ⟨y, hy, h⟩ := bind_eq_ok_iff.mp h
      obtain ⟨rest, hrest, ⟨⟩⟩ := bind_eq_ok_iff.mp h
      rcases List.mem_cons.mp hx with rfl | hx
      · exact ⟨y, List.mem_cons_self, hy⟩
      · obtain ⟨z, hz, hfz⟩ := ih hrest hx
        exact ⟨z, List.mem_cons_of_mem y hz, hfz⟩

/-- What an ancestor declares is visible. -/
theorem mem_visibleRelations {concept owner relation : NodeId}
    {owners : List NodeId} {relations : List (NodeId × NodeId)}
    (howners : tree.ancestors concept = .ok owners) (howner : owner ∈ owners)
    (hdeclares : tree.Declares owner relation)
    (h : tree.visibleRelations concept = .ok relations) :
    (owner, relation) ∈ relations := by
  obtain ⟨name, parents, declared, hconstruct, hrelation⟩ := hdeclares
  rw [visibleRelations] at h
  obtain ⟨owners', howners', h⟩ := bind_eq_ok_iff.mp h
  obtain rfl := Except.ok.inj (howners.symm.trans howners')
  obtain ⟨groups, hgroups, ⟨⟩⟩ := bind_eq_ok_iff.mp h
  obtain ⟨group, hgroup, heq⟩ := mem_of_mapM hgroups howner
  simp only [declaredRelations, hconstruct, bind, Except.bind] at heq
  cases heq
  exact List.mem_flatten.mpr ⟨_, hgroup, List.mem_map_of_mem hrelation⟩

theorem findNamed_ne_none {name : String} {pairs : List (NodeId × NodeId)}
    {pair : NodeId × NodeId} (hpair : pair ∈ pairs)
    (hname : tree.nameOf pair.2 = .ok (some name)) :
    tree.findNamed name pairs ≠ .ok none := by
  induction pairs with
  | nil => cases hpair
  | cons first pairs ih =>
      intro h
      rw [findNamed] at h
      obtain ⟨declared, hdeclared, h⟩ := bind_eq_ok_iff.mp h
      split at h
      · cases h
      · next hne =>
          rcases List.mem_cons.mp hpair with rfl | hpair
          · exact hne (Except.ok.inj (hdeclared.symm.trans hname))
          · exact ih hpair h

/-- A name that an ancestor declares means a relation. -/
theorem Closed.exists_findRelation (closed : tree.Closed)
    {concept owner relation : NodeId} {owners : List NodeId} {name : String}
    (hconcept : concept < tree.size)
    (howners : tree.ancestors concept = .ok owners) (howner : owner ∈ owners)
    (hdeclares : tree.Declares owner relation)
    (hname : tree.nameOf relation = .ok (some name)) :
    ∃ pair, tree.findRelation concept name = .ok (some pair) := by
  obtain ⟨found, hfound, -⟩ := closed.complete.yields_findRelation hconcept name
  cases found with
  | some pair => exact ⟨pair, hfound⟩
  | none =>
      rw [findRelation] at hfound
      obtain ⟨relations, hrelations, hfound⟩ := bind_eq_ok_iff.mp hfound
      have hmem := mem_visibleRelations howners howner hdeclares hrelations
      exact absurd hfound (findNamed_ne_none hmem hname)

/-! ### The last tree of the rounds -/

/-- A round leaves alone what names nothing, in this tree and in all of its
shape. -/
theorem Round.get?_of_steady {start : Tree} {ref : NodeId}
    (h : Round options start refs last others)
    (hsteady : Steady options tree ref) (hshape : tree.SameShape start)
    (hnone : tree.resolveAfresh options ref = .ok none) :
    last.get? ref = start.get? ref := by
  induction h with
  | nil => rfl
  | @link start middle last other target refs others hresolve hset _ ih =>
      have hne : ref ≠ other := by
        rintro rfl
        rw [hsteady start hshape, hnone] at hresolve
        cases hresolve
      rw [ih (hshape.trans (sameShape_of_setLink hset)),
        get?_setLink_of_ne hset hne]
  | leave _ _ ih => exact ih hshape

theorem Rounds.get?_of_steady {start : Tree} {ref : NodeId}
    (h : Rounds options start refs last others)
    (hsteady : Steady options tree ref) (hshape : tree.SameShape start)
    (hnone : tree.resolveAfresh options ref = .ok none) :
    last.get? ref = start.get? ref := by
  induction h with
  | stop _ => rfl
  | round hround _ ih =>
      rw [ih (hshape.trans hround.keeps.1),
        hround.get?_of_steady hsteady hshape hnone]

/-- The last tree of the rounds has all links of the linked tree. It may have
more, namely if a reference is met twice and then left; but a reference to a
parent that is left was never linked. -/
theorem WellFormed.extends_last (wf : tree.WellFormed)
    (hrounds : Rounds options tree (refs.filter (tree.holds (·.isOpen))) last
      others)
    (hshape : last.SameShape linked) (hnoted : ∀ ref ∈ others, linked.Noted ref)
    (hnote : last.noteUnresolved others = .ok linked) :
    linked.Extends last := by
  refine ⟨hshape.symm, fun ref text target href => ?_, fun id => ?_⟩
  · have hmem : ref ∉ others := by
      intro hmem
      obtain ⟨text', hnote⟩ := hnoted ref hmem
      cases href.symm.trans hnote
    rw [← construct_eq_of_get? (get?_noteUnresolved_of_not_mem hnote hmem)]
    exact href
  · refine hshape.symm.conceptParents id
      fun name parents relations hid parent hparent => ?_
    by_cases hmem : parent ∈ others
    · have hconcept := (hrounds.keeps.1.trans hshape).symm.construct_eq hid rfl
      have hsteady : Steady options tree parent :=
        wf.steady_parent hconcept hparent
      have hnone := hrounds.resolveAfresh_eq_none parent hmem
      rw [hsteady last hrounds.keeps.1] at hnone
      have hget := hrounds.get?_of_steady hsteady (.refl tree) hnone
      have hopen : last.holds (·.isOpen) parent = true := by
        rw [holds, hget, ← holds]
        exact (List.mem_filter.mp (hrounds.keeps.2.2 hmem)).2
      obtain ⟨text, hnote⟩ := hnoted parent hmem
      rw [target_of_isOpen hopen, target_eq_of_construct hnote]
      rfl
    · rw [target, target,
        construct_eq_of_get? (get?_noteUnresolved_of_not_mem hnote hmem)]

/-! ### Parameters on the left of a join -/

/-- The slots of a signature give the parameters their types. -/
theorem mem_zip_of_denotes {params slots : List NodeId} {types : List Ty}
    {param slot : NodeId} (h : List.Forall₂ tree.Denotes slots types)
    (hmem : (param, slot) ∈ params.zip slots) :
    ∃ ty, (param, ty) ∈ params.zip types ∧ tree.Denotes slot ty := by
  induction h generalizing params with
  | nil => simp at hmem
  | @cons first ty slots types hfirst _ ih =>
      cases params with
      | nil => cases hmem
      | cons other params =>
          rw [List.zip_cons_cons, List.mem_cons] at hmem
          rcases hmem with heq | hmem
          · obtain ⟨rfl, rfl⟩ : param = other ∧ slot = first := by
              simpa using heq
            exact ⟨ty, by simp, hfirst⟩
          · obtain ⟨ty', hty', hdenotes⟩ := ih hmem
            exact ⟨ty', by simp [hty'], hdenotes⟩

/-- If the signature of a function has no problem, then it gives a parameter the
concept that the annotation names. -/
theorem WellFormed.bound_of_annotation (wf : tree.WellFormed)
    {function param slot ref concept body : NodeId} {name cname : Ident}
    {params signature parents relations : List NodeId} {text : String} {ty : Ty}
    {pass : Pass}
    (hfunction : tree.construct function =
      .ok (.function name params signature body))
    (hsynth : (tree.synth options Scope.empty function).run {} = .ok (ty, pass))
    (hty : ty.isError = false) (hparam : (param, slot) ∈ params.zip signature)
    (hslot : tree.construct slot = .ok (.conceptType ref))
    (href : tree.construct ref = .ok (.reference text (.resolved concept)))
    (hconcept : tree.construct concept =
      .ok (.concept cname parents relations)) :
    tree.Bound param (.concept ⟨concept, cname.name⟩) := by
  obtain ⟨ty', pass', hrun, -, hanswer⟩ :=
    (sound wf).settle options.maxDepth options.maxDepth []
    (.synth Scope.empty function)
    (.synth tree.fits_empty (lt_size_of_construct hfunction))
    (sound wf).keeps_empty
  obtain ⟨rfl, -⟩ : ty = ty' ∧ pass = pass' := by
    simpa using hsynth.symm.trans hrun
  have hsound := hanswer.resolve_left (Bool.eq_false_iff.mp hty)
  obtain ⟨formals, result, -, hsignature⟩ :=
    Signature.of_hasType wf tree.fits_empty hfunction
    (hsound.hasType _ tree.fits_empty)
  have hall := hsignature
  obtain ⟨hfunction', -, hslots, -⟩ := hall
  obtain ⟨-, rfl, rfl, -⟩ : _ ∧ _ ∧ _ ∧ _ := by
    simpa using hfunction.symm.trans hfunction'
  obtain ⟨found, hfound, hdenotes⟩ := mem_zip_of_denotes hslots hparam
  have htarget : tree.target ref = .ok (some concept) :=
    target_eq_of_construct href
  obtain rfl := hdenotes.unique (.concept hslot htarget hconcept)
  exact ⟨function, _, result, hsignature, hfound⟩

/-- A name on the left of a join that is linked to a parameter has the type of
the parameter. -/
theorem WellFormed.synth_left_of_bound (wf : tree.WellFormed)
    (hdepth : 2 * tree.size ≤ options.maxDepth) {join left field param : NodeId}
    {text : String} {concept : Concept}
    (hjoin : tree.construct join = .ok (.join left field))
    (hleft : tree.construct left = .ok (.reference text (.resolved param)))
    (hbound : tree.Bound param (.concept concept)) :
    ∃ pass, (tree.synth options Scope.empty left).run {} =
      .ok (.concept concept, pass) := by
  obtain ⟨ty, pass, hrun, -, -, hagrees⟩ :=
    (patience wf).settle wf hdepth options.maxDepth [] []
    (.synth Scope.empty left)
    (.synth tree.fits_empty (lt_size_of_construct hleft))
    (patience_start wf _) (.left ⟨join, field, hjoin⟩) (Nat.le_refl _)
    (patience wf).keeps_empty
  have hplain : (tree.settlePlainly 4 (.synth Scope.empty left)).run =
      some (.ok (.concept concept)) := by
    rw [settlePlainly_succ rfl, rule, synthRule, hleft]
    exact Rule.run_plain_synth (hbound.settlePlainly wf tree.fits_empty 0)
  obtain ⟨_, ⟨⟩, hlike⟩ := hagrees 4 _ hplain
  cases hlike
  exact ⟨pass, hrun⟩

/-! ### The linker as a whole -/

/-- In the linked tree, `slot` annotates `param` with the concept `concept`, and
somewhere in `body` there is a join of `param` and `field`, which is the name of
a relation that an ancestor of the concept declares. -/
structure ConceptField (linked : Tree)
    (param slot concept body field : NodeId) : Prop where
  annotated : ∃ ref text, linked.construct slot = .ok (.conceptType ref) ∧
    linked.construct ref = .ok (.reference text (.resolved concept))
  isConcept : ∃ name parents relations,
    linked.construct concept = .ok (.concept name parents relations)
  joined : ∃ join left text, linked.Below join body ∧
    linked.construct join = .ok (.join left field) ∧
    linked.construct left = .ok (.reference text (.resolved param))
  declared : ∃ text link owners owner relation,
    linked.construct field = .ok (.reference text link) ∧
    linked.ancestors concept = .ok owners ∧ owner ∈ owners ∧
    linked.Declares owner relation ∧
    linked.nameOf relation = .ok (some text)

theorem SameShape.below {tree' : Tree} (h : tree.SameShape tree')
    {id above : NodeId} (hbelow : tree.Below id above) :
    tree'.Below id above := by
  refine Relation.ReflTransGen.mono (fun part whole hpart => ?_) _ _ hbelow
  obtain ⟨construct, hconstruct, hmem⟩ :=
    (isPart_iff_construct tree _ _).mp hpart
  refine (isPart_iff_construct tree' _ _).mpr ⟨construct,
    h.construct_eq hconstruct ?_, hmem⟩
  cases construct with
  | reference => cases hmem
  | _ => rfl

/-- What the linker leaves open names nothing in the last tree of its rounds. -/
theorem exists_last_of_isOpen (wf : tree.WellFormed) {report : LinkReport}
    {ref : NodeId} (hlink : tree.link options = .ok (linked, report))
    (hreach : ∃ root ∈ tree.roots, tree.Below ref root)
    (hopen : linked.holds (·.isOpen) ref = true) :
    ∃ last, last.Closed ∧ linked.Extends last ∧
      last.resolveAfresh options ref = .ok none := by
  obtain ⟨refs, last, hrefs, hrounds, hnote⟩ := link_eq_ok hlink
  obtain ⟨hshape, hclosed, -⟩ := hrounds.keeps
  obtain ⟨hsame, -, hnoted⟩ := wf.link_keeps hlink
  have hextends :=
    wf.extends_last hrounds (hshape.symm.trans hsame) hnoted hnote
  refine ⟨last, hclosed wf.toClosed, hextends,
    hrounds.resolveAfresh_eq_none ref ?_⟩
  by_contra hmem
  have hget := get?_noteUnresolved_of_not_mem hnote hmem
  by_cases hstart : tree.holds (·.isOpen) ref = true
  · -- It was open and is not left, so it was linked.
    obtain ⟨text, note, hconstruct⟩ := isOpen_iff.mp hstart
    have hmem' := (mem_references_iff hrefs ref).mpr
      ⟨isReference_iff.mpr ⟨text, _, hconstruct⟩, hreach⟩
    obtain ⟨middle, text', target, -, -, -, hlinked⟩ :=
      hrounds.linked (List.mem_filter.mpr ⟨hmem', hstart⟩) hmem
    rw [holds, hget, ← holds, isOpen_of_construct hlinked] at hopen
    cases hopen
  · have hframe := hrounds.get?_of_not_mem fun hmem' =>
      hstart (List.mem_filter.mp hmem').2
    rw [holds, hget, hframe, ← holds] at hopen
    exact hstart hopen

/-- After linking, the fields of parameters with a concept as their type are
linked: in each function among the top-level declarations whose signature has no
problem, for each parameter whose annotation is linked to a concept, and for
each join of that parameter and a name that an ancestor of the concept
declares. -/
theorem link_parameterFields (tree : Tree) (wf : tree.WellFormed)
    (options : Options) (hdepth : 2 * tree.size ≤ options.maxDepth) :
    ∃ linked report, tree.link options = .ok (linked, report) ∧
      ∀ function ∈ tree.roots, ∀ name params signature body ty pass,
        linked.construct function = .ok (.function name params signature body) →
        (linked.synth options Scope.empty function).run {} = .ok (ty, pass) →
        ty.isError = false →
        ∀ param slot concept field, (param, slot) ∈ params.zip signature →
          linked.ConceptField param slot concept body field →
          ∃ text target,
            linked.construct field =
              .ok (.reference text (.resolved target)) := by
  obtain ⟨linked, report, hlink⟩ := wf.exists_link wf.root_lt_size options
  refine ⟨linked, report, hlink, ?_⟩
  intro function hroot name params signature body ty pass hfunction hsynth hty
    param slot concept field hparam hfield
  obtain ⟨⟨ref, text, hslot, href⟩, ⟨cname, parents, relations, hconcept⟩,
    ⟨join, left, leftText, hbelow, hjoin, hleft⟩,
    fieldText, link, owners, owner, relation, hname, howners, howner, hdeclares,
    hrelation⟩ := hfield
  cases link with
  | resolved target => exact ⟨fieldText, target, hname⟩
  | unresolved note =>
      exfalso
      have wf' := wf.link hlink
      have hshape := (wf.link_keeps hlink).1
      have hbound :=
        wf'.bound_of_annotation hfunction hsynth hty hparam hslot href hconcept
      obtain ⟨pass', hrun⟩ :=
        wf'.synth_left_of_bound (hshape.size ▸ hdepth) hjoin hleft hbound
      obtain ⟨pair, hfound⟩ :=
        wf'.exists_findRelation (lt_size_of_construct hconcept) howners
        howner hdeclares hrelation
      have hreach : linked.Below field function := by
        refine .head ?_ (hbelow.tail ?_)
        · exact (isPart_iff_construct _ _ _).mpr
            ⟨_, hjoin, by simp [Construct.children]⟩
        · exact (isPart_iff_construct _ _ _).mpr
            ⟨_, hfunction, by simp [Construct.children]⟩
      obtain ⟨last, hclosed, hextends, hnone⟩ := exists_last_of_isOpen wf hlink
        ⟨function, hroot, hshape.symm.below hreach⟩
        (isOpen_iff.mpr ⟨fieldText, note, hname⟩)
      -- In that tree the name means the relation that it means in the linked
      -- tree.
      obtain ⟨link', hname'⟩ := hextends.shape.reference hname
      have hcontext := wf'.contextOf_field hjoin
      rw [hextends.shape.contextOf] at hcontext
      rw [findRelation_congr hextends.shape hextends.parents] at hfound
      rw [hclosed.resolveAfresh_of_join hname' hcontext
        (hextends.shape.construct_eq hjoin rfl)
        (hextends.synth left options hrun rfl) hfound] at hnone
      cases hnone

/-- What has the body of a small model: a function among the top-level
declarations, one that is not among them, or a predicate. -/
inductive Host where
  | function
  | unlisted
  | predicate

/-- A concept `Box` with a field `size`, a concept `Crate` that extends it, and
a body that joins a parameter `x`, which is annotated with `Crate`, and `size`.
Where the linker does not go, all other names have their links already. -/
def crateModel (host : Host) : Tree :=
  let named (name : String) : Ident := ⟨name, Span.unknown⟩
  let body (crate x : Link) : List Construct := [
    .keywordType "Integer", .relation (named "size") 0,
    .concept (named "Box") [] [1],
    .reference "Box" .pending, .concept (named "Crate") [3] [],
    .reference "Crate" crate, .conceptType 5, .keywordType "Integer",
    .param (named "x"),
    .reference "x" x, .reference "size" .pending, .join 9 10]
  match host with
  | .function => ofConstructs
      (body .pending .pending ++ [.function (named "f") [8] [6, 7] 11]) [2, 4,
        12]
  | .unlisted => ofConstructs
      (body (.resolved 4) (.resolved 8) ++
        [.function (named "f") [8] [6, 7] 11]) [2, 4]
  | .predicate => ofConstructs
      (body .pending .pending ++
        [.typedParam 8 6, .predicate (named "p") [12] (some 11)])
      [2, 4, 13]

theorem crateModel_wellFormed (host : Host) : (crateModel host).WellFormed where
  grown := by cases host <;> exact grown_ofConstructs _ _
  before := by cases host <;> decide +kernel
  links := by cases host <;> decide +kernel
  once := by cases host <;> decide +kernel
  roles := by cases host <;> decide +kernel
  roots := by cases host <;> decide +kernel
  targets := by cases host <;> decide +kernel

theorem crateModel_size (host : Host) :
    2 * (crateModel host).size ≤ ({} : Options).maxDepth := by
  cases host <;> decide +kernel

theorem of_link {α : Type} {report : LinkReport}
    (h : tree.link options = .ok (linked, report))
    {f : Tree → Except TreeError α} {a : α}
    (hf : (tree.link options).bind (fun out => f out.1) = .ok a) :
    f linked = .ok a := by
  rw [h] at hf
  exact hf

theorem crateModel_conceptField (host : Host) {report : LinkReport}
    (h : (crateModel host).link {} = .ok (linked, report)) :
    linked.ConceptField 8 6 4 11 10 where
  annotated := by
    refine ⟨5, "Crate", of_link h (f := (·.construct 6)) ?_,
      of_link h (f := (·.construct 5)) ?_⟩
    all_goals cases host <;> decide +kernel
  isConcept := by
    refine ⟨⟨"Crate", Span.unknown⟩, [3], [],
      of_link h (f := (·.construct 4)) ?_⟩
    cases host <;> decide +kernel
  joined := by
    refine ⟨11, 9, "x", .refl, of_link h (f := (·.construct 11)) ?_,
      of_link h (f := (·.construct 9)) ?_⟩
    all_goals cases host <;> decide +kernel
  declared := by
    have hpending :
        (crateModel host).construct 10 = .ok (.reference "size" .pending) := by
      cases host <;> decide +kernel
    obtain ⟨link, hfield⟩ :=
      (((crateModel_wellFormed host).link_keeps h).1).reference hpending
    refine ⟨"size", link, [4, 2], 2, 1, hfield,
      of_link h (f := (·.ancestors 4)) ?_, by simp,
      ⟨⟨"Box", Span.unknown⟩, [], [1], of_link h (f := (·.construct 2)) ?_,
        by simp⟩,
      of_link h (f := (·.nameOf 1)) ?_⟩
    all_goals cases host <;> decide +kernel

theorem link_parameterFields_function :
    ∃ linked report, (crateModel .function).link {} = .ok (linked, report) ∧
      ∃ text target,
        linked.construct 10 = .ok (.reference text (.resolved target)) := by
  obtain ⟨linked, report, hlink, hfields⟩ :=
    link_parameterFields (crateModel .function)
    (crateModel_wellFormed .function) {} (crateModel_size .function)
  have hok : ((linked.synth {} Scope.empty 12).run {}).map (·.1.isError) =
      .ok false :=
    of_link hlink
      (f := fun tree =>
        ((tree.synth {} Scope.empty 12).run {}).map (·.1.isError))
      (by decide +kernel)
  refine ⟨linked, report, hlink, ?_⟩
  cases hsynth : (linked.synth {} Scope.empty 12).run {} with
  | error e =>
      rw [hsynth] at hok
      cases hok
  | ok out =>
      rw [hsynth] at hok
      exact hfields 12 (by decide) ⟨"f", Span.unknown⟩ [8] [6, 7] 11 out.1 out.2
        (of_link hlink (f := (·.construct 12)) (by decide +kernel)) hsynth
        (Except.ok.inj hok)
        8 6 4 10 (by simp) (crateModel_conceptField .function hlink)

/-- The field stays open in a predicate, although the annotation of the
parameter has no problem, and in a function that is not a top-level declaration,
although its signature has none. -/
theorem link_parameterFields_fails :
    ((crateModel .predicate).WellFormed ∧
      2 * (crateModel .predicate).size ≤ ({} : Options).maxDepth ∧
      ∃ linked report name,
        (crateModel .predicate).link {} = .ok (linked, report) ∧
        linked.construct 13 = .ok (.predicate name [12] (some 11)) ∧
        linked.construct 12 = .ok (.typedParam 8 6) ∧
        ((linked.synth {} Scope.empty 12).run {}).map (·.1.isError) =
          .ok false ∧
        linked.ConceptField 8 6 4 11 10 ∧
        linked.construct 10 =
          .ok (.reference "size"
            (.unresolved (some (unresolvedNote "size"))))) ∧
    (crateModel .unlisted).WellFormed ∧
      2 * (crateModel .unlisted).size ≤ ({} : Options).maxDepth ∧
      ∃ linked report name,
        (crateModel .unlisted).link {} = .ok (linked, report) ∧
        linked.construct 12 = .ok (.function name [8] [6, 7] 11) ∧
        ((linked.synth {} Scope.empty 12).run {}).map (·.1.isError) =
          .ok false ∧
        linked.ConceptField 8 6 4 11 10 ∧
        linked.construct 10 = .ok (.reference "size" .pending) := by
  have exists_link (host : Host) := (crateModel_wellFormed host).exists_link
    (crateModel_wellFormed host).root_lt_size {}
  refine ⟨⟨crateModel_wellFormed _, crateModel_size _, ?_⟩,
    crateModel_wellFormed _, crateModel_size _, ?_⟩
  · obtain ⟨linked, report, hlink⟩ := exists_link .predicate
    refine ⟨linked, report, ⟨"p", Span.unknown⟩, hlink,
      of_link hlink (f := (·.construct 13)) ?_,
      of_link hlink (f := (·.construct 12)) ?_,
      of_link hlink
        (f := fun tree =>
          ((tree.synth {} Scope.empty 12).run {}).map (·.1.isError)) ?_,
      crateModel_conceptField _ hlink, of_link hlink (f := (·.construct 10)) ?_⟩
    all_goals decide +kernel
  · obtain ⟨linked, report, hlink⟩ := exists_link .unlisted
    refine ⟨linked, report, ⟨"f", Span.unknown⟩, hlink,
      of_link hlink (f := (·.construct 12)) ?_,
      of_link hlink
        (f := fun tree =>
          ((tree.synth {} Scope.empty 12).run {}).map (·.1.isError)) ?_,
      crateModel_conceptField _ hlink, of_link hlink (f := (·.construct 10)) ?_⟩
    all_goals decide +kernel

end Tree

end ConceptLang
