import ConceptLang.Proofs.LinkFrame

/-!
# Lexical scoping

Where a reference is not the field of a join, linking follows its static scope
and nothing else. Links do not change the shape of a tree, so whenever such a
reference is looked up, in whichever round and with whatever links around it,
the answer is the same. Hence the first round links it if it can be linked at
all, and the rounds after it are there for the fields of joins only.
-/

namespace ConceptLang

namespace Tree

/-! ### Rounds after the first -/

section Rounds

variable {options : Options} {tree last : Tree} {refs others : List NodeId}
  {ref : NodeId}

/-- What a round leaves it could not link when its turn came. -/
theorem Round.left (h : Round options tree refs last others)
    (href : ref ∈ others) :
    ∃ middle, tree.SameShape middle ∧
      middle.resolveAfresh options ref = .ok none := by
  induction h with
  | nil tree => cases href
  | link _ hset _ ih =>
      obtain ⟨middle, hshape, hnone⟩ := ih href
      exact ⟨middle, (sameShape_of_setLink hset).trans hshape, hnone⟩
  | @leave tree last head refs others hresolve _ ih =>
      rcases List.mem_cons.mp href with rfl | href
      · exact ⟨tree, .refl tree, hresolve⟩
      · exact ih href

/-- A round leaves a reference that names nothing at any time as it is, at each
of its occurrences. -/
theorem Round.passes_over (h : Round options tree refs last others)
    (hnone : ∀ middle, tree.SameShape middle →
      middle.resolveAfresh options ref = .ok none) :
    last.get? ref = tree.get? ref ∧ others.count ref = refs.count ref := by
  induction h with
  | nil tree => exact ⟨rfl, rfl⟩
  | @link tree middle last head target refs others hresolve hset _ ih =>
      have hne : ref ≠ head := by
        rintro rfl
        cases hresolve.symm.trans (hnone tree (.refl tree))
      obtain ⟨hget, hcount⟩ := ih fun later hshape =>
        hnone later ((sameShape_of_setLink hset).trans hshape)
      rw [hget, get?_setLink_of_ne hset hne, hcount,
        List.count_cons_of_ne hne.symm]
      exact ⟨rfl, rfl⟩
  | leave _ _ ih =>
      obtain ⟨hget, hcount⟩ := ih hnone
      exact ⟨hget, by rw [List.count_cons, List.count_cons, hcount]⟩

/-- One round of linking takes the tree and the references that are left to the
next ones. -/
def NextRound (options : Options) (state next : Tree × List NodeId) : Prop :=
  linkRound options state.1 state.2 = .ok next

/-- Rounds keep the shape and leave only what they were given. -/
theorem NextRound.keeps {first state : Tree × List NodeId}
    (h : Relation.ReflTransGen (NextRound options) first state) :
    first.1.SameShape state.1 ∧ state.2 ⊆ first.2 := by
  induction h with
  | refl => exact ⟨.refl _, List.Subset.refl _⟩
  | tail _ hnext ih =>
      obtain ⟨hshape, -, hsub⟩ := (linkRound_eq_ok_iff.mp hnext).keeps
      exact ⟨ih.1.trans hshape, fun id hid => ih.2 (hsub hid)⟩

end Rounds

/-! ### References with a static scope -/

namespace Closed

variable {tree : Tree} (closed : tree.Closed) {options : Options} {ref : NodeId}
  {context : RefContext} (hcontext : tree.contextOf ref = .ok context)
  (hjoin : ∀ join, context ≠ .joinField join)

include closed hcontext hjoin

/-- Linking gives an open reference the first declaration of its static scope
with its text. -/
theorem target_of_link {text : String} {note : Option String}
    {refs scope : List NodeId} {linked : Tree} {report : LinkReport}
    (href : tree.construct ref = .ok (.reference text (.unresolved note)))
    (hrefs : tree.references = .ok refs) (hmem : ref ∈ refs)
    (hscope : tree.StaticScope ref context scope)
    (h : tree.link options = .ok (linked, report)) :
    linked.target ref = .ok (scope.find? (tree.declares text)) := by
  have hroots := lt_size_of_references hrefs
  have hresolve {middle : Tree} (hshape : tree.SameShape middle) :=
    closed.resolveAfresh_eq_find? hroots hjoin href hcontext hscope hshape
      options
  obtain ⟨refs', last, hrefs', hrounds, hnote⟩ := link_eq_ok h
  obtain rfl := Except.ok.inj (hrefs.symm.trans hrefs')
  by_cases hleft : ref ∈ report.unresolved
  · obtain ⟨text', hnoted⟩ := (closed.link_keeps h).2.2 ref hleft
    have hnone := hrounds.resolveAfresh_eq_none ref hleft
    rw [target_eq_of_construct hnoted, ← hresolve hrounds.keeps.1, hnone]
    rfl
  · obtain ⟨middle, text', target, hshape, -, hfound, hlast⟩ :=
      hrounds.linked
        (List.mem_filter.mpr ⟨hmem, isOpen_iff.mpr ⟨text, note, href⟩⟩) hleft
    rw [← construct_eq_of_get? (get?_noteUnresolved_of_not_mem hnote hleft)]
      at hlast
    rw [target_eq_of_construct hlast, ← hresolve hshape, hfound]
    rfl

/-- What the first round leaves of such references names nothing, so no later
round touches it. -/
theorem left_by_first {first : Tree × List NodeId} {refs : List NodeId}
    (hroots : ∀ root ∈ tree.roots, root < tree.size)
    (hreference : tree.holds (·.isReference) ref = true)
    (hfirst : linkRound options tree refs = .ok first) (hmem : ref ∈ first.2) :
    ∀ middle, tree.SameShape middle →
      middle.resolveAfresh options ref = .ok none := by
  obtain ⟨text, link, href⟩ := isReference_iff.mp hreference
  obtain ⟨scope, hscope⟩ :=
    closed.exists_staticScope hroots hjoin (lt_size_of_construct href)
  obtain ⟨middle, hshape, hnone⟩ := (linkRound_eq_ok_iff.mp hfirst).left hmem
  have hresolve {middle : Tree} (hshape : tree.SameShape middle) :=
    closed.resolveAfresh_eq_find? hroots hjoin href hcontext hscope hshape
      options
  intro later hlater
  rw [hresolve hlater, ← hresolve hshape, hnone]

/-- The links that the other references have do not matter. -/
theorem target_of_link_sameShape {tree' linked linked' : Tree}
    {report report' : LinkReport} {options' : Options} {refs : List NodeId}
    (hopen : tree.holds (·.isOpen) ref = true)
    (hrefs : tree.references = .ok refs) (hmem : ref ∈ refs)
    (h : tree.link options = .ok (linked, report))
    (hshape : tree.SameShape tree') (closed' : tree'.Closed)
    (hopen' : tree'.holds (·.isOpen) ref = true)
    (h' : tree'.link options' = .ok (linked', report')) :
    linked'.target ref = linked.target ref := by
  have hroots := lt_size_of_references hrefs
  have hroots' : ∀ root ∈ tree'.roots, root < tree'.size := by
    rwa [← hshape.roots, ← hshape.size]
  have hcontext' := hshape.contextOf ref ▸ hcontext
  obtain ⟨text, note, href⟩ := isOpen_iff.mp hopen
  obtain ⟨text', note', href'⟩ := isOpen_iff.mp hopen'
  obtain ⟨scope, hscope⟩ :=
    closed.exists_staticScope hroots hjoin (lt_size_of_construct href)
  obtain ⟨scope', hscope'⟩ :=
    closed'.exists_staticScope hroots' hjoin (lt_size_of_construct href')
  have htarget := closed.target_of_link hcontext hjoin href hrefs hmem hscope h
  have htarget' :=
    closed'.target_of_link hcontext' hjoin href' (hshape.references ▸ hrefs)
      hmem hscope' h'
  -- Both answers are what a look-up finds in the second tree.
  have hfound :=
    closed.resolveAfresh_eq_find? hroots hjoin href hcontext hscope hshape
      options
  have hfound' :=
    closed'.resolveAfresh_eq_find? hroots' hjoin href' hcontext' hscope'
    (.refl tree') options
  rw [htarget, htarget', ← hfound, hfound']

omit hcontext hjoin in
/-- What a round after the first one changes or takes off the list is the field
of a join. -/
theorem joinField_of_later_round {first state next : Tree × List NodeId}
    {refs : List NodeId} (hroots : ∀ root ∈ tree.roots, root < tree.size)
    (hrefs : ∀ ref ∈ refs, tree.holds (·.isReference) ref = true)
    (hfirst : linkRound options tree refs = .ok first)
    (hstate : Relation.ReflTransGen (NextRound options) first state)
    (hnext : NextRound options state next)
    (hchanged : next.1.get? ref ≠ state.1.get? ref ∨
      next.2.count ref ≠ state.2.count ref) :
    ∃ join, tree.contextOf ref = .ok (.joinField join) := by
  obtain ⟨hshape, hsub⟩ := NextRound.keeps hstate
  obtain ⟨hshape', -, hsub'⟩ := (linkRound_eq_ok_iff.mp hfirst).keeps
  have hround := linkRound_eq_ok_iff.mp hnext
  have hmem : ref ∈ state.2 := by
    by_contra hmem
    rcases hchanged with hget | hcount
    · exact hget (hround.get?_of_not_mem hmem)
    · have hmem' : ref ∉ next.2 := fun h => hmem (hround.keeps.2.2 h)
      exact hcount
        (by rw [List.count_eq_zero_of_not_mem hmem,
          List.count_eq_zero_of_not_mem hmem'])
  have hreference := hrefs ref (hsub' (hsub hmem))
  obtain ⟨context, hcontext, -⟩ :=
    closed.complete.yields_contextOf (lt_size_of_holds hreference)
  by_contra hno
  have hjoin : ∀ join, context ≠ .joinField join := by
    rintro join rfl
    exact hno ⟨join, hcontext⟩
  have hnone :=
    closed.left_by_first hcontext hjoin hroots hreference hfirst (hsub hmem)
  obtain ⟨hget, hcount⟩ :=
    hround.passes_over fun middle h =>
      hnone middle ((hshape'.trans hshape).trans h)
  exact hchanged.elim (· hget) (· hcount)

end Closed

/-- Linking is lexical apart from the fields of joins. An open reference below a
top-level declaration that is not the field of a join is led to the first
declaration of its static scope with its text, and left open if there is none.
The outcome is the same for all options and for all other links that the tree
could have. And whatever a round after the first one changes or takes off the
list is the field of a join. -/
theorem link_lexical {tree : Tree} (closed : tree.Closed) (options : Options) :
    ((∀ root ∈ tree.roots, root < tree.size) →
      ∃ linked report, tree.link options = .ok (linked, report)) ∧
    (∀ ref text note context root,
      tree.construct ref = .ok (.reference text (.unresolved note)) →
      root ∈ tree.roots → tree.Below ref root →
      tree.contextOf ref = .ok context → (∀ join, context ≠ .joinField join) →
      ∀ linked report, tree.link options = .ok (linked, report) →
        (∃ scope, tree.StaticScope ref context scope ∧
          linked.target ref = .ok (scope.find? (tree.declares text))) ∧
        ∀ tree' options' linked' report', tree.SameShape tree' → tree'.Closed →
          tree'.holds (·.isOpen) ref = true →
          tree'.link options' = .ok (linked', report') →
          linked'.target ref = linked.target ref) ∧
    ∀ refs first state next, tree.references = .ok refs →
      linkRound options tree (refs.filter (tree.holds (·.isOpen))) = .ok first →
      Relation.ReflTransGen (NextRound options) first state →
      NextRound options state next →
      ∀ ref, next.1.get? ref ≠ state.1.get? ref ∨
        next.2.count ref ≠ state.2.count ref →
        ∃ join, tree.contextOf ref = .ok (.joinField join) := by
  refine ⟨fun hroots => closed.exists_link hroots options, ?_, ?_⟩
  · intro ref text note context root href hroot hbelow hcontext hjoin linked
      report h
    obtain ⟨refs, -, hrefs, -⟩ := link_eq_ok h
    have hmem : ref ∈ refs := (mem_references_iff hrefs ref).mpr
      ⟨isReference_iff.mpr ⟨text, _, href⟩, root, hroot, hbelow⟩
    obtain ⟨scope, hscope⟩ :=
      closed.exists_staticScope (lt_size_of_references hrefs) hjoin
      (lt_size_of_construct href)
    refine ⟨⟨scope, hscope,
      closed.target_of_link hcontext hjoin href hrefs hmem hscope h⟩, ?_⟩
    intro tree' options' linked' report' hshape closed' hopen' h'
    exact closed.target_of_link_sameShape hcontext hjoin
      (isOpen_iff.mpr ⟨text, note, href⟩) hrefs
      hmem h hshape closed' hopen' h'
  · intro refs first state next hrefs hfirst hstate hnext ref hchanged
    refine closed.joinField_of_later_round (lt_size_of_references hrefs)
      (fun other hother => ?_) hfirst hstate hnext hchanged
    exact ((mem_references_iff hrefs other).mp
      (List.mem_of_mem_filter hother)).1

/-- A model in which a parameter of a function and a variable have the same
name. -/
def shadowModel : Tree :=
  let named (name : String) : Ident := ⟨name, Span.unknown⟩
  ofConstructs [
    .keywordType "Integer", .keywordType "Integer", .param (named "x"),
    .reference "x" .pending,
    .function (named "f") [2] [0, 1] 3, .intLit 1,
    .var (named "x") none (some 5)]
    [6, 4]

theorem shadowModel_closed : shadowModel.Closed where
  grown := grown_ofConstructs _ _
  before := by decide +kernel
  links := by decide +kernel

theorem shadowModel_staticScope :
    shadowModel.StaticScope 3 .value [2, 6, 4] := by
  have haround : shadowModel.Around 3 4 :=
    .parent (by decide +kernel) (by decide +kernel)
  have hparams : shadowModel.Declared 4 [2] := .function rfl
  exact .inside haround hparams

theorem link_lexical_shadowModel :
    shadowModel.StaticScope 3 .value [2, 6, 4] ∧
      ∃ linked report, shadowModel.link {} = .ok (linked, report) ∧
        linked.target 3 = .ok (some 2) := by
  obtain ⟨hresult, hlexical, -⟩ := link_lexical shadowModel_closed {}
  obtain ⟨linked, report, h⟩ := hresult (by decide +kernel)
  have hbelow : shadowModel.Below 3 4 := .single ⟨_, rfl, by decide +kernel⟩
  obtain ⟨⟨scope, hscope, htarget⟩, -⟩ :=
    hlexical 3 "x" none .value 4 (by decide +kernel)
    (by decide +kernel) hbelow (by decide +kernel) (by simp) linked report h
  obtain rfl := hscope.unique shadowModel_staticScope
  exact ⟨hscope, linked, report, h, htarget⟩

end Tree

end ConceptLang
