import ConceptLang.Proofs.LinkRuns
import ConceptLang.Proofs.Reachability
import ConceptLang.Proofs.StaticScope

/-!
# What linking touches, and what it reports

Linking goes over the open references below the top-level declarations. A
reference that can be reached twice is met twice, and may even be linked again,
so nothing here asks that the references are distinct. Each occurrence that a
round links is gone from the list of the next round, which bounds the rounds and
makes the numbers of the report add up.

A reference that has no occurrence left was linked to what its name meant at
some time of the run (`Tree.Rounds.linked`); one that has an occurrence left
gets a note, even if another occurrence of it was linked before. All other nodes
are as before.
-/

namespace ConceptLang

namespace Tree

variable {options : Options} {tree last : Tree} {refs others : List NodeId}

/-! ### Rounds over references that may be met twice -/

/-- A round changes only nodes that it goes over. -/
theorem Round.get?_of_not_mem (h : Round options tree refs last others)
    {id : NodeId} (hid : id ∉ refs) : last.get? id = tree.get? id := by
  induction h with
  | nil tree => rfl
  | link _ hset _ ih =>
      rw [List.mem_cons, not_or] at hid
      rw [ih hid.2, get?_setLink_of_ne hset hid.1]
  | leave _ _ ih =>
      rw [List.mem_cons, not_or] at hid
      exact ih hid.2

theorem Rounds.get?_of_not_mem (h : Rounds options tree refs last others)
    {id : NodeId} (hid : id ∉ refs) : last.get? id = tree.get? id := by
  induction h with
  | stop _ => rfl
  | round h _ ih =>
      rw [ih fun hmem => hid (h.keeps.2.2 hmem), h.get?_of_not_mem hid]

/-- The reference `ref` has in `last` a link to what its name meant at some time
of a run from `tree`. -/
def Linked (options : Options) (tree last : Tree) (ref : NodeId) : Prop :=
  ∃ middle text target, tree.SameShape middle ∧ (tree.Closed → middle.Closed) ∧
    middle.resolveAfresh options ref = .ok (some target) ∧
    last.construct ref = .ok (.reference text (.resolved target))

theorem Linked.head {first : Tree} {ref : NodeId}
    (hshape : first.SameShape tree) (hclosed : first.Closed → tree.Closed)
    (h : Linked options tree last ref) :
    Linked options first last ref := by
  obtain ⟨middle, text, target, hshape', hclosed', hresolve, hconstruct⟩ := h
  exact ⟨middle, text, target, hshape.trans hshape',
    fun closed => hclosed' (hclosed closed),
    hresolve, hconstruct⟩

theorem construct_eq_of_get? {tree tree' : Tree} {id : NodeId}
    (h : tree.get? id = tree'.get? id) :
    tree.construct id = tree'.construct id := by
  rw [construct, construct, node, node, h]

/-- What a round does not leave it has linked. -/
theorem Round.linked (h : Round options tree refs last others) {ref : NodeId}
    (href : ref ∈ refs) (hother : ref ∉ others) :
    Linked options tree last ref := by
  induction h with
  | nil tree => cases href
  | @link tree middle last head target refs others hresolve hset hrest ih =>
      by_cases hmem : ref ∈ refs
      · exact (ih hmem hother).head (sameShape_of_setLink hset) fun closed =>
          closed.setLink hset
      · obtain rfl := (List.mem_cons.mp href).resolve_right hmem
        obtain ⟨text, old, -, hconstruct⟩ := construct_setLink_self hset
        rw [← construct_eq_of_get? (hrest.get?_of_not_mem hmem)] at hconstruct
        exact ⟨tree, text, target, .refl tree, id, hresolve, hconstruct⟩
  | leave _ _ ih =>
      rw [List.mem_cons, not_or] at hother
      exact ih ((List.mem_cons.mp href).resolve_left hother.1) hother.2

theorem Rounds.linked (h : Rounds options tree refs last others) {ref : NodeId}
    (href : ref ∈ refs) (hother : ref ∉ others) :
    Linked options tree last ref := by
  induction h with
  | stop _ => exact absurd href hother
  | @round tree middle last refs others rest h hrest ih =>
      by_cases hmem : ref ∈ others
      · exact (ih hmem hother).head h.keeps.1 h.keeps.2.1
      · obtain ⟨between, text, target, hshape, hclosed, hresolve, hconstruct⟩ :=
          h.linked href hmem
        rw [← construct_eq_of_get? (hrest.get?_of_not_mem hmem)] at hconstruct
        exact ⟨between, text, target, hshape, hclosed, hresolve, hconstruct⟩

/-- Every round but the last links an occurrence, and the last one does if
nothing is left. -/
theorem length_of_linkRounds {count count' : Nat}
    (h : linkRounds options tree refs count = .ok (last, others, count')) :
    others.length ≤ refs.length ∧
    count' + others.length ≤ count + refs.length + 1 ∧
      (others = [] → count' ≤ count + refs.length) := by
  fun_induction linkRounds options tree refs count with
  | case1 tree refs count hempty =>
      cases h
      exact ⟨Nat.le_refl _, by omega, fun _ => by omega⟩
  | case2 tree refs count hempty e herror => cases h
  | case3 tree refs count hempty middle rest hround hlt ih =>
      obtain ⟨hle, hcount, hall⟩ := ih h
      refine ⟨by omega, by omega, fun hnil => ?_⟩
      have hcount' := hall hnil
      omega
  | case4 tree refs count hempty middle rest hround hge =>
      cases h
      have hle := (linkRound_eq_ok_iff.mp hround).length_le
      refine ⟨hle, by omega, fun hnil => ?_⟩
      have hpos : 0 < refs.length :=
        List.length_pos_iff.mpr (by simpa using hempty)
      rw [hnil, List.length_nil] at hge
      omega

/-! ### Notes -/

/-- Notes are left on the given references only. -/
theorem get?_noteUnresolved_of_not_mem {noted : Tree}
    (h : tree.noteUnresolved refs = .ok noted) {id : NodeId} (hid : id ∉ refs) :
    noted.get? id = tree.get? id := by
  induction refs generalizing tree with
  | nil =>
      cases h
      rfl
  | cons ref refs ih =>
      rw [List.mem_cons, not_or] at hid
      rw [noteUnresolved] at h
      obtain ⟨construct, hconstruct, h⟩ := bind_eq_ok_iff.mp h
      cases construct with
      | reference text link =>
          obtain ⟨middle, hset, h⟩ := bind_eq_ok_iff.mp h
          rw [ih h hid.2, get?_setLink_of_ne hset hid.1]
      | _ => exact ih h hid.2

/-! ### Targets -/

theorem findNamed_eq_some {name : String} {pairs : List (NodeId × NodeId)}
    {owner found : NodeId}
    (h : tree.findNamed name pairs = .ok (some (owner, found))) :
    tree.nameOf found = .ok (some name) := by
  induction pairs with
  | nil => cases h
  | cons pair pairs ih =>
      rw [findNamed] at h
      obtain ⟨declared, hdeclared, h⟩ := bind_eq_ok_iff.mp h
      split at h
      · next heq =>
          cases h
          rw [hdeclared, heq]
      · exact ih h

/-- What a reference means declares its text. -/
theorem Means.nameOf {ref target : NodeId} (h : tree.Means options ref target) :
    ∃ text link, tree.construct ref = .ok (.reference text link) ∧
      tree.nameOf target = .ok (some text) := by
  cases h with
  | @lexical text link _ _ href _ hjoin hentries hlookup =>
      obtain ⟨scope, -, hnamed⟩ := staticScope_of_lexicalScope hjoin hentries
      rw [lookup_eq_find? hnamed] at hlookup
      exact ⟨text, link, href, nameOf_of_declares (List.find?_some hlookup)⟩
  | @field text link _ _ _ _ _ href _ _ _ hfound =>
      rw [findRelation] at hfound
      obtain ⟨pairs, -, hfound⟩ := bind_eq_ok_iff.mp hfound
      exact ⟨text, link, href, findNamed_eq_some hfound⟩

/-- A reference that was linked leads to a declaration of its text. -/
theorem Linked.nameOf {ref : NodeId} (h : Linked options tree last ref)
    (closed : tree.Closed) (hroots : ∀ root ∈ tree.roots, root < tree.size)
    {text : String} {old : Link}
    (href : tree.construct ref = .ok (.reference text old))
    (hshape : tree.SameShape last) :
    ∃ target, last.construct ref = .ok (.reference text (.resolved target)) ∧
      tree.nameOf target = .ok (some text) := by
  obtain ⟨middle, text', target, hmiddle, hclosed, hresolve, hconstruct⟩ := h
  obtain ⟨link, href'⟩ := hshape.reference href
  obtain ⟨rfl, -⟩ : text = text' ∧ link = .resolved target := by
    simpa using href'.symm.trans hconstruct
  obtain ⟨link', hlink'⟩ := hmiddle.reference href
  have hmeans :=
    ((hclosed closed).resolveAfresh_eq_some_iff (by rwa [← hmiddle.roots,
      ← hmiddle.size]) (lt_size_of_construct hlink')).mp hresolve
  obtain ⟨text', link'', htext, hname⟩ := hmeans.nameOf
  obtain ⟨rfl, -⟩ : text = text' ∧ link' = link'' := by
    simpa using hlink'.symm.trans htext
  exact ⟨target, hconstruct, (hmiddle.nameOf target).trans hname⟩

/-! ### The report -/

/-- How linking left the open reference `ref`, which the report tells. Only its
link is new: it leads to a declaration of the text, or there is a note that
names the text. -/
inductive Handled (tree linked : Tree) (report : LinkReport) (ref : NodeId) :
    Prop where
  | resolved {text : String} {note : Option String} {parent : Option NodeId}
      {span : Span} {target : NodeId}
      (before : tree.get? ref = some ⟨.reference text (.unresolved note),
        parent, span⟩)
      (after : linked.get? ref = some ⟨.reference text (.resolved target),
        parent, span⟩)
      (hname : tree.nameOf target = .ok (some text))
      (h : ref ∉ report.unresolved)
  | unresolved {text : String} {note : Option String} {parent : Option NodeId}
      {span : Span}
      (before : tree.get? ref = some ⟨.reference text (.unresolved note),
        parent, span⟩)
      (after : linked.get? ref = some ⟨.reference text (.unresolved
        (some ("could not resolve reference to '" ++ text ++ "'"))),
        parent, span⟩)
      (h : ref ∈ report.unresolved)

/-- In trees of the same shape a node differs at most in its construct. -/
theorem SameShape.get?_eq {tree' : Tree} (h : tree.SameShape tree')
    {id : NodeId} {node : Node} {construct : Construct}
    (hnode : tree.get? id = some node)
    (hconstruct : tree'.construct id = .ok construct) :
    tree'.get? id = some { node with construct } := by
  have hget := congrArg (Tree.get? · id) h.unlinked_eq
  simp only [get?_unlinked, hnode, Option.map_some] at hget
  obtain ⟨node', hnode', heq⟩ := Option.map_eq_some_iff.mp hget.symm
  obtain ⟨node'', hnode'', rfl⟩ :=
    (construct_eq_ok_iff tree' id construct).mp hconstruct
  obtain rfl : node' = node'' := by simpa using hnode'.symm.trans hnode''
  rw [Node.mk.injEq] at heq
  rw [hnode', ← heq.2.1, ← heq.2.2]

/-- Each open reference below the top-level declarations is handled as the
report says. -/
theorem Closed.handled_of_link {linked : Tree} {report : LinkReport}
    {ref : NodeId} (closed : tree.Closed)
    (h : tree.link options = .ok (linked, report))
    (hrefs : tree.references = .ok refs) (href : ref ∈ refs)
    (hopen : tree.holds (·.isOpen) ref = true) :
    Handled tree linked report ref := by
  obtain ⟨text, note, hconstruct⟩ := isOpen_iff.mp hopen
  obtain ⟨⟨construct, parent, span⟩, hnode, rfl⟩ :=
    (construct_eq_ok_iff tree ref _).mp hconstruct
  obtain ⟨hshape, -, hnoted⟩ := closed.link_keeps h
  by_cases hmem : ref ∈ report.unresolved
  · obtain ⟨text', hnote⟩ := hnoted ref hmem
    obtain ⟨link, hlink⟩ := hshape.reference hconstruct
    obtain ⟨rfl, -⟩ : text = text' ∧ link = _ := by
      simpa using hlink.symm.trans hnote
    exact .unresolved hnode (hshape.get?_eq hnode hnote) hmem
  · obtain ⟨refs', last, hrefs', hrounds, hnote⟩ := link_eq_ok h
    obtain rfl := Except.ok.inj (hrefs.symm.trans hrefs')
    obtain ⟨target, hlast, hname⟩ :=
      (hrounds.linked (List.mem_filter.mpr ⟨href, hopen⟩) hmem).nameOf closed
        (lt_size_of_references hrefs) hconstruct hrounds.keeps.1
    rw [← construct_eq_of_get? (get?_noteUnresolved_of_not_mem hnote hmem)]
      at hlast
    exact .resolved hnode (hshape.get?_eq hnode hlast) hname hmem

/-- Linking a closed tree has a result exactly if its top-level declarations
exist. The report accounts for every occurrence of an open reference below them,
in at most one round more than there are, and in no more than there are if all
were linked. Each of these references is linked to a declaration of its text, or
else reported and noted with its text; no other node is touched, and neither are
the top-level declarations. -/
theorem link_accounts {tree : Tree} (closed : tree.Closed) (options : Options) :
    ((∃ linked report, tree.link options = .ok (linked, report)) ↔
      ∀ root ∈ tree.roots, root < tree.size) ∧
    ∀ linked report, tree.link options = .ok (linked, report) →
      ∃ refs opened, tree.references = .ok refs ∧
        opened = refs.filter (tree.holds (·.isOpen)) ∧
        report.resolved + report.unresolved.length = opened.length ∧
        report.rounds ≤ opened.length + 1 ∧
        (report.isComplete = true → report.rounds ≤ opened.length) ∧
        report.unresolved ⊆ opened ∧
        (∀ ref, ref ∈ opened ↔ tree.holds (·.isOpen) ref = true ∧
          ∃ root ∈ tree.roots, tree.Below ref root) ∧
        (∀ ref ∈ opened, Handled tree linked report ref) ∧
        linked.roots = tree.roots ∧
        ∀ id, id ∉ opened → linked.get? id = tree.get? id := by
  constructor
  · constructor
    · rintro ⟨linked, report, h⟩
      obtain ⟨refs, last, hrefs, -⟩ := link_eq_ok h
      exact lt_size_of_references hrefs
    · exact fun hroots => closed.exists_link hroots options
  intro linked report h
  obtain ⟨refs, last, hrefs, hrun, hnote, hresolved⟩ := linkRounds_of_link h
  have hrounds := rounds_of_linkRounds hrun
  have hsub := hrounds.keeps.2.2
  obtain ⟨hle, hcount, hall⟩ := length_of_linkRounds hrun
  refine ⟨refs, _, hrefs, rfl, by omega, by omega, fun hcomplete => ?_, hsub,
    fun ref => ?_, fun ref href => ?_, (closed.link_keeps h).1.roots.symm,
    fun id hid => ?_⟩
  · have hcount' := hall (List.isEmpty_iff.mp hcomplete)
    omega
  · rw [List.mem_filter, mem_references_iff hrefs]
    constructor
    · rintro ⟨⟨-, hroot⟩, hopen⟩
      exact ⟨hopen, hroot⟩
    · rintro ⟨hopen, hroot⟩
      obtain ⟨text, note, hconstruct⟩ := isOpen_iff.mp hopen
      exact ⟨⟨isReference_iff.mpr ⟨text, _, hconstruct⟩, hroot⟩, hopen⟩
  · obtain ⟨hmem, hopen⟩ := List.mem_filter.mp href
    exact closed.handled_of_link h hrefs hmem hopen
  · rw [get?_noteUnresolved_of_not_mem hnote fun hmem => hid (hsub hmem),
      hrounds.get?_of_not_mem hid]

/-- A model with two variables that share an annotation, and a third whose value
is declared nowhere. -/
def sharedModel : Tree :=
  let named (name : String) : Ident := ⟨name, Span.unknown⟩
  ofConstructs [
    .concept (named "Box") [] [], .reference "Box" .pending, .conceptType 1,
    .var (named "a") (some 2) none, .var (named "b") (some 2) none,
    .reference "lid" .pending,
    .var (named "c") none (some 5)]
    [0, 3, 4, 6]

theorem sharedModel_closed : sharedModel.Closed where
  grown := grown_ofConstructs _ _
  before := by decide +kernel
  links := by decide +kernel

theorem link_accounts_sharedModel :
    sharedModel.references = .ok [1, 1, 5] ∧
      ∃ linked, sharedModel.link {} = .ok (linked, ⟨2, [5], 2⟩) ∧
        Handled sharedModel linked ⟨2, [5], 2⟩ 1 ∧
        Handled sharedModel linked ⟨2, [5], 2⟩ 5 ∧
        linked.construct 5 = .ok (.reference "lid" (.unresolved
          (some "could not resolve reference to 'lid'"))) ∧
        linked.roots = [0, 3, 4, 6] ∧ linked.get? 2 = sharedModel.get? 2 := by
  have hreport : (sharedModel.link {}).map (·.2) = .ok ⟨2, [5], 2⟩ := by
    decide +kernel
  have hreferences : sharedModel.references = .ok [1, 1, 5] := by decide +kernel
  obtain ⟨hresult, hspec⟩ := link_accounts sharedModel_closed {}
  obtain ⟨linked, report, h⟩ := hresult.mpr (by decide +kernel)
  rw [h] at hreport
  obtain rfl : report = ⟨2, [5], 2⟩ := Except.ok.inj hreport
  obtain ⟨refs, opened, hrefs, rfl, -, -, -, -, -, hhandled, hroots, hframe⟩ :=
    hspec linked _ h
  obtain rfl := Except.ok.inj (hreferences.symm.trans hrefs)
  have hlid := hhandled 5 (by decide +kernel)
  refine ⟨hreferences, linked, h, hhandled 1 (by decide +kernel), hlid, ?_,
    hroots, hframe 2 (by decide +kernel)⟩
  cases hlid with
  | resolved _ _ _ hreported => exact absurd (by simp) hreported
  | @unresolved text note parent span before after _ =>
      have htext :
          sharedModel.construct 5 = .ok (.reference "lid" .pending) := by
        decide +kernel
      obtain ⟨rfl, -⟩ : text = "lid" ∧ _ := by
        simpa [construct_eq_ok_iff, before] using htext
      exact (construct_eq_ok_iff linked 5 _).mpr ⟨_, after, rfl⟩

/-- A declaration that is no node is not refused, so it can be listed in a tree
that is otherwise closed. Then linking has no result. -/
theorem link_addRoot_empty : (empty.addRoot 0).Closed ∧
    (empty.addRoot 0).link {} = .error (.unknownNode 0) ∧
    ¬ ∃ linked report, (empty.addRoot 0).link {} = .ok (linked, report) := by
  have hlink : (empty.addRoot 0).link {} = .error (.unknownNode 0) := by
    decide +kernel
  refine ⟨⟨.addRoot 0 .empty, by decide +kernel, by decide +kernel⟩, hlink, ?_⟩
  rintro ⟨linked, report, h⟩
  cases hlink.symm.trans h

end Tree

end ConceptLang
