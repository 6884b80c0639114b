import Mathlib.Logic.Relation
import ConceptLang.Proofs.Relinking
import ConceptLang.Proofs.Totality

/-!
# Runs of the linker

What a round and a sequence of rounds do is written down as two relations,
`Tree.Round` and `Tree.Rounds`, which the linker keeps to. In a tree where no
reference is met twice, an open reference is linked at most once, so a run is a
sequence of single links (`Tree.LinkSteps`): the shape stays the same, links
that are there are kept, and what a run leaves over is what is open in the end.
-/

namespace ConceptLang

namespace Tree

/-! ### Setting one link -/

section SetLink

variable {tree linked : Tree} {ref : NodeId} {link : Link}

theorem setLink_of_construct {text : String} {old : Link}
    (h : tree.construct ref = .ok (.reference text old))
    (htarget : ∀ target, link.target? = some target → target < tree.size) :
    tree.setLink ref link =
      .ok (tree.putConstruct ref (.reference text link)) := by
  cases link with
  | resolved target =>
      obtain ⟨node, hnode⟩ := exists_get? (htarget target rfl)
      rw [setLink]
      simp only [Link.target?]
      rw [(node_eq_ok_iff tree target node).mpr hnode, h]
      rfl
  | unresolved note =>
      rw [setLink, h]
      rfl

theorem lt_size_of_setLink {target : NodeId}
    (h : tree.setLink ref (.resolved target) = .ok linked) :
    target < tree.size := by
  rw [setLink] at h
  simp only [Link.target?] at h
  obtain ⟨_, hdiscard, -⟩ := bind_eq_ok_iff.mp h
  cases hnode : tree.node target with
  | error e =>
      rw [hnode] at hdiscard
      cases hdiscard
  | ok node =>
      exact lt_size_of_get? ((node_eq_ok_iff tree target node).mp hnode)

variable (h : tree.setLink ref link = .ok linked)

include h

theorem sameShape_of_setLink : tree.SameShape linked := by
  obtain ⟨text, old, href, rfl⟩ := setLink_eq_ok h
  exact sameShape_putConstruct href link

theorem construct_setLink_self :
    ∃ text old, tree.construct ref = .ok (.reference text old) ∧
      linked.construct ref = .ok (.reference text link) := by
  obtain ⟨text, old, href, rfl⟩ := setLink_eq_ok h
  refine ⟨text, old, href, ?_⟩
  obtain ⟨node, hnode, -⟩ := (construct_eq_ok_iff tree ref _).mp href
  refine (construct_eq_ok_iff _ ref _).mpr
    ⟨{ node with construct := .reference text link }, ?_, rfl⟩
  rw [get?_putConstruct, hnode, Option.map_some, if_pos rfl]

theorem get?_setLink_of_ne {id : NodeId} (hne : id ≠ ref) :
    linked.get? id = tree.get? id := by
  obtain ⟨text, old, href, rfl⟩ := setLink_eq_ok h
  rw [get?_putConstruct]
  simp [hne]

theorem construct_setLink_of_ne {id : NodeId} (hne : id ≠ ref) :
    linked.construct id = tree.construct id := by
  rw [construct, construct, node, node, get?_setLink_of_ne h hne]

theorem holds_setLink_of_ne (keep : Construct → Bool) {id : NodeId}
    (hne : id ≠ ref) :
    linked.holds keep id = tree.holds keep id := by
  rw [holds, holds, get?_setLink_of_ne h hne]

/-- Setting a link keeps a tree complete, since the target is looked at
first. -/
theorem Complete.setLink (complete : tree.Complete) : linked.Complete := by
  have hshape := sameShape_of_setLink h
  refine ⟨.setLink ref link complete.grown h, fun id hid part hpart => ?_,
    fun id hid target htarget => ?_⟩
  · rw [← hshape.size] at hid ⊢
    rw [← hshape.parts] at hpart
    exact complete.parts id hid part hpart
  · rw [← hshape.size] at hid ⊢
    by_cases heq : id = ref
    · subst heq
      obtain ⟨text, old, -, href⟩ := construct_setLink_self h
      rw [linked?_of_construct href] at htarget
      cases link with
      | resolved other =>
          cases htarget
          exact lt_size_of_setLink h
      | unresolved note => cases htarget
    · rw [linked?, get?_setLink_of_ne h heq] at htarget
      exact complete.links id hid target htarget

/-- Setting a link to a node keeps a tree closed. -/
theorem Closed.setLink (closed : tree.Closed) : linked.Closed := by
  have hshape := sameShape_of_setLink h
  have hcomplete := closed.complete.setLink h
  refine ⟨hcomplete.grown, fun id hid part hpart => ?_, hcomplete.links⟩
  rw [← hshape.size] at hid
  rw [← hshape.parts] at hpart
  exact closed.before id hid part hpart

end SetLink

/-! ### Single links -/

/-- An open reference is linked to what its name means at this time. -/
inductive LinkStep (options : Options) (tree linked : Tree) : Prop where
  | intro (ref target : NodeId) (hopen : tree.holds (·.isOpen) ref = true)
      (hresolve : tree.resolveAfresh options ref = .ok (some target))
      (hset : tree.setLink ref (.resolved target) = .ok linked)

/-- Open references are linked one after the other. -/
abbrev LinkSteps (options : Options) : Tree → Tree → Prop :=
  Relation.ReflTransGen (LinkStep options)

theorem isOpen_of_construct {tree : Tree} {id : NodeId} {text : String}
    {link : Link} (h : tree.construct id = .ok (.reference text link)) :
    tree.holds (·.isOpen) id = !link.isResolved := by
  obtain ⟨node, hnode, hconstruct⟩ := (construct_eq_ok_iff tree id _).mp h
  simp [holds, hnode, hconstruct, Construct.isOpen, Construct.link?]

namespace LinkSteps

variable {options : Options} {tree linked : Tree}
  (h : LinkSteps options tree linked)

include h

theorem sameShape : tree.SameShape linked := by
  induction h with
  | refl => exact .refl tree
  | tail _ hstep ih =>
      obtain ⟨ref, target, -, -, hset⟩ := hstep
      exact ih.trans (sameShape_of_setLink hset)

theorem closed (closed : tree.Closed) : linked.Closed := by
  induction h with
  | refl => exact closed
  | tail _ hstep ih =>
      obtain ⟨ref, target, -, -, hset⟩ := hstep
      exact ih.setLink hset

/-- What is not open stays as it is. -/
theorem construct_eq {id : NodeId} (hid : tree.holds (·.isOpen) id = false) :
    linked.construct id = tree.construct id ∧
    linked.holds (·.isOpen) id = false := by
  induction h with
  | refl => exact ⟨rfl, hid⟩
  | tail _ hstep ih =>
      obtain ⟨ref, target, hopen, -, hset⟩ := hstep
      have hne : id ≠ ref := by
        rintro rfl
        rw [ih.2] at hopen
        cases hopen
      exact ⟨(construct_setLink_of_ne hset hne).trans ih.1,
        (holds_setLink_of_ne hset _ hne).trans ih.2⟩

theorem kept {ref target : NodeId} {text : String}
    (href : tree.construct ref = .ok (.reference text (.resolved target))) :
    linked.construct ref = .ok (.reference text (.resolved target)) := by
  rw [← href]
  exact (h.construct_eq (by rw [isOpen_of_construct href]; rfl)).1

end LinkSteps

/-! ### Rounds -/

/-- What a round does: it goes through the references, links some of them and
leaves the others. -/
inductive Round (options : Options) :
    Tree → List NodeId → Tree → List NodeId → Prop where
  | nil (tree : Tree) : Round options tree [] tree []
  | link {tree middle last : Tree} {ref target : NodeId}
      {refs others : List NodeId}
      (hresolve : tree.resolveAfresh options ref = .ok (some target))
      (hset : tree.setLink ref (.resolved target) = .ok middle)
      (h : Round options middle refs last others) :
      Round options tree (ref :: refs) last others
  | leave {tree last : Tree} {ref : NodeId} {refs others : List NodeId}
      (hresolve : tree.resolveAfresh options ref = .ok none)
      (h : Round options tree refs last others) :
      Round options tree (ref :: refs) last (ref :: others)

/-- What a sequence of rounds does: the last of them finds nothing to link. -/
inductive Rounds (options : Options) :
    Tree → List NodeId → Tree → List NodeId → Prop where
  | stop {tree : Tree} {refs : List NodeId}
      (h : ∀ ref ∈ refs, tree.resolveAfresh options ref = .ok none) :
      Rounds options tree refs tree refs
  | round {tree middle last : Tree} {refs others rest : List NodeId}
      (h : Round options tree refs middle others)
      (hrest : Rounds options middle others last rest) :
      Rounds options tree refs last rest

section Rounds

variable {options : Options} {tree last : Tree} {refs others : List NodeId}

theorem linkRound_eq_ok_iff :
    linkRound options tree refs = .ok (last, others) ↔
      Round options tree refs last others := by
  constructor
  · intro h
    induction refs generalizing tree others with
    | nil =>
        cases h
        exact .nil _
    | cons ref refs ih =>
        rw [linkRound] at h
        obtain ⟨found, hresolve, h⟩ := bind_eq_ok_iff.mp h
        cases found with
        | some target =>
            obtain ⟨middle, hset, h⟩ := bind_eq_ok_iff.mp h
            exact .link hresolve hset (ih h)
        | none =>
            obtain ⟨⟨final, rest⟩, hrest, h⟩ := bind_eq_ok_iff.mp h
            cases h
            exact .leave hresolve (ih hrest)
  · intro h
    induction h with
    | nil tree => rfl
    | link hresolve hset _ ih =>
        rw [linkRound, hresolve]
        simp only [bind, Except.bind, hset]
        exact ih
    | leave hresolve _ ih =>
        rw [linkRound, hresolve]
        simp only [bind, Except.bind, ih]
        rfl

theorem Round.length_le (h : Round options tree refs last others) :
    others.length ≤ refs.length := by
  induction h with
  | nil tree => exact Nat.le_refl _
  | link _ _ _ ih => exact Nat.le_succ_of_le ih
  | leave _ _ ih => exact Nat.succ_le_succ ih

/-- A round keeps the shape, keeps a tree closed and leaves only what it went
through. -/
theorem Round.keeps (h : Round options tree refs last others) :
    tree.SameShape last ∧ (tree.Closed → last.Closed) ∧ others ⊆ refs := by
  induction h with
  | nil tree => exact ⟨.refl tree, id, List.Subset.refl _⟩
  | link hresolve hset h ih =>
      obtain ⟨hshape, hclosed, hsub⟩ := ih
      exact ⟨(sameShape_of_setLink hset).trans hshape,
        fun closed => hclosed (closed.setLink hset),
        fun ref href => List.mem_cons_of_mem _ (hsub href)⟩
  | leave hresolve h ih =>
      obtain ⟨hshape, hclosed, hsub⟩ := ih
      exact ⟨hshape, hclosed, List.cons_subset_cons _ hsub⟩

/-- A round that leaves all references has linked none and changed nothing. -/
theorem Round.eq_of_length_eq (h : Round options tree refs last others)
    (hlength : others.length = refs.length) :
    last = tree ∧ others = refs ∧
    ∀ ref ∈ refs, tree.resolveAfresh options ref = .ok none := by
  induction h with
  | nil tree => exact ⟨rfl, rfl, by simp⟩
  | link hresolve hset h ih =>
      have hle := h.length_le
      rw [List.length_cons] at hlength
      omega
  | leave hresolve _ ih =>
      obtain ⟨rfl, rfl, hnone⟩ := ih (Nat.succ.inj hlength)
      exact ⟨rfl, rfl, List.forall_mem_cons.mpr ⟨hresolve, hnone⟩⟩

theorem Round.of_none
    (h : ∀ ref ∈ refs, tree.resolveAfresh options ref = .ok none) :
    Round options tree refs tree refs := by
  induction refs with
  | nil => exact .nil tree
  | cons ref refs ih =>
      exact .leave (h ref (by simp)) (ih fun other hother =>
        h other (by simp [hother]))

/-- The rounds of the linker go on until one of them finds nothing to link. -/
theorem rounds_of_linkRounds {count count' : Nat}
    (h : linkRounds options tree refs count = .ok (last, others, count')) :
    Rounds options tree refs last others := by
  fun_induction linkRounds options tree refs count with
  | case1 tree refs count hempty =>
      cases h
      obtain rfl := List.isEmpty_iff.mp hempty
      exact .stop (by simp)
  | case2 tree refs count hempty e herror => cases h
  | case3 tree refs count hempty middle rest hround hlt ih =>
      exact .round (linkRound_eq_ok_iff.mp hround) (ih h)
  | case4 tree refs count hempty middle rest hround hge =>
      cases h
      have hround := linkRound_eq_ok_iff.mp hround
      obtain ⟨rfl, rfl, hnone⟩ := hround.eq_of_length_eq
        (Nat.le_antisymm hround.length_le (Nat.le_of_not_lt hge))
      exact .stop hnone

theorem Rounds.keeps (h : Rounds options tree refs last others) :
    tree.SameShape last ∧ (tree.Closed → last.Closed) ∧ others ⊆ refs := by
  induction h with
  | stop h => exact ⟨.refl _, id, List.Subset.refl _⟩
  | round hround hrest ih =>
      obtain ⟨hshape, hclosed, hsub⟩ := hround.keeps
      obtain ⟨hshape', hclosed', hsub'⟩ := ih
      exact ⟨hshape.trans hshape', fun closed => hclosed' (hclosed closed),
        fun ref href => hsub (hsub' href)⟩

/-- After the rounds, no reference that is left can be linked. -/
theorem Rounds.resolveAfresh_eq_none
    (h : Rounds options tree refs last others) :
    ∀ ref ∈ others, last.resolveAfresh options ref = .ok none := by
  induction h with
  | stop h => exact h
  | round _ _ ih => exact ih

end Rounds

/-- A run over open references: what was linked, and what was left. -/
structure Ran (options : Options) (tree : Tree) (refs : List NodeId)
    (last : Tree) (others : List NodeId) : Prop where
  steps : LinkSteps options tree last
  /-- What is left is what is open in the end. -/
  left : others = refs.filter (last.holds (·.isOpen))
  /-- Other nodes are as before. -/
  frame : ∀ id, id ∉ refs → last.get? id = tree.get? id

section Ran

variable {options : Options} {tree middle last : Tree}
  {refs others rest : List NodeId}

theorem Ran.trans (h : Ran options tree refs middle others)
    (h' : Ran options middle others last rest) :
    Ran options tree refs last rest := by
  refine ⟨h.steps.trans h'.steps, ?_, fun id hid => ?_⟩
  · rw [h'.left, h.left, List.filter_filter]
    refine List.filter_congr fun ref _ => ?_
    cases hmiddle : middle.holds (·.isOpen) ref with
    | true => simp
    | false => rw [(h'.steps.construct_eq hmiddle).2, Bool.false_and]
  · have hother : id ∉ others :=
      fun hmem => hid (List.mem_of_mem_filter (h.left ▸ hmem))
    rw [h'.frame id hother, h.frame id hid]

/-- Each reference comes once, so it is still open when its turn comes. -/
theorem Round.ran (h : Round options tree refs last others)
    (hnodup : refs.Nodup)
    (hopen : ∀ ref ∈ refs, tree.holds (·.isOpen) ref = true) :
    Ran options tree refs last others := by
  induction h with
  | nil tree => exact ⟨.refl, rfl, fun _ _ => rfl⟩
  | @link tree middle last ref target refs others hresolve hset h ih =>
      obtain ⟨hnew, hnodup⟩ := List.nodup_cons.mp hnodup
      have hmiddle : ∀ other ∈ refs, middle.holds (·.isOpen) other = true := by
        intro other hother
        have hne : other ≠ ref := fun heq => hnew (heq ▸ hother)
        rw [holds_setLink_of_ne hset _ hne]
        exact hopen other (by simp [hother])
      have hran := ih hnodup hmiddle
      refine ⟨.head ⟨ref, target, hopen ref (by simp), hresolve, hset⟩
        hran.steps, ?_, ?_⟩
      · obtain ⟨text, old, -, hconstruct⟩ := construct_setLink_self hset
        have hlinked : last.holds (·.isOpen) ref = false :=
          isOpen_of_construct (hran.steps.kept hconstruct)
        rw [List.filter_cons_of_neg (by simp [hlinked]), hran.left]
      · intro id hid
        rw [List.mem_cons, not_or] at hid
        rw [hran.frame id hid.2, get?_setLink_of_ne hset hid.1]
  | @leave tree last ref refs others hresolve h ih =>
      obtain ⟨hnew, hnodup⟩ := List.nodup_cons.mp hnodup
      have hran := ih hnodup fun other hother => hopen other (by simp [hother])
      refine ⟨hran.steps, ?_, fun id hid => hran.frame id fun hmem =>
        hid (by simp [hmem])⟩
      have hleft : last.holds (·.isOpen) ref = true := by
        rw [holds, hran.frame ref hnew]
        exact hopen ref (by simp)
      rw [List.filter_cons_of_pos hleft, ← hran.left]

theorem Ran.isOpen (h : Ran options tree refs last others) :
    ∀ ref ∈ others, last.holds (·.isOpen) ref = true := by
  intro ref hmem
  rw [h.left] at hmem
  exact List.of_mem_filter hmem

theorem Ran.nodup (h : Ran options tree refs last others)
    (hnodup : refs.Nodup) :
    others.Nodup := by
  rw [h.left]
  exact hnodup.filter _

theorem Rounds.ran (h : Rounds options tree refs last others)
    (hnodup : refs.Nodup)
    (hopen : ∀ ref ∈ refs, tree.holds (·.isOpen) ref = true) :
    Ran options tree refs last others := by
  induction h with
  | @stop tree refs h =>
      exact ⟨.refl, (List.filter_eq_self.mpr hopen).symm, fun _ _ => rfl⟩
  | round h hrest ih =>
      have hran := h.ran hnodup hopen
      exact hran.trans (ih (hran.nodup hnodup) hran.isOpen)

end Ran

/-! ### Notes -/

/-- The reference has the note that it could not be linked. -/
def Noted (tree : Tree) (ref : NodeId) : Prop :=
  ∃ text, tree.construct ref =
    .ok (.reference text (.unresolved (some (unresolvedNote text))))

section Notes

variable {tree noted : Tree} {refs : List NodeId}

theorem isReference_iff {ref : NodeId} : tree.holds (·.isReference) ref = true ↔
    ∃ text link, tree.construct ref = .ok (.reference text link) := by
  rw [holds_iff]
  constructor
  · rintro ⟨construct, hconstruct, hkind⟩
    cases construct with
    | reference text link => exact ⟨text, link, hconstruct⟩
    | _ => cases hkind
  · rintro ⟨text, link, h⟩
    exact ⟨_, h, rfl⟩

theorem isOpen_iff {ref : NodeId} : tree.holds (·.isOpen) ref = true ↔
    ∃ text note,
      tree.construct ref = .ok (.reference text (.unresolved note)) := by
  constructor
  · intro h
    obtain ⟨construct, hconstruct, hopen⟩ := (holds_iff tree _ _).mp h
    cases construct with
    | reference text link =>
        cases link with
        | resolved target => cases hopen
        | unresolved note => exact ⟨text, note, hconstruct⟩
    | _ => cases hopen
  · rintro ⟨text, note, h⟩
    rw [isOpen_of_construct h]
    rfl

/-- What is done to the first of several references on which notes are left. -/
theorem noteUnresolved_cons {ref : NodeId} {text : String} {old : Link}
    (href : tree.construct ref = .ok (.reference text old))
    (h : tree.noteUnresolved (ref :: refs) = .ok noted) :
    ∃ middle, tree.setLink ref (.unresolved (some (unresolvedNote text))) =
      .ok middle ∧
      middle.construct ref =
        .ok (.reference text (.unresolved (some (unresolvedNote text)))) ∧
      middle.noteUnresolved refs = .ok noted := by
  rw [noteUnresolved] at h
  obtain ⟨construct, hconstruct, h⟩ := bind_eq_ok_iff.mp h
  obtain rfl := Except.ok.inj (href.symm.trans hconstruct)
  obtain ⟨middle, hset, h⟩ := bind_eq_ok_iff.mp h
  obtain ⟨text', old', href', hself⟩ := construct_setLink_self hset
  obtain ⟨rfl, -⟩ : text = text' ∧ old = old' := by
    simpa using href.symm.trans href'
  exact ⟨middle, hset, hself, h⟩

/-- Notes keep the shape and keep a tree closed, and each of the references has
one in the end, open or not. -/
theorem noteUnresolved_keeps (h : tree.noteUnresolved refs = .ok noted)
    (hrefs : ∀ ref ∈ refs, tree.holds (·.isReference) ref = true) :
    tree.SameShape noted ∧ (tree.Closed → noted.Closed) ∧
      ∀ ref, ref ∈ refs ∨ tree.Noted ref → noted.Noted ref := by
  induction refs generalizing tree with
  | nil =>
      cases h
      exact ⟨.refl _, id, fun ref href => href.resolve_left (by simp)⟩
  | cons ref refs ih =>
      obtain ⟨text, old, hconstruct⟩ := isReference_iff.mp (hrefs ref (by simp))
      obtain ⟨middle, hset, hself, hrest⟩ := noteUnresolved_cons hconstruct h
      have hshape := sameShape_of_setLink hset
      obtain ⟨hshape', hclosed, hnoted⟩ := ih hrest fun other hother => by
        rw [← hshape.holds (·.isReference) fun _ _ _ => rfl]
        exact hrefs other (by simp [hother])
      refine ⟨hshape.trans hshape', fun closed => hclosed (closed.setLink hset),
        ?_⟩
      intro other hother
      by_cases heq : other = ref
      · exact hnoted other (Or.inr ⟨text, heq ▸ hself⟩)
      · refine hnoted other ?_
        rcases hother with hmem | ⟨text', hnote⟩
        · exact Or.inl ((List.mem_cons.mp hmem).resolve_left heq)
        · exact Or.inr ⟨text', (construct_setLink_of_ne hset heq).trans hnote⟩

/-- Notes on open references change no link. -/
theorem target_eq_of_noteUnresolved (h : tree.noteUnresolved refs = .ok noted)
    (hopen : ∀ ref ∈ refs, tree.holds (·.isOpen) ref = true) (id : NodeId) :
    tree.target id = noted.target id := by
  induction refs generalizing tree with
  | nil =>
      cases h
      rfl
  | cons ref refs ih =>
      obtain ⟨text, note, hconstruct⟩ := isOpen_iff.mp (hopen ref (by simp))
      obtain ⟨middle, hset, hself, hrest⟩ := noteUnresolved_cons hconstruct h
      have hmiddle : ∀ other ∈ refs, middle.holds (·.isOpen) other = true := by
        intro other hother
        by_cases heq : other = ref
        · exact heq ▸ isOpen_iff.mpr ⟨text, _, hself⟩
        · rw [holds_setLink_of_ne hset _ heq]
          exact hopen other (by simp [hother])
      rw [← ih hrest hmiddle]
      by_cases heq : id = ref
      · subst heq
        rw [target_eq_of_construct hconstruct, target_eq_of_construct hself]
        rfl
      · rw [target, target, construct_setLink_of_ne hset heq]

/-- What it means that notes were left on the open references `refs`. -/
structure Annotated (tree : Tree) (refs : List NodeId) (noted : Tree) :
    Prop where
  shape : tree.SameShape noted
  target : ∀ id, tree.target id = noted.target id
  closed : tree.Closed → noted.Closed
  noted : ∀ ref, ref ∈ refs ∨ tree.Noted ref → noted.Noted ref

/-- Notes are left on open references only, so no link is lost. -/
theorem annotated_of_noteUnresolved (h : tree.noteUnresolved refs = .ok noted)
    (hopen : ∀ ref ∈ refs, tree.holds (·.isOpen) ref = true) :
    tree.Annotated refs noted := by
  obtain ⟨hshape, hclosed, hnoted⟩ := noteUnresolved_keeps h fun ref href => by
    obtain ⟨text, note, hconstruct⟩ := isOpen_iff.mp (hopen ref href)
    exact isReference_iff.mpr ⟨text, _, hconstruct⟩
  exact ⟨hshape, target_eq_of_noteUnresolved h hopen, hclosed, hnoted⟩

theorem Annotated.extends (h : tree.Annotated refs noted) :
    noted.Extends tree :=
  h.shape.symm.extends fun id => (h.target id).symm

/-- The notes do not open or close a reference. -/
theorem Annotated.isOpen_eq (h : tree.Annotated refs noted) :
    noted.holds (·.isOpen) = tree.holds (·.isOpen) := by
  funext id
  rcases h.shape.construct id with heq | ⟨text, link, link', heq, heq'⟩
  · rw [Bool.eq_iff_iff, holds_iff, holds_iff, heq]
  · rw [isOpen_of_construct heq, isOpen_of_construct heq']
    have htarget := h.target id
    rw [target_eq_of_construct heq, target_eq_of_construct heq'] at htarget
    cases link <;> cases link' <;> simp_all [Construct.link?, Link.target?,
      Link.isResolved]

theorem putConstruct_self {ref : NodeId} {construct : Construct}
    (h : tree.construct ref = .ok construct) :
    tree.putConstruct ref construct = tree := by
  obtain ⟨node, hnode, rfl⟩ := (construct_eq_ok_iff tree ref _).mp h
  refine (Tree.mk.injEq _ _ _ _).mpr ⟨Array.ext_getElem? fun id => ?_, rfl⟩
  rw [Array.getElem?_modify]
  split
  · next heq =>
      subst heq
      rw [show tree.nodes[ref]? = some node from hnode]
      rfl
  · rfl

/-- To leave the same notes once more changes nothing. -/
theorem noteUnresolved_self (h : ∀ ref ∈ refs, tree.Noted ref) :
    tree.noteUnresolved refs = .ok tree := by
  induction refs with
  | nil => rfl
  | cons ref refs ih =>
      obtain ⟨text, hconstruct⟩ := h ref (by simp)
      rw [noteUnresolved, hconstruct]
      simp only [bind, Except.bind]
      rw [setLink_of_construct hconstruct (by simp [Link.target?]),
        putConstruct_self hconstruct]
      exact ih fun other hother => h other (by simp [hother])

end Notes

/-! ### Linking has a result -/

namespace Closed

variable {tree : Tree} (closed : tree.Closed)
  (hroots : ∀ root ∈ tree.roots, root < tree.size) (options : Options)
  {refs : List NodeId}
  (hrefs : ∀ ref ∈ refs, tree.holds (·.isReference) ref = true)

include closed hrefs

include hroots in
theorem exists_round : ∃ last others, Round options tree refs last others := by
  induction refs generalizing tree with
  | nil => exact ⟨tree, [], .nil tree⟩
  | cons ref refs ih =>
      have href := hrefs ref (by simp)
      obtain ⟨found, hresolve, htarget⟩ :=
        closed.yields_resolveAfresh hroots options (lt_size_of_holds href)
      cases found with
      | none =>
          obtain ⟨last, others, hround⟩ :=
            ih closed hroots fun other hother => hrefs other (by simp [hother])
          exact ⟨last, ref :: others, .leave hresolve hround⟩
      | some target =>
          obtain ⟨text, link, hconstruct⟩ := isReference_iff.mp href
          have hset := setLink_of_construct hconstruct
            (show ∀ other, (Link.resolved target).target? = some other →
              other < tree.size by
              rintro _ ⟨⟩
              exact htarget target rfl)
          have hshape := sameShape_of_setLink hset
          obtain ⟨last, others, hround⟩ :=
            ih (closed.setLink hset) (by rwa [← hshape.roots, ← hshape.size])
              fun other hother => by
                rw [← hshape.holds (·.isReference) fun _ _ _ => rfl]
                exact hrefs other (by simp [hother])
          exact ⟨last, others, .link hresolve hset hround⟩

include hroots in
theorem exists_linkRounds (count : Nat) :
    ∃ last others count', linkRounds options tree refs count =
      .ok (last, others, count') := by
  fun_induction linkRounds options tree refs count with
  | case1 tree refs count hempty => exact ⟨tree, refs, count, rfl⟩
  | case2 tree refs count hempty e herror =>
      obtain ⟨last, others, hround⟩ := closed.exists_round hroots options hrefs
      rw [linkRound_eq_ok_iff.mpr hround] at herror
      cases herror
  | case3 tree refs count hempty middle rest hround hlt ih =>
      obtain ⟨hshape, hclosed, hsub⟩ := (linkRound_eq_ok_iff.mp hround).keeps
      refine ih (hclosed closed) (by rwa [← hshape.roots, ← hshape.size])
        fun other hother => ?_
      rw [← hshape.holds (·.isReference) fun _ _ _ => rfl]
      exact hrefs other (hsub hother)
  | case4 tree refs count hempty middle rest hround hge =>
      exact ⟨middle, rest, count + 1, rfl⟩

theorem exists_noteUnresolved :
    ∃ noted, tree.noteUnresolved refs = .ok noted := by
  induction refs generalizing tree with
  | nil => exact ⟨tree, rfl⟩
  | cons ref refs ih =>
      obtain ⟨text, link, hconstruct⟩ :=
        isReference_iff.mp (hrefs ref (by simp))
      rw [noteUnresolved, hconstruct]
      have hset := setLink_of_construct hconstruct
        (show ∀ target,
            (Link.unresolved (some (unresolvedNote text))).target? =
              some target → target < tree.size by simp [Link.target?])
      simp only [bind, Except.bind, hset]
      refine ih (closed.setLink hset) fun other hother => ?_
      rw [← (sameShape_of_setLink hset).holds (·.isReference) fun _ _ _ => rfl]
      exact hrefs other (by simp [hother])

end Closed

/-! ### The linker as a whole -/

section Link

variable {tree linked : Tree} {options : Options} {report : LinkReport}

/-- What the linker reports about its rounds over the open references. -/
theorem linkRounds_of_link (h : tree.link options = .ok (linked, report)) :
    ∃ refs last, tree.references = .ok refs ∧
      linkRounds options tree (refs.filter (tree.holds (·.isOpen))) 0 =
        .ok (last, report.unresolved, report.rounds) ∧
      last.noteUnresolved report.unresolved = .ok linked ∧
      report.resolved =
        (refs.filter
          (tree.holds (·.isOpen))).length - report.unresolved.length := by
  rw [link] at h
  obtain ⟨refs, hrefs, h⟩ := bind_eq_ok_iff.mp h
  obtain ⟨opened, hopened, h⟩ := bind_eq_ok_iff.mp h
  obtain ⟨⟨last, others, rounds⟩, hrounds, h⟩ := bind_eq_ok_iff.mp h
  obtain ⟨noted, hnoted, h⟩ := bind_eq_ok_iff.mp h
  cases h
  obtain rfl := Complete.select_eq_ok hopened
  exact ⟨refs, last, hrefs, hrounds, hnoted, rfl⟩

/-- The linker goes over the open references below the top-level declarations,
and leaves notes on those it could not link. -/
theorem link_eq_ok (h : tree.link options = .ok (linked, report)) :
    ∃ refs last, tree.references = .ok refs ∧
      Rounds options tree (refs.filter (tree.holds (·.isOpen))) last
        report.unresolved ∧
      last.noteUnresolved report.unresolved = .ok linked := by
  obtain ⟨refs, last, hrefs, hrounds, hnoted, -⟩ := linkRounds_of_link h
  exact ⟨refs, last, hrefs, rounds_of_linkRounds hrounds, hnoted⟩

/-- If no reference is met twice, then the rounds are a run and no link is lost
at the end. -/
theorem link_spec (once : ∀ refs, tree.references = .ok refs → refs.Nodup)
    (h : tree.link options = .ok (linked, report)) :
    ∃ refs last, tree.references = .ok refs ∧
      Rounds options tree (refs.filter (tree.holds (·.isOpen))) last
        report.unresolved ∧
      Ran options tree (refs.filter (tree.holds (·.isOpen))) last
        report.unresolved ∧
      last.noteUnresolved report.unresolved = .ok linked ∧
      last.Annotated report.unresolved linked := by
  obtain ⟨refs, last, hrefs, hrounds, hnote⟩ := link_eq_ok h
  have hran := hrounds.ran ((once refs hrefs).filter _) fun ref href =>
    List.of_mem_filter href
  exact ⟨refs, last, hrefs, hrounds, hran, hnote,
    annotated_of_noteUnresolved hnote hran.isOpen⟩

/-- Linking keeps the shape, keeps a tree closed, and leaves a note on each
reference that it reports, whether it was met once or several times. -/
theorem Closed.link_keeps (closed : tree.Closed)
    (h : tree.link options = .ok (linked, report)) :
    tree.SameShape linked ∧ linked.Closed ∧
      ∀ ref ∈ report.unresolved, linked.Noted ref := by
  obtain ⟨refs, last, hrefs, hrounds, hnote⟩ := link_eq_ok h
  obtain ⟨refs', hrefs', hreference⟩ :=
    closed.yields_references (lt_size_of_references hrefs)
  obtain rfl := Except.ok.inj (hrefs.symm.trans hrefs')
  obtain ⟨hshape, hclosed, hsub⟩ := hrounds.keeps
  obtain ⟨hshape', hclosed', hnoted⟩ := noteUnresolved_keeps hnote
    fun ref href => by
    rw [← hshape.holds (·.isReference) fun _ _ _ => rfl]
    exact hreference ref (List.mem_of_mem_filter (hsub href))
  exact ⟨hshape.trans hshape', hclosed' (hclosed closed), fun ref href =>
    hnoted ref (Or.inl href)⟩

/-- What is left over of all references is what is open in the end. -/
theorem Ran.eq_filter {last : Tree} {refs others : List NodeId}
    (h : Ran options tree (refs.filter (tree.holds (·.isOpen))) last others) :
    others = refs.filter (last.holds (·.isOpen)) := by
  rw [h.left, List.filter_filter]
  refine List.filter_congr fun ref _ => ?_
  cases hopen : tree.holds (·.isOpen) ref with
  | true => simp
  | false => rw [(h.steps.construct_eq hopen).2, Bool.false_and]

end Link

/-- Linking a closed tree has a result if its top-level declarations exist. -/
theorem Closed.exists_link {tree : Tree} (closed : tree.Closed)
    (hroots : ∀ root ∈ tree.roots, root < tree.size) (options : Options) :
    ∃ linked report, tree.link options = .ok (linked, report) := by
  obtain ⟨refs, hrefs, hreference⟩ := closed.yields_references hroots
  obtain ⟨opened, hopened, hsub⟩ := Complete.yields_select (·.isOpen) refs
    fun ref href =>
    lt_size_of_holds (hreference ref href)
  obtain ⟨last, others, rounds, hrounds⟩ :=
    closed.exists_linkRounds hroots options
      (fun ref href => hreference ref (hsub ref href)) 0
  obtain ⟨hshape, hclosed, hsub'⟩ := (rounds_of_linkRounds hrounds).keeps
  obtain ⟨noted, hnoted⟩ := (hclosed closed).exists_noteUnresolved
    fun ref href => by
    rw [← hshape.holds (·.isReference) fun _ _ _ => rfl]
    exact hreference ref (hsub ref (hsub' href))
  refine ⟨noted, ⟨opened.length - others.length, others, rounds⟩, ?_⟩
  rw [link, hrefs]
  simp only [bind, Except.bind, hopened, hrounds, hnoted]
  rfl

end Tree

end ConceptLang
