import ConceptLang.Proofs.LinkFrame

/-!
# Linking keeps trees well-formed

Whether a tree is well-formed depends on its shape and on where its links lead.
Linking keeps the shape, and every new link leads to a declaration, since what a
reference means has a name (`Tree.Means.nameOf`). So the tree after each single
link of a run is well-formed too, and so is the tree with the notes on what
stayed open.
-/

namespace ConceptLang

/-- Only declarations declare a name. -/
theorem Construct.isDecl_of_name? {construct : Construct} {name : String}
    (h : construct.name? = some name) : construct.isDecl = true := by
  cases construct <;> first | rfl | cases h

/-- A position does not look at the link of a name. -/
theorem Role.admits_reference (role : Role) (text : String)
    (link link' : Link) :
    role.admits (.reference text link) =
      role.admits (.reference text link') := by
  cases role <;> rfl

namespace Tree

variable {options : Options} {tree last linked : Tree}
  {refs others : List NodeId} {ref : NodeId}

theorem isDecl_of_nameOf {target : NodeId} {name : String}
    (h : tree.nameOf target = .ok (some name)) :
    tree.holds (·.isDecl) target = true := by
  rw [nameOf] at h
  cases hconstruct : tree.construct target with
  | error e =>
      rw [hconstruct] at h
      cases h
  | ok construct =>
      rw [hconstruct] at h
      exact (holds_iff tree _ target).mpr
        ⟨construct, hconstruct, Construct.isDecl_of_name? (Except.ok.inj h)⟩

/-- A link to a declaration, or none, keeps a tree well-formed. -/
theorem WellFormed.setLink (wf : tree.WellFormed) {link : Link}
    (h : tree.setLink ref link = .ok linked)
    (hdecl : ∀ target, link.target? = some target →
      tree.holds (·.isDecl) target = true) :
    linked.WellFormed := by
  have hshape := sameShape_of_setLink h
  refine { wf.toClosed.setLink h with
    once := ?_
    roles := ?_
    roots := ?_
    targets := ?_ }
  · rw [← hshape.size]
    simpa only [← hshape.parts] using wf.once
  · intro id hid part hpart
    rw [← hshape.size] at hid
    rw [← hshape.parts] at hpart
    rw [← hshape.holds _ (Role.admits_reference part.1)]
    exact wf.roles id hid part hpart
  · intro root hroot
    rw [← hshape.roots] at hroot
    rw [← hshape.holds (·.isTopLevel) fun _ _ _ => rfl]
    exact wf.roots root hroot
  · intro id hid target htarget
    rw [← hshape.size] at hid
    rw [← hshape.holds (·.isDecl) fun _ _ _ => rfl]
    by_cases heq : id = ref
    · subst heq
      obtain ⟨text, old, -, href⟩ := construct_setLink_self h
      rw [linked?_of_construct href] at htarget
      exact hdecl target htarget
    · rw [linked?, get?_setLink_of_ne h heq] at htarget
      exact wf.targets id hid target htarget

/-- What a reference is found to name is a declaration. -/
theorem WellFormed.isDecl_of_resolveAfresh (wf : tree.WellFormed)
    (href : ref < tree.size) {target : NodeId}
    (h : tree.resolveAfresh options ref = .ok (some target)) :
    tree.holds (·.isDecl) target = true := by
  have hmeans := (wf.resolveAfresh_eq_some_iff wf.root_lt_size href).mp h
  obtain ⟨text, link, -, hname⟩ := hmeans.nameOf
  exact isDecl_of_nameOf hname

/-- The tree after one link of a round. -/
theorem WellFormed.setLink_resolved (wf : tree.WellFormed) {target : NodeId}
    (hresolve : tree.resolveAfresh options ref = .ok (some target))
    (hset : tree.setLink ref (.resolved target) = .ok linked) :
    linked.WellFormed := by
  obtain ⟨text, old, href, -⟩ := construct_setLink_self hset
  refine wf.setLink hset ?_
  rintro _ ⟨⟩
  exact wf.isDecl_of_resolveAfresh (lt_size_of_construct href) hresolve

theorem Round.wellFormed (h : Round options tree refs last others)
    (wf : tree.WellFormed) :
    last.WellFormed := by
  induction h with
  | nil tree => exact wf
  | link hresolve hset _ ih => exact ih (wf.setLink_resolved hresolve hset)
  | leave _ _ ih => exact ih wf

theorem Rounds.wellFormed (h : Rounds options tree refs last others)
    (wf : tree.WellFormed) :
    last.WellFormed := by
  induction h with
  | stop _ => exact wf
  | round hround _ ih => exact ih (hround.wellFormed wf)

theorem WellFormed.noteUnresolved (wf : tree.WellFormed) {noted : Tree}
    (h : tree.noteUnresolved refs = .ok noted) : noted.WellFormed := by
  induction refs generalizing tree with
  | nil =>
      cases h
      exact wf
  | cons ref refs ih =>
      rw [Tree.noteUnresolved] at h
      obtain ⟨construct, hconstruct, h⟩ := bind_eq_ok_iff.mp h
      cases construct with
      | reference text link =>
          obtain ⟨middle, hset, h⟩ := bind_eq_ok_iff.mp h
          exact ih (wf.setLink hset (by rintro _ ⟨⟩)) h
      | _ => exact ih wf h

/-- Linking keeps a tree well-formed. -/
theorem WellFormed.link (wf : tree.WellFormed) {report : LinkReport}
    (h : tree.link options = .ok (linked, report)) : linked.WellFormed := by
  obtain ⟨refs, last, -, hrounds, hnote⟩ := link_eq_ok h
  exact (hrounds.wellFormed wf).noteUnresolved hnote

end Tree

end ConceptLang
