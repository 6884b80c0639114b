import ConceptLang.Proofs.Relinking
import ConceptLang.Proofs.Totality

/-!
# Static scopes

What a name may mean, the field of a join apart, is settled by where it stands.
`Tree.StaticScope` lists the declarations without names in their order of
preference: the parameters of the nearest function or predicate on the way up
(`Tree.Around`), where values are named, and then the top-level declarations of
the right kinds. Neither types nor links are looked at.

The linker finds the first declaration of that list that declares the name
(`Tree.Closed.resolveAfresh_eq_find?`).
-/

namespace ConceptLang

namespace Tree

/-- The node `binder` is the nearest function or predicate on the way up from a
node. -/
inductive Around (tree : Tree) : NodeId → NodeId → Prop where
  | parent {id binder : NodeId} (hparent : tree.parent id = .ok (some binder))
      (hbinder : tree.holds (·.isBinder) binder = true) : Around tree id binder
  | above {id above binder : NodeId}
      (hparent : tree.parent id = .ok (some above))
      (hother : tree.holds (·.isBinder) above = false)
      (h : Around tree above binder) : Around tree id binder

/-- The parameter inside of a parameter of a predicate; any other node is its
own. -/
def unwrap (tree : Tree) (param : NodeId) : NodeId :=
  match tree.construct param with
  | .ok (.typedParam formal _) => formal
  | _ => param

/-- The parameters that a function or predicate declares, in order. -/
inductive Declared (tree : Tree) (binder : NodeId) : List NodeId → Prop where
  | function {name : Ident} {params signature : List NodeId} {body : NodeId}
      (h : tree.construct binder = .ok (.function name params signature body)) :
      Declared tree binder params
  | predicate {name : Ident} {params : List NodeId} {body : Option NodeId}
      (h : tree.construct binder = .ok (.predicate name params body)) :
      Declared tree binder (params.map tree.unwrap)

/-- The declarations that the reference `ref` may name in a context, the most
preferred first. -/
inductive StaticScope (tree : Tree) (ref : NodeId) :
    RefContext → List NodeId → Prop where
  | concept :
      StaticScope tree ref .concept
        (tree.roots.filter (tree.holds (·.isConcept)))
  | callee :
      StaticScope tree ref .callee (tree.roots.filter (tree.holds (·.isBinder)))
  | inside {binder : NodeId} {params : List NodeId}
      (haround : tree.Around ref binder) (h : tree.Declared binder params) :
      StaticScope tree ref .value
        (params ++ tree.roots.filter (tree.holds (·.isTopLevel)))
  | outside (h : ∀ binder, ¬ tree.Around ref binder) :
      StaticScope tree ref .value
        (tree.roots.filter (tree.holds (·.isTopLevel)))

/-- Whether the node `id` declares the name `name`. -/
def declares (tree : Tree) (name : String) (id : NodeId) : Bool :=
  tree.holds (fun construct => construct.name? == some name) id

section Scope

variable {tree : Tree} {ref : NodeId}

/-! ### Upwards -/

theorem not_around_of_top (h : tree.parent ref = .ok none) (binder : NodeId) :
    ¬ tree.Around ref binder := by
  intro haround
  cases haround with
  | parent hparent _ => cases h.symm.trans hparent
  | above hparent _ _ => cases h.symm.trans hparent

theorem around_iff_of_binder {above : NodeId}
    (h : tree.parent ref = .ok (some above))
    (hbinder : tree.holds (·.isBinder) above = true) (binder : NodeId) :
    tree.Around ref binder ↔ above = binder := by
  constructor
  · intro haround
    cases haround with
    | parent hparent _ => simpa using h.symm.trans hparent
    | above hparent hother _ =>
        obtain rfl : above = _ := by simpa using h.symm.trans hparent
        rw [hbinder] at hother
        cases hother
  · rintro rfl
    exact .parent h hbinder

theorem around_iff_of_other {above : NodeId}
    (h : tree.parent ref = .ok (some above))
    (hother : tree.holds (·.isBinder) above = false) (binder : NodeId) :
    tree.Around ref binder ↔ tree.Around above binder := by
  constructor
  · intro haround
    cases haround with
    | parent hparent hbinder =>
        obtain rfl : above = _ := by simpa using h.symm.trans hparent
        rw [hother] at hbinder
        cases hbinder
    | above hparent _ haround =>
        obtain rfl : above = _ := by simpa using h.symm.trans hparent
        exact haround
  · exact .above h hother

/-- The ways a climb can go: there is nothing above, a function or predicate is
just above, or the climb goes on from what is above. -/
theorem climb_cases {steps : Nat} {id : NodeId} {found : Option NodeId}
    (h : tree.climb steps id = .ok found) :
    tree.parent id = .ok none ∧ found = none ∨
      ∃ above, tree.parent id = .ok (some above) ∧
        (tree.holds (·.isBinder) above = true ∧ found = some above ∨
          tree.holds (·.isBinder) above = false ∧
            ∃ fewer < steps, tree.climb fewer above = .ok found) := by
  rw [climb.eq_def] at h
  obtain ⟨parent, hparent, h⟩ := bind_eq_ok_iff.mp h
  cases parent with
  | none => exact Or.inl ⟨hparent, (Except.ok.inj h).symm⟩
  | some above =>
      obtain ⟨construct, hconstruct, h⟩ := bind_eq_ok_iff.mp h
      refine Or.inr ⟨above, hparent, ?_⟩
      split at h
      · next hbinder =>
          exact Or.inl ⟨(holds_iff tree _ _).mpr ⟨_, hconstruct, hbinder⟩,
            (Except.ok.inj h).symm⟩
      · next hother =>
          have hother := not_holds hconstruct (Bool.eq_false_iff.mpr hother)
          refine Or.inr ⟨Bool.eq_false_iff.mpr hother, ?_⟩
          cases steps with
          | zero => cases h
          | succ fewer => exact ⟨fewer, Nat.lt_succ_self fewer, h⟩

/-- A climb comes to the nearest function or predicate. -/
theorem around_iff_of_climb {steps : Nat} {id : NodeId} {found : Option NodeId}
    (h : tree.climb steps id = .ok found) (binder : NodeId) :
    tree.Around id binder ↔ found = some binder := by
  induction steps using Nat.strongRecOn generalizing id with
  | ind steps ih =>
      obtain ⟨hparent, rfl⟩ | ⟨above, hparent,
          ⟨hbinder, rfl⟩ | ⟨hother, fewer, hlt, hrest⟩⟩ :=
        climb_cases h
      · simpa using not_around_of_top hparent binder
      · rw [around_iff_of_binder hparent hbinder, Option.some.injEq]
      · rw [around_iff_of_other hparent hother, ih fewer hlt hrest]

/-! ### Parameters -/

theorem untyped_eq_ok {param formal : NodeId}
    (h : tree.untyped param = .ok formal) :
    formal = tree.unwrap param := by
  rw [untyped] at h
  obtain ⟨construct, hconstruct, h⟩ := bind_eq_ok_iff.mp h
  rw [unwrap, hconstruct]
  cases construct with
  | typedParam inner typeNode => exact (Except.ok.inj h).symm
  | _ => exact (Except.ok.inj h).symm

theorem mapM_untyped_eq_ok {params formals : List NodeId}
    (h : params.mapM tree.untyped = .ok formals) :
    formals = params.map tree.unwrap := by
  induction params generalizing formals with
  | nil =>
      cases h
      rfl
  | cons param params ih =>
      rw [List.mapM_cons] at h
      obtain ⟨formal, hformal, h⟩ := bind_eq_ok_iff.mp h
      obtain ⟨rest, hrest, h⟩ := bind_eq_ok_iff.mp h
      cases h
      rw [List.map_cons, untyped_eq_ok hformal, ih hrest]

theorem declared_of_formals {binder : NodeId} {params : List NodeId}
    (hbinder : tree.holds (·.isBinder) binder = true)
    (h : tree.formals binder = .ok params) :
    tree.Declared binder params := by
  obtain ⟨construct, hconstruct, hkind⟩ := (holds_iff tree _ _).mp hbinder
  rw [formals, hconstruct] at h
  cases construct with
  | function name params signature body =>
      cases h
      exact .function hconstruct
  | predicate name params body =>
      rw [mapM_untyped_eq_ok h]
      exact .predicate hconstruct
  | _ => cases hkind

theorem Declared.unique {binder : NodeId} {params params' : List NodeId}
    (h : tree.Declared binder params) (h' : tree.Declared binder params') :
    params = params' := by
  cases h with
  | function h =>
      cases h' with
      | function h' => cases h.symm.trans h'; rfl
      | predicate h' => cases h.symm.trans h'
  | predicate h =>
      cases h' with
      | function h' => cases h.symm.trans h'
      | predicate h' => cases h.symm.trans h'; rfl

theorem Around.isBinder {binder : NodeId} (h : tree.Around ref binder) :
    tree.holds (·.isBinder) binder = true := by
  induction h with
  | parent _ hbinder => exact hbinder
  | above _ _ _ ih => exact ih

/-! ### Names -/

theorem declares_of_nameOf {name : Option String} {id : NodeId}
    (h : tree.nameOf id = .ok name) (text : String) :
    tree.declares text id = (name == some text) := by
  rw [nameOf] at h
  cases hconstruct : tree.construct id with
  | error e =>
      rw [hconstruct] at h
      cases h
  | ok construct =>
      rw [hconstruct] at h
      cases h
      obtain ⟨node, hnode, rfl⟩ := (construct_eq_ok_iff tree id _).mp hconstruct
      rw [declares, holds, hnode]
      rfl

theorem nameOf_of_declares {text : String} {id : NodeId}
    (h : tree.declares text id = true) :
    tree.nameOf id = .ok (some text) := by
  obtain ⟨construct, hconstruct, hname⟩ := (holds_iff tree _ _).mp h
  rw [nameOf, hconstruct]
  exact congrArg Except.ok (beq_iff_eq.mp hname)

/-- The first entry with a name is for the first node that declares it. -/
theorem lookup_eq_find? {ids : List NodeId} {entries : List (String × NodeId)}
    (h : tree.named ids = .ok entries) (text : String) :
    entries.lookup text = ids.find? (tree.declares text) := by
  induction ids generalizing entries with
  | nil =>
      cases h
      rfl
  | cons id ids ih =>
      rw [named] at h
      obtain ⟨name, hname, h⟩ := bind_eq_ok_iff.mp h
      rw [List.find?_cons, declares_of_nameOf hname]
      cases name with
      | none => exact ih h
      | some name =>
          obtain ⟨rest, hrest, h⟩ := bind_eq_ok_iff.mp h
          cases h
          have hcomm : (some name == some text) = (text == name) := by
            rw [Option.some_beq_some, BEq.comm]
          rw [List.lookup_cons, ih hrest, hcomm]

theorem named_append {ids ids' : List NodeId}
    {entries entries' : List (String × NodeId)}
    (h : tree.named ids = .ok entries) (h' : tree.named ids' = .ok entries') :
    tree.named (ids ++ ids') = .ok (entries ++ entries') := by
  induction ids generalizing entries with
  | nil =>
      cases h
      exact h'
  | cons id ids ih =>
      rw [named] at h
      obtain ⟨name, hname, h⟩ := bind_eq_ok_iff.mp h
      rw [List.cons_append, named, hname]
      cases name with
      | none => exact ih h
      | some name =>
          obtain ⟨rest, hrest, h⟩ := bind_eq_ok_iff.mp h
          cases h
          simp only [bind, Except.bind, ih hrest]
          rfl

/-! ### Scopes -/

theorem named_of_topLevel {keep : Construct → Bool}
    {entries : List (String × NodeId)} (h : tree.topLevel keep = .ok entries) :
    tree.named (tree.roots.filter (tree.holds keep)) = .ok entries := by
  rw [topLevel] at h
  obtain ⟨kept, hkept, h⟩ := bind_eq_ok_iff.mp h
  rwa [← Complete.select_eq_ok hkept]

/-- The candidates of a reference are the names in its static scope. -/
theorem staticScope_of_lexicalScope {context : RefContext}
    {entries : List (String × NodeId)}
    (hjoin : ∀ join, context ≠ .joinField join)
    (h : tree.lexicalScope ref context = .ok entries) :
    ∃ scope, tree.StaticScope ref context scope ∧
      tree.named scope = .ok entries := by
  cases context with
  | joinField join => exact absurd rfl (hjoin join)
  | concept => exact ⟨_, .concept, named_of_topLevel h⟩
  | callee => exact ⟨_, .callee, named_of_topLevel h⟩
  | value =>
      rw [lexicalScope] at h
      obtain ⟨params, hparams, h⟩ := bind_eq_ok_iff.mp h
      obtain ⟨decls, hdecls, h⟩ := bind_eq_ok_iff.mp h
      cases h
      rw [paramsInScope] at hparams
      obtain ⟨found, hfound, hparams⟩ := bind_eq_ok_iff.mp hparams
      cases found with
      | none =>
          cases hparams
          refine ⟨_, .outside fun binder haround => ?_,
            named_of_topLevel hdecls⟩
          cases (around_iff_of_climb hfound binder).mp haround
      | some binder =>
          obtain ⟨formals, hformals, hparams⟩ := bind_eq_ok_iff.mp hparams
          have haround := (around_iff_of_climb hfound binder).mpr rfl
          exact ⟨_, .inside haround
            (declared_of_formals haround.isBinder hformals),
            named_append hparams (named_of_topLevel hdecls)⟩

theorem Around.unique {binder binder' : NodeId} (h : tree.Around ref binder)
    (h' : tree.Around ref binder') : binder = binder' := by
  induction h with
  | parent hparent hbinder =>
      exact (around_iff_of_binder hparent hbinder binder').mp h'
  | above hparent hother _ ih =>
      exact ih ((around_iff_of_other hparent hother binder').mp h')

theorem StaticScope.unique {context : RefContext} {scope scope' : List NodeId}
    (h : tree.StaticScope ref context scope)
    (h' : tree.StaticScope ref context scope') :
    scope = scope' := by
  cases h with
  | concept => cases h'; rfl
  | callee => cases h'; rfl
  | inside haround h =>
      cases h' with
      | inside haround' h' =>
          obtain rfl := haround.unique haround'
          rw [h.unique h']
      | outside hnone => exact absurd haround (hnone _)
  | outside hnone =>
      cases h' with
      | inside haround' _ => exact absurd haround' (hnone _)
      | outside _ => rfl

end Scope

namespace Closed

variable {tree : Tree} (closed : tree.Closed)
  (hroots : ∀ root ∈ tree.roots, root < tree.size) {ref : NodeId}
  {context : RefContext} (hjoin : ∀ join, context ≠ .joinField join)

include closed hroots hjoin

theorem exists_staticScope (href : ref < tree.size) :
    ∃ scope, tree.StaticScope ref context scope := by
  obtain ⟨entries, hentries, -⟩ :=
    closed.complete.yields_lexicalScope hroots href context
  obtain ⟨scope, hscope, -⟩ := staticScope_of_lexicalScope hjoin hentries
  exact ⟨scope, hscope⟩

/-- A reference that is not the field of a join names the first declaration of
its static scope that declares its text, whatever the links of the tree are. -/
theorem resolveAfresh_eq_find? {text : String} {link : Link}
    {scope : List NodeId} {tree' : Tree}
    (href : tree.construct ref = .ok (.reference text link))
    (hcontext : tree.contextOf ref = .ok context)
    (hscope : tree.StaticScope ref context scope)
    (hshape : tree.SameShape tree') (options : Options) :
    tree'.resolveAfresh options ref =
      .ok (scope.find? (tree.declares text)) := by
  obtain ⟨entries, hentries, -⟩ :=
    closed.complete.yields_lexicalScope hroots (lt_size_of_construct href)
      context
  obtain ⟨scope', hscope', hnamed⟩ := staticScope_of_lexicalScope hjoin hentries
  obtain rfl := hscope.unique hscope'
  obtain ⟨link', href'⟩ := hshape.reference href
  rw [hshape.contextOf] at hcontext
  rw [hshape.lexicalScope] at hentries
  rw [resolveAfresh_of_lexical href' hcontext hjoin hentries,
    lookup_eq_find? hnamed]

end Closed

end Tree

end ConceptLang
