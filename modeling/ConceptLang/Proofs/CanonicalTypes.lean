import ConceptLang.Proofs.Memory
import ConceptLang.Proofs.OpenReferences

/-!
# What a type that is kept looks like

A type that stands for a problem may be the answer to a question, but it never
becomes a part of another type: a rule that gets one for a slot of a function or
a relation answers with it. So a type that is kept is a problem at a node of the
tree, or it is *canonical*. A canonical type is put together from basic types,
concepts, functions and relations only, and says of the nodes it mentions what
the tree says of them.

Types are made of other types, which come from memory, from the bindings of a
scope and from what is expected of a node. The discipline `Tree.Complete.upkeep`
takes care of all of them at once. It asks for nothing but a complete tree, so
nodes may be of any kind, shared, or inside of themselves.
-/

namespace ConceptLang

/-- The declaration of the concept is a concept node with that name. -/
def Concept.DeclaredIn (tree : Tree) (concept : Concept) : Prop :=
  ∃ name parents relations,
    tree.construct concept.decl = .ok (.concept name parents relations) ∧
    name.name = concept.name

/-- Types that are free of problems, units and predicates in all their parts,
and that mention the nodes of the tree for what they are. -/
inductive Ty.Canonical (tree : Tree) : Ty → Prop where
  | boolean (literal : Option NodeId) : Canonical tree (.boolean literal)
  | string (literal : Option NodeId) : Canonical tree (.string literal)
  | integer (literal : Option NodeId) : Canonical tree (.integer literal)
  | function {formals : List (NodeId × Ty)} {result : Ty} {id : NodeId}
      {name : Ident} {params signature : List NodeId} {body : NodeId}
      (h : tree.construct id = .ok (.function name params signature body))
      (hformals : formals.map (·.1) = params)
      (htypes : ∀ formal ∈ formals, Canonical tree formal.2)
      (hresult : Canonical tree result) :
      Canonical tree (.function formals result)
  | concept {concept : Concept} (h : concept.DeclaredIn tree) :
      Canonical tree (.concept concept)
  | relation {stamp : Nat} {decl : NodeId} {name : Ident} {typeNode : NodeId}
      {owner : Concept} {relatum : Ty}
      (h : tree.construct decl = .ok (.relation name typeNode))
      (hparent : tree.parent decl = .ok (some owner.decl))
      (howner : owner.DeclaredIn tree) (hrelatum : Canonical tree relatum) :
      Canonical tree (.relation stamp decl name.name owner relatum)

/-- Canonical types, and faults of nodes of the tree. -/
inductive Ty.Regular (tree : Tree) : Ty → Prop where
  | canonical {ty : Ty} (h : ty.Canonical tree) : Regular tree ty
  | error {node : NodeId} (h : node < tree.size) (cause : Fault) :
      Regular tree (.error (cause.toError node))

namespace Ty

variable {tree : Tree}

theorem Regular.fault {node : NodeId} (h : node < tree.size) (cause : Fault) :
    (Ty.fault node cause).Regular tree :=
  .error h cause

theorem Regular.exists_fault {e : TypeError} (h : (Ty.error e).Regular tree) :
    ∃ node cause, node < tree.size ∧ e = Fault.toError cause node := by
  cases h with
  | canonical h => cases h
  | error h cause => exact ⟨_, cause, h, rfl⟩

theorem Regular.canonical_of_not_error {ty : Ty} (h : ty.Regular tree)
    (hty : ∀ e, ty ≠ .error e) : ty.Canonical tree := by
  cases h with
  | canonical h => exact h
  | error h cause => exact absurd rfl (hty _)

end Ty

/-- The scope binds canonical types. -/
def Scope.Canonical (tree : Tree) (scope : Scope) : Prop :=
  ∀ binding ∈ scope.bindings, binding.2.Canonical tree

theorem Scope.canonical_empty (tree : Tree) : Scope.empty.Canonical tree :=
  fun _ hbinding => absurd hbinding List.not_mem_nil

theorem Scope.Canonical.extend {tree : Tree} {scope : Scope}
    {bindings : List (NodeId × Ty)} (h : scope.Canonical tree)
    (hbindings : ∀ binding ∈ bindings, binding.2.Canonical tree) :
    (scope.extend bindings).Canonical tree := by
  intro binding hbinding
  rcases List.mem_append.mp hbinding with hnew | hold
  · exact hbindings binding (List.mem_reverse.mp hnew)
  · exact h binding hold

/-- Judgements about nodes in which all types are canonical. Only a predicate
may be checked against any type, since it has none. -/
inductive Judgement.Regular (tree : Tree) : Judgement → Prop where
  | synth {scope : Scope} {node : NodeId} (hscope : scope.Canonical tree)
      (h : node < tree.size) : Regular tree (.synth scope node)
  | check {scope : Scope} {node : NodeId} {expected : Ty}
      (hscope : scope.Canonical tree) (h : node < tree.size)
      (hexpected : expected.Canonical tree) :
      Regular tree (.check scope node expected)
  | predicate {scope : Scope} {node : NodeId} {expected : Ty} {name : Ident}
      {params : List NodeId} {body : Option NodeId}
      (h : tree.construct node = .ok (.predicate name params body)) :
      Regular tree (.check scope node expected)

/-- With regular answers the rule asks regular questions, meets no defect, and
comes to a conclusion as `post` says. -/
abbrev Rule.Regulated {α : Type} (tree : Tree) (post : α → Prop)
    (rule : Rule α) : Prop :=
  rule.Meets (·.Regular tree) (fun _ ty => ty.Regular tree) post

namespace Tree

/-! ### The rules -/

section Rules

variable {tree : Tree} (complete : tree.Complete) {scope : Scope}
  (hscope : scope.Canonical tree) {node : NodeId}

/-- The owner of a relation is its parent, which is a concept. -/
theorem owner?_spec {owner : Concept}
    (h : tree.owner? node = .ok (some owner)) :
    tree.parent node = .ok (some owner.decl) ∧ owner.DeclaredIn tree := by
  rw [owner?] at h
  obtain ⟨parent, hparent, h⟩ := bind_eq_ok_iff.mp h
  cases parent with
  | none => cases h
  | some above =>
      obtain ⟨construct, hconstruct, h⟩ := bind_eq_ok_iff.mp h
      cases construct with
      | concept name parents relations =>
          cases h
          exact ⟨hparent, name, parents, relations, hconstruct, rfl⟩
      | _ => cases h

include hscope

theorem regulated_synth (h : node < tree.size) :
    (Rule.synth scope node).Regulated tree (·.Regular tree) :=
  Rule.meets_synth scope node (.synth hscope h)

theorem regulated_check (h : node < tree.size) {expected : Ty}
    (hexpected : expected.Canonical tree) :
    (Rule.check scope node expected).Regulated tree (·.Regular tree) :=
  Rule.meets_check scope node expected (.check hscope h hexpected)

theorem regulated_synthAll (nodes : List NodeId)
    (h : ∀ id ∈ nodes, id < tree.size) :
    (Rule.synthAll scope nodes).Regulated tree (fun outcome =>
      (∀ e, outcome = .error e → (Ty.error e).Regular tree) ∧
      ∀ types, outcome = .ok types → types.length = nodes.length ∧
        ∀ ty ∈ types, ty.Canonical tree) := by
  induction nodes with
  | nil => exact ⟨by rintro e ⟨⟩, by rintro types ⟨⟩; simp⟩
  | cons id ids ih =>
      have hrest := ih fun other hother => h other (by simp [hother])
      refine (regulated_synth hscope (h id (by simp))).bind fun ty hty => ?_
      cases hty with
      | error he cause =>
          exact ⟨by rintro _ ⟨⟩; exact .error he cause, by rintro types ⟨⟩⟩
      | canonical hty =>
          cases ty with
          | error e => cases hty
          | _ =>
              refine hrest.bind fun outcome houtcome => ?_
              cases outcome with
              | error e =>
                  refine ⟨?_, by rintro types ⟨⟩⟩
                  rintro _ ⟨⟩
                  exact houtcome.1 e rfl
              | ok types =>
                  obtain ⟨hlength, htypes⟩ := houtcome.2 types rfl
                  refine ⟨by rintro e ⟨⟩, ?_⟩
                  rintro _ ⟨⟩
                  exact ⟨by simp [hlength],
                    List.forall_mem_cons.mpr ⟨hty, htypes⟩⟩

theorem regulated_checkAll (pairs : List (NodeId × Ty))
    (h : ∀ pair ∈ pairs, pair.1 < tree.size ∧ pair.2.Canonical tree) :
    (Rule.checkAll scope pairs).Regulated tree
      (fun outcome => ∀ e, outcome = some e → (Ty.error e).Regular tree) := by
  induction pairs with
  | nil => rintro e ⟨⟩
  | cons pair pairs ih =>
      obtain ⟨hnode, hty⟩ := h pair (by simp)
      refine (regulated_check hscope hnode hty).bind fun ty hty => ?_
      cases ty with
      | error e =>
          rintro _ ⟨⟩
          exact hty
      | _ => exact ih fun other hother => h other (by simp [hother])

/-- A predicate is checked whatever the types of its parameters are, so only the
problems among them matter. -/
theorem regulated_predicateParams (params : List NodeId)
    (h : ∀ id ∈ params, id < tree.size) :
    (tree.predicateParams scope params).Regulated tree
      (fun outcome => ∀ e, outcome = .error e → (Ty.error e).Regular tree) := by
  induction params with
  | nil => rintro e ⟨⟩
  | cons id ids ih =>
      have hid := h id (by simp)
      have hrest := ih fun other hother => h other (by simp [hother])
      obtain ⟨construct, hconstruct⟩ := exists_construct hid
      refine Rule.Meets.lift hconstruct ?_
      cases construct with
      | typedParam formal typeNode =>
          refine (regulated_synth hscope hid).bind fun ty hty => ?_
          cases ty with
          | error e =>
              rintro _ ⟨⟩
              exact hty
          | _ =>
              refine hrest.bind fun outcome houtcome => ?_
              cases outcome with
              | error e =>
                  rintro _ ⟨⟩
                  exact houtcome e rfl
              | ok bindings => rintro e ⟨⟩
      | _ =>
          rintro _ ⟨⟩
          exact .error hid _

theorem regulated_synthFunction {name : Ident} {params signature : List NodeId}
    {body : NodeId}
    (h : tree.construct node = .ok (.function name params signature body))
    (hsignature : ∀ id ∈ signature, id < tree.size) :
    (synthFunction scope node name.name params signature).Regulated tree
      (·.Regular tree) := by
  rw [synthFunction]
  split
  · exact .fault (lt_size_of_construct h) _
  · next hlength =>
      refine (regulated_synthAll hscope signature hsignature).bind
        fun outcome houtcome => ?_
      cases outcome with
      | error e => exact houtcome.1 e rfl
      | ok types =>
          obtain ⟨hcount, htypes⟩ := houtcome.2 types rfl
          have hcount : types.length = params.length + 1 :=
            hcount.trans (Classical.not_not.mp hlength)
          have hformals : (params.zip types).map (·.1) = params :=
            List.map_fst_zip (by omega)
          refine .canonical (.function h hformals (fun formal hformal => ?_) ?_)
          · exact htypes _ (List.of_mem_zip hformal).2
          · have hne : types ≠ [] := List.ne_nil_of_length_eq_add_one hcount
            rw [List.getLast?_eq_getLast_of_ne_nil hne]
            exact htypes _ (List.getLast_mem hne)

theorem regulated_synthCall (h : node < tree.size) {callee : NodeId}
    {args : List NodeId} (hcallee : callee < tree.size)
    (hargs : ∀ id ∈ args, id < tree.size) :
    (synthCall scope node callee args).Regulated tree (·.Regular tree) := by
  refine (regulated_synth hscope hcallee).bind fun ty hty => ?_
  cases hty with
  | error => exact .fault h _
  | canonical hty =>
      cases hty with
      | function hfunction hformals htypes hresult =>
          dsimp only
          split
          · exact .fault h _
          · refine (regulated_checkAll hscope _ fun pair hpair => ?_).bind
              fun outcome houtcome => ?_
            · obtain ⟨harg, hty⟩ := List.of_mem_zip hpair
              obtain ⟨formal, hformal, heq⟩ := List.mem_map.mp hty
              exact ⟨hargs _ harg, heq ▸ htypes formal hformal⟩
            · cases outcome with
              | some e => exact houtcome e rfl
              | none => exact .canonical hresult
      | _ => exact .fault h _

theorem regulated_synthPredicate {name : Ident} {params : List NodeId}
    {body : Option NodeId}
    (h : tree.construct node = .ok (.predicate name params body))
    (hparams : ∀ id ∈ params, id < tree.size) :
    (tree.synthPredicate scope node params).Regulated tree
      (·.Regular tree) := by
  refine (regulated_predicateParams hscope params hparams).bind
    fun outcome houtcome => ?_
  cases outcome with
  | error e => exact houtcome e rfl
  | ok bindings =>
      exact Rule.meets_check scope node (.predicate bindings) (.predicate h)

theorem regulated_synthBinary (h : node < tree.size) (op : Operator) :
    (synthBinary scope node op).Regulated tree (·.Regular tree) := by
  cases op with
  | mod => exact .fault h _
  | or | and | eq | ne | lt | gt | le | ge =>
      exact regulated_check hscope h (.boolean none)
  | add | sub | mul | div => exact regulated_check hscope h (.integer none)

theorem regulated_checkBinary (h : node < tree.size) (op : Operator)
    {lhs rhs : NodeId} (hlhs : lhs < tree.size) (hrhs : rhs < tree.size)
    {expected : Ty} (hexpected : expected.Canonical tree) :
    (checkBinary scope node op lhs rhs expected).Regulated tree
      (·.Regular tree) := by
  refine (regulated_check hscope hlhs hexpected).bind fun left hleft => ?_
  split
  · exact hleft
  · refine (regulated_check hscope hrhs hexpected).bind fun right hright => ?_
    split
    · exact hright
    · split
      · exact .canonical hexpected
      · refine (regulated_synth hscope hlhs).bind fun left _ => ?_
        exact (regulated_synth hscope hrhs).bind fun right _ => .fault h _

theorem regulated_checkFunction (h : node < tree.size) (name : String)
    {body : NodeId} (hbody : body < tree.size) {expected : Ty}
    (hexpected : expected.Canonical tree) :
    (checkFunction scope node name body expected).Regulated tree
      (·.Regular tree) := by
  cases hexpected with
  | function hfunction hformals htypes hresult =>
      refine (regulated_check (hscope.extend htypes) hbody hresult).bind
        fun ty hty => ?_
      cases ty with
      | error e => exact hty
      | _ => exact .canonical (.function hfunction hformals htypes hresult)
  | _ => exact .fault h _

theorem regulated_checkConditional (h : node < tree.size)
    {condition thenBranch elseBranch : NodeId}
    (hcondition : condition < tree.size) (hthen : thenBranch < tree.size)
    (helse : elseBranch < tree.size) {expected : Ty}
    (hexpected : expected.Canonical tree) :
    (checkConditional scope node condition thenBranch elseBranch
      expected).Regulated tree (·.Regular tree) := by
  refine (regulated_synth hscope hcondition).bind fun conditionTy _ => ?_
  refine (regulated_synth hscope hthen).bind fun thenTy _ => ?_
  refine (regulated_synth hscope helse).bind fun elseTy _ => ?_
  split
  · exact .fault h _
  · split
    · exact .fault h _
    · split
      · exact .fault h _
      · exact .canonical hexpected

theorem regulated_checkBySynthesis (h : node < tree.size) {expected : Ty}
    (hexpected : expected.Canonical tree) :
    (checkBySynthesis scope node expected).Regulated tree (·.Regular tree) := by
  refine (regulated_synth hscope h).bind fun actual _ => ?_
  split
  · exact .canonical hexpected
  · exact .fault h _

include complete

theorem regulated_synthParam (h : node < tree.size) (name : String) :
    (tree.synthParam scope node name).Regulated tree (·.Regular tree) := by
  obtain ⟨parent, hparent⟩ := exists_parent h
  refine Rule.Meets.lift hparent ?_
  cases parent with
  | none => exact .fault h _
  | some above =>
      refine (regulated_synth hscope (complete.parent_lt_size hparent)).bind
        fun ty hty => ?_
      cases hty with
      | error => exact .fault h _
      | canonical hty =>
          cases hty with
          | function hfunction hformals htypes hresult =>
              dsimp only
              cases hparam : paramType? _ node with
              | none => exact .fault h _
              | some ty => exact .canonical (htypes _ (mem_of_lookup hparam))
          | _ => exact .fault h _

theorem regulated_synthRelation {name : Ident} {relatum : NodeId}
    (h : tree.construct node = .ok (.relation name relatum))
    (hrelatum : relatum < tree.size) :
    (tree.synthRelation scope node name.name relatum).Regulated tree
      (·.Regular tree) := by
  have hnode := lt_size_of_construct h
  obtain ⟨owner, howner⟩ := complete.exists_owner? hnode
  refine Rule.Meets.lift howner ?_
  cases owner with
  | none => exact .fault hnode _
  | some owner =>
      obtain ⟨hparent, hdeclared⟩ := owner?_spec howner
      refine (regulated_synth hscope hrelatum).bind fun ty hty => ?_
      cases ty with
      | error e => exact hty
      | _ =>
          have hty := hty.canonical_of_not_error (by simp)
          exact fun stamp => .canonical (.relation h hparent hdeclared hty)

theorem regulated_synthJoin (h : node < tree.size) {left field : NodeId}
    (hleft : left < tree.size) (hfield : field < tree.size) :
    (tree.synthJoin scope node left field).Regulated tree (·.Regular tree) := by
  refine (regulated_synth hscope hleft).bind fun ty hty => ?_
  cases hty with
  | error => exact .fault h _
  | canonical hty =>
      cases hty with
      | concept hdecl =>
          obtain ⟨_, _, _, hdecl, -⟩ := hdecl
          obtain ⟨construct, hconstruct⟩ := exists_construct hfield
          refine Rule.Meets.lift hconstruct ?_
          cases construct with
          | reference text link =>
              obtain ⟨found, hfound, hdeclares⟩ :=
                complete.yields_findRelation (lt_size_of_construct hdecl) text
              refine Rule.Meets.lift hfound ?_
              cases found with
              | none => exact .fault h _
              | some pair =>
                  obtain ⟨foundOn, relation⟩ := pair
                  have hrelation :=
                    complete.declares_lt_size (hdeclares foundOn relation rfl)
                  refine (regulated_synth hscope hrelation).bind
                    fun ty hty => ?_
                  cases hty with
                  | error => exact .fault h _
                  | canonical hty =>
                      cases hty with
                      | relation hrelation hparent howner hrelatum =>
                          simp only [joinThrough, Rule.pure_eq, Rule.Meets]
                          split
                          · exact .canonical hrelatum
                          · exact .fault h _
                      | _ => exact .fault h _
          | _ => exact .fault h _
      | _ => exact .fault h _

omit scope hscope in
theorem yields_conceptType (h : node < tree.size) {ref : NodeId}
    (href : ref < tree.size) :
    Yields (tree.conceptType node ref) (·.Regular tree) := by
  rw [conceptType]
  refine (yields_construct href).bind fun construct _ _ => ?_
  refine (complete.yields_target href).bind fun target _ htarget => ?_
  cases target with
  | none => exact yields_ok (.fault h _)
  | some decl =>
      refine (yields_construct (htarget decl rfl)).bind
        fun construct hconstruct _ => ?_
      cases construct with
      | concept name parents relations =>
          exact yields_ok
            (.canonical (.concept ⟨name, parents, relations, hconstruct, rfl⟩))
      | _ => exact yields_ok (.fault h _)

/-- The rules of synthesis find regular types. -/
theorem regulated_synthRule (h : node < tree.size) :
    (tree.synthRule scope node).Regulated tree (·.Regular tree) := by
  obtain ⟨construct, hconstruct⟩ := exists_construct h
  have hpart : ∀ part, part ∈ construct.children →
      part < tree.size := fun part =>
    complete.part_lt_size hconstruct
  refine Rule.Meets.lift hconstruct ?_
  cases construct with
  | reference text link =>
      cases link with
      | resolved target =>
          exact regulated_synth hscope (complete.target_lt_size hconstruct)
      | unresolved note => exact .fault h _
  | join left field =>
      exact regulated_synthJoin complete hscope h
        (hpart left (by simp [Construct.children]))
        (hpart field (by simp [Construct.children]))
  | stringLit value => exact .canonical (.string _)
  | boolLit value => exact .canonical (.boolean _)
  | intLit value => exact .canonical (.integer _)
  | var name typeNode value =>
      cases typeNode with
      | some typeNode =>
          exact regulated_synth hscope
            (hpart typeNode (by simp [Construct.children]))
      | none =>
          cases value with
          | some value =>
              exact regulated_synth hscope
                (hpart value (by simp [Construct.children]))
          | none => exact .fault h _
  | param name => exact regulated_synthParam complete hscope h name.name
  | typedParam formal typeNode =>
      exact regulated_synth hscope
        (hpart typeNode (by simp [Construct.children]))
  | keywordType keyword =>
      simp only [keywordType, Rule.pure_eq, Rule.Meets]
      split
      · exact .canonical (.string none)
      · split
        · exact .canonical (.integer none)
        · split
          · exact .canonical (.boolean none)
          · exact .fault h _
  | conceptType ref =>
      obtain ⟨ty, hty, hregular⟩ :
          Yields (tree.conceptType node ref) (·.Regular tree) :=
        yields_conceptType complete h (hpart ref (by simp [Construct.children]))
      dsimp only
      rw [hty]
      exact hregular
  | concept name parents relations =>
      exact .canonical (.concept ⟨name, parents, relations, hconstruct, rfl⟩)
  | relation name relatum =>
      exact regulated_synthRelation complete hscope hconstruct
        (hpart relatum (by simp [Construct.children]))
  | binary op lhs rhs => exact regulated_synthBinary hscope h op
  | function name params signature body =>
      exact regulated_synthFunction hscope hconstruct fun id hid =>
        hpart id (by simp [Construct.children, hid])
  | call callee args =>
      exact regulated_synthCall hscope h
        (hpart callee (by simp [Construct.children]))
        fun id hid => hpart id (by simp [Construct.children, hid])
  | predicate name params body =>
      exact regulated_synthPredicate hscope hconstruct fun id hid =>
        hpart id (by simp [Construct.children, hid])
  | conditional condition thenBranch elseBranch => exact .fault h _

/-- The rules of checking come to regular types. -/
theorem regulated_checkRule (h : node < tree.size) {expected : Ty}
    (hexpected : expected.Canonical tree) :
    (tree.checkRule scope node expected).Regulated tree (·.Regular tree) := by
  obtain ⟨construct, hconstruct⟩ := exists_construct h
  have hpart : ∀ part, part ∈ construct.children →
      part < tree.size := fun part =>
    complete.part_lt_size hconstruct
  refine Rule.Meets.lift hconstruct ?_
  cases construct with
  | binary op lhs rhs =>
      exact regulated_checkBinary hscope h op
        (hpart lhs (by simp [Construct.children]))
        (hpart rhs (by simp [Construct.children])) hexpected
  | function name params signature body =>
      exact regulated_checkFunction hscope h name.name
        (hpart body (by simp [Construct.children]))
        hexpected
  | predicate name params body => exact .fault h _
  | conditional condition thenBranch elseBranch =>
      exact regulated_checkConditional hscope h
        (hpart condition (by simp [Construct.children]))
        (hpart thenBranch (by simp [Construct.children]))
        (hpart elseBranch (by simp [Construct.children])) hexpected
  | _ => exact regulated_checkBySynthesis hscope h hexpected

end Rules

/-- The rule of a declaration keeps to regular types. -/
theorem regulated_declRule {tree : Tree} (complete : tree.Complete)
    {decl : NodeId} (h : decl < tree.size) :
    (tree.declRule decl).Regulated tree (·.Regular tree) := by
  have hempty := Scope.canonical_empty tree
  obtain ⟨construct, hconstruct⟩ := exists_construct h
  have hpart : ∀ part, part ∈ construct.children →
      part < tree.size := fun part =>
    complete.part_lt_size hconstruct
  refine Rule.Meets.lift hconstruct ?_
  cases construct with
  | function name params signature body =>
      refine (regulated_synth hempty h).bind fun ty hty => ?_
      cases hty with
      | error he cause => exact .error he cause
      | canonical hty =>
          split
          · exact regulated_check hempty h hty
          · exact .canonical hty
  | var name typeNode value =>
      cases typeNode with
      | none => exact regulated_synth hempty h
      | some typeNode =>
          cases value with
          | none => exact regulated_synth hempty h
          | some value =>
              refine (regulated_synth hempty
                (hpart typeNode (by simp [Construct.children]))).bind
                fun ty hty => ?_
              cases hty with
              | error he cause => exact .error he cause
              | canonical hty =>
                  split
                  · exact .canonical hty
                  · exact regulated_check hempty
                      (hpart value (by simp [Construct.children])) hty
  | _ => exact regulated_synth hempty h

/-! ### Passes -/

/-- Every type that is kept is regular, and kept for a node of the tree. -/
def Upholds (tree : Tree) (cache : Cache) : Prop :=
  ∀ node ty, cache[node]? = some ty → node < tree.size ∧ ty.Regular tree

namespace Complete

variable {tree : Tree} (complete : tree.Complete)

/-- The discipline that types are regular. -/
def upkeep : tree.Discipline where
  ask := (·.Regular tree)
  answer := fun _ ty => ty.Regular tree
  inside := by
    rintro _ (⟨-, h⟩ | ⟨-, h, -⟩ | h)
    · exact h
    · exact h
    · exact lt_size_of_construct h
  bound := by
    rintro scope node ty ⟨hscope, -⟩ hfind
    exact .canonical (hscope (node, ty) (mem_of_lookup hfind))
  scopes := fun _ _ _ _ _ _ h => h
  checks := fun _ _ _ _ _ _ _ _ _ h => h
  rule := by
    rintro _ (⟨hscope, h⟩ | ⟨hscope, h, hexpected⟩ | h)
    · exact regulated_synthRule complete hscope h
    · exact regulated_checkRule complete hscope h hexpected
    · exact Rule.Meets.lift h (.fault (lt_size_of_construct h) _)
  fault := by
    rintro _ cause (⟨-, h⟩ | ⟨-, h, -⟩ | h)
    · exact .fault h cause
    · exact .fault h cause
    · exact .fault (lt_size_of_construct h) cause

theorem upholds {pass : Pass} (h : complete.upkeep.Keeps pass) :
    tree.Upholds pass.cache := by
  intro node ty hty
  obtain ⟨scope, hask, hanswer⟩ := h.cache node ty hty
  exact ⟨complete.upkeep.inside _ hask, hanswer⟩

/-- To ask for a type keeps to the discipline. For a node that is not there
nothing is kept. -/
theorem keeps_of_synth {options : Options} {node : NodeId} {pass pass' : Pass}
    {ty : Ty} (hpass : complete.upkeep.Keeps pass)
    (h : (tree.synth options Scope.empty node).run pass = .ok (ty, pass')) :
    complete.upkeep.Keeps pass' := by
  by_cases hnode : node < tree.size
  · obtain ⟨ty', last, hrun, hlast, -⟩ :=
      complete.upkeep.settle options.maxDepth
      options.maxDepth [] _ (.synth (Scope.canonical_empty tree) hnode) hpass
    obtain ⟨rfl, rfl⟩ : ty = ty' ∧ pass' = last := by
      simpa using h.symm.trans hrun
    exact hlast
  · rcases tree.settle_cases h with hsettled | ⟨middle, hsettled, hcase⟩
    · cases tree.settled?_eq_ok_iff.mp hsettled with
      | known hlookup =>
          exact absurd (complete.upholds hpass node ty hlookup).1 hnode
      | cyclic hlookup hbusy => cases hbusy
    · obtain rfl := (tree.settled?_eq_ok_iff.mp hsettled).eq_of_none
      rcases hcase with ⟨-, -, rfl⟩ | ⟨less, last, -, -, hrule⟩
      · exact hpass
      · exact absurd (tree.lt_size_of_run_rule hrule) hnode

end Complete

/-! ### Checks of a model -/

/-- Where a check of the declarations and then of the references `refs` ends. -/
def reviewed (tree : Tree) (options : Options) (refs : List NodeId) :
    Except TreeError Review := do
  let action : ReviewM Unit := do
    tree.roots.forM (tree.checkDecl options)
    refs.forM (tree.reportOpen options)
  let (_, review) ← action.run { log := Log.withLimit options.maxDiagnostics }
  return review

theorem reviewed_eq_ok_iff {tree : Tree} {options : Options}
    {refs : List NodeId} {review : Review} :
    tree.reviewed options refs = .ok review ↔ ∃ middle,
      (tree.roots.forM (tree.checkDecl options)).run
        { log := Log.withLimit options.maxDiagnostics } = .ok ((), middle) ∧
      (refs.forM (tree.reportOpen options)).run middle = .ok ((), review) := by
  simp only [reviewed]
  rw [bind_eq_ok_iff]
  constructor
  · rintro ⟨⟨_, last⟩, hrun, ⟨⟩⟩
    obtain ⟨_, middle, hdecls, hrefs⟩ := run_bind_eq_ok_iff.mp hrun
    exact ⟨middle, hdecls, hrefs⟩
  · rintro ⟨middle, hdecls, hrefs⟩
    exact ⟨((), review), run_bind_eq_ok_iff.mpr ⟨(), middle, hdecls, hrefs⟩,
      rfl⟩

/-- The result of a check is read off where it ends. -/
theorem review_eq_ok_iff_reviewed {tree : Tree} {options : Options}
    {refs : List NodeId} {result : CheckResult} :
    tree.review options refs = .ok result ↔
      ∃ review, tree.reviewed options refs = .ok review ∧
        result = review.result := by
  simp only [review_eq_ok_iff, reviewed_eq_ok_iff]
  constructor
  · rintro ⟨middle, last, hdecls, hrefs, rfl⟩
    exact ⟨last, ⟨middle, hdecls, hrefs⟩, rfl⟩
  · rintro ⟨last, ⟨middle, hdecls, hrefs⟩, rfl⟩
    exact ⟨middle, last, hdecls, hrefs, rfl⟩

/-- A check of declarations can only succeed if they are there. -/
theorem lt_size_of_checkDecls {tree : Tree} {options : Options}
    {decls : List NodeId} {review review' : Review}
    (h : (decls.forM (tree.checkDecl options)).run review = .ok ((), review')) :
    ∀ decl ∈ decls, decl < tree.size := by
  induction decls generalizing review with
  | nil => simp
  | cons decl decls ih =>
      obtain ⟨middle, hdecl, hrest⟩ := run_forM_cons_eq_ok_iff.mp h
      obtain ⟨ty, pass, _, summary, -, -, ⟨construct, hconstruct, -⟩, -⟩ :=
        run_checkDecl_eq_ok_iff.mp hdecl
      exact List.forall_mem_cons.mpr ⟨lt_size_of_construct hconstruct, ih hrest⟩

theorem run_reportOpen_eq_ok {tree : Tree} {options : Options} {ref : NodeId}
    {review review' : Review}
    (h : (tree.reportOpen options ref).run review = .ok ((), review')) :
    review' = review ∨ ∃ ty pass,
      (tree.synth options Scope.empty ref).run review.pass = .ok (ty, pass) ∧
        review' = Review.report tree ty { review with pass } := by
  rw [reportOpen, run_bind_of_ok rfl] at h
  obtain ⟨covered, _, hlook, h⟩ := run_bind_eq_ok_iff.mp h
  obtain ⟨-, rfl⟩ := run_look_eq_ok_iff.mp hlook
  cases covered with
  | true =>
      cases h
      exact Or.inl rfl
  | false =>
      obtain ⟨ty, _, hsynth, hreport⟩ := run_bind_eq_ok_iff.mp h
      obtain ⟨pass, hrun, rfl⟩ := Review.run_inPass_eq_ok_iff.mp hsynth
      cases hreport
      exact Or.inr ⟨ty, pass, hrun, rfl⟩

namespace Complete

variable {tree : Tree} (complete : tree.Complete) {options : Options}
  {review review' : Review}

include complete

/-- The declarations can be checked, and the check keeps to the discipline. -/
theorem exists_checkDecls (options : Options) (decls : List NodeId)
    (hdecls : ∀ decl ∈ decls, decl < tree.size)
    (hpass : complete.upkeep.Keeps review.pass) :
    ∃ review' summaries, (decls.forM (tree.checkDecl options)).run review =
      .ok ((), review') ∧ complete.upkeep.Keeps review'.pass ∧
      review'.declarations = review.declarations ++ summaries ∧
      List.Forall₂ (fun decl summary => ∃ ty, tree.IsSummary decl ty summary ∧
        ty.Regular tree) decls summaries :=
  (complete.upkeep.judges options fun _ h => h).checkDecls decls hdecls
    (fun decl hdecl => regulated_declRule complete (hdecls decl hdecl))
    (fun _ _ _ hrelation =>
      .synth (Scope.canonical_empty tree) (complete.declares_lt_size hrelation))
      hpass

theorem keeps_of_checkDecls {decls : List NodeId}
    (hpass : complete.upkeep.Keeps review.pass)
    (h : (decls.forM (tree.checkDecl options)).run review = .ok ((), review')) :
    complete.upkeep.Keeps review'.pass := by
  obtain ⟨last, -, hrun, hlast, -⟩ :=
    complete.exists_checkDecls options decls (lt_size_of_checkDecls h) hpass
  obtain rfl : review' = last := by simpa using h.symm.trans hrun
  exact hlast

theorem keeps_of_reportOpens {refs : List NodeId}
    (hpass : complete.upkeep.Keeps review.pass)
    (h : (refs.forM (tree.reportOpen options)).run review = .ok ((), review')) :
    complete.upkeep.Keeps review'.pass := by
  induction refs generalizing review with
  | nil =>
      cases h
      exact hpass
  | cons ref refs ih =>
      obtain ⟨middle, href, hrest⟩ := run_forM_cons_eq_ok_iff.mp h
      refine ih ?_ hrest
      rcases run_reportOpen_eq_ok href with rfl | ⟨ty, pass, hrun, rfl⟩
      · exact hpass
      · rw [Review.pass_report]
        exact complete.keeps_of_synth hpass hrun

/-- All that a check knows in the end is regular. -/
theorem upholds_of_reviewed {refs : List NodeId}
    (h : tree.reviewed options refs = .ok review) :
    tree.Upholds review.pass.cache := by
  obtain ⟨middle, hdecls, hrefs⟩ := reviewed_eq_ok_iff.mp h
  have hmiddle :=
    complete.keeps_of_checkDecls complete.upkeep.keeps_empty hdecls
  exact complete.upholds (complete.keeps_of_reportOpens hmiddle hrefs)

end Complete

/-! ### Linking -/

section Linking

variable {options : Options} {tree last linked : Tree}
  {refs others : List NodeId}

theorem Round.complete (h : Round options tree refs last others)
    (complete : tree.Complete) :
    last.Complete := by
  induction h with
  | nil tree => exact complete
  | link _ hset _ ih => exact ih (complete.setLink hset)
  | leave _ _ ih => exact ih complete

theorem Rounds.complete (h : Rounds options tree refs last others)
    (complete : tree.Complete) :
    last.Complete := by
  induction h with
  | stop _ => exact complete
  | round hround _ ih => exact ih (hround.complete complete)

theorem Complete.noteUnresolved (complete : tree.Complete)
    (h : tree.noteUnresolved refs = .ok linked) : linked.Complete := by
  induction refs generalizing tree with
  | nil =>
      cases h
      exact complete
  | cons ref refs ih =>
      rw [Tree.noteUnresolved] at h
      obtain ⟨construct, hconstruct, h⟩ := bind_eq_ok_iff.mp h
      cases construct with
      | reference text link =>
          obtain ⟨middle, hset, h⟩ := bind_eq_ok_iff.mp h
          exact ih (complete.setLink hset) h
      | _ => exact ih complete h

/-- Linking keeps a tree complete. -/
theorem Complete.link (complete : tree.Complete) {report : LinkReport}
    (h : tree.link options = .ok (linked, report)) : linked.Complete := by
  obtain ⟨refs, last, -, hrounds, hnote⟩ := link_eq_ok h
  exact (hrounds.complete complete).noteUnresolved hnote

end Linking

end Tree

/-! ### Sessions -/

/-- The sessions about a tree in which only types were asked for, in fresh
environments. -/
inductive Session.Synthesises (tree : Tree) (options : Options) :
    Session → Prop where
  | start : Synthesises tree options { tree, options }
  | newEnvironment {session : Session} (h : Synthesises tree options session) :
      Synthesises tree options session.newEnvironment.2
  | synth {session session' : Session} {cache : Nat} {node : NodeId} {ty : Ty}
      (h : Synthesises tree options session)
      (hsynth : session.synth ⟨cache, Scope.empty⟩ node = .ok (ty, session')) :
      Synthesises tree options session'

namespace Session

theorem pass_newEnvironment (session : Session) (env : Environment) :
    session.newEnvironment.2.pass env = session.pass env := by
  simp only [pass, newEnvironment, Array.getD_eq_getD_getElem?,
    Array.getElem?_push]
  split
  · next h => simp [h]
  · rfl

/-- A cache is that of the new pass, or it is as before. -/
theorem cache_withPass (session : Session) (env other : Environment)
    (pass : Pass) :
    ((session.withPass env pass).pass other).cache = pass.cache ∨
      ((session.withPass env pass).pass other).cache =
        (session.pass other).cache := by
  simp only [Session.pass, withPass, Array.getD_eq_getD_getElem?,
    Array.getElem?_setIfInBounds]
  split
  · next heq =>
      split
      · exact Or.inl rfl
      · next hsize =>
          right
          rw [← heq, Array.getElem?_eq_none (Nat.le_of_not_lt hsize)]
  · exact Or.inr rfl

end Session

namespace Tree

/-- All environments of such a session keep to the discipline. They share the
outcomes of checks. -/
theorem Complete.keeps_of_synthesises {tree : Tree} (complete : tree.Complete)
    {options : Options} {session : Session}
    (h : session.Synthesises tree options) :
    session.tree = tree ∧ ∀ env, complete.upkeep.Keeps (session.pass env) := by
  induction h with
  | start => exact ⟨rfl, fun env => complete.upkeep.keeps_empty⟩
  | @newEnvironment session h ih =>
      refine ⟨ih.1, fun env => ?_⟩
      rw [Session.pass_newEnvironment]
      exact ih.2 env
  | @synth session session' cache node ty h hsynth ih =>
      obtain ⟨rfl, hkeeps⟩ := ih
      obtain ⟨pass, hrun, rfl⟩ := Session.run_eq_ok_iff.mp hsynth
      have hpass := complete.keeps_of_synth (hkeeps _) hrun
      refine ⟨rfl, fun env => ⟨?_, hpass.memo⟩⟩
      rcases session.cache_withPass ⟨cache, Scope.empty⟩ env pass with heq | heq
      · rw [heq]
        exact hpass.cache
      · rw [heq]
        exact (hkeeps env).cache

/-- All types that are kept are regular: those that a check of a complete tree
knows in the end, with or without linking before it, and those that a session
has come to know. A check has an end if the declarations exist. -/
theorem kept_types_regular {tree : Tree} (complete : tree.Complete)
    (options : Options) :
    ((∀ root ∈ tree.roots, root < tree.size) →
      ∃ result, tree.checkModel options = .ok result) ∧
    (∀ result, tree.checkModel options = .ok result →
      ∃ review, tree.reviewed options [] = .ok review ∧ result = review.result ∧
        tree.Upholds review.pass.cache) ∧
    (∀ linked result, tree.linkAndCheck options = .ok (linked, result) →
      ∃ report review, tree.link options = .ok (linked, report) ∧
        linked.reviewed options report.unresolved = .ok review ∧
        result = review.result ∧
        linked.Upholds review.pass.cache) ∧
    ∀ session : Session, session.Synthesises tree options →
      ∀ cache ∈ session.caches, tree.Upholds cache := by
  refine ⟨fun hroots => ?_, fun result h => ?_, fun linked result h => ?_,
    fun session h cache hcache => ?_⟩
  · obtain ⟨review, -, hrun, -⟩ :=
      complete.exists_checkDecls options tree.roots hroots
      (show complete.upkeep.Keeps
        ({ log := Log.withLimit options.maxDiagnostics } : Review).pass
        from complete.upkeep.keeps_empty)
    exact ⟨review.result, checkModel_eq_ok_iff.mpr ⟨review, hrun, rfl⟩⟩
  · obtain ⟨review, hreview, rfl⟩ := review_eq_ok_iff_reviewed.mp h
    exact ⟨review, hreview, rfl, complete.upholds_of_reviewed hreview⟩
  · rw [linkAndCheck] at h
    obtain ⟨⟨linked', report⟩, hlink, h⟩ := bind_eq_ok_iff.mp h
    obtain ⟨result', hresult, h⟩ := bind_eq_ok_iff.mp h
    cases h
    obtain ⟨review, hreview, rfl⟩ := review_eq_ok_iff_reviewed.mp hresult
    exact ⟨report, review, hlink, hreview, rfl,
      (complete.link hlink).upholds_of_reviewed hreview⟩
  · obtain ⟨index, hindex, rfl⟩ := Array.mem_iff_getElem.mp hcache
    have hkeeps := (complete.keeps_of_synthesises h).2 ⟨index, Scope.empty⟩
    simpa [Session.pass, Array.getD, hindex] using complete.upholds hkeeps

/-- A model that no parser makes: a concept before its relation, a function
before its body and with one annotation for two slots, and in the body the name
of a variable that is its own value. -/
def tangledModel : Tree :=
  let named (name : String) : Ident := ⟨name, Span.unknown⟩
  ofConstructs [
    .keywordType "Integer", .concept (named "Box") [] [2],
    .relation (named "size") 0,
    .var (named "loop") none (some 3), .param (named "x"),
    .function (named "f") [4] [0, 0] 6,
    .binary .add 7 8, .reference "loop" (.resolved 3), .reference "y" .pending]
    [1, 5]

theorem tangledModel_complete : tangledModel.Complete where
  grown := grown_ofConstructs _ _
  parts := by decide +kernel
  links := by decide +kernel

theorem kept_types_regular_tangledModel : ¬ tangledModel.Closed ∧
    (∃ review, tangledModel.reviewed {} [] = .ok review ∧
      (review.pass.cache[5]?).any (·.isFunction) = true ∧
      tangledModel.Upholds review.pass.cache) ∧
    (∃ linked report review, tangledModel.link {} = .ok (linked, report) ∧
      linked.reviewed {} report.unresolved = .ok review ∧
      linked.Upholds review.pass.cache) ∧
    ∃ session : Session, session.Synthesises tangledModel {} ∧
      session.caches.size = 1 ∧
      ∀ cache ∈ session.caches, tangledModel.Upholds cache := by
  obtain ⟨hexists, hcheck, hlink, hsession⟩ :=
    kept_types_regular tangledModel_complete {}
  refine ⟨fun closed => ?_, ?_, ?_, ?_⟩
  · exact absurd (closed.before 1 (by decide) (.relation, 2) (by decide))
      (by decide)
  · obtain ⟨result, hresult⟩ := hexists (by decide)
    obtain ⟨review, hreview, -, hupholds⟩ := hcheck result hresult
    refine ⟨review, hreview, ?_, hupholds⟩
    have heval : (tangledModel.reviewed {} []).map
        (fun review => (review.pass.cache[5]?).any (·.isFunction)) =
        .ok true := by decide +kernel
    rw [hreview] at heval
    exact Except.ok.inj heval
  · have heval : (tangledModel.linkAndCheck {}).map (fun _ => ()) = .ok () := by
      decide +kernel
    cases h : tangledModel.linkAndCheck {} with
    | error e =>
        rw [h] at heval
        cases heval
    | ok out =>
        obtain ⟨report, review, hlinked, hreview, -, hupholds⟩ :=
          hlink out.1 out.2 h
        exact ⟨out.1, report, review, hlinked, hreview, hupholds⟩
  · let start : Session :=
      ({ tree := tangledModel, options := {} } : Session).newEnvironment.2
    have hstart : start.Synthesises tangledModel {} := .newEnvironment .start
    have heval : (start.synth ⟨0, Scope.empty⟩ 6).map (·.2.caches.size) =
        .ok 1 := by
      decide +kernel
    cases h : start.synth ⟨0, Scope.empty⟩ 6 with
    | error e =>
        rw [h] at heval
        cases heval
    | ok out =>
        have hsynth : out.2.Synthesises tangledModel {} := .synth hstart h
        rw [h] at heval
        exact ⟨out.2, hsynth, Except.ok.inj heval, hsession out.2 hsynth⟩

end Tree

end ConceptLang
