import ConceptLang.Linking.Basic
import ConceptLang.Proofs.Discipline
import ConceptLang.Proofs.Walks

/-!
# Passes over closed trees

In a closed tree every judgement about a node is settled, and every look-up of a
name has a result, whatever the nodes say: their parts need not be of the right
kinds, and may be shared.

A rule can only fail at an identity without a node. The identities that it meets
are parts, parents and targets, which are nodes, and the concepts that types
mention. So the discipline (`Tree.Closed.typing`) is that types mention only
nodes.
-/

namespace ConceptLang

/-- Every concept that the type mentions is one of the first `size` nodes. -/
inductive Ty.Inside (size : Nat) : Ty → Prop where
  | boolean (literal : Option NodeId) : Inside size (.boolean literal)
  | string (literal : Option NodeId) : Inside size (.string literal)
  | integer (literal : Option NodeId) : Inside size (.integer literal)
  | unit : Inside size .unit
  | function {params : List (NodeId × Ty)} {result : Ty}
      (hparams : ∀ param ∈ params, Inside size param.2)
      (hresult : Inside size result) : Inside size (.function params result)
  | predicate {params : List (NodeId × Ty)}
      (hparams : ∀ param ∈ params, Inside size param.2) :
      Inside size (.predicate params)
  | concept {concept : Concept} (h : concept.decl < size) :
      Inside size (.concept concept)
  | relation {stamp : Nat} {decl : NodeId} {name : String} {owner : Concept}
      {relatum : Ty} (h : Inside size relatum) :
      Inside size (.relation stamp decl name owner relatum)
  | error (e : TypeError) : Inside size (.error e)

theorem Ty.Inside.fault {size : Nat} (node : NodeId) (cause : Fault) :
    (Ty.fault node cause).Inside size :=
  .error _

theorem Ty.Inside.decl_lt {size : Nat} {concept : Concept}
    (h : (Ty.concept concept).Inside size) :
    concept.decl < size := by
  cases h with
  | concept h => exact h

/-- The types that the scope binds mention only the first `size` nodes. -/
def Scope.Inside (size : Nat) (scope : Scope) : Prop :=
  ∀ binding ∈ scope.bindings, binding.2.Inside size

theorem Scope.Inside.extend {size : Nat} {scope : Scope}
    {bindings : List (NodeId × Ty)} (h : scope.Inside size)
    (hbindings : ∀ binding ∈ bindings, binding.2.Inside size) :
    (scope.extend bindings).Inside size := by
  intro binding hbinding
  rcases List.mem_append.mp hbinding with hnew | hold
  · exact hbindings binding (List.mem_reverse.mp hnew)
  · exact h binding hold

/-- The judgement is about one of the first `size` nodes, and mentions no
others. -/
inductive Judgement.Inside (size : Nat) : Judgement → Prop where
  | synth {scope : Scope} {node : NodeId} (hscope : scope.Inside size)
      (h : node < size) : Inside size (.synth scope node)
  | check {scope : Scope} {node : NodeId} {expected : Ty}
      (hscope : scope.Inside size) (h : node < size)
      (hexpected : expected.Inside size) :
      Inside size (.check scope node expected)

namespace Tree

/-! ### The rules -/

section Rules

variable {tree : Tree} (closed : tree.Closed) {scope : Scope}
  (hscope : scope.Inside tree.size) {node : NodeId}

include hscope

theorem inside_synth (h : node < tree.size) :
    (Rule.synth scope node).Meets (·.Inside tree.size)
      (fun _ ty => ty.Inside tree.size) (·.Inside tree.size) :=
  Rule.meets_synth scope node (.synth hscope h)

theorem inside_check (h : node < tree.size) {expected : Ty}
    (hexpected : expected.Inside tree.size) :
    (Rule.check scope node expected).Meets (·.Inside tree.size)
      (fun _ ty => ty.Inside tree.size) (·.Inside tree.size) :=
  Rule.meets_check scope node expected (.check hscope h hexpected)

theorem inside_synthAll (nodes : List NodeId)
    (h : ∀ id ∈ nodes, id < tree.size) :
    (Rule.synthAll scope nodes).Meets (·.Inside tree.size)
      (fun _ ty => ty.Inside tree.size)
      (fun outcome => ∀ types, outcome = .ok types →
        ∀ ty ∈ types, ty.Inside tree.size) := by
  induction nodes with
  | nil =>
      rintro types ⟨⟩
      simp
  | cons id ids ih =>
      have hrest := ih fun other hother => h other (by simp [hother])
      refine (inside_synth hscope (h id (by simp))).bind fun ty hty => ?_
      cases ty with
      | error e => rintro types ⟨⟩
      | _ =>
          refine hrest.bind fun outcome houtcome => ?_
          cases outcome with
          | error e => rintro types ⟨⟩
          | ok types =>
              rintro _ ⟨⟩
              exact List.forall_mem_cons.mpr ⟨hty, houtcome types rfl⟩

theorem inside_checkAll (pairs : List (NodeId × Ty))
    (h : ∀ pair ∈ pairs, pair.1 < tree.size ∧ pair.2.Inside tree.size) :
    (Rule.checkAll scope pairs).Meets (·.Inside tree.size)
      (fun _ ty => ty.Inside tree.size) (fun _ => True) := by
  induction pairs with
  | nil => trivial
  | cons pair pairs ih =>
      obtain ⟨hnode, hty⟩ := h pair (by simp)
      refine (inside_check hscope hnode hty).bind fun ty _ => ?_
      cases ty with
      | error e => trivial
      | _ => exact ih fun other hother => h other (by simp [hother])

theorem inside_predicateParams (params : List NodeId)
    (h : ∀ id ∈ params, id < tree.size) :
    (tree.predicateParams scope params).Meets (·.Inside tree.size)
      (fun _ ty => ty.Inside tree.size)
      (fun outcome => ∀ bindings, outcome = .ok bindings →
        ∀ binding ∈ bindings, binding.2.Inside tree.size) := by
  induction params with
  | nil =>
      rintro bindings ⟨⟩
      simp
  | cons id ids ih =>
      have hrest := ih fun other hother => h other (by simp [hother])
      obtain ⟨construct, hconstruct⟩ := exists_construct (h id (by simp))
      refine Rule.Meets.lift hconstruct ?_
      cases construct with
      | typedParam formal typeNode =>
          refine (inside_synth hscope (h id (by simp))).bind fun ty hty => ?_
          cases ty with
          | error e => rintro bindings ⟨⟩
          | _ =>
              refine hrest.bind fun outcome houtcome => ?_
              cases outcome with
              | error e => rintro bindings ⟨⟩
              | ok bindings =>
                  rintro _ ⟨⟩
                  exact List.forall_mem_cons.mpr ⟨hty, houtcome bindings rfl⟩
      | _ => rintro bindings ⟨⟩

theorem inside_synthFunction (name : String) {params slots : List NodeId}
    (hslots : ∀ id ∈ slots, id < tree.size) :
    (synthFunction scope node name params slots).Meets (·.Inside tree.size)
      (fun _ ty => ty.Inside tree.size) (·.Inside tree.size) := by
  rw [synthFunction]
  split
  · exact .fault node _
  · refine (inside_synthAll hscope slots hslots).bind fun outcome houtcome => ?_
    cases outcome with
    | error e => exact .error e
    | ok types =>
        have htypes := houtcome types rfl
        refine .function (fun param hparam =>
          htypes _ (List.of_mem_zip hparam).2) ?_
        cases hlast : types.getLast? with
        | none => exact .unit
        | some result => exact htypes result (List.mem_of_getLast? hlast)

theorem inside_synthCall {callee : NodeId} {args : List NodeId}
    (hcallee : callee < tree.size) (hargs : ∀ id ∈ args, id < tree.size) :
    (synthCall scope node callee args).Meets (·.Inside tree.size)
      (fun _ ty => ty.Inside tree.size) (·.Inside tree.size) := by
  refine (inside_synth hscope hcallee).bind fun ty hty => ?_
  cases hty with
  | function hparams hresult =>
      dsimp only
      split
      · exact .fault node _
      · refine (inside_checkAll hscope _ fun pair hpair => ?_).bind
          fun outcome _ => ?_
        · obtain ⟨harg, hty⟩ := List.of_mem_zip hpair
          obtain ⟨param, hparam, heq⟩ := List.mem_map.mp hty
          exact ⟨hargs _ harg, heq ▸ hparams param hparam⟩
        · cases outcome with
          | some e => exact .error e
          | none => exact hresult
  | _ => exact .fault node _

theorem inside_synthPredicate (h : node < tree.size) {params : List NodeId}
    (hparams : ∀ id ∈ params, id < tree.size) :
    (tree.synthPredicate scope node params).Meets (·.Inside tree.size)
      (fun _ ty => ty.Inside tree.size) (·.Inside tree.size) := by
  refine (inside_predicateParams hscope params hparams).bind
    fun outcome houtcome => ?_
  cases outcome with
  | error e => exact .error e
  | ok bindings =>
      exact inside_check hscope h (.predicate (houtcome bindings rfl))

theorem inside_synthBinary (h : node < tree.size) (op : Operator) :
    (synthBinary scope node op).Meets (·.Inside tree.size)
      (fun _ ty => ty.Inside tree.size) (·.Inside tree.size) := by
  cases op with
  | mod => exact .fault node _
  | or | and | eq | ne | lt | gt | le | ge =>
      exact inside_check hscope h (.boolean none)
  | add | sub | mul | div => exact inside_check hscope h (.integer none)

theorem inside_checkBinary (op : Operator) {lhs rhs : NodeId}
    (hlhs : lhs < tree.size) (hrhs : rhs < tree.size) {expected : Ty}
    (hexpected : expected.Inside tree.size) :
    (checkBinary scope node op lhs rhs expected).Meets (·.Inside tree.size)
      (fun _ ty => ty.Inside tree.size) (·.Inside tree.size) := by
  refine (inside_check hscope hlhs hexpected).bind fun left hleft => ?_
  split
  · exact hleft
  · refine (inside_check hscope hrhs hexpected).bind fun right hright => ?_
    split
    · exact hright
    · split
      · exact hexpected
      · refine (inside_synth hscope hlhs).bind fun left _ => ?_
        exact (inside_synth hscope hrhs).bind fun right _ => .fault node _

theorem inside_checkFunction (name : String) {body : NodeId}
    (hbody : body < tree.size) {expected : Ty}
    (hexpected : expected.Inside tree.size) :
    (checkFunction scope node name body expected).Meets (·.Inside tree.size)
      (fun _ ty => ty.Inside tree.size) (·.Inside tree.size) := by
  cases hexpected with
  | function hparams hresult =>
      refine (inside_check (hscope.extend hparams) hbody hresult).bind
        fun ty hty => ?_
      cases ty with
      | error e => exact .error e
      | _ => exact .function hparams hresult
  | _ => exact .fault node _

theorem inside_checkConditional {condition thenBranch elseBranch : NodeId}
    (hcondition : condition < tree.size) (hthen : thenBranch < tree.size)
    (helse : elseBranch < tree.size) {expected : Ty}
    (hexpected : expected.Inside tree.size) :
    (checkConditional scope node condition thenBranch elseBranch expected).Meets
      (·.Inside tree.size) (fun _ ty => ty.Inside tree.size)
      (·.Inside tree.size) := by
  refine (inside_synth hscope hcondition).bind fun conditionTy _ => ?_
  refine (inside_synth hscope hthen).bind fun thenTy _ => ?_
  refine (inside_synth hscope helse).bind fun elseTy _ => ?_
  split
  · exact .fault node _
  · split
    · exact .fault node _
    · split
      · exact .fault node _
      · exact hexpected

theorem inside_checkBySynthesis (h : node < tree.size) {expected : Ty}
    (hexpected : expected.Inside tree.size) :
    (checkBySynthesis scope node expected).Meets (·.Inside tree.size)
      (fun _ ty => ty.Inside tree.size) (·.Inside tree.size) := by
  refine (inside_synth hscope h).bind fun actual _ => ?_
  split
  · exact hexpected
  · exact .fault node _

include closed

theorem inside_synthParam (h : node < tree.size) (name : String) :
    (tree.synthParam scope node name).Meets (·.Inside tree.size)
      (fun _ ty => ty.Inside tree.size) (·.Inside tree.size) := by
  obtain ⟨parent, hparent⟩ := exists_parent h
  refine Rule.Meets.lift hparent ?_
  cases parent with
  | none => exact .fault node _
  | some above =>
      refine (inside_synth hscope (closed.complete.parent_lt_size hparent)).bind
        fun ty hty => ?_
      cases hty with
      | function hparams hresult =>
          rename_i params result
          dsimp only
          cases hparam : paramType? params node with
          | none => exact .fault node _
          | some ty => exact hparams _ (mem_of_lookup hparam)
      | _ => exact .fault node _

theorem inside_synthRelation (h : node < tree.size) (name : String)
    {relatum : NodeId} (hrelatum : relatum < tree.size) :
    (tree.synthRelation scope node name relatum).Meets (·.Inside tree.size)
      (fun _ ty => ty.Inside tree.size) (·.Inside tree.size) := by
  obtain ⟨owner, howner⟩ := closed.complete.exists_owner? h
  refine Rule.Meets.lift howner ?_
  cases owner with
  | none => exact .fault node _
  | some owner =>
      refine (inside_synth hscope hrelatum).bind fun ty hty => ?_
      cases ty with
      | error e => exact .error e
      | _ => exact fun stamp => .relation hty

theorem inside_synthJoin {left field : NodeId} (hleft : left < tree.size)
    (hfield : field < tree.size) :
    (tree.synthJoin scope node left field).Meets (·.Inside tree.size)
      (fun _ ty => ty.Inside tree.size) (·.Inside tree.size) := by
  refine (inside_synth hscope hleft).bind fun ty hty => ?_
  cases hty with
  | concept hdecl =>
      obtain ⟨construct, hconstruct⟩ := exists_construct hfield
      refine Rule.Meets.lift hconstruct ?_
      cases construct with
      | reference text link =>
          obtain ⟨found, hfound, hdeclares⟩ :=
            closed.complete.yields_findRelation hdecl text
          refine Rule.Meets.lift hfound ?_
          cases found with
          | none => exact .fault node _
          | some pair =>
              obtain ⟨foundOn, relation⟩ := pair
              have hrelation :=
                closed.complete.declares_lt_size
                  (hdeclares foundOn relation rfl)
              refine (inside_synth hscope hrelation).bind fun ty hty => ?_
              cases hty with
              | relation hrelatum =>
                  simp only [joinThrough, Rule.pure_eq, Rule.Meets]
                  split
                  · exact hrelatum
                  · exact .fault node _
              | _ => exact .fault node _
      | _ => exact .fault node _
  | _ => exact .fault node _

omit scope hscope in
theorem inside_conceptType {ref : NodeId} (href : ref < tree.size) :
    Yields (tree.conceptType node ref) (·.Inside tree.size) := by
  rw [conceptType]
  refine (yields_construct href).bind fun construct _ _ => ?_
  refine (closed.complete.yields_target href).bind fun target _ htarget => ?_
  cases target with
  | none => exact yields_ok (.fault node _)
  | some decl =>
      refine (yields_construct (htarget decl rfl)).bind fun construct _ _ => ?_
      cases construct with
      | concept name parents relations =>
          exact yields_ok (.concept (htarget decl rfl))
      | _ => exact yields_ok (.fault node _)

/-- The rules of synthesis mention only nodes. -/
theorem inside_synthRule (h : node < tree.size) :
    (tree.synthRule scope node).Meets (·.Inside tree.size)
      (fun _ ty => ty.Inside tree.size) (·.Inside tree.size) := by
  obtain ⟨construct, hconstruct⟩ := exists_construct h
  have hpart : ∀ part, part ∈ construct.children →
      part < tree.size := fun part =>
    closed.complete.part_lt_size hconstruct
  refine Rule.Meets.lift hconstruct ?_
  cases construct with
  | reference text link =>
      cases link with
      | resolved target =>
          exact inside_synth hscope (closed.complete.target_lt_size hconstruct)
      | unresolved note => exact .fault node _
  | join left field =>
      exact inside_synthJoin closed hscope
        (hpart left (by simp [Construct.children]))
        (hpart field (by simp [Construct.children]))
  | stringLit value => exact .string _
  | boolLit value => exact .boolean _
  | intLit value => exact .integer _
  | var name typeNode value =>
      cases typeNode with
      | some typeNode =>
          exact inside_synth hscope
            (hpart typeNode (by simp [Construct.children]))
      | none =>
          cases value with
          | some value =>
              exact inside_synth hscope
                (hpart value (by simp [Construct.children]))
          | none => exact .fault node _
  | param name => exact inside_synthParam closed hscope h name.name
  | typedParam formal typeNode =>
      exact inside_synth hscope (hpart typeNode (by simp [Construct.children]))
  | keywordType keyword =>
      simp only [keywordType, Rule.pure_eq, Rule.Meets]
      split
      · exact .string none
      · split
        · exact .integer none
        · split
          · exact .boolean none
          · exact .fault node _
  | conceptType ref =>
      obtain ⟨ty, hty, hinside⟩ :
          Yields (tree.conceptType node ref) (·.Inside tree.size) :=
        inside_conceptType closed (hpart ref (by simp [Construct.children]))
      dsimp only
      rw [hty]
      exact hinside
  | concept name parents relations => exact .concept h
  | relation name relatum =>
      exact inside_synthRelation closed hscope h name.name
        (hpart relatum (by simp [Construct.children]))
  | binary op lhs rhs => exact inside_synthBinary hscope h op
  | function name params slots body =>
      exact inside_synthFunction hscope name.name fun id hid =>
        hpart id (by simp [Construct.children, hid])
  | call callee args =>
      exact inside_synthCall hscope
        (hpart callee (by simp [Construct.children])) fun id hid =>
        hpart id (by simp [Construct.children, hid])
  | predicate name params body =>
      exact inside_synthPredicate hscope h fun id hid =>
        hpart id (by simp [Construct.children, hid])
  | conditional condition thenBranch elseBranch => exact .fault node _

/-- The rules of checking mention only nodes. -/
theorem inside_checkRule (h : node < tree.size) {expected : Ty}
    (hexpected : expected.Inside tree.size) :
    (tree.checkRule scope node expected).Meets (·.Inside tree.size)
      (fun _ ty => ty.Inside tree.size) (·.Inside tree.size) := by
  obtain ⟨construct, hconstruct⟩ := exists_construct h
  have hpart : ∀ part, part ∈ construct.children →
      part < tree.size := fun part =>
    closed.complete.part_lt_size hconstruct
  refine Rule.Meets.lift hconstruct ?_
  cases construct with
  | binary op lhs rhs =>
      exact inside_checkBinary hscope op
        (hpart lhs (by simp [Construct.children]))
        (hpart rhs (by simp [Construct.children])) hexpected
  | function name params slots body =>
      exact inside_checkFunction hscope name.name
        (hpart body (by simp [Construct.children]))
        hexpected
  | predicate name params body => exact .fault node _
  | conditional condition thenBranch elseBranch =>
      exact inside_checkConditional hscope
        (hpart condition (by simp [Construct.children]))
        (hpart thenBranch (by simp [Construct.children]))
        (hpart elseBranch (by simp [Construct.children])) hexpected
  | _ => exact inside_checkBySynthesis hscope h hexpected

end Rules

/-! ### Look-ups of names -/

section Candidates

variable {tree : Tree} {options : Options} {scope : Scope} {ref : NodeId}
  {pass : Pass}

/-- A field whose parent is the join may name what the join has candidates
for. -/
theorem contextOf_of_parent {join left : NodeId}
    (hparent : tree.parent ref = .ok (some join))
    (hjoin : tree.construct join = .ok (.join left ref)) :
    tree.contextOf ref = .ok (.joinField join) := by
  rw [contextOf, hparent]
  simp only [bind, Except.bind, hjoin, RefContext.ofPart]
  simp [pure, Except.pure]

/-- The field of a join is a part of that join. -/
theorem construct_of_joinField {join : NodeId}
    (h : tree.contextOf ref = .ok (.joinField join)) :
    ∃ left, tree.construct join = .ok (.join left ref) := by
  rw [contextOf] at h
  obtain ⟨parent, -, h⟩ := bind_eq_ok_iff.mp h
  cases parent with
  | none => cases h
  | some above =>
      obtain ⟨construct, hconstruct, h⟩ := bind_eq_ok_iff.mp h
      have heq := Except.ok.inj h
      cases construct with
      | join left field =>
          rw [RefContext.ofPart] at heq
          split at heq
          · next hfield =>
              cases heq
              exact ⟨left, hfield ▸ hconstruct⟩
          · cases heq
      | concept name parents relations =>
          rw [RefContext.ofPart] at heq
          split at heq <;> cases heq
      | call callee args =>
          rw [RefContext.ofPart] at heq
          split at heq <;> cases heq
      | _ => cases heq

theorem run_candidates_lexical {context : RefContext}
    (h : tree.contextOf ref = .ok context)
    (hjoin : ∀ join, context ≠ .joinField join) :
    (tree.candidates options Scope.empty ref).run pass =
      (tree.lexicalScope ref context).map fun entries => (entries, pass) := by
  rw [candidates, h, run_bind_of_ok (run_look _ _)]
  cases context with
  | joinField join => exact absurd rfl (hjoin join)
  | _ => exact run_look _ _

theorem run_candidates_of_joinField {join : NodeId}
    (h : tree.contextOf ref = .ok (.joinField join)) :
    (tree.candidates options scope ref).run pass =
      (tree.joinCandidates options scope join).run pass := by
  rw [candidates, h, run_bind_of_ok (run_look _ _)]

/-- A join whose left side is a concept has the relations visible on it as
candidates. -/
theorem run_joinCandidates_concept {join left field : NodeId}
    {concept : Concept} {pass' : Pass}
    (hjoin : tree.construct join = .ok (.join left field))
    (hrun : (tree.synth options scope left).run pass =
      .ok (.concept concept, pass')) :
    (tree.joinCandidates options scope join).run pass =
      (tree.relationCandidates concept.decl).map fun entries =>
        (entries, pass') := by
  rw [joinCandidates, hjoin, run_bind_of_ok (run_look _ _)]
  exact (run_bind_of_ok hrun _).trans (run_look _ _)

section Join

variable {join left : NodeId} {pass' : Pass}
  (h : tree.contextOf ref = .ok (.joinField join))
  (hconstruct : tree.construct join = .ok (.join left ref))

include h hconstruct

theorem run_candidates_join {ty : Ty}
    (hrun : (tree.synth options Scope.empty left).run pass = .ok (ty, pass'))
    (hty : ∀ concept, ty ≠ .concept concept) :
    (tree.candidates options Scope.empty ref).run pass = .ok ([], pass') := by
  rw [run_candidates_of_joinField h, joinCandidates, hconstruct,
    run_bind_of_ok (run_look _ _)]
  refine (run_bind_of_ok hrun _).trans ?_
  cases ty with
  | concept concept => exact absurd rfl (hty concept)
  | _ => rfl

theorem run_candidates_join_concept {concept : Concept}
    (hrun : (tree.synth options Scope.empty left).run pass =
      .ok (.concept concept, pass')) :
    (tree.candidates options Scope.empty ref).run pass =
      (tree.relationCandidates concept.decl).map fun entries =>
        (entries, pass') := by
  rw [run_candidates_of_joinField h, run_joinCandidates_concept hconstruct hrun]

end Join

theorem resolveAfresh_eq {text : String} {link : Link}
    {entries : List (String × NodeId)} {pass : Pass}
    (h : tree.construct ref = .ok (.reference text link))
    (hrun : (tree.candidates options Scope.empty ref).run {} =
      .ok (entries, pass)) :
    tree.resolveAfresh options ref = .ok (entries.lookup text) := by
  rw [resolveAfresh, StateT.run'_eq, resolve, h, run_bind_of_ok (run_look _ _),
    run_bind_of_ok hrun]
  rfl

theorem resolveAfresh_of_lexical {text : String} {link : Link}
    {context : RefContext} {entries : List (String × NodeId)}
    (h : tree.construct ref = .ok (.reference text link))
    (hcontext : tree.contextOf ref = .ok context)
    (hjoin : ∀ join, context ≠ .joinField join)
    (hentries : tree.lexicalScope ref context = .ok entries) :
    tree.resolveAfresh options ref = .ok (entries.lookup text) := by
  have hrun : (tree.candidates options Scope.empty ref).run {} =
      .ok (entries, {}) := by
    rw [run_candidates_lexical hcontext hjoin, hentries]
    rfl
  exact resolveAfresh_eq h hrun

theorem resolveAfresh_of_not_reference {construct : Construct}
    (h : tree.construct ref = .ok construct)
    (hkind : construct.isReference = false) :
    tree.resolveAfresh options ref = .ok none := by
  rw [resolveAfresh, StateT.run'_eq, resolve, h, run_bind_of_ok (run_look _ _)]
  cases construct with
  | reference text link => cases hkind
  | _ => rfl

end Candidates

namespace Closed

variable {tree : Tree} (closed : tree.Closed)

/-- The discipline that types mention only nodes. -/
def typing : tree.Discipline where
  ask := (·.Inside tree.size)
  answer := fun _ ty => ty.Inside tree.size
  inside := by
    rintro _ (⟨-, h⟩ | ⟨-, h, -⟩) <;> exact h
  bound := by
    rintro scope node ty ⟨hscope, -⟩ hfind
    exact hscope (node, ty) (mem_of_lookup hfind)
  scopes := fun _ _ _ _ _ _ h => h
  checks := fun _ _ _ _ _ _ _ _ _ h => h
  rule := by
    rintro _ (⟨hscope, h⟩ | ⟨hscope, h, hexpected⟩)
    · exact inside_synthRule closed hscope h
    · exact inside_checkRule closed hscope h hexpected
  fault := fun judgement cause _ => .fault judgement.node cause

include closed

/-- A pass that remembers nothing finds a type for every node. -/
theorem exists_synth (options : Options) {node : NodeId}
    (h : node < tree.size) :
    ∃ ty pass, (tree.synth options Scope.empty node).run {} = .ok (ty, pass) ∧
      ty.Inside tree.size := by
  have hask : Judgement.Inside tree.size (.synth Scope.empty node) :=
    .synth (fun _ hbinding => absurd hbinding List.not_mem_nil) h
  obtain ⟨ty, pass, hrun, -, hty⟩ :=
    closed.typing.settle options.maxDepth options.maxDepth []
    (.synth Scope.empty node) hask closed.typing.keeps_empty
  exact ⟨ty, pass, hrun, hty⟩

/-- A pass that remembers nothing finds what a name may mean. -/
theorem exists_candidates (hroots : ∀ root ∈ tree.roots, root < tree.size)
    (options : Options) {ref : NodeId} (h : ref < tree.size) :
    ∃ entries pass, (tree.candidates options Scope.empty ref).run {} =
      .ok (entries, pass) ∧ ∀ entry ∈ entries, entry.2 < tree.size := by
  obtain ⟨context, hcontext, -⟩ := closed.complete.yields_contextOf h
  by_cases hjoin : ∃ join, context = .joinField join
  · obtain ⟨join, rfl⟩ := hjoin
    obtain ⟨left, hconstruct⟩ := construct_of_joinField hcontext
    obtain ⟨ty, pass, hrun, hty⟩ := closed.exists_synth options
      (closed.complete.part_lt_size hconstruct
        (show left ∈ _ by simp [Construct.children]))
    by_cases hconcept : ∃ concept, ty = .concept concept
    · obtain ⟨concept, rfl⟩ := hconcept
      obtain ⟨entries, hentries, hlt⟩ :=
        closed.complete.yields_relationCandidates hty.decl_lt
      refine ⟨entries, pass, ?_, hlt⟩
      rw [run_candidates_join_concept hcontext hconstruct hrun, hentries]
      rfl
    · refine ⟨[], pass, ?_, by simp⟩
      exact run_candidates_join hcontext hconstruct hrun fun concept heq =>
        hconcept ⟨concept, heq⟩
  · obtain ⟨entries, hentries, hlt⟩ :=
      closed.complete.yields_lexicalScope hroots h context
    refine ⟨entries, {}, ?_, hlt⟩
    rw [run_candidates_lexical hcontext fun join heq => hjoin ⟨join, heq⟩,
      hentries]
    rfl

/-- A name means one of its candidates or nothing. -/
theorem yields_resolveAfresh (hroots : ∀ root ∈ tree.roots, root < tree.size)
    (options : Options) {ref : NodeId} (h : ref < tree.size) :
    Yields (tree.resolveAfresh options ref)
      (fun found => ∀ target, found = some target → target < tree.size) := by
  obtain ⟨construct, hconstruct⟩ := exists_construct h
  obtain ⟨entries, pass, hrun, hlt⟩ := closed.exists_candidates hroots options h
  cases construct with
  | reference text link =>
      rw [resolveAfresh_eq hconstruct hrun]
      exact yields_ok fun target htarget => hlt _ (mem_of_lookup htarget)
  | _ => exact ⟨none, resolveAfresh_of_not_reference hconstruct rfl, by simp⟩

end Closed

/-- Why the reference `ref` names `target`: its lexical scope has an entry with
that name, or it is the field of a join and the name means that relation on the
concept on the left. -/
inductive Means (tree : Tree) (options : Options) (ref target : NodeId) :
    Prop where
  | lexical {text : String} {link : Link} {context : RefContext}
      {entries : List (String × NodeId)}
      (h : tree.construct ref = .ok (.reference text link))
      (hcontext : tree.contextOf ref = .ok context)
      (hjoin : ∀ join, context ≠ .joinField join)
      (hentries : tree.lexicalScope ref context = .ok entries)
      (hlookup : entries.lookup text = some target)
  | field {text : String} {link : Link} {join left owner : NodeId}
      {concept : Concept} {pass : Pass}
      (h : tree.construct ref = .ok (.reference text link))
      (hcontext : tree.contextOf ref = .ok (.joinField join))
      (hjoin : tree.construct join = .ok (.join left ref))
      (hleft : (tree.synth options Scope.empty left).run {} =
        .ok (.concept concept, pass))
      (hfound : tree.findRelation concept.decl text =
        .ok (some (owner, target)))

namespace Closed

variable {tree : Tree} (closed : tree.Closed) {options : Options} {ref : NodeId}
  {text : String} {link : Link}

include closed

/-- The field of a join names the relation that is found on the concept on the
left. -/
theorem resolveAfresh_of_join {join left : NodeId} {concept : Concept}
    {pass : Pass} {found : Option (NodeId × NodeId)}
    (h : tree.construct ref = .ok (.reference text link))
    (hcontext : tree.contextOf ref = .ok (.joinField join))
    (hjoin : tree.construct join = .ok (.join left ref))
    (hleft : (tree.synth options Scope.empty left).run {} =
      .ok (.concept concept, pass))
    (hfound : tree.findRelation concept.decl text = .ok found) :
    tree.resolveAfresh options ref = .ok (found.map (·.2)) := by
  obtain ⟨ty, pass', hleft', hty⟩ := closed.exists_synth options
    (closed.complete.part_lt_size hjoin
      (show left ∈ _ by simp [Construct.children]))
  obtain ⟨rfl, rfl⟩ : .concept concept = ty ∧ pass = pass' := by
    simpa using hleft.symm.trans hleft'
  obtain ⟨entries, hentries, -⟩ :=
    closed.complete.yields_relationCandidates hty.decl_lt
  have hrun := run_candidates_join_concept hcontext hjoin hleft
  rw [hentries] at hrun
  rw [resolveAfresh_eq h hrun,
    Complete.lookup_relationCandidates hfound hentries]

/-- A reference names what it means. -/
theorem resolveAfresh_eq_some_iff
    (hroots : ∀ root ∈ tree.roots, root < tree.size) {target : NodeId}
    (href : ref < tree.size) :
    tree.resolveAfresh options ref = .ok (some target) ↔
      tree.Means options ref target := by
  constructor
  · intro h
    obtain ⟨construct, hconstruct⟩ := exists_construct href
    obtain ⟨text, link, rfl⟩ : ∃ text link,
        construct = .reference text link := by
      cases construct with
      | reference text link => exact ⟨text, link, rfl⟩
      | _ =>
          rw [resolveAfresh_of_not_reference hconstruct rfl] at h
          cases h
    obtain ⟨context, hcontext, -⟩ := closed.complete.yields_contextOf href
    by_cases hjoin : ∃ join, context = .joinField join
    · obtain ⟨join, rfl⟩ := hjoin
      obtain ⟨left, hjoin⟩ := construct_of_joinField hcontext
      obtain ⟨ty, pass, hleft, hty⟩ := closed.exists_synth options
        (closed.complete.part_lt_size hjoin
          (show left ∈ _ by simp [Construct.children]))
      by_cases hconcept : ∃ concept, ty = .concept concept
      · obtain ⟨concept, rfl⟩ := hconcept
        obtain ⟨found, hfound, -⟩ :=
          closed.complete.yields_findRelation hty.decl_lt text
        rw [closed.resolveAfresh_of_join hconstruct hcontext hjoin hleft hfound]
          at h
        obtain ⟨⟨owner, relation⟩, rfl, rfl⟩ :=
          Option.map_eq_some_iff.mp (Except.ok.inj h)
        exact .field hconstruct hcontext hjoin hleft hfound
      · have hrun := run_candidates_join hcontext hjoin hleft fun concept heq =>
          hconcept ⟨concept, heq⟩
        rw [resolveAfresh_eq hconstruct hrun] at h
        cases h
    · obtain ⟨entries, hentries, -⟩ :=
        closed.complete.yields_lexicalScope hroots href context
      have hlexical : ∀ join, context ≠ .joinField join :=
        fun join heq => hjoin ⟨join, heq⟩
      rw [resolveAfresh_of_lexical hconstruct hcontext hlexical hentries] at h
      exact .lexical hconstruct hcontext hlexical hentries (Except.ok.inj h)
  · rintro (⟨h, hcontext, hjoin, hentries, hlookup⟩ |
      ⟨h, hcontext, hjoin, hleft, hfound⟩)
    · rw [resolveAfresh_of_lexical h hcontext hjoin hentries, hlookup]
    · rw [closed.resolveAfresh_of_join h hcontext hjoin hleft hfound]
      rfl

end Closed

end Tree

end ConceptLang
