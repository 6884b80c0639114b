import ConceptLang.Proofs.CallChains
import ConceptLang.Proofs.Transcripts

/-!
# The scope of a transcript

In a well-formed tree only the check of a function against a function type
changes the scope, and no rule asks for such a check. So all types that are
asked for on the way to settle one check are asked for in one scope
(`Tree.transcript_scope`): the scope of the check, or this scope with the
parameters of a function bound.
-/

namespace ConceptLang

namespace Tree

/-- The judgement is made in the scope, and does not check a function. -/
def Stays (tree : Tree) (scope : Scope) : Judgement → Prop
  | .synth inner _ => inner = scope
  | .check inner node _ =>
      inner = scope ∧ ¬ tree.holds (·.isFunction) node = true

theorem not_isFunction_of_isExpression {tree : Tree} {id : NodeId}
    (h : tree.holds (·.isExpression) id = true) :
    ¬ tree.holds (·.isFunction) id = true := by
  obtain ⟨construct, hconstruct, hexpression⟩ := (holds_iff tree _ id).mp h
  refine not_holds hconstruct ?_
  cases construct <;> first | rfl | cases hexpression

section Scopes

variable {tree : Tree} (scope : Scope) (node : NodeId)

theorem stays_synth (id : NodeId) :
    (Rule.synth scope id).Always (tree.Stays scope) :=
  Rule.always_synth rfl

theorem stays_check {id : NodeId} (h : ¬ tree.holds (·.isFunction) id = true)
    (expected : Ty) :
    (Rule.check scope id expected).Always (tree.Stays scope) :=
  Rule.always_check ⟨rfl, h⟩

theorem stays_synthAll (nodes : List NodeId) :
    (Rule.synthAll scope nodes).Always (tree.Stays scope) :=
  Rule.always_synthAll fun id _ => (stays_synth scope id).1

theorem stays_checkAll (entries : List (NodeId × Ty))
    (h : ∀ entry ∈ entries, ¬ tree.holds (·.isFunction) entry.1 = true) :
    (Rule.checkAll scope entries).Always (tree.Stays scope) := by
  induction entries with
  | nil => trivial
  | cons entry entries ih =>
      obtain ⟨hentry, hentries⟩ := List.forall_mem_cons.mp h
      refine (stays_check scope hentry entry.2).bind fun ty => ?_
      split
      · trivial
      · exact ih hentries

theorem stays_predicateParams (params : List NodeId) :
    (tree.predicateParams scope params).Always (tree.Stays scope) := by
  induction params with
  | nil => trivial
  | cons id ids ih =>
      refine Rule.Always.lift fun construct _ => ?_
      split
      · refine (stays_synth scope id).bind fun ty => ?_
        split
        · trivial
        · refine ih.bind fun outcome => ?_
          split <;> trivial
      · trivial

theorem stays_synthParam (name : String) :
    (tree.synthParam scope node name).Always (tree.Stays scope) := by
  refine Rule.Always.lift fun parent _ => ?_
  cases parent with
  | none => trivial
  | some above =>
      refine (stays_synth scope above).bind fun ty => ?_
      split <;> trivial

theorem stays_synthRelation (name : String) (relatum : NodeId) :
    (tree.synthRelation scope node name relatum).Always (tree.Stays scope) := by
  refine Rule.Always.lift fun owner _ => ?_
  cases owner with
  | none => trivial
  | some owner =>
      refine (stays_synth scope relatum).bind fun ty => ?_
      split
      · trivial
      · exact fun _ => trivial

theorem stays_synthJoin (left field : NodeId) :
    (tree.synthJoin scope node left field).Always (tree.Stays scope) := by
  refine (stays_synth scope left).bind fun ty => ?_
  split
  · refine Rule.Always.lift fun construct _ => ?_
    split
    · refine Rule.Always.lift fun found _ => ?_
      split
      · trivial
      · exact (stays_synth scope _).bind fun _ => trivial
    · trivial
  · trivial

theorem stays_synthCall (callee : NodeId) {args : List NodeId}
    (h : ∀ id ∈ args, ¬ tree.holds (·.isFunction) id = true) :
    (synthCall scope node callee args).Always (tree.Stays scope) := by
  refine (stays_synth scope callee).bind fun ty => ?_
  split
  · split
    · trivial
    · refine Rule.Always.bind (stays_checkAll scope _ fun entry hentry => ?_)
        fun outcome => ?_
      · exact h entry.1 (List.of_mem_zip hentry).1
      · split <;> trivial
  · trivial

/-- The rules of synthesis stay in their scope. -/
theorem stays_synthRule (wf : tree.WellFormed) :
    (tree.synthRule scope node).Always (tree.Stays scope) := by
  refine Rule.Always.lift fun construct hconstruct => ?_
  have hnode : construct.isFunction = false →
      ¬ tree.holds (·.isFunction) node = true :=
    not_holds hconstruct
  cases construct with
  | reference text link =>
      cases link with
      | unresolved note => trivial
      | resolved target => exact stays_synth scope target
  | join left field => exact stays_synthJoin scope node left field
  | var name typeNode value =>
      cases typeNode with
      | some typeNode => exact stays_synth scope typeNode
      | none =>
          cases value with
          | none => trivial
          | some value => exact stays_synth scope value
  | param name => exact stays_synthParam scope node name.name
  | typedParam formal typeNode => exact stays_synth scope typeNode
  | conceptType ref =>
      change Rule.Always _ (Rule.ofExcept (tree.conceptType node ref))
      cases tree.conceptType node ref <;> trivial
  | relation name relatum =>
      exact stays_synthRelation scope node name.name relatum
  | binary op lhs rhs =>
      cases op with
      | mod => trivial
      | _ => exact stays_check scope (hnode rfl) _
  | function name params slots body =>
      change Rule.Always _ (synthFunction scope node name.name params slots)
      rw [synthFunction]
      split
      · trivial
      · refine (stays_synthAll scope slots).bind fun outcome => ?_
        split <;> trivial
  | call callee args =>
      refine stays_synthCall scope node callee fun id hid =>
        not_isFunction_of_isExpression ?_
      exact wf.holds_part .expression hconstruct
        (by simp [Construct.parts, hid])
  | predicate name params body =>
      refine (stays_predicateParams scope params).bind fun outcome => ?_
      split
      · trivial
      · exact stays_check scope (hnode rfl) _
  | _ => trivial

/-- The scope in which the parts of a node are looked at when the node is
checked. -/
def innerScope (tree : Tree) (scope : Scope) (node : NodeId) : Ty → Scope
  | .function params _ =>
      if tree.holds (·.isFunction) node then scope.extend params else scope
  | _ => scope

theorem innerScope_of_not_isFunction
    (h : ¬ tree.holds (·.isFunction) node = true) (expected : Ty) :
    tree.innerScope scope node expected = scope := by
  cases expected with
  | function params result => exact if_neg h
  | _ => rfl

/-- The rules of checking stay in the scope in which the parts of the node are
looked at. -/
theorem stays_checkRule (wf : tree.WellFormed) (expected : Ty) :
    (tree.checkRule scope node expected).Always
      (tree.Stays (tree.innerScope scope node expected)) := by
  refine Rule.Always.lift fun construct hconstruct => ?_
  have hpart : ∀ {id}, (Role.expression, id) ∈ construct.parts →
      ¬ tree.holds (·.isFunction) id = true := fun hid =>
    not_isFunction_of_isExpression (wf.holds_part .expression hconstruct hid)
  have hinner : construct.isFunction = false →
      tree.innerScope scope node expected = scope :=
    fun h => innerScope_of_not_isFunction scope node (not_holds hconstruct h)
      expected
  cases construct with
  | binary op lhs rhs =>
      rw [hinner rfl]
      refine (stays_check scope (hpart (by simp [Construct.parts]))
        expected).bind fun left => ?_
      split
      · trivial
      · refine (stays_check scope (hpart (by simp [Construct.parts]))
          expected).bind fun right => ?_
        split
        · trivial
        · split
          · trivial
          · refine (stays_synth scope lhs).bind fun _ => ?_
            exact (stays_synth scope rhs).bind fun _ => trivial
  | function name params slots body =>
      have hfunction : tree.holds (·.isFunction) node = true :=
        (holds_iff tree _ node).mpr ⟨_, hconstruct, rfl⟩
      cases expected with
      | function formals result =>
          rw [innerScope, if_pos hfunction]
          refine Rule.Always.bind
            (stays_check _ (hpart (by simp [Construct.parts])) result)
            fun ty => ?_
          split <;> trivial
      | _ => trivial
  | predicate name params body => trivial
  | conditional condition thenBranch elseBranch =>
      rw [hinner rfl]
      refine (stays_synth scope condition).bind fun conditionTy => ?_
      refine (stays_synth scope thenBranch).bind fun thenTy => ?_
      refine (stays_synth scope elseBranch).bind fun elseTy => ?_
      split
      · trivial
      · split
        · trivial
        · split <;> trivial
  | _ =>
      rw [hinner rfl]
      refine (stays_synth scope node).bind fun actual => ?_
      split <;> trivial

/-- What stays in a scope asks only for what does. -/
theorem Stays.always_rule (wf : tree.WellFormed) {judgement : Judgement}
    (h : tree.Stays scope judgement) :
    (tree.rule judgement).Always (tree.Stays scope) := by
  cases judgement with
  | synth inner id =>
      obtain rfl := h
      exact stays_synthRule _ id wf
  | check inner id expected =>
      obtain ⟨rfl, hfunction⟩ := h
      have hrule := stays_checkRule inner id wf expected
      rwa [innerScope_of_not_isFunction _ _ hfunction] at hrule

/-- All that is asked for to settle what stays in a scope stays there too. -/
theorem Stays.of_settleNoting (wf : tree.WellFormed) {limit room : Nat}
    {busy : List NodeId} {judgement : Judgement}
    (h : tree.Stays scope judgement) {diary diary' : Diary} {ty : Ty}
    (hrun : (tree.settleNoting limit room busy judgement).run diary =
      .ok (ty, diary')) :
    ∀ call ∈ diary'.calls, call ∈ diary.calls ∨
      tree.Stays scope call.judgement :=
  fun call hcall =>
    (tree.settleNoting_asks (fun _ hstays => Stays.always_rule scope wf hstays)
      h hrun call hcall).imp_right And.left

/-- All types that are asked for to settle a check are asked for in one scope,
and a bound one is what it is bound to. -/
theorem transcript_scope (wf : tree.WellFormed) {options : Options}
    {expected : Ty} {pass : Pass} {inner : Scope} {id : NodeId} {ty : Ty}
    (h : ⟨.synth inner id, ty⟩ ∈
      tree.transcript options (.check scope node expected) pass) :
    inner = tree.innerScope scope node expected ∧
      ∀ bound, inner.find? id = some bound → ty = bound := by
  rw [transcript] at h
  split at h
  · next out diary hrun =>
      have hclosed : ∀ judgement, (judgement = .check scope node expected ∨
          tree.Stays (tree.innerScope scope node expected) judgement) →
          (tree.rule judgement).Always fun premise =>
            premise = .check scope node expected ∨
            tree.Stays (tree.innerScope scope node expected) premise := by
        rintro judgement (rfl | hstays)
        · exact (stays_checkRule scope node wf expected).mono fun _ => Or.inr
        · exact (hstays.always_rule _ wf).mono fun _ => Or.inr
      obtain ⟨hask, hbound⟩ :=
        (tree.settleNoting_asks hclosed (Or.inl rfl) hrun _ h).resolve_left
          List.not_mem_nil
      exact ⟨hask.resolve_left (by simp), hbound⟩
  · cases h

end Scopes

end Tree

end ConceptLang
