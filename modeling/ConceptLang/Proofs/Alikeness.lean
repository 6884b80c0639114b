import ConceptLang.Proofs.Soundness

/-!
# Rules do not look at stamps or scopes

Types that differ in the stamp of a relation are shown alike, and no rule tells
them apart: a relation type is only taken apart, and the types that are compared
with an expected one are compared with types that an annotation can name. Nor
does a rule look into the scope, which it only hands on to its premises. So in a
well-formed tree the rules for two judgements that differ in their scopes are
alike (`Tree.alike_rule`).
-/

namespace ConceptLang

/-- Causes that mention types which are shown alike. -/
inductive Fault.Alike : Fault → Fault → Prop where
  | notCallable {a b : Ty} (h : a.Like b) :
      Alike (.notCallable a) (.notCallable b)
  | operands {a b c d : Ty} (op : Operator) (expected : Ty) (h : a.Like b)
      (h' : c.Like d) :
      Alike (.operands op a c expected) (.operands op b d expected)
  | condition {a b : Ty} (h : a.Like b) : Alike (.condition a) (.condition b)
  | thenBranch {a b : Ty} (expected : Ty) (h : a.Like b) :
      Alike (.thenBranch a expected) (.thenBranch b expected)
  | elseBranch {a b : Ty} (expected : Ty) (h : a.Like b) :
      Alike (.elseBranch a expected) (.elseBranch b expected)
  | mismatch {a b : Ty} (expected : Ty) (h : a.Like b) :
      Alike (.mismatch expected a) (.mismatch expected b)
  | joinOperand {a b : Ty} (h : a.Like b) :
      Alike (.joinOperand a) (.joinOperand b)

/-- Alike causes make the same problem. -/
theorem Fault.Alike.like {cause cause' : Fault} (h : cause.Alike cause')
    (node : NodeId) :
    (Ty.fault node cause).Like (Ty.fault node cause') := by
  have hkind : cause.kind = cause'.kind := by cases h <;> rfl
  have hmessage : cause.message = cause'.message := by
    delta Fault.message
    cases h with
    | operands op expected h h' => simp only [h.text_eq, h'.text_eq]
    | notCallable h | condition h | joinOperand h => simp only [h.text_eq]
    | thenBranch expected h | elseBranch expected h | mismatch expected h =>
        simp only [h.text_eq]
  rw [Ty.fault, Ty.fault, Fault.toError, Fault.toError, hkind, hmessage]
  exact .refl _

namespace Tree

theorem Ground.eq_of_like {tree : Tree} {ty ty' : Ty} (h : tree.Ground ty)
    (hlike : ty.Like ty') :
    ty' = ty := by
  cases hlike with
  | refl => rfl
  | relation => cases h

theorem Ground.same_eq_of_like {tree : Tree} {expected ty ty' : Ty}
    (h : tree.Ground expected) (hlike : ty.Like ty') :
    ty.same expected = ty'.same expected := by
  cases hlike with
  | refl => rfl
  | relation => cases h <;> rfl

/-- The judgements that a rule makes in one scope are kin to those it makes in
another one. -/
structure KinScopes (kin : Judgement → Judgement → Prop)
    (scope scope' : Scope) : Prop where
  synth : ∀ node, kin (.synth scope node) (.synth scope' node)
  check : ∀ node ty, kin (.check scope node ty) (.check scope' node ty)
  body : ∀ params node ty,
    kin (.check (scope.extend params) node ty)
      (.check (scope'.extend params) node ty)

section Rules

variable {tree : Tree} {kin : Judgement → Judgement → Prop}
  {scope scope' : Scope} (hkin : KinScopes kin scope scope') {node : NodeId}

include hkin

theorem alike_synth (id : NodeId) :
    (Rule.synth scope id).Alike kin tree.Answers Ty.Like
      (Rule.synth scope' id) :=
  ⟨hkin.synth id, fun _ _ _ h => h⟩

theorem alike_check (id : NodeId) (ty : Ty) :
    (Rule.check scope id ty).Alike kin tree.Answers Ty.Like
      (Rule.check scope' id ty) :=
  ⟨hkin.check id ty, fun _ _ _ h => h⟩

/-- A type that an annotation can name carries no stamp. -/
theorem alike_synth_of_ground {id : NodeId}
    (h : ∀ ty, tree.Sound id ty → tree.Ground ty) :
    (Rule.synth scope id).Alike kin tree.Answers Eq (Rule.synth scope' id) := by
  refine ⟨hkin.synth id, fun ty ty' hty hlike => ?_⟩
  rcases hty with herror | hsound
  · cases hlike with
    | refl => exact rfl
    | relation => cases herror
  · exact ((h ty hsound).eq_of_like hlike).symm

theorem alike_synth_typeNode (wf : tree.WellFormed) {id : NodeId}
    (h : tree.holds (·.isTypeNode) id = true) :
    (Rule.synth scope id).Alike kin tree.Answers Eq (Rule.synth scope' id) :=
  alike_synth_of_ground hkin fun _ hsound =>
    (denotes_of_answer wf h hsound).ground

theorem alike_synthAll (wf : tree.WellFormed) (slots : List NodeId)
    (h : ∀ id ∈ slots, tree.holds (·.isTypeNode) id = true) :
    (Rule.synthAll scope slots).Alike kin tree.Answers Eq
      (Rule.synthAll scope' slots) := by
  induction slots with
  | nil => exact rfl
  | cons id ids ih =>
      have hrest := ih fun other hother => h other (by simp [hother])
      refine (alike_synth_typeNode hkin wf (h id (by simp))).bind ?_
      rintro ty _ rfl
      cases ty with
      | error e => exact rfl
      | _ =>
          refine hrest.bind ?_
          rintro outcome _ rfl
          cases outcome <;> exact rfl

theorem alike_checkAll (entries : List (NodeId × Ty)) :
    (Rule.checkAll scope entries).Alike kin tree.Answers Eq
      (Rule.checkAll scope' entries) := by
  induction entries with
  | nil => exact rfl
  | cons entry entries ih =>
      refine (alike_check hkin entry.1 entry.2).bind ?_
      rintro ty _ (_ | _)
      · cases ty <;> first | exact rfl | exact ih
      · exact ih

theorem alike_synthParam (name : String) :
    (tree.synthParam scope node name).Alike kin tree.Answers Ty.Like
      (tree.synthParam scope' node name) := by
  refine Rule.Alike.lift fun parent _ => ?_
  cases parent with
  | none => exact .refl _
  | some above =>
      refine (alike_synth hkin above).bind ?_
      rintro ty _ (_ | _)
      · cases ty <;> exact .refl _
      · exact .refl _

theorem alike_synthRelation (wf : tree.WellFormed) {name : String}
    {relatum : NodeId} (h : tree.holds (·.isTypeNode) relatum = true) :
    (tree.synthRelation scope node name relatum).Alike kin tree.Answers Ty.Like
      (tree.synthRelation scope' node name relatum) := by
  refine Rule.Alike.lift fun owner _ => ?_
  cases owner with
  | none => exact .refl _
  | some owner =>
      refine (alike_synth_typeNode hkin wf h).bind ?_
      rintro ty _ rfl
      cases ty with
      | error e => exact .refl _
      | _ => exact ⟨rfl, fun _ _ => .relation _ _ _ _ _ _⟩

theorem alike_synthFunction (wf : tree.WellFormed) {name : String}
    {params slots : List NodeId}
    (h : ∀ id ∈ slots, tree.holds (·.isTypeNode) id = true) :
    (synthFunction scope node name params slots).Alike kin tree.Answers Ty.Like
      (synthFunction scope' node name params slots) := by
  rw [synthFunction, synthFunction]
  split
  · exact .refl _
  · refine (alike_synthAll hkin wf slots h).bind ?_
    rintro outcome _ rfl
    cases outcome <;> exact .refl _

theorem alike_synthCall (callee : NodeId) (args : List NodeId) :
    (synthCall scope node callee args).Alike kin tree.Answers Ty.Like
      (synthCall scope' node callee args) := by
  refine (alike_synth hkin callee).bind ?_
  rintro ty _ (_ | _)
  · cases ty with
    | function params result =>
        dsimp only
        split
        · exact .refl _
        · refine (alike_checkAll hkin _).bind ?_
          rintro outcome _ rfl
          cases outcome <;> exact .refl _
    | _ => exact .refl _
  · exact (Fault.Alike.notCallable (.relation _ _ _ _ _ _)).like node

theorem alike_predicateParams (wf : tree.WellFormed) (params : List NodeId)
    (h : ∀ id ∈ params, tree.holds (Role.admits .typedParam) id = true) :
    (tree.predicateParams scope params).Alike kin tree.Answers Eq
      (tree.predicateParams scope' params) := by
  induction params with
  | nil => exact rfl
  | cons id ids ih =>
      have hrest := ih fun other hother => h other (by simp [hother])
      refine Rule.Alike.lift fun construct hconstruct => ?_
      cases construct with
      | typedParam formal typeNode =>
          have hground : ∀ ty, tree.Sound id ty →
              tree.Ground ty := fun ty hsound =>
            (Denotes.of_hasType_typedParam wf tree.fits_empty hconstruct
              (hsound.hasType _ tree.fits_empty)).ground
          refine (alike_synth_of_ground hkin hground).bind ?_
          rintro ty _ rfl
          cases ty with
          | error e => exact rfl
          | _ =>
              refine hrest.bind ?_
              rintro outcome _ rfl
              cases outcome <;> exact rfl
      | _ => exact rfl

theorem alike_synthPredicate (wf : tree.WellFormed) (params : List NodeId)
    (h : ∀ id ∈ params, tree.holds (Role.admits .typedParam) id = true) :
    (tree.synthPredicate scope node params).Alike kin tree.Answers Ty.Like
      (tree.synthPredicate scope' node params) := by
  refine (alike_predicateParams hkin wf params h).bind ?_
  rintro outcome _ rfl
  cases outcome with
  | error e => exact .refl _
  | ok bindings => exact alike_check hkin node _

theorem alike_synthBinary (op : Operator) :
    (synthBinary scope node op).Alike kin tree.Answers Ty.Like
      (synthBinary scope' node op) := by
  cases op with
  | mod => exact .refl _
  | _ => exact alike_check hkin node _

theorem alike_synthJoin (left field : NodeId) :
    (tree.synthJoin scope node left field).Alike kin tree.Answers Ty.Like
      (tree.synthJoin scope' node left field) := by
  refine (alike_synth hkin left).bind ?_
  rintro ty _ (_ | _)
  · cases ty with
    | concept concept =>
        refine Rule.Alike.lift fun construct _ => ?_
        cases construct with
        | reference text link =>
            refine Rule.Alike.lift fun found _ => ?_
            cases found with
            | none => exact .refl _
            | some pair =>
                refine (alike_synth hkin pair.2).bind ?_
                rintro ty _ (_ | _) <;> exact .refl _
        | _ => exact .refl _
    | _ => exact .refl _
  · exact (Fault.Alike.joinOperand (.relation _ _ _ _ _ _)).like node

theorem alike_synthRule (wf : tree.WellFormed) :
    (tree.synthRule scope node).Alike kin tree.Answers Ty.Like
      (tree.synthRule scope' node) := by
  refine Rule.Alike.lift fun construct hconstruct => ?_
  cases construct with
  | reference text link =>
      cases link with
      | unresolved note => exact .refl _
      | resolved target => exact alike_synth hkin target
  | join left field => exact alike_synthJoin hkin left field
  | var name typeNode value =>
      cases typeNode with
      | some typeNode => exact alike_synth hkin typeNode
      | none =>
          cases value with
          | none => exact .refl _
          | some value => exact alike_synth hkin value
  | param name => exact alike_synthParam hkin name.name
  | typedParam formal typeNode => exact alike_synth hkin typeNode
  | conceptType ref =>
      change (liftM (tree.conceptType node ref) : Rule Ty).Alike kin
        tree.Answers Ty.Like (liftM (tree.conceptType node ref))
      cases tree.conceptType node ref with
      | error e => exact rfl
      | ok ty => exact .refl _
  | relation name relatum =>
      exact alike_synthRelation hkin wf
        (wf.holds_part .typeNode hconstruct (by simp [Construct.parts]))
  | binary op lhs rhs => exact alike_synthBinary hkin op
  | function name params slots body =>
      exact alike_synthFunction hkin wf fun id hid =>
        wf.holds_part .typeNode hconstruct (by simp [Construct.parts, hid])
  | call callee args => exact alike_synthCall hkin callee args
  | predicate name params body =>
      exact alike_synthPredicate hkin wf params fun id hid =>
        wf.holds_part .typedParam hconstruct (by simp [Construct.parts, hid])
  | _ => exact .refl _

variable {expected : Ty}

theorem alike_checkBinary (op : Operator) (lhs rhs : NodeId)
    (hground : tree.Ground expected) :
    (checkBinary scope node op lhs rhs expected).Alike kin tree.Answers Ty.Like
      (checkBinary scope' node op lhs rhs expected) := by
  refine (alike_check hkin lhs expected).bind fun left left' hleft => ?_
  have hleftRecursion : left.isRecursion = left'.isRecursion := by
    cases hleft <;> rfl
  rw [← hleftRecursion]
  split
  · exact hleft
  · refine (alike_check hkin rhs expected).bind fun right right' hright => ?_
    have hrightRecursion : right.isRecursion = right'.isRecursion := by
      cases hright <;> rfl
    rw [← hrightRecursion, ← hground.same_eq_of_like
      hleft, ← hground.same_eq_of_like hright]
    split
    · exact hright
    · split
      · exact .refl _
      · refine (alike_synth hkin lhs).bind fun left left' hleft => ?_
        refine (alike_synth hkin rhs).bind fun right right' hright => ?_
        exact (Fault.Alike.operands op expected hleft hright).like node

theorem alike_checkFunction (name : String) (body : NodeId) :
    (checkFunction scope node name body expected).Alike kin tree.Answers Ty.Like
      (checkFunction scope' node name body expected) := by
  cases expected with
  | function params result =>
      refine Rule.Alike.bind ⟨hkin.body params body result, fun _ _ _ h => h⟩ ?_
      rintro ty _ (_ | _)
      · cases ty <;> exact .refl _
      · exact .refl _
  | _ => exact .refl _

theorem alike_checkConditional (condition thenBranch elseBranch : NodeId)
    (hground : tree.Ground expected) :
    (checkConditional scope node condition thenBranch elseBranch expected).Alike
      kin tree.Answers Ty.Like
        (checkConditional scope' node condition thenBranch elseBranch
          expected) := by
  refine (alike_synth hkin condition).bind
    fun conditionTy conditionTy' hcondition => ?_
  refine (alike_synth hkin thenBranch).bind fun thenTy thenTy' hthen => ?_
  refine (alike_synth hkin elseBranch).bind fun elseTy elseTy' helse => ?_
  have hboolean : conditionTy.isBoolean = conditionTy'.isBoolean := by
    cases hcondition <;> rfl
  rw [← hboolean, ← hground.same_eq_of_like hthen, ← hground.same_eq_of_like
    helse]
  split
  · exact (Fault.Alike.condition hcondition).like node
  · split
    · exact (Fault.Alike.thenBranch expected hthen).like node
    · split
      · exact (Fault.Alike.elseBranch expected helse).like node
      · exact .refl _

theorem alike_checkBySynthesis (hground : tree.Ground expected) :
    (checkBySynthesis scope node expected).Alike kin tree.Answers Ty.Like
      (checkBySynthesis scope' node expected) := by
  refine (alike_synth hkin node).bind fun actual actual' hactual => ?_
  rw [← hground.same_eq_of_like hactual]
  split
  · exact .refl _
  · exact (Fault.Alike.mismatch expected hactual).like node

theorem alike_checkRule (h : tree.Expects node expected) :
    (tree.checkRule scope node expected).Alike kin tree.Answers Ty.Like
      (tree.checkRule scope' node expected) := by
  refine Rule.Alike.lift fun construct hconstruct => ?_
  cases construct with
  | binary op lhs rhs =>
      exact alike_checkBinary hkin op lhs rhs (h.ground hconstruct rfl).2
  | function name params slots body =>
      exact alike_checkFunction hkin name.name body
  | predicate name params body => exact .refl _
  | conditional condition thenBranch elseBranch =>
      exact alike_checkConditional hkin condition thenBranch elseBranch
        (h.ground hconstruct rfl).2
  | _ => exact alike_checkBySynthesis hkin (h.ground hconstruct rfl).2

end Rules

end Tree

end ConceptLang
