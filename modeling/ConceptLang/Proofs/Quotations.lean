import ConceptLang.Proofs.CallChains
import ConceptLang.Proofs.Candour
import ConceptLang.Proofs.Memory
import ConceptLang.Proofs.Transcripts

/-!
# Problems in the words of others

A rule that meets a problem comes to a problem itself. Most rules pass on the
one that they have met, or wrap it in one whose message contains the message of
the first (`TypeError.Quotes`). Three rules may come to another problem instead,
and then nothing is said of the one that was met:

* a conditional names only the first of its parts that does not fit;
* an operator checks its operands and then names the types that they have by
  themselves, which is another question for an operand that is a conditional or
  an operator, and it gives up at a problem of recursion;
* a parameter that gets no type does not say why.

The last one does no harm to joins in a well-formed tree, where the types of
parameters are spelled out. So in a well-formed tree without conditionals whose
operators do not nest (`Tree.Outspoken`) every problem of a join that is met on
the way is quoted in the answer (`Tree.settle_voices`).
-/

namespace ConceptLang

/-! ### Quotations -/

/-- The message of the problem contains that of `cause`. -/
def TypeError.Quotes (e cause : TypeError) : Prop :=
  ∃ before after, e.message = before ++ cause.message ++ after

namespace TypeError.Quotes

theorem of_message_eq {e cause : TypeError} (h : e.message = cause.message) :
    e.Quotes cause :=
  ⟨"", "", by simp [h]⟩

theorem refl (e : TypeError) : e.Quotes e := of_message_eq rfl

theorem trans {e e' e'' : TypeError} (h : e.Quotes e') (h' : e'.Quotes e'') :
    e.Quotes e'' := by
  obtain ⟨before, after, heq⟩ := h
  obtain ⟨before', after', heq'⟩ := h'
  exact ⟨before ++ before', after' ++ after,
    by simp only [heq, heq', String.append_assoc]⟩

end TypeError.Quotes

namespace Fault

/-- The message of the fault shows the type. -/
def Shows (cause : Fault) (ty : Ty) : Prop :=
  ∃ before after, cause.message = before ++ ty.text ++ after

theorem Shows.quotes {cause : Fault} {e : TypeError}
    (h : cause.Shows (.error e)) (node : NodeId) :
    (cause.toError node).Quotes e := by
  obtain ⟨before, after, heq⟩ := h
  refine ⟨before ++ "Error(", ")" ++ after, ?_⟩
  rw [toError, heq, Ty.text]
  simp only [String.append_assoc]

theorem shows_notCallable (ty : Ty) : (notCallable ty).Shows ty := by
  refine ⟨"expected a function type, found ", "", ?_⟩
  unfold message
  rw [String.append_empty]

theorem shows_operands_left (op : Operator) (left right expected : Ty) :
    (operands op left right expected).Shows left := by
  refine ⟨"operands of " ++ quoted op.symbol ++ " have types ",
    " and " ++ right.text ++ ", expected " ++ expected.text, ?_⟩
  unfold message
  simp only [String.append_assoc]

theorem shows_operands_right (op : Operator) (left right expected : Ty) :
    (operands op left right expected).Shows right := by
  refine ⟨"operands of " ++ quoted op.symbol ++ " have types " ++ left.text ++
    " and ", ", expected " ++ expected.text, ?_⟩
  unfold message
  simp only [String.append_assoc]

theorem shows_mismatch (expected ty : Ty) :
    (mismatch expected ty).Shows ty := by
  refine ⟨"type error: expected " ++ expected.text ++ ", found ", "", ?_⟩
  unfold message
  rw [String.append_empty]

theorem shows_joinOperand (ty : Ty) : (joinOperand ty).Shows ty := by
  refine ⟨"left side of a join must be a concept, not ", "", ?_⟩
  unfold message
  rw [String.append_empty]

theorem shows_joinRelation (field : String) (ty : Ty) :
    (joinRelation field ty).Shows ty := by
  refine ⟨"expected " ++ quoted field ++ " to have a relation type, found ", "",
    ?_⟩
  unfold message
  rw [String.append_empty]

end Fault

/-! ### Rules that quote what they meet -/

namespace Rule

variable {α β : Type}

/-- The conclusion has a problem, as `problem?` sees it, that quotes `cause`. -/
def Names (problem? : α → Option TypeError) (cause : TypeError) (a : α) :
    Prop :=
  ∃ e, problem? a = some e ∧ e.Quotes cause

/-- After a problem every conclusion names it, unless the premise is one that
is `mute`. -/
def Vocal (mute : Judgement → Prop) (problem? : α → Option TypeError) :
    Rule α → Prop
  | .conclude _ => True
  | .defect _ => True
  | .premise judgement next => ∀ ty,
    (mute judgement ∨
      ∀ e, ty = .error e → (next ty).Doomed (Names problem? e)) ∧
      (next ty).Vocal mute problem?
  | .stamp _ next => ∀ n, (next n).Vocal mute problem?

/-- The problem of a list of types, as far as it was found. -/
def outcomeProblem? : Except TypeError α → Option TypeError
  | .error e => some e
  | .ok _ => none

variable {mute : Judgement → Prop} {problem? : α → Option TypeError}
  {problem?' : β → Option TypeError}

theorem Names.trans {e cause : TypeError} {a : α} (h : Names problem? e a)
    (hquotes : e.Quotes cause) : Names problem? cause a :=
  h.imp fun _ he => ⟨he.1, he.2.trans hquotes⟩

theorem Vocal.bind {rule : Rule α} {f : α → Rule β}
    (h : rule.Vocal mute problem?)
    (hfail : ∀ a e, problem? a = some e → (f a).Doomed (Names problem?' e))
    (hgo : ∀ a, (f a).Vocal mute problem?') :
    (rule.bind f).Vocal mute problem?' := by
  induction rule with
  | conclude result => exact hgo result
  | defect error => trivial
  | premise judgement next ih =>
      refine fun ty =>
        ⟨(h ty).1.imp_right fun hnames e he => ?_, ih ty (h ty).2⟩
      refine (hnames e he).bind fun a ⟨e', hproblem, hquotes⟩ => ?_
      exact (hfail a e' hproblem).mono fun b hb => hb.trans hquotes
  | stamp decl next ih => exact fun n => ih n (h n)

theorem Vocal.lift {x : Except TreeError α} {f : α → Rule β}
    (hf : ∀ a, x = .ok a → (f a).Vocal mute problem?') :
    ((liftM x : Rule α) >>= f).Vocal mute problem?' := by
  cases x with
  | error e => trivial
  | ok a => exact hf a rfl

/-- A rule that names the problem of the rule before it. -/
theorem Vocal.bind_ty {rule : Rule Ty} {f : Ty → Rule α}
    (h : rule.Vocal mute Ty.error?)
    (hfail : ∀ e, (f (.error e)).Doomed (Names problem? e))
    (hgo : ∀ ty, (f ty).Vocal mute problem?) :
    (rule >>= f).Vocal mute problem? := by
  refine h.bind (fun ty e he => ?_) hgo
  cases ty with
  | error e' =>
      cases he
      exact hfail e
  | _ => cases he

theorem Vocal.bind_outcome {rule : Rule (Except TypeError β)}
    {f : Except TypeError β → Rule α}
    (h : rule.Vocal mute outcomeProblem?)
    (hfail : ∀ e, (f (.error e)).Doomed (Names problem? e))
    (hgo : ∀ outcome, (f outcome).Vocal mute problem?) :
    (rule >>= f).Vocal mute problem? := by
  refine h.bind (fun outcome e he => ?_) hgo
  cases outcome with
  | error e' =>
      cases he
      exact hfail e
  | ok b => cases he

/-- A problem that is passed on is named. -/
theorem names_error (e : TypeError) : Names Ty.error? e (.error e) :=
  ⟨e, rfl, .refl e⟩

theorem Names.quotes {e cause : TypeError}
    (h : Names Ty.error? cause (.error e)) : e.Quotes cause := by
  obtain ⟨_, ⟨⟩, hquotes⟩ := h
  exact hquotes

theorem names_outcome (e : TypeError) :
    Names outcomeProblem? e (.error e : Except TypeError α) :=
  ⟨e, rfl, .refl e⟩

/-- A fault that shows a type names the problems that the type names. -/
theorem Names.fault {cause : TypeError} {ty : Ty} {fault : Fault}
    (h : Names Ty.error? cause ty) (hshows : fault.Shows ty) (node : NodeId) :
    Names Ty.error? cause (.fault node fault) := by
  obtain ⟨e, he, hquotes⟩ := h
  cases ty with
  | error e' =>
      cases he
      exact ⟨fault.toError node, rfl, (hshows.quotes node).trans hquotes⟩
  | _ => cases he

theorem names_fault {fault : Fault} {e : TypeError}
    (h : fault.Shows (.error e)) (node : NodeId) :
    Names Ty.error? e (.fault node fault) :=
  (names_error e).fault h node

/-- A type that is the same as another one names the same problems. -/
theorem Names.of_same {cause : TypeError} {ty ty' : Ty}
    (h : Names Ty.error? cause ty) (hsame : ty.same ty' = true) :
    Names Ty.error? cause ty' := by
  obtain ⟨e, he, hquotes⟩ := h
  cases ty with
  | error e' =>
      cases he
      cases ty' with
      | error e' =>
          have hmessage : e.message = e'.message := by
            simpa [Ty.same, TypeError.same] using
              (Bool.and_eq_true_iff.mp hsame).2
          exact ⟨e', rfl, .trans (.of_message_eq hmessage.symm) hquotes⟩
      | _ => cases hsame
  | _ => cases he

theorem vocal_synth (scope : Scope) (node : NodeId) :
    (synth scope node).Vocal mute Ty.error? := by
  refine fun ty => ⟨Or.inr fun e he => ?_, trivial⟩
  rw [he]
  exact names_error e

theorem vocal_check (scope : Scope) (node : NodeId) (expected : Ty) :
    (check scope node expected).Vocal mute Ty.error? := by
  refine fun ty => ⟨Or.inr fun e he => ?_, trivial⟩
  rw [he]
  exact names_error e

theorem vocal_synthAll (scope : Scope) (nodes : List NodeId) :
    (synthAll scope nodes).Vocal mute outcomeProblem? := by
  induction nodes with
  | nil => trivial
  | cons node nodes ih =>
      refine (vocal_synth scope node).bind_ty names_outcome fun ty => ?_
      cases ty with
      | error e => trivial
      | _ =>
          refine ih.bind_outcome names_outcome fun outcome => ?_
          cases outcome <;> trivial

theorem vocal_checkAll (scope : Scope) (pairs : List (NodeId × Ty)) :
    (checkAll scope pairs).Vocal mute id := by
  induction pairs with
  | nil => trivial
  | cons pair pairs ih =>
      refine (vocal_check scope pair.1 pair.2).bind_ty
        (fun e => ⟨e, rfl, .refl e⟩) fun ty => ?_
      cases ty with
      | error e => trivial
      | _ => exact ih

end Rule

/-! ### Types that are spelled out -/

namespace Tree

/-- The type of the node depends on annotations only. -/
inductive Spelled (tree : Tree) (node : NodeId) : Prop where
  | typeNode (h : tree.holds (·.isTypeNode) node = true)
  | typedParam {formal typeNode : NodeId}
      (h : tree.construct node = .ok (.typedParam formal typeNode))
      (htypeNode : tree.holds (·.isTypeNode) typeNode = true)
  | function {name : Ident} {params signature : List NodeId} {body : NodeId}
      (h : tree.construct node = .ok (.function name params signature body))
      (hsignature : ∀ slot ∈ signature, tree.holds (·.isTypeNode) slot = true)

/-- The judgement asks for a type that is spelled out. -/
inductive Mute (tree : Tree) : Judgement → Prop where
  | synth (scope : Scope) {node : NodeId} (h : tree.Spelled node) :
      Mute tree (.synth scope node)

/-- In a well-formed tree the node around a parameter spells its type out. -/
theorem WellFormed.spelled_above_param {tree : Tree} (wf : tree.WellFormed)
    {node above : NodeId} {name : Ident}
    (h : tree.construct node = .ok (.param name))
    (hparent : tree.parent node = .ok (some above)) : tree.Spelled above := by
  obtain ⟨construct, hconstruct, hpart⟩ :=
    (isPart_iff_construct tree _ _).mp (wf.complete.parent_spec hparent).2
  obtain ⟨role, hrole⟩ := (Construct.mem_children_iff construct node).mp hpart
  obtain ⟨child, hchild, hadmits⟩ := wf.role hconstruct hrole
  obtain rfl := Except.ok.inj (h.symm.trans hchild)
  obtain rfl : role = .param := by
    cases role <;> first | rfl | cases hadmits
  cases construct with
  | function name' params signature body =>
      refine .function hconstruct fun slot hslot => ?_
      exact wf.holds_part .typeNode hconstruct
        (by simp [Construct.parts, hslot])
  | typedParam formal typeNode =>
      refine .typedParam hconstruct ?_
      exact wf.holds_part .typeNode hconstruct (by simp [Construct.parts])
  | _ => simp [Construct.parts] at hrole

/-- What is spelled out is not a join. -/
theorem Spelled.not_isJoin {tree : Tree} {node : NodeId}
    (h : tree.Spelled node) : ¬ tree.holds (·.isJoin) node = true := by
  cases h with
  | typeNode h =>
      obtain ⟨construct, hconstruct, hkind⟩ := (holds_iff tree _ node).mp h
      cases construct with
      | keywordType | conceptType => exact not_holds hconstruct rfl
      | _ => cases hkind
  | typedParam h | function h => exact not_holds h rfl

/-- Who asks for a type that is spelled out asks only for such types. -/
theorem Spelled.always_mute {tree : Tree} {node : NodeId}
    (h : tree.Spelled node) (scope : Scope) :
    (tree.synthRule scope node).Always tree.Mute := by
  cases h with
  | typeNode h =>
      obtain ⟨construct, hconstruct, hkind⟩ := (holds_iff tree _ node).mp h
      rw [synthRule, hconstruct]
      cases construct with
      | keywordType => trivial
      | conceptType ref =>
          change Rule.Always _ (Rule.ofExcept (tree.conceptType node ref))
          cases tree.conceptType node ref <;> trivial
      | _ => cases hkind
  | typedParam h htypeNode =>
      rw [synthRule, h]
      exact Rule.always_synth (.synth scope (.typeNode htypeNode))
  | @function name params signature body h hsignature =>
      rw [synthRule, h]
      change (synthFunction scope node name.name params signature).Always _
      rw [synthFunction]
      split
      · trivial
      · refine (Rule.always_synthAll fun slot hslot =>
          .synth scope (.typeNode (hsignature slot hslot))).bind
          fun outcome => ?_
        cases outcome <;> trivial

end Tree

/-- The passes remember the same of the joins. -/
def Pass.SameJoins (tree : Tree) (pass pass' : Pass) : Prop :=
  ∀ join, tree.holds (·.isJoin) join = true →
    pass'.cache[join]? = pass.cache[join]?

namespace Tree

variable {tree : Tree} {limit room : Nat} {busy : List NodeId}

/-- Asking for a type that is spelled out finds out nothing about joins. -/
theorem settle_mute {judgement : Judgement} (h : tree.Mute judgement)
    {pass pass' : Pass} {ty : Ty}
    (hrun : (tree.settle limit room busy judgement).run pass =
      .ok (ty, pass')) :
    pass.SameJoins tree pass' := by
  induction room using Nat.strongRecOn
    generalizing busy judgement pass ty pass' with
  | ind room ih =>
      rcases tree.settle_cases hrun with hsettled | ⟨middle, hsettled, hcase⟩
      · intro join _
        cases tree.settled?_eq_ok_iff.mp hsettled <;> rfl
      · obtain rfl := (tree.settled?_eq_ok_iff.mp hsettled).eq_of_none
        rcases hcase with ⟨-, -, rfl⟩ | ⟨less, last, rfl, rfl, hrule⟩
        · exact fun _ _ => rfl
        · cases h with
          | @synth scope node h =>
              have hsame : middle.SameJoins tree last :=
                (h.always_mute scope).relates (fun _ _ _ => rfl)
                  (fun h h' join hjoin => (h' join hjoin).trans (h join hjoin))
                  (fun _ _ _ => rfl)
                  (fun _ _ _ _ hmute hpremise =>
                    ih less (Nat.lt_succ_self less) hmute hpremise) hrule
              intro join hjoin
              have hne : join ≠ node := fun heq => h.not_isJoin (heq ▸ hjoin)
              rw [Pass.record, Pass.cache_recordType, if_neg hne]
              exact hsame join hjoin

end Tree

/-! ### Rules of the tree -/

namespace Tree

section Rules

variable (scope : Scope) (node : NodeId) {mute : Judgement → Prop}

theorem vocal_synthRelation (tree : Tree) (name : String) (relatum : NodeId) :
    (tree.synthRelation scope node name relatum).Vocal mute Ty.error? := by
  refine Rule.Vocal.lift fun owner _ => ?_
  cases owner with
  | none => trivial
  | some owner =>
      refine (Rule.vocal_synth scope relatum).bind_ty Rule.names_error
        fun ty => ?_
      cases ty with
      | error e => trivial
      | _ => exact fun _ => trivial

theorem vocal_synthFunction (name : String) (params signature : List NodeId) :
    (synthFunction scope node name params signature).Vocal mute
      Ty.error? := by
  rw [synthFunction]
  split
  · trivial
  · refine (Rule.vocal_synthAll scope signature).bind_outcome
      Rule.names_error fun outcome => ?_
    cases outcome <;> trivial

theorem vocal_synthCall (callee : NodeId) (args : List NodeId) :
    (synthCall scope node callee args).Vocal mute Ty.error? := by
  refine (Rule.vocal_synth scope callee).bind_ty
    (fun e => Rule.names_fault (Fault.shows_notCallable _) node) fun ty => ?_
  cases ty with
  | function params result =>
      dsimp only
      split
      · trivial
      · refine (Rule.vocal_checkAll scope _).bind (fun outcome e he => ?_)
          fun outcome => ?_
        · obtain rfl : outcome = some e := he
          exact Rule.names_error e
        · cases outcome <;> trivial
  | _ => trivial

theorem vocal_predicateParams (tree : Tree) (params : List NodeId) :
    (tree.predicateParams scope params).Vocal mute Rule.outcomeProblem? := by
  induction params with
  | nil => trivial
  | cons typed params ih =>
      refine Rule.Vocal.lift fun construct _ => ?_
      cases construct with
      | typedParam formal typeNode =>
          refine (Rule.vocal_synth scope typed).bind_ty Rule.names_outcome
            fun ty => ?_
          cases ty with
          | error e => trivial
          | _ =>
              refine ih.bind_outcome Rule.names_outcome fun outcome => ?_
              cases outcome <;> trivial
      | _ => trivial

theorem vocal_synthPredicate (tree : Tree) (params : List NodeId) :
    (tree.synthPredicate scope node params).Vocal mute Ty.error? := by
  refine (vocal_predicateParams scope tree params).bind_outcome
    Rule.names_error fun outcome => ?_
  cases outcome with
  | error e => trivial
  | ok bindings => exact Rule.vocal_check scope node _

theorem vocal_synthBinary (op : Operator) :
    (synthBinary scope node op).Vocal mute Ty.error? := by
  cases op with
  | mod => trivial
  | or | and | eq | ne | lt | gt | le | ge =>
      exact Rule.vocal_check scope node _
  | add | sub | mul | div => exact Rule.vocal_check scope node _

theorem vocal_synthJoin (tree : Tree) (left field : NodeId) :
    (tree.synthJoin scope node left field).Vocal mute Ty.error? := by
  refine (Rule.vocal_synth scope left).bind_ty
    (fun e => Rule.names_fault (Fault.shows_joinOperand _) node) fun ty => ?_
  cases ty with
  | concept concept =>
      refine Rule.Vocal.lift fun construct _ => ?_
      cases construct with
      | reference text link =>
          refine Rule.Vocal.lift fun found _ => ?_
          cases found with
          | none => trivial
          | some pair =>
              refine (Rule.vocal_synth scope pair.2).bind_ty (fun e => ?_)
                fun ty => trivial
              exact Rule.names_fault (Fault.shows_joinRelation text _) node
      | _ => trivial
  | _ => trivial

/-- The rules of synthesis name the problems that they meet. The one for
parameters asks only for types that are spelled out. -/
theorem WellFormed.vocal_synthRule {tree : Tree} (wf : tree.WellFormed) :
    (tree.synthRule scope node).Vocal tree.Mute Ty.error? := by
  refine Rule.Vocal.lift fun construct hconstruct => ?_
  cases construct with
  | reference text link =>
      cases link with
      | resolved target => exact Rule.vocal_synth scope target
      | unresolved note => trivial
  | join left field => exact vocal_synthJoin scope node tree left field
  | var name typeNode value =>
      cases typeNode with
      | some typeNode => exact Rule.vocal_synth scope typeNode
      | none =>
          cases value with
          | some value => exact Rule.vocal_synth scope value
          | none => trivial
  | param name =>
      refine Rule.Vocal.lift fun parent hparent => ?_
      cases parent with
      | none => trivial
      | some above =>
          refine fun ty => ⟨Or.inl ?_, ?_⟩
          · exact .synth scope (wf.spelled_above_param hconstruct hparent)
          · cases ty <;> trivial
  | typedParam formal typeNode => exact Rule.vocal_synth scope typeNode
  | conceptType ref =>
      change Rule.Vocal _ _ (Rule.ofExcept (tree.conceptType node ref))
      cases tree.conceptType node ref <;> trivial
  | relation name relatum =>
      exact vocal_synthRelation scope node tree name.name relatum
  | binary op lhs rhs => exact vocal_synthBinary scope node op
  | function name params signature body =>
      exact vocal_synthFunction scope node name.name params signature
  | call callee args => exact vocal_synthCall scope node callee args
  | predicate name params body =>
      exact vocal_synthPredicate scope node tree params
  | _ => trivial

theorem vocal_checkFunction (name : String) (body : NodeId) (expected : Ty) :
    (checkFunction scope node name body expected).Vocal mute Ty.error? := by
  cases expected with
  | function params result =>
      refine (Rule.vocal_check (scope.extend params) body result).bind_ty
        Rule.names_error fun ty => ?_
      cases ty <;> trivial
  | _ => trivial

theorem vocal_checkBySynthesis (expected : Ty) :
    (checkBySynthesis scope node expected).Vocal mute Ty.error? := by
  refine (Rule.vocal_synth scope node).bind_ty (fun e => ?_) fun ty => ?_
  · split
    · next hsame => exact (Rule.names_error e).of_same hsame
    · exact Rule.names_fault (Fault.shows_mismatch expected _) node
  · split <;> trivial

end Rules

end Tree

/-! ### Passes -/

/-- Every problem of a join that the second pass remembers more than the first
is quoted by `problem`. -/
def Pass.Voices (tree : Tree) (pass pass' : Pass)
    (problem : Option TypeError) : Prop :=
  ∀ join cause, tree.holds (·.isJoin) join = true →
    pass'.cache[join]? = some (.error cause) →
    pass.cache[join]? = some (.error cause) ∨
      ∃ e, problem = some e ∧ e.Quotes cause

theorem Pass.Voices.of_cache_eq {tree : Tree} {pass pass' : Pass}
    (h : pass'.cache = pass.cache) (problem : Option TypeError) :
    pass.Voices tree pass' problem := by
  intro join cause _ hcause
  rw [h] at hcause
  exact Or.inl hcause

/-- A run of a rule that names what it meets voices what its premises voice. -/
theorem Rule.Vocal.run {α : Type} {tree : Tree} {limit room : Nat}
    {busy : List NodeId}
    (hsettle : ∀ judgement pass ty pass', judgement.Clean → pass.Sincere tree →
      (tree.settle limit room busy judgement).run pass = .ok (ty, pass') →
      pass.Voices tree pass' ty.error?)
    {rule : Rule α} {problem? : α → Option TypeError} {fails post : α → Prop}
    (h : rule.Vocal tree.Mute problem?)
    (hcandid : rule.Candid (fun _ => True) fails post) {pass pass' : Pass}
    {a : α} (hpass : pass.Sincere tree)
    (hrun : (rule.run (fun _ => Pass.mint) (tree.settle limit room busy)).run
      pass = .ok (a, pass')) : pass.Voices tree pass' (problem? a) := by
  induction rule generalizing pass with
  | conclude result =>
      cases hrun
      exact .of_cache_eq rfl _
  | defect error => cases hrun
  | premise judgement next ih =>
      rw [run_premise_apply] at hrun
      obtain ⟨⟨ty, middle⟩, hfirst, hnext⟩ := bind_eq_ok_iff.mp hrun
      have htold := tree.settle_told hcandid.1 hpass hfirst
      have hrest := ih ty (h ty).2 (hcandid.2 ty htold.conclusion).2
        htold.sincere hnext
      intro join cause hjoin hcause
      refine (hrest join cause hjoin hcause).elim (fun hmiddle => ?_) Or.inr
      rcases (h ty).1 with hmute | hnames
      · rw [Tree.settle_mute hmute hfirst join hjoin] at hmiddle
        exact Or.inl hmiddle
      · refine (hsettle judgement pass ty middle hcandid.1 hpass hfirst join
          cause hjoin hmiddle).imp_right ?_
        rintro ⟨e, he, hquotes⟩
        cases ty with
        | error e' =>
            cases he
            exact ((hnames e rfl).run hnext).trans hquotes
        | _ => cases he
  | stamp decl next ih =>
      rw [run_stamp_apply] at hrun
      obtain ⟨⟨n, middle⟩, hfirst, hnext⟩ := bind_eq_ok_iff.mp hrun
      cases hfirst
      have hmiddle :
          Pass.Sincere tree { pass with stamps := pass.stamps + 1 } :=
        ⟨hpass.cache, hpass.opened, hpass.memo, hpass.compared⟩
      have hrest := ih _ (h _) (hcandid _) hmiddle hnext
      exact fun join cause hjoin hcause => hrest join cause hjoin hcause

/-- Whether a construct is not a conditional, and not an operator one of whose
operands is checked otherwise than by a comparison. -/
def Construct.isOutspoken (tree : Tree) : Construct → Bool
  | .binary _ lhs rhs =>
    tree.holds (·.isCompared) lhs && tree.holds (·.isCompared) rhs
  | .conditional _ _ _ => false
  | _ => true

/-- A well-formed tree without conditionals, in which operators do not nest. -/
structure Tree.Outspoken (tree : Tree) : Prop extends tree.WellFormed where
  constructs : ∀ id < tree.size, tree.holds (·.isOutspoken tree) id = true

namespace Tree

variable {tree : Tree} {limit room : Nat} {busy : List NodeId} {scope : Scope}

theorem Outspoken.isOutspoken (h : tree.Outspoken) {node : NodeId}
    {construct : Construct} (hconstruct : tree.construct node = .ok construct) :
    construct.isOutspoken tree = true := by
  by_contra hnot
  exact not_holds hconstruct (by simpa using hnot)
    (h.constructs node (lt_size_of_construct hconstruct))

/-- The rule of a comparison asks for the type of its node, and no more. -/
theorem exists_run_checkBySynthesis {node : NodeId} {expected ty : Ty}
    {settle : Judgement → PassM Ty} {pass pass' : Pass}
    (hrun : ((checkBySynthesis scope node expected).run (fun _ => Pass.mint)
      settle).run pass = .ok (ty, pass')) :
    ∃ actual, (settle (.synth scope node)).run pass = .ok (actual, pass') := by
  obtain ⟨⟨actual, last⟩, hfirst, hnext⟩ :=
    bind_eq_ok_iff.mp ((Rule.run_premise_apply _ _ _ _ pass).symm.trans hrun)
  refine ⟨actual, ?_⟩
  change StateT.run (Rule.run _ _ (if _ then _ else _)) last = _ at hnext
  split at hnext <;> cases hnext <;> exact hfirst

/-- A comparison that finds out about a join has worked out the type of its
node, which quotes the problem. -/
theorem exists_quotes_of_compared {node : NodeId} {construct : Construct}
    (hconstruct : tree.construct node = .ok construct)
    (hcompared : construct.isCompared = true)
    (hsettle : ∀ less < room, ∀ pass ty pass', pass.Sincere tree →
      (tree.settle limit less busy (.synth scope node)).run pass =
      .ok (ty, pass') → pass.Voices tree pass' ty.error?)
    {expected ty : Ty} {pass pass' : Pass} (hpass : pass.Sincere tree)
    (hrun : (tree.settle limit room busy (.check scope node expected)).run
      pass = .ok (ty, pass'))
    {join : NodeId} {cause : TypeError}
    (hjoin : tree.holds (·.isJoin) join = true)
    (hcause : pass'.cache[join]? = some (.error cause))
    (hnew : ¬ pass.cache[join]? = some (.error cause)) :
    0 < room ∧ ∃ e, pass'.lookup scope node = some (.error e) ∧
      e.Quotes cause := by
  rcases tree.settle_cases hrun with hsettled | ⟨middle, hsettled, hcase⟩
  · cases tree.settled?_eq_ok_iff.mp hsettled
    exact absurd hcause hnew
  · obtain rfl := (tree.settled?_eq_ok_iff.mp hsettled).eq_of_none
    rcases hcase with ⟨-, -, rfl⟩ | ⟨less, last, rfl, rfl, hrule⟩
    · exact absurd hcause hnew
    · refine ⟨Nat.succ_pos less, ?_⟩
      rw [rule_check_of_isCompared hconstruct hcompared] at hrule
      obtain ⟨actual, hsynth⟩ := exists_run_checkBySynthesis hrule
      obtain ⟨e, he, hquotes⟩ := (hsettle less (Nat.lt_succ_self less) middle
        actual last hpass hsynth join cause hjoin hcause).resolve_left hnew
      have hlookup : last.lookup scope node = some actual :=
        (tree.lookup_of_settle hsynth).resolve_right fun hsame =>
          hnew (hsame.1 ▸ hcause)
      cases actual with
      | error e' =>
          cases he
          exact ⟨e, hlookup, hquotes⟩
      | _ => cases he

/-- Who asks later for a type that is in memory gets it with what it quotes. -/
theorem names_of_kept {node : NodeId} {e cause : TypeError}
    {pass last last' : Pass} {ty : Ty}
    (hlookup : pass.lookup scope node = some (.error e))
    (hquotes : e.Quotes cause) (hgrows : pass.Grows tree.size busy last)
    (hrun : (tree.settle limit room busy (.synth scope node)).run last =
      .ok (ty, last')) : Rule.Names Ty.error? cause ty := by
  rw [tree.settle_of_lookup (hgrows.lookup hlookup)] at hrun
  cases hrun
  exact ⟨e, rfl, hquotes⟩

/-- If a comparison is not refused for lack of room, it does not come to a
problem of recursion. -/
theorem isRecursion_of_compared {node : NodeId} {construct : Construct}
    (hconstruct : tree.construct node = .ok construct)
    (hcompared : construct.isCompared = true) (hroom : 0 < room)
    {expected ty : Ty} (hexpected : expected.Clean) {pass pass' : Pass}
    (hpass : pass.Sincere tree)
    (hrun : (tree.settle limit room busy (.check scope node expected)).run
      pass = .ok (ty, pass')) : ty.isRecursion = false := by
  rcases tree.settle_cases hrun with hsettled | ⟨middle, hsettled, hcase⟩
  · cases tree.settled?_eq_ok_iff.mp hsettled with
    | recalled hrecalled =>
        obtain ⟨entries, entry, hentries, hmem, -, rfl⟩ :=
          pass.mem_memo_of_recalled node hrecalled
        exact hpass.compared node construct entries hconstruct hcompared
          hentries entry hmem
  · rcases hcase with ⟨rfl, -, -⟩ | ⟨less, last, -, -, hrule⟩
    · cases hroom
    · exact tree.isRecursion_of_run_compared hconstruct hcompared hexpected
        hrule

/-- The ways in which a run of the rule for operators can go. -/
inductive BinaryRun (settle : Judgement → PassM Ty) (scope : Scope)
    (node : NodeId) (op : Operator) (lhs rhs : NodeId) (expected : Ty)
    (pass : Pass) : Ty → Pass → Prop where
  | left {left : Ty} {pass' : Pass}
      (hleft : (settle (.check scope lhs expected)).run pass =
        .ok (left, pass')) :
      BinaryRun settle scope node op lhs rhs expected pass left pass'
  | right {left right : Ty} {middle pass' : Pass}
      (hleft : (settle (.check scope lhs expected)).run pass =
        .ok (left, middle))
      (hright : (settle (.check scope rhs expected)).run middle =
        .ok (right, pass'))
      (hrecursion : right.isRecursion = true) :
      BinaryRun settle scope node op lhs rhs expected pass right pass'
  | expected {left right : Ty} {middle pass' : Pass}
      (hleft : (settle (.check scope lhs expected)).run pass =
        .ok (left, middle))
      (hright : (settle (.check scope rhs expected)).run middle =
        .ok (right, pass'))
      (hsame : left.same expected = true ∧ right.same expected = true) :
      BinaryRun settle scope node op lhs rhs expected pass expected pass'
  | operands {left right leftTy rightTy : Ty} {middle last last' pass' : Pass}
      (hleft : (settle (.check scope lhs expected)).run pass =
        .ok (left, middle))
      (hright : (settle (.check scope rhs expected)).run middle =
        .ok (right, last))
      (hleftTy : (settle (.synth scope lhs)).run last = .ok (leftTy, last'))
      (hrightTy : (settle (.synth scope rhs)).run last' =
        .ok (rightTy, pass')) :
      BinaryRun settle scope node op lhs rhs expected pass
        (.fault node (.operands op leftTy rightTy expected)) pass'

theorem binaryRun_of_run {settle : Judgement → PassM Ty}
    {node lhs rhs : NodeId} {op : Operator} {expected ty : Ty}
    {pass pass' : Pass}
    (hrun : ((checkBinary scope node op lhs rhs expected).run
      (fun _ => Pass.mint) settle).run pass = .ok (ty, pass')) :
    BinaryRun settle scope node op lhs rhs expected pass ty pass' := by
  obtain ⟨⟨left, middle⟩, hleft, hrun⟩ :=
    bind_eq_ok_iff.mp ((Rule.run_premise_apply _ _ _ _ pass).symm.trans hrun)
  change StateT.run (Rule.run _ _ (if _ then _ else _)) middle = _ at hrun
  split at hrun
  · cases hrun
    exact .left hleft
  · obtain ⟨⟨right, last⟩, hright, hrun⟩ :=
      bind_eq_ok_iff.mp
        ((Rule.run_premise_apply _ _ _ _ middle).symm.trans hrun)
    change StateT.run (Rule.run _ _ (if _ then _ else _)) last = _ at hrun
    split at hrun
    · next hrecursion =>
        cases hrun
        exact .right hleft hright hrecursion
    · split at hrun
      · next hsame =>
          cases hrun
          exact .expected hleft hright (Bool.and_eq_true_iff.mp hsame)
      · obtain ⟨⟨leftTy, last'⟩, hleftTy, hrun⟩ := bind_eq_ok_iff.mp
          ((Rule.run_premise_apply _ _ _ _ last).symm.trans hrun)
        obtain ⟨⟨rightTy, pass'⟩, hrightTy, hrun⟩ := bind_eq_ok_iff.mp
          ((Rule.run_premise_apply _ _ _ _ last').symm.trans hrun)
        cases hrun
        exact .operands hleft hright hleftTy hrightTy

/-- An operator quotes what its operands find out about joins. At the end it
shows the types of both, and if a join was met, then the type of the operand was
worked out when it was checked. -/
theorem voices_checkBinary {node lhs rhs : NodeId} {op : Operator}
    {left right : Construct} (hlhs : tree.construct lhs = .ok left)
    (hrhs : tree.construct rhs = .ok right) (hleft : left.isCompared = true)
    (hright : right.isCompared = true)
    (hsettle : ∀ less ≤ room, ∀ judgement pass ty pass', judgement.Clean →
      pass.Sincere tree →
      (tree.settle limit less busy judgement).run pass = .ok (ty, pass') →
      pass.Voices tree pass' ty.error?)
    (hscope : scope.Clean) {expected ty : Ty} (hexpected : expected.Clean)
    {pass pass' : Pass} (hpass : pass.Sincere tree)
    (hrun : ((checkBinary scope node op lhs rhs expected).run
      (fun _ => Pass.mint) (tree.settle limit room busy)).run pass =
      .ok (ty, pass')) : pass.Voices tree pass' ty.error? := by
  have hcheck (operand : NodeId) :
      (Judgement.check scope operand expected).Clean :=
    .check hscope operand hexpected
  have hsynth (operand : NodeId) : (Judgement.synth scope operand).Clean :=
    .synth hscope operand
  have hvoices := hsettle room (Nat.le_refl room)
  have hfirst (operand : NodeId) (less : Nat) (hlt : less < room) (pass : Pass)
      (ty : Ty) (pass' : Pass) :=
    hsettle less (Nat.le_of_lt hlt) _ pass ty pass' (hsynth operand)
  intro join cause hjoin hcause
  by_cases hold : pass.cache[join]? = some (.error cause)
  · exact Or.inl hold
  · right
    cases binaryRun_of_run hrun with
    | left hcheckLeft =>
        exact (hvoices _ _ _ _ (hcheck lhs) hpass hcheckLeft join cause hjoin
          hcause).resolve_left hold
    | right hcheckLeft hcheckRight hrecursion =>
        have hmiddle := (tree.settle_told (hcheck lhs) hpass hcheckLeft).sincere
        refine (hvoices _ _ _ _ (hcheck rhs) hmiddle hcheckRight join cause
          hjoin hcause).resolve_left fun hnew => ?_
        obtain ⟨hroom, -⟩ := exists_quotes_of_compared hlhs hleft (hfirst lhs)
          hpass hcheckLeft hjoin hnew hold
        have hnot := isRecursion_of_compared hrhs hright hroom hexpected hmiddle
          hcheckRight
        rw [hrecursion] at hnot
        cases hnot
    | expected hcheckLeft hcheckRight hsame =>
        have hmiddle := (tree.settle_told (hcheck lhs) hpass hcheckLeft).sincere
        rcases hvoices _ _ _ _ (hcheck rhs) hmiddle hcheckRight join cause hjoin
          hcause with hnew | hnames
        · have hnames :=
            (hvoices _ _ _ _ (hcheck lhs) hpass hcheckLeft join cause
              hjoin hnew).resolve_left hold
          exact Rule.Names.of_same hnames hsame.1
        · exact Rule.Names.of_same hnames hsame.2
    | @operands _ _ leftTy rightTy middle last last' _ hcheckLeft hcheckRight
        hleftTy hrightTy =>
        have hmiddle := (tree.settle_told (hcheck lhs) hpass hcheckLeft).sincere
        have hlast :=
          (tree.settle_told (hcheck rhs) hmiddle hcheckRight).sincere
        have hlast' := (tree.settle_told (hsynth lhs) hlast hleftTy).sincere
        suffices Rule.Names Ty.error? cause leftTy ∨
            Rule.Names Ty.error? cause rightTy by
          rcases this with hnames | hnames
          · exact hnames.fault (Fault.shows_operands_left ..) node
          · exact hnames.fault (Fault.shows_operands_right ..) node
        rcases hvoices _ _ _ _ (hsynth rhs) hlast' hrightTy join cause hjoin
          hcause with hcause | hnames
        · rcases hvoices _ _ _ _ (hsynth lhs) hlast hleftTy join cause hjoin
            hcause with hcause | hnames
          · by_cases hnew : middle.cache[join]? = some (.error cause)
            · obtain ⟨-, e, hlookup, hquotes⟩ := exists_quotes_of_compared hlhs
                hleft (hfirst lhs) hpass hcheckLeft hjoin hnew hold
              exact Or.inl (names_of_kept hlookup hquotes
                (tree.settle_grows hcheckRight) hleftTy)
            · obtain ⟨-, e, hlookup, hquotes⟩ := exists_quotes_of_compared hrhs
                hright (hfirst rhs) hmiddle hcheckRight hjoin hcause hnew
              exact Or.inr (names_of_kept hlookup hquotes
                (tree.settle_grows hleftTy) hrightTy)
          · exact Or.inl hnames
        · exact Or.inr hnames

namespace Outspoken

variable (h : tree.Outspoken)

include h

/-- The rules of an outspoken tree quote what their premises find out. -/
theorem voices_rule
    (hsettle : ∀ less ≤ room, ∀ busy judgement pass ty pass', judgement.Clean →
      pass.Sincere tree →
      (tree.settle limit less busy judgement).run pass = .ok (ty, pass') →
      pass.Voices tree pass' ty.error?)
    {judgement : Judgement} (hclean : judgement.Clean) {pass pass' : Pass}
    {ty : Ty} (hpass : pass.Sincere tree)
    (hrun : ((tree.rule judgement).run (fun _ => Pass.mint)
      (tree.settle limit room busy)).run pass = .ok (ty, pass')) :
    pass.Voices tree pass' ty.error? := by
  have hvocal (hrule : (tree.rule judgement).Vocal tree.Mute Ty.error?) :
      pass.Voices tree pass' ty.error? :=
    hrule.run (hsettle room (Nat.le_refl room) busy)
      (tree.candid_rule (fun _ _ => trivial) hclean) hpass hrun
  cases hclean with
  | synth hscope node => exact hvocal (h.toWellFormed.vocal_synthRule _ node)
  | @check scope expected hscope node hexpected =>
      cases hconstruct : tree.construct node with
      | error e =>
          rw [rule, checkRule, hconstruct] at hrun
          cases hrun
      | ok construct =>
          have hkind := h.isOutspoken hconstruct
          rw [rule, checkRule, hconstruct] at hvocal hrun
          cases construct with
          | binary op lhs rhs =>
              rw [Construct.isOutspoken, Bool.and_eq_true, holds_iff, holds_iff]
                at hkind
              obtain ⟨⟨left, hlhs, hleft⟩, right, hrhs, hright⟩ := hkind
              exact voices_checkBinary hlhs hrhs hleft hright
                (fun less hle => hsettle less hle busy) hscope hexpected hpass
                hrun
          | conditional => cases hkind
          | function name params signature body =>
              exact hvocal (vocal_checkFunction _ node name.name body expected)
          | predicate => exact hvocal trivial
          | _ => exact hvocal (vocal_checkBySynthesis _ node expected)

/-- In an outspoken tree the answer to a judgement quotes every problem of a
join that was met on the way. The induction is on the room. -/
theorem settle_voices {judgement : Judgement} (hclean : judgement.Clean)
    {pass pass' : Pass} {ty : Ty} (hpass : pass.Sincere tree)
    (hrun : (tree.settle limit room busy judgement).run pass =
      .ok (ty, pass')) :
    pass.Voices tree pass' ty.error? := by
  induction room using Nat.strongRecOn
    generalizing busy judgement pass ty pass' with
  | ind room ih =>
      rcases tree.settle_cases hrun with hsettled | ⟨middle, hsettled, hcase⟩
      · refine .of_cache_eq ?_ _
        cases tree.settled?_eq_ok_iff.mp hsettled <;> rfl
      · obtain rfl := (tree.settled?_eq_ok_iff.mp hsettled).eq_of_none
        rcases hcase with ⟨-, -, rfl⟩ | ⟨less, last, rfl, rfl, hrule⟩
        · exact .of_cache_eq rfl _
        · have hvoices : middle.Voices tree last ty.error? :=
            h.voices_rule (fun fewer hle _ _ _ _ _ hjudgement hbefore hfound =>
              ih fewer (Nat.lt_succ_of_le hle) hjudgement hbefore hfound) hclean
              hpass hrule
          cases judgement with
          | check scope node expected => exact hvoices
          | synth scope node =>
              intro join cause hjoin hcause
              rw [Pass.record, Pass.cache_recordType] at hcause
              split at hcause
              · cases hcause
                exact Or.inr (Rule.names_error cause)
              · exact hvoices join cause hjoin hcause

end Outspoken

end Tree

end ConceptLang
