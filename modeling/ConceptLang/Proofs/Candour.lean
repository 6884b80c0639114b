import ConceptLang.Proofs.Repetition
import ConceptLang.Proofs.TypingRelation

/-!
# Errors are not hidden

A missing rule is only worth a warning; every other type problem is *severe*. No
rule hides a severe problem: a rule that gets one for any of its premises comes
to a severe problem itself, though often to another one that wraps the first
(`Tree.candid_rule`). This holds for all trees. What it needs is that types are
*proper*: free of problems in all their parts, or a fault of a node. And no rule
makes a problem of recursion by itself: what it makes of types whose faults are
of certain causes has a fault of these causes again, or of one that is not about
recursion.

For a pass this has two consequences, which `Tree.settle_candid` states
together. A judgement whose answer is not severe adds no severe type to the
memory of the pass. And it never met the limit on the way, so that it has the
same answer, and the same effect, with more room.
-/

namespace ConceptLang

/-- Whether a problem is worth an error. -/
def TypeError.isSevere (e : TypeError) : Bool :=
  e.kind != .notImplemented

namespace Ty

/-- Whether a type stands for a problem that is worth an error. -/
def isSevere : Ty → Bool
  | .error e => e.isSevere
  | _ => false

/-- No part of the type stands for a problem. -/
inductive Clean : Ty → Prop where
  | boolean (literal : Option NodeId) : Clean (.boolean literal)
  | string (literal : Option NodeId) : Clean (.string literal)
  | integer (literal : Option NodeId) : Clean (.integer literal)
  | unit : Clean .unit
  | function {params : List (NodeId × Ty)} {result : Ty}
      (hparams : ∀ param ∈ params, Clean param.2) (hresult : Clean result) :
      Clean (.function params result)
  | predicate {params : List (NodeId × Ty)}
      (hparams : ∀ param ∈ params, Clean param.2) : Clean (.predicate params)
  | concept (concept : Concept) : Clean (.concept concept)
  | relation {stamp : Nat} {decl : NodeId} {name : String} {owner : Concept}
      {relatum : Ty} (h : Clean relatum) :
      Clean (.relation stamp decl name owner relatum)

/-- The type is free of problems, or the fault of a node with a cause as `made`
says. -/
inductive CleanOr (made : Fault → Prop) : Ty → Prop where
  | clean {ty : Ty} (h : ty.Clean) : CleanOr made ty
  | fault (node : NodeId) {cause : Fault} (h : made cause) :
      CleanOr made (.fault node cause)

/-- The type is free of problems, or the fault of a node. -/
abbrev Proper : Ty → Prop := CleanOr fun _ => True

theorem Clean.isError_eq {ty : Ty} (h : ty.Clean) : ty.isError = false := by
  cases h <;> rfl

theorem CleanOr.clean_of_isError {made : Fault → Prop} {ty : Ty}
    (h : ty.CleanOr made) (hty : ty.isError = false) : ty.Clean := by
  cases h with
  | clean h => exact h
  | fault node => cases hty

theorem isError_of_isSevere {ty : Ty} (h : ty.isSevere = true) :
    ty.isError = true := by
  cases ty with
  | error e => rfl
  | _ => cases h

theorem isSevere_of_isRecursion {ty : Ty} (h : ty.isRecursion = true) :
    ty.isSevere = true := by
  cases ty with
  | error e =>
      have hkind : e.kind = .recursion := by simpa [isRecursion] using h
      simp [isSevere, TypeError.isSevere, hkind]
  | _ => cases h

/-- A type that is the same as one without problems is no problem. -/
theorem Clean.not_isSevere_of_same {ty expected : Ty} (h : expected.Clean)
    (hsame : ty.same expected = true) : ¬ ty.isSevere = true := fun hty => by
  have herror := isError_of_same hsame (isError_of_isSevere hty)
  rw [h.isError_eq] at herror
  cases herror

end Ty

/-- The scope binds only types without problems. -/
def Scope.Clean (scope : Scope) : Prop :=
  ∀ binding ∈ scope.bindings, binding.2.Clean

theorem Scope.clean_empty : Scope.empty.Clean := by
  intro binding hbinding
  cases hbinding

theorem Scope.Clean.extend {scope : Scope} {bindings : List (NodeId × Ty)}
    (h : scope.Clean) (hbindings : ∀ binding ∈ bindings, binding.2.Clean) :
    (scope.extend bindings).Clean := by
  intro binding hbinding
  rcases List.mem_append.mp hbinding with hnew | hold
  · exact hbindings binding (List.mem_reverse.mp hnew)
  · exact h binding hold

/-- The judgement mentions only types without problems. -/
inductive Judgement.Clean : Judgement → Prop where
  | synth {scope : Scope} (hscope : scope.Clean) (node : NodeId) :
      Clean (.synth scope node)
  | check {scope : Scope} {expected : Ty} (hscope : scope.Clean) (node : NodeId)
      (hexpected : expected.Clean) : Clean (.check scope node expected)

/-! ### Rules that do not hide problems -/

namespace Rule

variable {α β : Type}

/-- With answers that are clean or `made` the rule comes to a conclusion as
`post` says, if to any; and after a severe answer every conclusion fails. -/
def Candid (made : Fault → Prop) (fails post : α → Prop) : Rule α → Prop
  | .conclude result => post result
  | .defect _ => True
  | .premise judgement next => judgement.Clean ∧ ∀ ty, ty.CleanOr made →
    (ty.isSevere = true → (next ty).Doomed fails) ∧
    (next ty).Candid made fails post
  | .stamp _ next => ∀ n, (next n).Candid made fails post

/-- A rule for a type that comes to a clean or `made` type, and to a severe
problem after one. -/
abbrev CandidTy (made : Fault → Prop) (rule : Rule Ty) : Prop :=
  rule.Candid made (·.isSevere = true) (Ty.CleanOr made)

variable {made : Fault → Prop} {fails post : α → Prop} {fails' post' : β → Prop}

theorem Candid.bind {rule : Rule α} {f : α → Rule β}
    (h : rule.Candid made fails post)
    (hfail : ∀ a, fails a → (f a).Doomed fails')
    (hgo : ∀ a, post a → (f a).Candid made fails' post') :
    (rule.bind f).Candid made fails' post' := by
  induction rule with
  | conclude result => exact hgo result h
  | defect error => trivial
  | premise judgement next ih =>
      refine ⟨h.1, fun ty hty => ⟨fun hsevere => ?_, ih ty (h.2 ty hty).2⟩⟩
      exact ((h.2 ty hty).1 hsevere).bind hfail
  | stamp decl next ih => exact fun n => ih n (h n)

theorem Candid.lift {x : Except TreeError α} {f : α → Rule β}
    (hf : ∀ a, x = .ok a → (f a).Candid made fails' post') :
    ((liftM x : Rule α) >>= f).Candid made fails' post' := by
  cases x with
  | error e => trivial
  | ok a => exact hf a rfl

/-- A rule that does not hide a severe problem of the rule before it. -/
theorem Candid.bind_ty {rule : Rule Ty} {f : Ty → Rule α}
    (h : rule.CandidTy made)
    (hfail : ∀ e, e.isSevere = true → (f (.error e)).Doomed fails)
    (hgo : ∀ ty, ty.CleanOr made → (f ty).Candid made fails post) :
    (rule >>= f).Candid made fails post := by
  refine h.bind (fun ty hty => ?_) hgo
  cases ty with
  | error e => exact hfail e hty
  | _ => cases hty

/-- The same for a rule that stops at the first problem, where `good` holds of
what it has found without one. -/
theorem Candid.bind_outcome {good : β → Prop} {rule : Rule (Except TypeError β)}
    {f : Except TypeError β → Rule α}
    (h : rule.Candid made (fun outcome => ∃ e, outcome = .error e ∧
      e.isSevere = true)
        (fun outcome => (∀ e, outcome = .error e → (Ty.error e).CleanOr made) ∧
          ∀ b, outcome = .ok b → good b))
    (hfail : ∀ e, e.isSevere = true → (f (.error e)).Doomed fails)
    (herror : ∀ e, (Ty.error e).CleanOr made →
      (f (.error e)).Candid made fails post)
    (hok : ∀ b, good b → (f (.ok b)).Candid made fails post) :
    (rule >>= f).Candid made fails post := by
  refine h.bind ?_ fun outcome houtcome => ?_
  · rintro _ ⟨e, rfl, he⟩
    exact hfail e he
  · cases outcome with
    | error e => exact herror e (houtcome.1 e rfl)
    | ok b => exact hok b (houtcome.2 b rfl)

section Premises

variable {scope : Scope} (hscope : scope.Clean)

include hscope

theorem candid_synth (node : NodeId) :
    (synth scope node).CandidTy made :=
  ⟨.synth hscope node, fun _ hty => ⟨fun hsevere => hsevere, hty⟩⟩

theorem candid_check (node : NodeId) {expected : Ty}
    (hexpected : expected.Clean) :
    (check scope node expected).CandidTy made :=
  ⟨.check hscope node hexpected, fun _ hty => ⟨fun hsevere => hsevere, hty⟩⟩

theorem candid_synthAll (nodes : List NodeId) :
    (synthAll scope nodes).Candid made (fun outcome => ∃ e, outcome = .error e ∧
      e.isSevere = true)
      (fun outcome => (∀ e, outcome = .error e → (Ty.error e).CleanOr made) ∧
        ∀ types, outcome = .ok types → ∀ ty ∈ types, ty.Clean) := by
  induction nodes with
  | nil => exact ⟨by simp, by simp⟩
  | cons node nodes ih =>
      refine (candid_synth hscope node).bind_ty (fun e he => ⟨e, rfl, he⟩)
        fun ty hty => ?_
      cases ty with
      | error e => exact ⟨by simpa using hty, by simp⟩
      | _ =>
          refine ih.bind_outcome (fun e he => ⟨e, rfl, he⟩)
            (fun e he => ⟨by simpa using he, by simp⟩) fun types htypes =>
              ⟨by simp, ?_⟩
          rintro _ ⟨⟩
          exact List.forall_mem_cons.mpr ⟨hty.clean_of_isError rfl, htypes⟩

theorem candid_checkAll (pairs : List (NodeId × Ty))
    (hpairs : ∀ pair ∈ pairs, pair.2.Clean) :
    (checkAll scope pairs).Candid made
      (fun outcome => ∃ e, outcome = some e ∧ e.isSevere = true)
      (fun outcome => ∀ e, outcome = some e → (Ty.error e).CleanOr made) := by
  induction pairs with
  | nil =>
      intro e he
      cases he
  | cons pair pairs ih =>
      refine (candid_check hscope pair.1 (hpairs pair (by simp))).bind_ty
        (fun e he => ⟨e, rfl, he⟩) fun ty hty => ?_
      cases ty with
      | error e =>
          rintro _ ⟨⟩
          exact hty
      | _ => exact ih fun other hother => hpairs other (by simp [hother])

end Premises

end Rule

namespace Tree

section Rules

variable (tree : Tree) {made : Fault → Prop}
  (hmade : ∀ cause : Fault, cause.kind ≠ .recursion → made cause)
  {scope : Scope} (hscope : scope.Clean) (node : NodeId)

include hmade

theorem candid_conceptType (ref : NodeId) :
    (liftM (tree.conceptType node ref) : Rule Ty).CandidTy made := by
  cases hty : tree.conceptType node ref with
  | error e => trivial
  | ok ty =>
      obtain ⟨construct, -, htarget⟩ := bind_eq_ok_iff.mp hty
      obtain ⟨target, -, hdecl⟩ := bind_eq_ok_iff.mp htarget
      cases target with
      | none =>
          cases hdecl
          exact .fault node (hmade _ nofun)
      | some decl =>
          obtain ⟨construct', -, hresult⟩ := bind_eq_ok_iff.mp hdecl
          cases construct' with
          | concept name parents relations =>
              cases hresult
              exact .clean (.concept _)
          | _ =>
              cases hresult
              exact .fault node (hmade _ nofun)

include hscope

theorem candid_synthParam (name : String) :
    (tree.synthParam scope node name).CandidTy made := by
  refine Rule.Candid.lift fun parent _ => ?_
  cases parent with
  | none => exact .fault node (hmade _ nofun)
  | some above =>
      refine (Rule.candid_synth hscope above).bind_ty (fun e _ => rfl)
        fun ty hty => ?_
      cases ty with
      | function params result =>
          cases hty.clean_of_isError rfl with
          | function hparams hresult =>
              dsimp only
              cases hparam : paramType? params node with
              | none => exact .fault node (hmade _ nofun)
              | some ty => exact .clean (hparams _ (mem_of_lookup hparam))
      | _ => exact .fault node (hmade _ nofun)

theorem candid_synthRelation (name : String) (relatum : NodeId) :
    (tree.synthRelation scope node name relatum).CandidTy made := by
  refine Rule.Candid.lift fun owner _ => ?_
  cases owner with
  | none => exact .fault node (hmade _ nofun)
  | some owner =>
      refine (Rule.candid_synth hscope relatum).bind_ty (fun e he => he)
        fun ty hty => ?_
      cases ty with
      | error e => exact hty
      | _ => exact fun _ => .clean (.relation (hty.clean_of_isError rfl))

theorem candid_synthFunction (name : String) (params slots : List NodeId) :
    (synthFunction scope node name params slots).CandidTy made := by
  rw [synthFunction]
  split
  · exact .fault node (hmade _ (by rintro ⟨⟩))
  · refine (Rule.candid_synthAll hscope slots).bind_outcome (fun e he => he)
      (fun e he => he) fun types htypes => .clean ?_
    refine .function (fun param hparam => htypes _ (List.of_mem_zip hparam).2)
      ?_
    cases hlast : types.getLast? with
    | none => exact .unit
    | some result => exact htypes result (List.mem_of_getLast? hlast)

theorem candid_synthCall (callee : NodeId) (args : List NodeId) :
    (synthCall scope node callee args).CandidTy made := by
  refine (Rule.candid_synth hscope callee).bind_ty (fun e _ => rfl)
    fun ty hty => ?_
  cases ty with
  | function params result =>
      cases hty.clean_of_isError rfl with
      | function hparams hresult =>
          dsimp only
          split
          · exact .fault node (hmade _ nofun)
          · refine (Rule.candid_checkAll hscope _ fun pair hpair => ?_).bind ?_
              fun outcome houtcome => ?_
            · obtain ⟨param, hparam, heq⟩ :=
                List.mem_map.mp (List.of_mem_zip hpair).2
              exact heq ▸ hparams param hparam
            · rintro _ ⟨e, rfl, he⟩
              exact he
            · cases outcome with
              | some e => exact houtcome e rfl
              | none => exact .clean hresult
  | _ => exact .fault node (hmade _ nofun)

theorem candid_predicateParams (params : List NodeId) :
    (tree.predicateParams scope params).Candid made
      (fun outcome => ∃ e, outcome = .error e ∧ e.isSevere = true)
      (fun outcome => (∀ e, outcome = .error e → (Ty.error e).CleanOr made) ∧
        ∀ bindings, outcome = .ok bindings → ∀ binding ∈ bindings,
          binding.2.Clean) := by
  induction params with
  | nil => exact ⟨by simp, by simp⟩
  | cons typed params ih =>
      refine Rule.Candid.lift fun construct _ => ?_
      cases construct with
      | typedParam formal typeNode =>
          refine (Rule.candid_synth hscope typed).bind_ty
            (fun e he => ⟨e, rfl, he⟩) fun ty hty => ?_
          cases ty with
          | error e => exact ⟨by simpa using hty, by simp⟩
          | _ =>
              refine ih.bind_outcome (fun e he => ⟨e, rfl, he⟩)
                (fun e he => ⟨by simpa using he, by simp⟩)
                fun bindings hbindings => ⟨by simp, ?_⟩
              rintro _ ⟨⟩
              exact List.forall_mem_cons.mpr ⟨hty.clean_of_isError rfl,
                hbindings⟩
      | _ =>
          refine ⟨?_, by simp⟩
          rintro _ ⟨⟩
          exact .fault typed (hmade _ nofun)

theorem candid_synthPredicate (params : List NodeId) :
    (tree.synthPredicate scope node params).CandidTy made :=
  (tree.candid_predicateParams hmade hscope params).bind_outcome
    (fun _ he => he) (fun _ he => he) fun _ hbindings =>
      Rule.candid_check hscope node (.predicate hbindings)

theorem candid_synthBinary (op : Operator) :
    (synthBinary scope node op).CandidTy made := by
  cases op with
  | mod => exact .fault node (hmade _ nofun)
  | or | and | eq | ne | lt | gt | le | ge =>
      exact Rule.candid_check hscope node (.boolean none)
  | add | sub | mul | div => exact Rule.candid_check hscope node (.integer none)

theorem candid_synthJoin (left field : NodeId) :
    (tree.synthJoin scope node left field).CandidTy made := by
  refine (Rule.candid_synth hscope left).bind_ty (fun e _ => rfl)
    fun ty hty => ?_
  cases ty with
  | concept concept =>
      refine Rule.Candid.lift fun construct _ => ?_
      cases construct with
      | reference text link =>
          refine Rule.Candid.lift fun found _ => ?_
          cases found with
          | none => exact .fault node (hmade _ nofun)
          | some pair =>
              refine (Rule.candid_synth hscope pair.2).bind_ty (fun e _ => rfl)
                fun ty hty => ?_
              cases ty with
              | relation stamp decl name owner relatum =>
                  simp only [joinThrough, Rule.pure_eq, Rule.Candid]
                  split
                  · cases hty.clean_of_isError rfl with
                    | relation hrelatum => exact .clean hrelatum
                  · exact .fault node (hmade _ nofun)
              | _ => exact .fault node (hmade _ nofun)
      | _ => exact .fault node (hmade _ nofun)
  | _ => exact .fault node (hmade _ nofun)

/-- The rules of synthesis do not hide problems. -/
theorem candid_synthRule :
    (tree.synthRule scope node).CandidTy made := by
  refine Rule.Candid.lift fun construct _ => ?_
  cases construct with
  | reference text link =>
      cases link with
      | resolved target => exact Rule.candid_synth hscope target
      | unresolved note => exact .fault node (hmade _ nofun)
  | join left field => exact tree.candid_synthJoin hmade hscope node left field
  | stringLit value => exact .clean (.string _)
  | boolLit value => exact .clean (.boolean _)
  | intLit value => exact .clean (.integer _)
  | var name typeNode value =>
      cases typeNode with
      | some typeNode => exact Rule.candid_synth hscope typeNode
      | none =>
          cases value with
          | some value => exact Rule.candid_synth hscope value
          | none => exact .fault node (hmade _ nofun)
  | param name => exact tree.candid_synthParam hmade hscope node name.name
  | typedParam formal typeNode => exact Rule.candid_synth hscope typeNode
  | keywordType keyword =>
      simp only [keywordType, Rule.pure_eq, Rule.Candid]
      split
      · exact .clean (.string none)
      · split
        · exact .clean (.integer none)
        · split
          · exact .clean (.boolean none)
          · exact .fault node (hmade _ nofun)
  | conceptType ref => exact tree.candid_conceptType hmade node ref
  | concept name parents relations => exact .clean (.concept _)
  | relation name relatum =>
      exact tree.candid_synthRelation hmade hscope node name.name relatum
  | binary op lhs rhs => exact candid_synthBinary hmade hscope node op
  | function name params slots body =>
      exact candid_synthFunction hmade hscope node name.name params slots
  | call callee args => exact candid_synthCall hmade hscope node callee args
  | predicate name params body =>
      exact tree.candid_synthPredicate hmade hscope node params
  | conditional condition thenBranch elseBranch =>
      exact .fault node (hmade _ nofun)

variable {expected : Ty} (hexpected : expected.Clean)

include hexpected

theorem candid_checkBinary (op : Operator) (lhs rhs : NodeId) :
    (checkBinary scope node op lhs rhs expected).CandidTy made := by
  have hfault : (do
      let left ← Rule.synth scope lhs
      let right ← Rule.synth scope rhs
      return .fault node (.operands op left right expected) : Rule Ty).Doomed
        (·.isSevere = true) := fun _ _ => rfl
  refine (Rule.candid_check hscope lhs hexpected).bind (fun left hleft => ?_)
    fun left hleft => ?_
  · split
    · exact hleft
    · intro right
      change Rule.Doomed _ (if _ then _ else _)
      split
      · next hright => exact Ty.isSevere_of_isRecursion hright
      · split
        · next hsame =>
            rw [Bool.and_eq_true] at hsame
            exact absurd hleft (hexpected.not_isSevere_of_same hsame.1)
        · exact hfault
  · split
    · exact hleft
    · refine (Rule.candid_check hscope rhs hexpected).bind
        (fun right hright => ?_) fun right hright => ?_
      · split
        · exact hright
        · split
          · next hsame =>
              rw [Bool.and_eq_true] at hsame
              exact absurd hright (hexpected.not_isSevere_of_same hsame.2)
          · exact hfault
      · split
        · exact hright
        · split
          · exact .clean hexpected
          · refine (Rule.candid_synth hscope lhs).bind (fun _ _ _ => rfl)
              fun _ _ => ?_
            exact (Rule.candid_synth hscope rhs).bind (fun _ _ => rfl)
              fun _ _ =>
              .fault node (hmade _ nofun)

theorem candid_checkFunction (name : String) (body : NodeId) :
    (checkFunction scope node name body expected).CandidTy made := by
  cases hexpected with
  | function hparams hresult =>
      refine (Rule.candid_check (hscope.extend hparams) body hresult).bind_ty
        (fun e he => he) fun ty hty => ?_
      cases ty with
      | error e => exact hty
      | _ => exact .clean (.function hparams hresult)
  | _ => exact .fault node (hmade _ nofun)

theorem candid_checkConditional (condition thenBranch elseBranch : NodeId) :
    (checkConditional scope node condition thenBranch elseBranch
      expected).CandidTy made := by
  refine (Rule.candid_synth hscope condition).bind
    (fun conditionTy hcondition thenTy elseTy => ?_)
    fun conditionTy _ => ?_
  · change Rule.Doomed _ (if _ then _ else _)
    have hboolean : conditionTy.isBoolean = false := by
      cases conditionTy <;> first | rfl | cases hcondition
    rw [hboolean]
    exact rfl
  · refine (Rule.candid_synth hscope thenBranch).bind
      (fun thenTy hthen elseTy => ?_) fun thenTy _ => ?_
    · change Rule.Doomed _ (if _ then _ else _)
      split
      · exact rfl
      · split
        · exact rfl
        · next hsame =>
            exact absurd hthen
              (hexpected.not_isSevere_of_same (by simpa using hsame))
    · refine (Rule.candid_synth hscope elseBranch).bind (fun elseTy helse => ?_)
        fun elseTy _ => ?_
      · split
        · exact rfl
        · split
          · exact rfl
          · split
            · exact rfl
            · next hsame =>
                exact absurd helse
                  (hexpected.not_isSevere_of_same (by simpa using hsame))
      · split
        · exact .fault node (hmade _ nofun)
        · split
          · exact .fault node (hmade _ nofun)
          · split
            · exact .fault node (hmade _ nofun)
            · exact .clean hexpected

theorem candid_checkBySynthesis :
    (checkBySynthesis scope node expected).CandidTy made := by
  refine (Rule.candid_synth hscope node).bind (fun actual hactual => ?_)
    fun actual _ => ?_
  · split
    · next hsame => exact absurd hactual (hexpected.not_isSevere_of_same hsame)
    · exact rfl
  · split
    · exact .clean hexpected
    · exact .fault node (hmade _ nofun)

/-- The rules of checking do not hide problems. -/
theorem candid_checkRule :
    (tree.checkRule scope node expected).CandidTy made := by
  refine Rule.Candid.lift fun construct _ => ?_
  cases construct with
  | binary op lhs rhs =>
      exact candid_checkBinary hmade hscope node hexpected op lhs rhs
  | function name params slots body =>
      exact candid_checkFunction hmade hscope node hexpected name.name body
  | predicate name params body => exact .fault node (hmade _ nofun)
  | conditional condition thenBranch elseBranch =>
      exact candid_checkConditional hmade hscope node hexpected condition
        thenBranch elseBranch
  | _ => exact candid_checkBySynthesis hmade hscope node hexpected

end Rules

/-- No rule hides a severe problem of a premise. -/
theorem candid_rule (tree : Tree) {made : Fault → Prop}
    (hmade : ∀ cause : Fault, cause.kind ≠ .recursion → made cause)
    {judgement : Judgement} (h : judgement.Clean) :
    (tree.rule judgement).CandidTy made := by
  cases h with
  | synth hscope node => exact tree.candid_synthRule hmade hscope node
  | check hscope node hexpected =>
      exact tree.candid_checkRule hmade hscope node hexpected

end Tree

/-! ### Passes that remember only proper types -/

namespace Pass

/-- What the pass remembers is proper. An open reference is remembered only as a
severe problem, and a comparison never as a problem of recursion. -/
structure Sincere (tree : Tree) (pass : Pass) : Prop where
  cache : ∀ (node : NodeId) (ty : Ty), pass.cache[node]? = some ty → ty.Proper
  opened : ∀ (node : NodeId) (ty : Ty) text note, pass.cache[node]? = some ty →
    tree.construct node = .ok (.reference text (.unresolved note)) →
    ty.isSevere = true
  memo : ∀ (node : NodeId) entries, pass.memo[node]? = some entries →
    ∀ entry ∈ entries, entry.2.Proper
  compared : ∀ (node : NodeId) construct entries,
    tree.construct node = .ok construct → construct.isCompared = true →
    pass.memo[node]? = some entries →
    ∀ entry ∈ entries, entry.2.isRecursion = false

/-- Every severe type that the second pass remembers was remembered by the
first. -/
def Spares (pass pass' : Pass) : Prop :=
  ∀ (node : NodeId) (ty : Ty), pass'.cache[node]? = some ty →
    ty.isSevere = true → pass.cache[node]? = some ty

theorem Spares.refl (pass : Pass) : pass.Spares pass := fun _ _ h _ => h

theorem Spares.trans {pass pass' pass'' : Pass} (h : pass.Spares pass')
    (h' : pass'.Spares pass'') :
    pass.Spares pass'' := fun node ty hty hsevere =>
  h node ty (h' node ty hty hsevere) hsevere

theorem Spares.record {pass pass' : Pass} (h : pass.Spares pass')
    (judgement : Judgement) {ty : Ty} (hty : ¬ ty.isSevere = true) :
    pass.Spares (pass'.record judgement ty) := by
  cases judgement with
  | synth scope node =>
      intro other known hknown hsevere
      rw [Pass.record, cache_recordType] at hknown
      split at hknown
      · cases hknown
        exact absurd hsevere hty
      · exact h other known hknown hsevere
  | check scope node expected => exact h

theorem sincere_empty (tree : Tree) : Sincere tree {} := by
  constructor
  · intro node ty h
    simp at h
  · intro node ty text note h
    simp at h
  · intro node entries h
    simp at h
  · intro node construct entries _ _ h
    simp at h

variable {tree : Tree} {pass : Pass}

theorem Sincere.lookup (h : pass.Sincere tree) {scope : Scope}
    (hscope : scope.Clean) {node : NodeId} {ty : Ty}
    (hlookup : pass.lookup scope node = some ty) : ty.Proper := by
  rw [Pass.lookup, Option.or_eq_some_iff] at hlookup
  rcases hlookup with hbound | ⟨-, hcache⟩
  · exact .clean (hscope (node, ty) (mem_of_lookup hbound))
  · exact h.cache node ty hcache

theorem Sincere.recalled (h : pass.Sincere tree) {node : NodeId}
    {expected ty : Ty} (hrecalled : pass.recalled? node expected = some ty) :
    ty.Proper := by
  obtain ⟨entries, entry, hentries, hmem, -, rfl⟩ :=
    pass.mem_memo_of_recalled node hrecalled
  exact h.memo node entries hentries entry hmem

theorem Sincere.record (h : pass.Sincere tree) {judgement : Judgement} {ty : Ty}
    (hty : ty.Proper)
    (hopened : ∀ scope node text note, judgement = .synth scope node →
      tree.construct node = .ok (.reference text (.unresolved note)) →
      ty.isSevere = true)
    (hcompared : ∀ scope node expected construct,
      judgement = .check scope node expected →
      tree.construct node = .ok construct → construct.isCompared = true →
      ty.isRecursion = false) :
    (pass.record judgement ty).Sincere tree := by
  cases judgement with
  | synth scope node =>
      refine ⟨fun other known hknown => ?_,
        fun other known text note hknown hopen => ?_, h.memo, h.compared⟩ <;>
        rw [Pass.record, cache_recordType] at hknown <;> split at hknown
      · cases hknown
        exact hty
      · exact h.cache other known hknown
      · next heq =>
          subst heq
          cases hknown
          exact hopened scope other text note rfl hopen
      · exact h.opened other known text note hknown hopen
  | check scope node expected =>
      refine ⟨h.cache, h.opened, fun other entries hother entry hentry => ?_,
        fun other construct entries hnode hkind hother entry hentry => ?_⟩ <;>
        rcases pass.mem_memo_recordCheck node hother hentry with
          ⟨old, hold, hmem⟩ | ⟨rfl, rfl⟩
      · exact h.memo other old hold entry hmem
      · exact hty
      · exact h.compared other construct old hnode hkind hold entry hmem
      · exact hcompared scope other expected construct rfl hnode hkind

end Pass

namespace Tree

/-- What a computation of a pass came to: a conclusion as `post` says, and a
sincere pass. Unless the conclusion fails, no severe type was added, and `again`
comes to the same. -/
structure Told {α : Type} (tree : Tree) (fails post : α → Prop)
    (again : PassM α) (pass : Pass) (a : α) (pass' : Pass) : Prop where
  conclusion : post a
  sincere : pass'.Sincere tree
  spares : ¬ fails a → pass.Spares pass'
  repeated : ¬ fails a → again.run pass = .ok (a, pass')

end Tree

/-- A run of a rule that does not hide problems tells what its premises tell. -/
theorem Rule.Candid.run {α : Type} {fails post : α → Prop} {tree : Tree}
    {settle settle' : Judgement → PassM Ty}
    (hsettle : ∀ judgement pass ty pass', judgement.Clean → pass.Sincere tree →
      (settle judgement).run pass = .ok (ty, pass') →
      tree.Told (·.isSevere = true) Ty.Proper (settle' judgement) pass ty pass')
    {rule : Rule α} (h : rule.Candid (fun _ => True) fails post)
    {pass pass' : Pass} {a : α} (hpass : pass.Sincere tree)
    (hrun : (rule.run (fun _ => Pass.mint) settle).run pass = .ok (a, pass')) :
    tree.Told fails post (rule.run (fun _ => Pass.mint) settle') pass a
      pass' := by
  induction rule generalizing pass with
  | conclude result =>
      cases hrun
      exact ⟨h, hpass, fun _ => .refl _, fun _ => rfl⟩
  | defect error => cases hrun
  | premise judgement next ih =>
      rw [run_premise_apply] at hrun
      obtain ⟨⟨ty, middle⟩, hfirst, hnext⟩ := bind_eq_ok_iff.mp hrun
      have hty := hsettle judgement pass ty middle h.1 hpass hfirst
      obtain ⟨hdoomed, hcandid⟩ := h.2 ty hty.conclusion
      have hrest := ih ty hcandid hty.sincere hnext
      -- A severe answer would have made the conclusion fail.
      have hsevere : ¬ fails a → ¬ ty.isSevere = true := fun ha hsevere =>
        ha ((hdoomed hsevere).run hnext)
      refine ⟨hrest.conclusion, hrest.sincere, fun ha => ?_, fun ha => ?_⟩
      · exact (hty.spares (hsevere ha)).trans (hrest.spares ha)
      · rw [run_premise_apply, hty.repeated (hsevere ha)]
        exact hrest.repeated ha
  | stamp decl next ih =>
      rw [run_stamp_apply] at hrun
      obtain ⟨⟨n, middle⟩, hfirst, hnext⟩ := bind_eq_ok_iff.mp hrun
      cases hfirst
      have hmiddle :
          Pass.Sincere tree { pass with stamps := pass.stamps + 1 } :=
        ⟨hpass.cache, hpass.opened, hpass.memo, hpass.compared⟩
      have hrest := ih _ (h _) hmiddle hnext
      exact ⟨hrest.conclusion, hrest.sincere, hrest.spares, hrest.repeated⟩

namespace Tree

variable (tree : Tree)

theorem settled?_sincere {busy : List NodeId} {judgement : Judgement}
    (hclean : judgement.Clean) {pass pass' : Pass} (hpass : pass.Sincere tree)
    {known : Option Ty}
    (hrun : (tree.settled? busy judgement).run pass = .ok (known, pass')) :
    (∀ ty, known = some ty → ty.Proper) ∧ pass'.Sincere tree ∧
    pass'.cache = pass.cache := by
  cases (tree.settled?_eq_ok_iff).mp hrun with
  | known hlookup =>
      cases hclean with
      | synth hscope =>
          refine ⟨?_,
            ⟨hpass.cache, hpass.opened, hpass.memo, hpass.compared⟩, rfl⟩
          rintro _ ⟨⟩
          exact hpass.lookup hscope hlookup
  | cyclic hlookup hbusy hconstruct =>
      refine ⟨?_, hpass, rfl⟩
      rintro _ ⟨⟩
      exact .fault _ trivial
  | free hlookup hbusy => exact ⟨nofun, hpass, rfl⟩
  | recalled hrecalled =>
      exact ⟨fun ty hty => hpass.recalled (hrecalled.trans hty), hpass, rfl⟩

/-- An open reference has only one type error. -/
theorem isSevere_of_run_opened {settle : Judgement → PassM Ty}
    {mint : NodeId → PassM Nat} {scope : Scope} {node : NodeId} {text : String}
    {note : Option String} {pass pass' : Pass} {ty : Ty}
    (hopen : tree.construct node = .ok (.reference text (.unresolved note)))
    (hrun : ((tree.rule (.synth scope node)).run mint settle).run pass =
      .ok (ty, pass')) :
    ty.isSevere = true := by
  rw [rule, synthRule, hopen] at hrun
  cases hrun
  rfl

/-- A comparison with a clean type does not end in a problem of recursion. -/
theorem isRecursion_of_run_compared {settle : Judgement → PassM Ty}
    {mint : NodeId → PassM Nat} {scope : Scope} {node : NodeId}
    {expected ty : Ty} {construct : Construct} {pass pass' : Pass}
    (hconstruct : tree.construct node = .ok construct)
    (hcompared : construct.isCompared = true) (hexpected : expected.Clean)
    (hrun : ((tree.rule (.check scope node expected)).run mint settle).run
      pass = .ok (ty, pass')) : ty.isRecursion = false := by
  have hnever : (tree.rule (.check scope node expected)).Doomed
      (·.isRecursion = false) := by
    rw [rule_check_of_isCompared hconstruct hcompared]
    intro actual
    change Rule.Doomed _ (if _ then _ else _)
    split
    · cases hexpected <;> rfl
    · rfl
  exact hnever.run hrun

/-- A pass that has only proper types in its memory finds only such types. A
judgement that does not end in a severe problem adds none to the memory, and
ends in the same way with more room. The induction is on the room. -/
theorem settle_candid {limit limit' room room' : Nat} (hroom : room ≤ room')
    {busy : List NodeId} {judgement : Judgement} (hclean : judgement.Clean)
    {pass pass' : Pass} {ty : Ty} (hpass : pass.Sincere tree)
    (hrun : (tree.settle limit room busy judgement).run pass =
      .ok (ty, pass')) :
    tree.Told (·.isSevere = true) Ty.Proper
      (tree.settle limit' room' busy judgement) pass ty
      pass' := by
  induction room using Nat.strongRecOn
    generalizing room' busy judgement pass ty pass' with
  | ind room ih =>
      rcases tree.settle_cases hrun with hsettled | ⟨middle, hsettled, hcase⟩
      · obtain ⟨hty, hpass', hcache⟩ :=
          tree.settled?_sincere hclean hpass hsettled
        refine ⟨hty ty rfl, hpass', fun _ => ?_,
          fun _ => tree.settle_of_settled hsettled⟩
        intro node known hknown _
        rwa [hcache] at hknown
      · obtain ⟨-, hmiddle, hcache⟩ :=
          tree.settled?_sincere hclean hpass hsettled
        rcases hcase with ⟨-, rfl, rfl⟩ | ⟨less, last, rfl, rfl, hrule⟩
        · exact ⟨.fault _ trivial, hmiddle, fun hty => absurd rfl hty,
            fun hty => absurd rfl hty⟩
        · obtain ⟨less', rfl⟩ : ∃ less', room' = less' + 1 :=
            ⟨room' - 1, by omega⟩
          have htold := (tree.candid_rule (fun _ _ => trivial) hclean).run
            (fun premise before found after hpremise hbefore hfound =>
              ih less (Nat.lt_succ_self less) (Nat.le_of_succ_le_succ hroom)
                hpremise hbefore hfound) hmiddle hrule
          refine ⟨htold.conclusion,
            htold.sincere.record htold.conclusion ?_ ?_, fun hty => ?_,
            fun hty => ?_⟩
          · rintro scope node text note rfl hopen
            exact tree.isSevere_of_run_opened hopen hrule
          · rintro scope node expected construct rfl hconstruct hkind
            cases hclean with
            | check _ _ hexpected =>
                exact tree.isRecursion_of_run_compared hconstruct hkind
                  hexpected hrule
          · refine Pass.Spares.trans ?_
              ((htold.spares hty).record judgement hty)
            intro node known hknown _
            rwa [hcache] at hknown
          · rw [tree.settle_succ hsettled, htold.repeated hty]
            rfl

/-- A judgement with the room that it has. -/
theorem settle_told {limit room : Nat} {busy : List NodeId}
    {judgement : Judgement} (hclean : judgement.Clean) {pass pass' : Pass}
    {ty : Ty} (hpass : pass.Sincere tree)
    (hrun : (tree.settle limit room busy judgement).run pass =
      .ok (ty, pass')) :
    tree.Told (·.isSevere = true) Ty.Proper
      (tree.settle limit room busy judgement) pass ty pass' :=
  tree.settle_candid (Nat.le_refl room) hclean hpass hrun

/-- A judgement that no other one depends on, with a limit and with a larger
one. -/
theorem judge_candid {options options' : Options}
    (hdepth : options.maxDepth ≤ options'.maxDepth) {judgement : Judgement}
    (hclean : judgement.Clean) {pass pass' : Pass} {ty : Ty}
    (hpass : pass.Sincere tree)
    (hrun : (tree.judge options judgement).run pass = .ok (ty, pass')) :
    tree.Told (·.isSevere = true) Ty.Proper (tree.judge options' judgement) pass
      ty pass' :=
  tree.settle_candid hdepth hclean hpass hrun

end Tree

end ConceptLang
