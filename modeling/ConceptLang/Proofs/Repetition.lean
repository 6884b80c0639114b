import ConceptLang.Proofs.Discipline
import ConceptLang.Proofs.Relinking

/-!
# Successes are repeated

A type found with little room, while other types are being worked out and before
all references are linked, is found again with more room, with fewer types being
worked out and in a tree that extends the first one (`Tree.Extends.settle`).
This holds of types but not of type errors, many of which come from a limit,
from a circle or from an open reference. Where a discipline keeps judgements
away from some nodes, the second tree need not extend the first one at these
(`Tree.Discipline.settle_repeats`).

It rests on the fact that no rule recovers from a type error: a rule that gets a
type error for one of its premises concludes with one (`Rule.Doomed`). So a
success has only successes before it, and a pass that succeeds has nothing but
successes in its memory.
-/

namespace ConceptLang

theorem Ty.isError_of_same {a b : Ty} (h : a.same b = true)
    (ha : a.isError = true) :
    b.isError = true := by
  cases a with
  | error e =>
      cases b with
      | error f => rfl
      | _ => simp [Ty.same] at h
  | _ => cases ha

theorem Ty.isError_of_isRecursion {ty : Ty} (h : ty.isRecursion = true) :
    ty.isError = true := by
  cases ty with
  | error e => rfl
  | _ => cases h

namespace Rule

/-! ### Rules that do not read the tree -/

theorem repeats_synth (scope : Scope) (node : NodeId) :
    (synth scope node).Repeats (·.isError = true) (synth scope node) :=
  Or.inr ⟨_, rfl, fun _ => ⟨fun hty => hty, fun _ => Or.inr rfl⟩⟩

theorem repeats_check (scope : Scope) (node : NodeId) (expected : Ty) :
    (check scope node expected).Repeats (·.isError = true)
      (check scope node expected) :=
  Or.inr ⟨_, rfl, fun _ => ⟨fun hty => hty, fun _ => Or.inr rfl⟩⟩

theorem Repeats.lift {α β : Type} {fails : β → Prop} {x : Except TreeError α}
    {f f' : α → Rule β} (hf : ∀ a, x = .ok a → (f a).Repeats fails (f' a)) :
    ((liftM x : Rule α) >>= f).Repeats fails (liftM x >>= f') := by
  cases x with
  | error e => trivial
  | ok a => exact hf a rfl

/-- A rule that does not recover from a type error of the rule before it. -/
theorem Repeats.bind_ty {α : Type} {fails : α → Prop} {rule rule' : Rule Ty}
    {f f' : Ty → Rule α} (h : rule.Repeats (·.isError = true) rule')
    (hfail : ∀ e, (f (.error e)).Doomed fails)
    (hgo : ∀ ty, ty.isError = false → (f ty).Repeats fails (f' ty)) :
    (rule >>= f).Repeats fails (rule' >>= f') := by
  refine h.bind (fun ty hty => ?_) fun ty hty => hgo ty (by simpa using hty)
  cases ty with
  | error e => exact hfail e
  | _ => cases hty

theorem Repeats.bind_outcome {α β : Type} {fails : α → Prop}
    {rule rule' : Rule (Except TypeError β)}
    {f f' : Except TypeError β → Rule α}
    (h : rule.Repeats (fun outcome => ∃ e, outcome = .error e) rule')
    (hfail : ∀ e, (f (.error e)).Doomed fails)
    (hgo : ∀ b, (f (.ok b)).Repeats fails (f' (.ok b))) :
    (rule >>= f).Repeats fails (rule' >>= f') := by
  refine h.bind (fun outcome houtcome => ?_) fun outcome houtcome => ?_
  · obtain ⟨e, rfl⟩ := houtcome
    exact hfail e
  · cases outcome with
    | error e => exact absurd ⟨e, rfl⟩ houtcome
    | ok b => exact hgo b

theorem repeats_synthAll (scope : Scope) (nodes : List NodeId) :
    (synthAll scope nodes).Repeats (fun outcome => ∃ e, outcome = .error e)
      (synthAll scope nodes) := by
  induction nodes with
  | nil => exact Or.inr rfl
  | cons node nodes ih =>
      refine (repeats_synth scope node).bind_ty (fun e => ⟨e, rfl⟩)
        fun ty hty => ?_
      cases ty with
      | error e => cases hty
      | _ => exact ih.bind_outcome (fun e => ⟨e, rfl⟩) fun types => Or.inr rfl

theorem repeats_checkAll (scope : Scope) (pairs : List (NodeId × Ty)) :
    (checkAll scope pairs).Repeats (fun outcome => ∃ e, outcome = some e)
      (checkAll scope pairs) := by
  induction pairs with
  | nil => exact Or.inr rfl
  | cons pair pairs ih =>
      refine (repeats_check scope pair.1 pair.2).bind_ty (fun e => ⟨e, rfl⟩)
        fun ty hty => ?_
      cases ty with
      | error e => cases hty
      | _ => exact ih

end Rule

namespace Tree

section Rules

variable (scope : Scope) (node : NodeId)

theorem repeats_synthFunction (name : String) (params slots : List NodeId) :
    (synthFunction scope node name params slots).Repeats (·.isError = true)
      (synthFunction scope node name params slots) := by
  rw [synthFunction]
  split
  · exact Or.inl rfl
  · exact (Rule.repeats_synthAll scope slots).bind_outcome (fun e => rfl)
      fun types => Or.inr rfl

theorem repeats_synthCall (callee : NodeId) (args : List NodeId) :
    (synthCall scope node callee args).Repeats (·.isError = true)
      (synthCall scope node callee args) := by
  refine (Rule.repeats_synth scope callee).bind_ty (fun e => rfl) fun ty _ => ?_
  cases ty with
  | function params result =>
      dsimp only
      split
      · exact Or.inl rfl
      · refine (Rule.repeats_checkAll scope _).bind (fun outcome houtcome => ?_)
          fun outcome _ => ?_
        · obtain ⟨e, rfl⟩ := houtcome
          exact rfl
        · cases outcome with
          | some e => exact Or.inl rfl
          | none => exact Or.inr rfl
  | _ => exact Or.inl rfl

theorem repeats_synthBinary (op : Operator) :
    (synthBinary scope node op).Repeats (·.isError = true)
      (synthBinary scope node op) := by
  cases op with
  | mod => exact Or.inl rfl
  | or | and | eq | ne | lt | gt | le | ge =>
      exact Rule.repeats_check scope node _
  | add | sub | mul | div => exact Rule.repeats_check scope node _

theorem repeats_checkBinary (op : Operator) (lhs rhs : NodeId) (expected : Ty) :
    (checkBinary scope node op lhs rhs expected).Repeats (·.isError = true)
      (checkBinary scope node op lhs rhs expected) := by
  have hfault : (do
      let left ← Rule.synth scope lhs
      let right ← Rule.synth scope rhs
      return .fault node (.operands op left right expected) : Rule Ty).Doomed
        (·.isError = true) := fun _ _ => rfl
  -- A type error is the same as the expected type only if that is a type error
  -- too.
  refine (Rule.repeats_check scope lhs expected).bind (fun left hleft => ?_)
    fun left _ => ?_
  · split
    · exact hleft
    · intro right
      change Rule.Doomed _ (if _ then _ else _)
      split
      · next hright => exact Ty.isError_of_isRecursion hright
      · split
        · next hsame =>
            rw [Bool.and_eq_true] at hsame
            exact Ty.isError_of_same hsame.1 hleft
        · exact hfault
  · split
    · exact Or.inr rfl
    · refine (Rule.repeats_check scope rhs expected).bind
        (fun right hright => ?_) fun right _ => ?_
      · split
        · exact hright
        · split
          · next hsame =>
              rw [Bool.and_eq_true] at hsame
              exact Ty.isError_of_same hsame.2 hright
          · exact hfault
      · split
        · exact Or.inr rfl
        · split
          · exact Or.inr rfl
          · exact hfault.repeats _

theorem repeats_checkFunction (name : String) (body : NodeId) (expected : Ty) :
    (checkFunction scope node name body expected).Repeats (·.isError = true)
      (checkFunction scope node name body expected) := by
  cases expected with
  | function params result =>
      refine (Rule.repeats_check (scope.extend params) body result).bind_ty
        (fun e => rfl) fun ty hty => ?_
      cases ty with
      | error e => cases hty
      | _ => exact Or.inr rfl
  | _ => exact Or.inl rfl

theorem repeats_checkConditional (condition thenBranch elseBranch : NodeId)
    (expected : Ty) :
    (checkConditional scope node condition thenBranch elseBranch
      expected).Repeats (·.isError = true)
      (checkConditional scope node condition thenBranch elseBranch
        expected) := by
  refine (Rule.repeats_synth scope condition).bind
    (fun conditionTy hcondition thenTy elseTy => ?_)
    fun conditionTy _ => ?_
  · change Rule.Doomed _ (if _ then _ else _)
    have hboolean : conditionTy.isBoolean = false := by
      cases conditionTy <;> first | rfl | cases hcondition
    rw [hboolean]
    exact rfl
  · refine (Rule.repeats_synth scope thenBranch).bind
      (fun thenTy hthen elseTy => ?_) fun thenTy _ => ?_
    · change Rule.Doomed _ (if _ then _ else _)
      split
      · exact rfl
      · split
        · exact rfl
        · next hsame =>
            have herror := Ty.isError_of_same (by simpa using hsame) hthen
            split
            · exact rfl
            · exact herror
    · refine (Rule.repeats_synth scope elseBranch).bind (fun elseTy helse => ?_)
        fun elseTy _ => ?_
      · split
        · exact rfl
        · split
          · exact rfl
          · split
            · exact rfl
            · next hsame =>
                exact Ty.isError_of_same (by simpa using hsame) helse
      · split
        · exact Or.inr rfl
        · split
          · exact Or.inr rfl
          · split <;> exact Or.inr rfl

theorem repeats_checkBySynthesis (expected : Ty) :
    (checkBySynthesis scope node expected).Repeats (·.isError = true)
      (checkBySynthesis scope node expected) := by
  refine (Rule.repeats_synth scope node).bind (fun actual hactual => ?_)
    fun actual _ => ?_
  · split
    · next hsame => exact Ty.isError_of_same hsame hactual
    · exact rfl
  · split
    · exact Or.inr rfl
    · exact Or.inl rfl

end Rules

/-! ### Rules that read the tree -/

/-- A rule that reads a node of trees of the same shape, but not the link of the
node. -/
theorem SameShape.repeats_construct {tree tree' : Tree}
    (h : tree.SameShape tree') (id : NodeId) {α : Type} {fails : α → Prop}
    {f f' : Construct → Rule α}
    (hlink : ∀ text link link',
      f' (.reference text link) = f' (.reference text link'))
    (hf : ∀ construct, (f construct).Repeats fails (f' construct)) :
    ((liftM (tree.construct id) : Rule Construct) >>= f).Repeats fails
      (liftM (tree'.construct id) >>= f') := by
  rcases h.construct id with heq | ⟨text, link, link', heq, heq'⟩
  · rw [← heq]
    exact Rule.Repeats.lift fun construct _ => hf construct
  · rw [heq, heq']
    change (f (.reference text link)).Repeats fails (f' (.reference text link'))
    rw [hlink text link' link]
    exact hf (.reference text link)

namespace ExtendsOn

variable {tree tree' : Tree} {on : NodeId → Prop} (h : ExtendsOn on tree tree')
  (scope : Scope) (node : NodeId)

include h

theorem repeats_synthParam (name : String) :
    (tree.synthParam scope node name).Repeats (·.isError = true)
      (tree'.synthParam scope node name) := by
  rw [synthParam, synthParam, h.shape.parent node]
  refine Rule.Repeats.lift fun parent _ => ?_
  cases parent with
  | none => exact Or.inl rfl
  | some above =>
      refine (Rule.repeats_synth scope above).bind_ty (fun e => rfl)
        fun ty _ => ?_
      cases ty <;> exact Or.inr rfl

theorem repeats_synthRelation (name : String) (relatum : NodeId) :
    (tree.synthRelation scope node name relatum).Repeats (·.isError = true)
      (tree'.synthRelation scope node name relatum) := by
  rw [synthRelation, synthRelation, h.shape.owner? node]
  refine Rule.Repeats.lift fun owner _ => ?_
  cases owner with
  | none => exact Or.inl rfl
  | some owner =>
      refine (Rule.repeats_synth scope relatum).bind_ty (fun e => rfl)
        fun ty hty => ?_
      cases ty with
      | error e => cases hty
      | _ => exact Or.inr ⟨_, rfl, fun _ => Or.inr rfl⟩

theorem repeats_predicateParams (params : List NodeId) :
    (tree.predicateParams scope params).Repeats
      (fun outcome => ∃ e, outcome = .error e)
      (tree'.predicateParams scope params) := by
  induction params with
  | nil => exact Or.inr rfl
  | cons typed params ih =>
      rw [predicateParams, predicateParams]
      refine h.shape.repeats_construct typed (fun _ _ _ => rfl)
        fun construct => ?_
      cases construct with
      | typedParam formal typeNode =>
          refine (Rule.repeats_synth scope typed).bind_ty (fun e => ⟨e, rfl⟩)
            fun ty hty => ?_
          cases ty with
          | error e => cases hty
          | _ =>
              exact ih.bind_outcome (fun e => ⟨e, rfl⟩) fun bindings =>
                Or.inr rfl
      | _ => exact Or.inl ⟨_, rfl⟩

theorem repeats_synthPredicate (params : List NodeId) :
    (tree.synthPredicate scope node params).Repeats (·.isError = true)
      (tree'.synthPredicate scope node params) := by
  exact (h.repeats_predicateParams scope params).bind_outcome (fun e => rfl)
    fun bindings => Rule.repeats_check scope node _

/-- A join looks its field up by name, so the link of the field does not
matter. -/
theorem repeats_synthJoin (left field : NodeId) :
    (tree.synthJoin scope node left field).Repeats (·.isError = true)
      (tree'.synthJoin scope node left field) := by
  refine (Rule.repeats_synth scope left).bind_ty (fun e => rfl) fun ty _ => ?_
  cases ty with
  | concept concept =>
      refine h.shape.repeats_construct field (fun _ _ _ => rfl)
        fun construct => ?_
      cases construct with
      | reference text link =>
          dsimp only
          rw [findRelation_congr h.shape h.parents]
          refine Rule.Repeats.lift fun found _ => ?_
          cases found with
          | none => exact Or.inl rfl
          | some pair =>
              exact (Rule.repeats_synth scope pair.2).bind_ty (fun e => rfl)
                fun ty _ => Or.inr rfl
      | _ => exact Or.inl rfl
  | _ => exact Or.inl rfl

theorem repeats_conceptType {ref : NodeId} (href : on ref) :
    (liftM (tree.conceptType node ref) : Rule Ty).Repeats (·.isError = true)
      (liftM (tree'.conceptType node ref)) := by
  have hsame : tree.construct ref = tree'.construct ref →
      (liftM (tree.conceptType node ref) : Rule Ty).Repeats (·.isError = true)
        (liftM (tree'.conceptType node ref)) := by
    intro href
    have heq : tree.conceptType node ref = tree'.conceptType node ref := by
      rw [conceptType, conceptType, target, target, href]
      refine bind_congr fun _ => bind_congr fun target => ?_
      cases target with
      | none => rfl
      | some decl => exact h.shape.construct_bind decl _ fun _ _ _ => rfl
    rw [heq]
    cases tree'.conceptType node ref with
    | error e => trivial
    | ok ty => exact Or.inr rfl
  rcases h.shape.construct ref with heq | ⟨text, link, link', heq, heq'⟩
  · exact hsame heq
  · cases link with
    | resolved target =>
        exact hsame (heq.trans (h.kept ref text target href heq).symm)
    | unresolved note =>
        rw [conceptType, target, heq]
        exact Or.inl rfl

/-- The rules of synthesis repeat their successes, since they read no other link
than that of the node or of the name in an annotation. -/
theorem repeats_synthRule (hnode : on node)
    (hname : ∀ ref, tree.construct node = .ok (.conceptType ref) → on ref) :
    (tree.synthRule scope node).Repeats (·.isError = true)
      (tree'.synthRule scope node) := by
  rw [synthRule, synthRule]
  rcases h.shape.construct node with heq | ⟨text, link, link', heq, heq'⟩
  · rw [← heq]
    refine Rule.Repeats.lift fun construct hconstruct => ?_
    cases construct with
    | reference text link =>
        cases link with
        | resolved target => exact Rule.repeats_synth scope target
        | unresolved note => exact Or.inl rfl
    | join left field => exact h.repeats_synthJoin scope node left field
    | stringLit value => exact Or.inr rfl
    | boolLit value => exact Or.inr rfl
    | intLit value => exact Or.inr rfl
    | var name typeNode value =>
        cases typeNode with
        | some typeNode => exact Rule.repeats_synth scope typeNode
        | none =>
            cases value with
            | some value => exact Rule.repeats_synth scope value
            | none => exact Or.inl rfl
    | param name => exact h.repeats_synthParam scope node name.name
    | typedParam formal typeNode => exact Rule.repeats_synth scope typeNode
    | keywordType keyword => exact Or.inr rfl
    | conceptType ref => exact h.repeats_conceptType node (hname ref hconstruct)
    | concept name parents relations => exact Or.inr rfl
    | relation name relatum =>
        exact h.repeats_synthRelation scope node name.name relatum
    | binary op lhs rhs => exact repeats_synthBinary scope node op
    | function name params slots body =>
        exact repeats_synthFunction scope node name.name params slots
    | call callee args => exact repeats_synthCall scope node callee args
    | predicate name params body =>
        exact h.repeats_synthPredicate scope node params
    | conditional condition thenBranch elseBranch => exact Or.inl rfl
  · cases link with
    | resolved target =>
        rw [heq, h.kept node text target hnode heq]
        exact Rule.repeats_synth scope target
    | unresolved note =>
        rw [heq]
        exact Or.inl rfl

/-- The rules of checking repeat their successes. -/
theorem repeats_checkRule (expected : Ty) :
    (tree.checkRule scope node expected).Repeats (·.isError = true)
      (tree'.checkRule scope node expected) := by
  rw [checkRule, checkRule]
  refine h.shape.repeats_construct node (fun _ _ _ => rfl) fun construct => ?_
  cases construct with
  | binary op lhs rhs =>
      exact repeats_checkBinary scope node op lhs rhs expected
  | function name params slots body =>
      exact repeats_checkFunction scope node name.name body expected
  | predicate name params body => exact Or.inl rfl
  | conditional condition thenBranch elseBranch =>
      exact repeats_checkConditional scope node condition thenBranch elseBranch
        expected
  | _ => exact repeats_checkBySynthesis scope node expected

theorem repeats_rule (judgement : Judgement) (hnode : on judgement.node)
    (hname : ∀ ref, tree.construct judgement.node = .ok (.conceptType ref) →
      on ref) :
    (tree.rule judgement).Repeats (·.isError = true)
      (tree'.rule judgement) := by
  cases judgement with
  | synth scope node => exact h.repeats_synthRule scope node hnode hname
  | check scope node expected => exact h.repeats_checkRule scope node expected

end ExtendsOn

theorem Extends.repeats_rule {tree tree' : Tree} (h : tree.Extends tree')
    (judgement : Judgement) :
    (tree.rule judgement).Repeats (·.isError = true) (tree'.rule judgement) :=
  (h.on fun _ => True).repeats_rule judgement trivial fun _ _ => trivial

/-! ### Passes -/

section Passes

variable {tree tree' : Tree} {judgement : Judgement} {pass pass' : Pass}
  {busy busy' : List NodeId} (hbusy : busy' ⊆ busy)

include hbusy

theorem settled?_repeats {known : Option Ty}
    (hrun : (tree.settled? busy judgement).run pass = .ok (known, pass'))
    (hknown : ∀ ty, known = some ty → ty.isError = false) :
    (tree'.settled? busy' judgement).run pass = .ok (known, pass') := by
  rw [settled?_eq_ok_iff] at hrun ⊢
  cases hrun with
  | known hlookup => exact .known hlookup
  | cyclic hlookup hmem hconstruct => cases hknown _ rfl
  | free hlookup hmem => exact .free hlookup fun hmem' => hmem (hbusy hmem')
  | recalled hrecalled => exact .recalled hrecalled

/-- A success is repeated, with the same effect on the memory of the pass, if
the rule of the judgement repeats it with less room. -/
theorem settle_repeats {limit limit' room room' : Nat} (hroom : room ≤ room')
    {ty : Ty}
    (hrun : (tree.settle limit room busy judgement).run pass = .ok (ty, pass'))
    (hty : ty.isError = false)
    (hrule : ∀ less less' last, less < room → less ≤ less' →
      judgement.enter busy' ⊆ judgement.enter busy →
      ((tree.rule judgement).run (fun _ => Pass.mint)
        (tree.settle limit less (judgement.enter busy))).run pass =
          .ok (ty, last) →
          ((tree'.rule judgement).run (fun _ => Pass.mint)
            (tree'.settle limit' less' (judgement.enter busy'))).run pass =
              .ok (ty, last)) :
    (tree'.settle limit' room' busy' judgement).run pass = .ok (ty, pass') := by
  rcases tree.settle_cases hrun with hsettled | ⟨middle, hsettled, hcase⟩
  · refine tree'.settle_of_settled (settled?_repeats hbusy hsettled ?_)
    rintro _ ⟨⟩
    exact hty
  · have hsettled' :
        (tree'.settled? busy' judgement).run pass = .ok (none, middle) :=
      settled?_repeats hbusy hsettled (by simp)
    obtain rfl := (tree.settled?_eq_ok_iff.mp hsettled).eq_of_none
    rcases hcase with ⟨-, rfl, -⟩ | ⟨less, last, rfl, rfl, hlast⟩
    · cases hty
    · obtain ⟨less', rfl⟩ : ∃ less', room' = less' + 1 := ⟨room' - 1, by omega⟩
      have henter : judgement.enter busy' ⊆ judgement.enter busy := by
        cases judgement with
        | synth scope node => exact List.cons_subset_cons node hbusy
        | check scope node expected => exact hbusy
      rw [tree'.settle_succ hsettled',
        hrule less less' last (Nat.lt_succ_self less)
        (Nat.le_of_succ_le_succ hroom) henter hlast]
      rfl

end Passes

namespace Extends

variable {tree tree' : Tree} (h : tree.Extends tree')

include h

/-- In a tree that extends the first one, all successes are repeated. The
induction is on the room of the first pass. -/
theorem settle {limit limit' room room' : Nat} (hroom : room ≤ room')
    {busy busy' : List NodeId} (hbusy : busy' ⊆ busy) {judgement : Judgement}
    {pass pass' : Pass} {ty : Ty}
    (hrun : (tree.settle limit room busy judgement).run pass = .ok (ty, pass'))
    (hty : ty.isError = false) :
    (tree'.settle limit' room' busy' judgement).run pass = .ok (ty, pass') := by
  induction room using Nat.strongRecOn
    generalizing room' busy busy' judgement pass ty pass' with
  | ind room ih =>
      refine settle_repeats hbusy hroom hrun hty ?_
      intro less less' last hless hle henter hlast
      exact (h.repeats_rule judgement).run
        (fun premise before ty' after hpremise hok =>
          ih less hless hle henter hpremise hok) hlast (by simp [hty])

/-- What has a type in a tree has it in every tree that extends it. -/
theorem synth (node : NodeId) (options : Options) {pass : Pass} {ty : Ty}
    (hrun : (tree.synth options Scope.empty node).run {} = .ok (ty, pass))
    (hty : ty.isError = false) :
    (tree'.synth options Scope.empty node).run {} = .ok (ty, pass) :=
  h.settle (Nat.le_refl _) (List.Subset.refl _) hrun hty

end Extends

/-- All successes within a discipline are repeated in a tree whose rules repeat
those of the discipline. -/
theorem Discipline.settle_repeats {tree tree' : Tree}
    (discipline : tree.Discipline)
    (hrules : ∀ judgement, discipline.ask judgement →
      (tree.rule judgement).Repeats (·.isError = true) (tree'.rule judgement))
    {limit limit' room room' : Nat} (hroom : room ≤ room')
    {busy busy' : List NodeId} (hbusy : busy' ⊆ busy) {judgement : Judgement}
    (hask : discipline.ask judgement) {pass pass' : Pass}
    (hpass : discipline.Keeps pass) {ty : Ty}
    (hrun : (tree.settle limit room busy judgement).run pass = .ok (ty, pass'))
    (hty : ty.isError = false) :
    (tree'.settle limit' room' busy' judgement).run pass = .ok (ty, pass') := by
  induction room using Nat.strongRecOn
    generalizing room' busy busy' judgement pass ty pass' with
  | ind room ih =>
      refine Tree.settle_repeats hbusy hroom hrun hty ?_
      intro less less' last hless hle henter hlast
      refine (hrules judgement hask).run_of_meets
        (fun decl pass hpass => Policy.Keeps.mint hpass decl) ?_
        (discipline.rule judgement hask) hpass hlast (by simp [hty])
      intro premise before hpremise hbefore
      obtain ⟨ty', after, hsettle, hafter, hanswer⟩ :=
        discipline.settle limit less (judgement.enter busy) premise hpremise
          hbefore
      exact ⟨ty', after, hsettle, hafter, hanswer, fun hok =>
        ih less hless hle henter hpremise hbefore hsettle hok⟩

end Tree

end ConceptLang
