import ConceptLang.Proofs.Alikeness

/-!
# Plain evaluation

`Tree.settlePlainly` settles a judgement by the rules alone. It has no memory
and may never come to an end, so it is given a number of steps, and more steps
never change an answer (`Tree.settlePlainly_mono`). Its answers keep to every
discipline, and in a well-formed tree they do not depend on the scope, as long
as it fits (`Tree.settlePlainly_kin`): a parameter that is not bound gets the
type from its function that it would be bound to.

`Tree.Agrees judgement ty` says that `ty` is the plain answer, up to the stamp
of a relation, if there is one.
-/

namespace ConceptLang

namespace Rule

variable {α : Type} {settle settle' : Judgement → ExceptT TreeError Option Ty}

/-- A premise gets an answer, and the rule goes on with it; or it fails, and so
does the rule. -/
theorem run_plain_premise {judgement : Judgement} {next : Ty → Rule α}
    {b : Except TreeError α} :
    ((premise judgement next).run pure settle).run = some b ↔
      (∃ e, (settle judgement).run = some (.error e) ∧ b = .error e) ∨
      ∃ ty, (settle judgement).run = some (.ok ty) ∧
        ((next ty).run pure settle).run = some b := by
  simp only [run, ExceptT.run_bind]
  cases (settle judgement).run with
  | none => simp
  | some outcome =>
      cases outcome with
      | error e => simp [eq_comm]
      | ok ty => simp

/-- More answers do not change a run that had all it needed. -/
theorem run_plain_mono {rule : Rule α} {b : Except TreeError α}
    (hsettle : ∀ judgement a, (settle judgement).run = some a →
      (settle' judgement).run = some a)
    (h : (rule.run pure settle).run = some b) :
    (rule.run pure settle').run = some b := by
  induction rule with
  | conclude result => exact h
  | defect error => exact h
  | premise judgement next ih =>
      rw [run_plain_premise] at h ⊢
      rcases h with ⟨e, he, rfl⟩ | ⟨ty, hty, hnext⟩
      · exact Or.inl ⟨e, hsettle judgement _ he, rfl⟩
      · exact Or.inr ⟨ty, hsettle judgement _ hty, ih ty hnext⟩
  | stamp decl next ih => exact ih decl h

theorem run_plain_bind {β : Type} {rule : Rule α} {f : α → Rule β} {a : α}
    {b : Except TreeError β} (h : (rule.run pure settle).run = some (.ok a))
    (hf : ((f a).run pure settle).run = some b) :
    ((rule.bind f).run pure settle).run = some b := by
  induction rule with
  | conclude result =>
      cases h
      exact hf
  | defect error => cases h
  | premise judgement next ih =>
      rw [run_plain_premise] at h
      rcases h with ⟨e, -, heq⟩ | ⟨ty, hty, hnext⟩
      · cases heq
      · exact run_plain_premise.mpr (Or.inr ⟨ty, hty, ih ty hnext⟩)
  | stamp decl next ih => exact ih decl h

theorem run_plain_synth {scope : Scope} {node : NodeId} {ty : Ty}
    (h : (settle (.synth scope node)).run = some (.ok ty)) :
    ((synth scope node).run pure settle).run = some (.ok ty) :=
  run_plain_premise.mpr (Or.inr ⟨ty, h, rfl⟩)

theorem Meets.run_plain {ask : Judgement → Prop}
    {answer : Judgement → Ty → Prop} {post : α → Prop} {rule : Rule α}
    (h : rule.Meets ask answer post)
    (hsettle : ∀ judgement a, ask judgement → (settle judgement).run = some a →
      ∃ ty, a = .ok ty ∧ answer judgement ty)
    {b : Except TreeError α} (hrun : (rule.run pure settle).run = some b) :
    ∃ result, b = .ok result ∧ post result := by
  induction rule with
  | conclude result =>
      cases hrun
      exact ⟨result, rfl, h⟩
  | defect error => exact h.elim
  | premise judgement next ih =>
      rw [run_plain_premise] at hrun
      rcases hrun with ⟨e, he, rfl⟩ | ⟨ty, hty, hnext⟩
      · obtain ⟨ty, hty, -⟩ := hsettle judgement _ h.1 he
        cases hty
      · obtain ⟨_, heq, hanswer⟩ := hsettle judgement _ h.1 hty
        cases heq
        exact ih ty (h.2 ty hanswer) hnext
  | stamp decl next ih => exact ih decl (h decl) hrun

/-- Alike rules come to alike conclusions if kindred premises get alike
answers. -/
theorem Alike.run_plain {kin : Judgement → Judgement → Prop}
    {ask ask' : Judgement → Prop} {answer : Judgement → Ty → Prop}
    {post post' : α → Prop} {like : α → α → Prop} {rule rule' : Rule α}
    (h : rule.Alike kin answer like rule') (hmeets : rule.Meets ask answer post)
    (hmeets' : rule'.Meets ask' answer post')
    (hsettle : ∀ judgement judgement' a, ask judgement → ask' judgement' →
      kin judgement judgement' → (settle judgement).run = some a →
      ∃ ty ty', a = .ok ty ∧ (settle' judgement').run = some (.ok ty') ∧
      ty.Like ty' ∧ answer judgement ty ∧ answer judgement' ty')
    {b : Except TreeError α} (hrun : (rule.run pure settle).run = some b) :
    ∃ result result', b = .ok result ∧
      (rule'.run pure settle').run = some (.ok result') ∧
      like result result' := by
  induction rule generalizing rule' with
  | conclude result =>
      cases hrun
      cases rule' with
      | conclude result' => exact ⟨result, result', rfl, rfl, h⟩
      | _ => exact h.elim
  | defect error => exact hmeets.elim
  | premise judgement next ih =>
      cases rule' with
      | premise judgement' next' =>
          have hpremise : ∀ a, (settle judgement).run = some a → _ := fun a =>
            hsettle judgement judgement' a hmeets.1 hmeets'.1 h.1
          rw [run_plain_premise] at hrun
          rcases hrun with ⟨e, he, rfl⟩ | ⟨ty, hty, hnext⟩
          · obtain ⟨ty, ty', heq, -⟩ := hpremise _ he
            cases heq
          · obtain ⟨_, ty', heq, hty', hlike, hanswer, hanswer'⟩ :=
              hpremise _ hty
            cases heq
            obtain ⟨result, result', rfl, hrun', hresult⟩ :=
              ih ty (h.2 ty ty' hanswer hlike) (hmeets.2 ty hanswer)
                (hmeets'.2 ty' hanswer') hnext
            exact ⟨result, result', rfl,
              run_plain_premise.mpr (Or.inr ⟨ty', hty', hrun'⟩), hresult⟩
      | _ => exact h.elim
  | stamp decl next ih =>
      cases rule' with
      | stamp decl' next' =>
          obtain ⟨result, result', hb, hrun', hresult⟩ :=
            ih decl (h.2 decl decl') (hmeets decl) (hmeets' decl') hrun
          exact ⟨result, result', hb, hrun', hresult⟩
      | _ => exact h.elim

end Rule

namespace Tree

variable {tree : Tree}

theorem settlePlainly_of_bound (tree : Tree) {judgement : Judgement} {ty : Ty}
    (h : judgement.bound? = some ty) (steps : Nat) :
    (tree.settlePlainly (steps + 1) judgement).run = some (.ok ty) := by
  rw [settlePlainly, h]
  rfl

theorem settlePlainly_succ {judgement : Judgement} (h : judgement.bound? = none)
    (steps : Nat) :
    tree.settlePlainly (steps + 1) judgement =
      (tree.rule judgement).run pure (tree.settlePlainly steps) := by
  rw [settlePlainly, h]

theorem settlePlainly_mono {steps steps' : Nat} (hle : steps ≤ steps')
    {judgement : Judgement} {a : Except TreeError Ty}
    (h : (tree.settlePlainly steps judgement).run = some a) :
    (tree.settlePlainly steps' judgement).run = some a := by
  induction steps generalizing judgement steps' a with
  | zero => cases h
  | succ steps ih =>
      obtain ⟨steps', rfl⟩ : ∃ n, steps' = n + 1 := ⟨steps' - 1, by omega⟩
      cases hbound : judgement.bound? with
      | some ty =>
          rw [tree.settlePlainly_of_bound hbound] at h ⊢
          exact h
      | none =>
          rw [settlePlainly_succ hbound] at h ⊢
          exact Rule.run_plain_mono (fun _ _ => ih (Nat.le_of_succ_le_succ hle))
            h

/-- The plain answer does not depend on the number of steps. -/
theorem settlePlainly_unique {steps steps' : Nat} {judgement : Judgement}
    {a b : Except TreeError Ty}
    (ha : (tree.settlePlainly steps judgement).run = some a)
    (hb : (tree.settlePlainly steps' judgement).run = some b) : a = b :=
  Option.some.inj <|
    (settlePlainly_mono (Nat.le_max_left steps steps') ha).symm.trans
    (settlePlainly_mono (Nat.le_max_right steps steps') hb)

/-- Plain answers keep to every discipline. -/
theorem Discipline.settlePlainly (discipline : tree.Discipline) {steps : Nat}
    {judgement : Judgement} (hask : discipline.ask judgement)
    {a : Except TreeError Ty}
    (h : (tree.settlePlainly steps judgement).run = some a) :
    ∃ ty, a = .ok ty ∧ discipline.answer judgement ty := by
  induction steps generalizing judgement a with
  | zero => cases h
  | succ steps ih =>
      cases hbound : judgement.bound? with
      | some ty =>
          rw [tree.settlePlainly_of_bound hbound] at h
          cases h
          cases judgement with
          | synth scope node =>
              exact ⟨ty, rfl, discipline.bound scope node ty hask hbound⟩
          | check scope node expected => cases hbound
      | none =>
          rw [settlePlainly_succ hbound] at h
          exact (discipline.rule judgement hask).run_plain
            (fun _ _ hask h => ih hask h) h

theorem settlePlainly_predicate {scope : Scope} {node : NodeId} {name : Ident}
    {params : List NodeId} {body : Option NodeId} (expected : Ty)
    (h : tree.construct node = .ok (.predicate name params body)) :
    (tree.settlePlainly 1 (.check scope node expected)).run =
      some (.ok (.fault node .predicateBody)) := by
  rw [settlePlainly_succ rfl, rule, checkRule, h]
  rfl

/-! ### Plain answers in well-formed trees -/

/-- The type is the plain answer to the judgement, if there is one. -/
def Agrees (tree : Tree) (judgement : Judgement) (ty : Ty) : Prop :=
  ∀ steps a, (tree.settlePlainly steps judgement).run = some a →
    ∃ ty', a = .ok ty' ∧ ty.Like ty'

section WellFormed

variable (wf : tree.WellFormed) {scope : Scope} (hscope : tree.Fits scope)

theorem conceptType_eq_ok {node ref decl : NodeId} {name : Ident}
    {parents relations : List NodeId} (href : tree.target ref = .ok (some decl))
    (hdecl : tree.construct decl = .ok (.concept name parents relations)) :
    tree.conceptType node ref = .ok (.concept ⟨decl, name.name⟩) := by
  cases hconstruct : tree.construct ref with
  | error e =>
      rw [target, hconstruct] at href
      cases href
  | ok construct =>
      simp only [conceptType, hconstruct, href, hdecl, bind, Except.bind]
      rfl

theorem Denotes.synthRule {node : NodeId} {ty : Ty} (h : tree.Denotes node ty) :
    tree.synthRule scope node = .conclude ty := by
  cases h with
  | string h | integer h | boolean h =>
      simp [Tree.synthRule, h, keywordType, Rule.lift_ok, Rule.bind_eq,
        Rule.bind, Rule.pure_eq]
  | concept h href hdecl =>
      have hconcept : tree.conceptType node _ = .ok _ :=
        conceptType_eq_ok href hdecl
      simp only [Tree.synthRule, h, hconcept, Rule.lift_ok, Rule.bind_eq,
        Rule.bind]

include wf

theorem Asks.settlePlainly {judgement : Judgement} (h : tree.Asks judgement)
    {steps : Nat} {a : Except TreeError Ty}
    (hrun : (tree.settlePlainly steps judgement).run = some a) :
    ∃ ty, a = .ok ty ∧ tree.Answers judgement ty :=
  (sound wf).settlePlainly h hrun

include hscope

theorem Denotes.settlePlainly {node : NodeId} {ty : Ty}
    (h : tree.Denotes node ty) (steps : Nat) :
    (tree.settlePlainly (steps + 1) (.synth scope node)).run =
      some (.ok ty) := by
  obtain ⟨construct, hconstruct, htype⟩ := (holds_iff tree _ _).mp h.isTypeNode
  have hbound : (Judgement.synth scope node).bound? = none :=
    hscope.find?_eq_none wf hconstruct (by rintro name rfl; cases htype)
  rw [settlePlainly_succ hbound, rule, h.synthRule]
  rfl

theorem Denotes.run_synthAll {slots : List NodeId} {types : List Ty}
    (h : List.Forall₂ tree.Denotes slots types) (steps : Nat) :
    ((Rule.synthAll scope slots).run pure
      (tree.settlePlainly (steps + 1))).run =
      some (.ok (.ok types)) := by
  induction h with
  | nil => rfl
  | cons hhead _ ih =>
      refine Rule.run_plain_bind
        (Rule.run_plain_synth (hhead.settlePlainly wf hscope steps)) ?_
      have hground := hhead.ground
      cases hground <;> exact Rule.run_plain_bind ih rfl

theorem Signature.settlePlainly {node : NodeId} {params : List (NodeId × Ty)}
    {result : Ty} (h : tree.Signature node params result) (steps : Nat) :
    (tree.settlePlainly (steps + 2) (.synth scope node)).run =
      some (.ok (.function params result)) := by
  obtain ⟨hnode, hlength, hslots, hresult⟩ := h
  have hbound : (Judgement.synth scope node).bound? = none :=
    hscope.find?_eq_none wf hnode nofun
  rw [settlePlainly_succ hbound, rule, synthRule, hnode]
  change ((synthFunction scope node _ _ _).run pure
    (tree.settlePlainly (steps + 1))).run = _
  rw [synthFunction, if_neg (by simpa using hlength)]
  refine Rule.run_plain_bind (Denotes.run_synthAll wf hscope hslots steps) ?_
  simp only [hresult, Option.getD_some]
  rfl

/-- The plain answer for a parameter is the type that its function gives it. -/
theorem Bound.settlePlainly {param : NodeId} {ty : Ty} (h : tree.Bound param ty)
    (steps : Nat) :
    (tree.settlePlainly (steps + 3) (.synth scope param)).run =
      some (.ok ty) := by
  cases hfind : scope.find? param with
  | some ty' =>
      rw [h.unique wf (hscope param ty' hfind)]
      exact tree.settlePlainly_of_bound
        (show (Judgement.synth scope param).bound? = some ty' from hfind) _
  | none =>
      obtain ⟨name, hname⟩ := h.construct wf
      obtain ⟨function, params, result, hparent, hsignature, hparam⟩ :=
        h.parent wf
      rw [settlePlainly_succ (show (Judgement.synth scope param).bound? = none
        from hfind), rule, synthRule, hname]
      change ((tree.synthParam scope param _).run pure
        (tree.settlePlainly (steps + 2))).run = _
      simp only [synthParam, hparent, Rule.lift_ok, Rule.bind_eq, Rule.bind]
      refine Rule.run_plain_bind
        (Rule.run_plain_synth (hsignature.settlePlainly wf hscope steps)) ?_
      simp only [hparam, Option.getD_some]
      rfl

end WellFormed

/-- The rules of judgements that differ in their scopes are alike. -/
theorem alike_rule (wf : tree.WellFormed) {judgement judgement' : Judgement}
    (hask : tree.Asks judgement) (hkin : judgement.Kin judgement') :
    (tree.rule judgement).Alike Judgement.Kin tree.Answers Ty.Like
      (tree.rule judgement') := by
  have hscopes : ∀ scope scope', KinScopes Judgement.Kin scope scope' :=
    fun scope scope' =>
    ⟨.synth scope scope', .check scope scope', fun params => .check _ _⟩
  cases hkin with
  | synth scope scope' node => exact alike_synthRule (hscopes scope scope') wf
  | check scope scope' node expected =>
      cases hask with
      | check _ h => exact alike_checkRule (hscopes scope scope') h

/-- A rule is alike to itself. -/
theorem alike_rule_self (wf : tree.WellFormed) {judgement : Judgement}
    (hask : tree.Asks judgement) :
    (tree.rule judgement).Alike Eq tree.Answers Ty.Like
      (tree.rule judgement) := by
  have hscopes : ∀ scope, KinScopes Eq scope scope := fun scope =>
    ⟨fun _ => rfl, fun _ _ => rfl, fun _ _ _ => rfl⟩
  cases hask with
  | synth hscope h => exact alike_synthRule (hscopes _) wf
  | check hscope h => exact alike_checkRule (hscopes _) h

/-- In a well-formed tree a plain answer is also given in any other scope that
fits, in at most two more steps. -/
theorem settlePlainly_kin (wf : tree.WellFormed)
    {judgement judgement' : Judgement} (hask : tree.Asks judgement)
    (hask' : tree.Asks judgement') (hkin : judgement.Kin judgement')
    {steps : Nat} {a : Except TreeError Ty}
    (h : (tree.settlePlainly steps judgement).run = some a) :
    ∃ ty ty', a = .ok ty ∧
      (tree.settlePlainly (steps + 2) judgement').run = some (.ok ty') ∧
      ty.Like ty' := by
  induction steps generalizing judgement judgement' a with
  | zero => cases h
  | succ steps ih =>
      -- A parameter bound in one of the scopes gets the same type in the other
      -- one.
      have hparam : ∀ {param ty scope}, tree.Bound param ty →
          judgement = .synth scope param →
          ∃ ty ty', a = .ok ty ∧
            (tree.settlePlainly (steps + 1 + 2) judgement').run =
            some (.ok ty') ∧ ty.Like ty' := by
        rintro param ty scope hbound rfl
        cases hkin with
        | synth _ scope' _ =>
            cases hask with
            | synth hscope _ =>
                cases hask' with
                | synth hscope' _ =>
                    obtain rfl :=
                      settlePlainly_unique h (hbound.settlePlainly wf hscope 0)
                    exact ⟨ty, ty, rfl, hbound.settlePlainly wf hscope' steps,
                      .refl ty⟩
      cases hbound : judgement.bound? with
      | some ty =>
          cases hask with
          | synth hscope _ => exact hparam (hscope _ _ hbound) rfl
          | check => cases hbound
      | none =>
          cases hbound' : judgement'.bound? with
          | some ty =>
              cases hask' with
              | synth hscope' _ =>
                  cases hkin
                  exact hparam (hscope' _ _ hbound') rfl
              | check => cases hbound'
          | none =>
              rw [settlePlainly_succ hbound] at h
              rw [settlePlainly_succ hbound']
              refine (alike_rule wf hask hkin).run_plain (meets_rule wf hask)
                (meets_rule wf hask')
                (fun premise premise' a hpremise hpremise' hkin h => ?_) h
              obtain ⟨ty, ty', rfl, h', hlike⟩ :=
                ih hpremise.asks hpremise'.asks hkin h
              obtain ⟨_, heq, hanswer⟩ := hpremise.asks.settlePlainly wf h
              obtain ⟨_, heq', hanswer'⟩ := hpremise'.asks.settlePlainly wf h'
              cases heq
              cases heq'
              exact ⟨ty, ty', rfl, h', hlike, hanswer, hanswer'⟩

/-- What agrees with the plain answer in one scope does so in every scope that
fits. -/
theorem Agrees.kin (wf : tree.WellFormed) {judgement judgement' : Judgement}
    {ty : Ty} (h : tree.Agrees judgement ty) (hask : tree.Asks judgement)
    (hask' : tree.Asks judgement') (hkin : judgement'.Kin judgement) :
    tree.Agrees judgement' ty := by
  intro steps a ha
  obtain ⟨ty', ty'', rfl, hrun, hlike⟩ :=
    settlePlainly_kin wf hask' hask hkin ha
  obtain ⟨_, heq, hlike'⟩ := h _ _ hrun
  cases heq
  exact ⟨ty', rfl, hlike'.trans hlike.symm⟩

end Tree

end ConceptLang
