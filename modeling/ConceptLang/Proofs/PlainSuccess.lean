import ConceptLang.Proofs.PlainAgreement
import ConceptLang.Proofs.Repetition

/-!
# Successes are plain answers

Where plain evaluation has an answer, a pass with enough room gives the same
one. Here is a converse, and it needs no room: where a pass finds a type,
whatever its limit and whatever it remembers, plain evaluation finds that type
too (`Tree.evaluated`). For a type error this cannot be said, since the error
may come from the limit.

It rests on the fact that a rule that gets a type error for a premise concludes
with one. So a rule that succeeds had successes for all its premises, and plain
evaluation, which has answers for these, follows the rule to the same
conclusion.
-/

namespace ConceptLang

namespace Tree

/-- The type is the plain answer to the judgement, and there is one. -/
def Evaluates (tree : Tree) (judgement : Judgement) (ty : Ty) : Prop :=
  ∃ steps ty', (tree.settlePlainly steps judgement).run = some (.ok ty') ∧
    ty.Like ty'

end Tree

namespace Rule

variable {α : Type} {ask : Judgement → Prop}
  {answer answer' : Judgement → Ty → Prop} {fails post : α → Prop}
  {like : α → α → Prop}

/-- A rule that can only fail does whatever is asked of its successes. -/
theorem Doomed.meets {rule : Rule α} {success : α → Prop}
    (h : rule.Doomed fails) (hmeets : rule.Meets ask answer post)
    (hanswer : ∀ judgement ty, answer' judgement ty → answer judgement ty) :
    rule.Meets ask answer' (fun a => post a ∧ (¬ fails a → success a)) := by
  induction rule with
  | conclude result => exact ⟨hmeets, absurd h⟩
  | defect error => exact hmeets
  | premise judgement next ih =>
      exact ⟨hmeets.1,
        fun ty hty => ih ty (h ty) (hmeets.2 ty (hanswer judgement ty hty))⟩
  | stamp decl next ih => exact fun n => ih n (h n) (hmeets n)

/-- A rule whose successful premises have plain answers, and that cannot succeed
after another one, succeeds only with a plain answer. -/
theorem Meets.evaluates {rule rule' : Rule α} (h : rule.Meets ask answer post)
    (halike : rule.Alike Eq answer like rule')
    (hrepeats : rule.Repeats fails rule) (tree : Tree) :
    rule.Meets ask
      (fun judgement ty => answer judgement ty ∧
        (ty.isError = false → tree.Evaluates judgement ty))
      (fun a => post a ∧ (¬ fails a → ∃ steps a',
        (rule'.run pure (tree.settlePlainly steps)).run = some (.ok a') ∧
        like a a')) := by
  induction rule generalizing rule' with
  | conclude result =>
      cases rule' with
      | conclude result' => exact ⟨h, fun _ => ⟨0, result', rfl, halike⟩⟩
      | _ => exact halike.elim
  | defect error => exact h.elim
  | premise judgement next ih =>
      cases rule' with
      | premise judgement' next' =>
          obtain ⟨rfl, halike⟩ := halike
          refine ⟨h.1, fun ty ⟨hty, hplain⟩ => ?_⟩
          rcases hrepeats with hall | ⟨_, ⟨⟩, hnext⟩
          · exact (hall ty).meets (h.2 ty hty) fun _ _ h => h.1
          · cases herror : ty.isError with
            | true =>
                exact ((hnext ty).1 herror).meets (h.2 ty hty) fun _ _ h => h.1
            | false =>
                -- Enough steps for the premise and for what is left are enough
                -- for the whole.
                obtain ⟨steps, ty', hty', hlike⟩ := hplain herror
                refine (ih ty (h.2 ty hty) (halike ty ty' hty hlike)
                  ((hnext ty).2 herror)).mono (fun _ h => h) fun a ha =>
                    ⟨ha.1, fun hsuccess => ?_⟩
                obtain ⟨steps', a', hrun, hresult⟩ := ha.2 hsuccess
                refine ⟨max steps steps', a',
                  run_plain_premise.mpr (Or.inr ⟨ty', ?_, ?_⟩), hresult⟩
                · exact Tree.settlePlainly_mono (Nat.le_max_left _ _) hty'
                · exact run_plain_mono
                    (fun _ _ => Tree.settlePlainly_mono (Nat.le_max_right _ _))
                    hrun
      | _ => exact halike.elim
  | stamp decl next ih =>
      cases rule' with
      | stamp decl' next' =>
          intro n
          rcases hrepeats with hall | ⟨_, ⟨⟩, hnext⟩
          · exact (hall n).meets (h n) fun _ _ h => h.1
          · exact (ih n (h n) (halike.2 n decl') (hnext n) :)
      | _ => exact halike.elim

end Rule

namespace Tree

variable {tree : Tree}

theorem lt_size_of_asks (wf : tree.WellFormed) (judgement : Judgement)
    (h : tree.Asks judgement) : judgement.node < tree.size :=
  (sound wf).inside judgement h

/-- A plain answer in one scope is one in every scope that fits. -/
theorem Evaluates.kin (wf : tree.WellFormed) {judgement judgement' : Judgement}
    {ty : Ty} (h : tree.Evaluates judgement ty) (hask : tree.Asks judgement)
    (hask' : tree.Asks judgement') (hkin : judgement.Kin judgement') :
    tree.Evaluates judgement' ty := by
  obtain ⟨steps, _, hrun, hlike⟩ := h
  obtain ⟨_, ty', ⟨⟩, hrun', hlike'⟩ :=
    settlePlainly_kin wf hask hask' hkin hrun
  exact ⟨steps + 2, ty', hrun', hlike.trans hlike'⟩

/-- A plain answer to a successful check is one for every type that is the
same. -/
theorem Evaluates.check (wf : tree.WellFormed) {scope scope' : Scope}
    {node : NodeId} {expected expected' ty : Ty}
    (h : tree.Evaluates (.check scope node expected) ty)
    (hask : tree.Asks (.check scope node expected))
    (hask' : tree.Asks (.check scope' node expected'))
    (hsame : expected.same expected' = true)
    (hanswer : tree.Answers (.check scope node expected) ty)
    (hok : ty.isError = false) :
    tree.Evaluates (.check scope' node expected') ty := by
  obtain ⟨rfl, hchecks⟩ := hanswer.resolve_left (Bool.eq_false_iff.mp hok)
  obtain ⟨hscope, hexpects⟩ : tree.Fits scope ∧ tree.Expects node ty := by
    cases hask with
    | check hscope hexpects => exact ⟨hscope, hexpects⟩
  have hexpects' : tree.Expects node expected' := by
    cases hask' with
    | check _ hexpects' => exact hexpects'
  obtain rfl := hexpects.eq_of_same hexpects' hsame fun _ _ _ hnode =>
    not_checks_predicate hnode (hchecks scope hscope)
  exact h.kin wf hask hask' (.check scope scope' node ty)

theorem evaluates_of_bound {judgement : Judgement} {ty : Ty}
    (h : judgement.bound? = some ty) :
    tree.Evaluates judgement ty :=
  ⟨1, ty, tree.settlePlainly_of_bound h 0, .refl ty⟩

/-- A rule succeeds only with a plain answer, if its premises do. -/
theorem meets_rule_evaluates (wf : tree.WellFormed) {judgement : Judgement}
    (hask : tree.Asks judgement) :
    (tree.rule judgement).Meets tree.Asks
      (fun premise ty => tree.Answers premise ty ∧
        (ty.isError = false → tree.Evaluates premise ty))
      (fun ty => tree.Answers judgement ty ∧
        (ty.isError = false → tree.Evaluates judgement ty)) := by
  refine (((sound wf).rule judgement hask).evaluates (alike_rule_self wf hask)
    ((Extends.refl tree).repeats_rule judgement) tree).mono (fun _ h => h) ?_
  rintro ty ⟨hanswer, hplain⟩
  refine ⟨hanswer, fun hok => ?_⟩
  cases hbound : judgement.bound? with
  | none =>
      obtain ⟨steps, ty', hrun, hlike⟩ := hplain (Bool.eq_false_iff.mp hok)
      exact ⟨steps + 1, ty', by rwa [settlePlainly_succ hbound], hlike⟩
  | some bound =>
      -- The rule of a bound parameter is never followed, but it comes to the
      -- same type.
      cases hask with
      | synth hscope _ =>
          have hsound := hanswer.resolve_left (Bool.eq_false_iff.mp hok)
          rw [(hscope _ bound hbound).eq_of_hasType wf hscope
            (hsound.hasType _ hscope)]
          exact evaluates_of_bound hbound
      | check => cases hbound

/-- Answers that are sound, and plain where they are types. -/
def evaluated (wf : tree.WellFormed) : tree.Discipline where
  ask := tree.Asks
  answer judgement ty := tree.Answers judgement ty ∧
    (ty.isError = false → tree.Evaluates judgement ty)
  inside := lt_size_of_asks wf
  bound scope node ty h hbound :=
    ⟨(sound wf).bound scope node ty h hbound,
      fun _ => evaluates_of_bound hbound⟩
  scopes scope scope' node _ h h' hty :=
    ⟨hty.1, fun hok => (hty.2 hok).kin wf h h' (.synth scope scope' node)⟩
  checks scope scope' node expected expected' ty h h' hsame hty :=
    ⟨(sound wf).checks scope scope' node expected expected' ty h h' hsame hty.1,
      fun hok => (hty.2 hok).check wf h h' hsame hty.1 hok⟩
  rule _ hask := meets_rule_evaluates wf hask
  fault judgement cause hask :=
    ⟨(sound wf).fault judgement cause hask, Bool.noConfusion⟩

/-- The judgements of a check succeed only with plain answers. -/
theorem judges_evaluated (wf : tree.WellFormed) (options : Options) :
    tree.Judges options (evaluated wf).Keeps tree.Starts
      (evaluated wf).answer :=
  (evaluated wf).judges options fun _ h => h.1

theorem repeats_declRule (tree : Tree) (decl : NodeId) :
    (tree.declRule decl).Repeats (·.isError = true) (tree.declRule decl) := by
  refine Rule.Repeats.lift fun construct _ => ?_
  cases construct with
  | function name params signature body =>
      refine (Rule.repeats_synth _ decl).bind_ty (fun e => rfl) fun ty _ => ?_
      split
      · exact Rule.repeats_check _ decl ty
      · exact Or.inr rfl
  | var name typeNode value =>
      cases typeNode with
      | none => exact Rule.repeats_synth _ decl
      | some typeNode =>
          cases value with
          | none => exact Rule.repeats_synth _ decl
          | some value =>
              refine (Rule.repeats_synth _ typeNode).bind_ty (fun e => rfl)
                fun ty _ => ?_
              split
              · exact Or.inr rfl
              · exact Rule.repeats_check _ value ty
  | _ => exact Rule.repeats_synth _ decl

/-- A declaration is accepted only with its plain type. -/
theorem meets_declRule_evaluates (wf : tree.WellFormed) {decl : NodeId}
    (hdecl : decl ∈ tree.roots) :
    (tree.declRule decl).Meets tree.Starts (evaluated wf).answer
      (fun ty => ty.isError = false → ∃ steps ty',
        (tree.declPlainly steps decl).run = some (.ok ty') ∧ ty.Like ty') := by
  refine ((meets_declRule wf hdecl).evaluates (alike_declRule wf decl)
    (tree.repeats_declRule decl) tree).mono (fun _ h => h) fun ty h hok => ?_
  exact h.2 (Bool.eq_false_iff.mp hok)

end Tree

end ConceptLang
