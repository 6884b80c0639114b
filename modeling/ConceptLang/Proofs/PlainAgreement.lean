import ConceptLang.Proofs.Acceptance
import ConceptLang.Proofs.Headroom
import ConceptLang.Proofs.PlainEvaluation

/-!
# Passes agree with plain evaluation

A pass that remembers, and that watches over its recursion, gives the answers of
plain evaluation wherever that comes to an end, if its limit is at least twice
the number of nodes (`Tree.checkModel_plain`).

The proof runs both side by side. What a pass remembers agrees with the plain
answers, in every scope that fits. The limit is never met, since chains of
judgements are shorter (`Tree.Chain.length_lt`). What is left is the error for a
type that depends on itself. It arises only where plain evaluation has no end:
if it had one, it would answer each premise in fewer steps than the judgement
that asks for it (`Tree.Patient`), so a node that waits for itself would have an
answer in fewer steps than its least number of steps.
-/

namespace ConceptLang

/-- If a rule is run in step with plain evaluation, then its premises are
answered plainly whenever the whole is, and if these answers agree, so does the
conclusion. `whole` is the plain conclusion, for each number of steps, and what
is left of the plain run is alike to what is left of the rule. -/
theorem Rule.Meets.inStep {α : Type} {ask : Judgement → Prop}
    {answer : Judgement → Ty → Prop} {post : α → Prop} {like : α → α → Prop}
    {rule : Rule α} (h : rule.Meets ask answer post) (tree : Tree)
    (whole : Nat → Option (Except TreeError α))
    (hwhole : ∀ steps b, whole steps = some b →
      ∃ rule' : Rule α, rule.Alike Eq answer like rule' ∧
      (rule'.run pure (tree.settlePlainly steps)).run = some b) :
    rule.Meets
      (fun judgement => ask judgement ∧ ∀ steps b, whole steps = some b →
        ∃ a, (tree.settlePlainly steps judgement).run = some a)
      (fun judgement ty => answer judgement ty ∧ tree.Agrees judgement ty)
      (fun a => post a ∧
        ∀ steps b, whole steps = some b → ∃ b', b = .ok b' ∧ like a b') := by
  induction rule with
  | conclude result =>
      refine ⟨h, fun steps b hb => ?_⟩
      obtain ⟨rule', halike, hrun⟩ := hwhole steps b hb
      cases rule' with
      | conclude result' =>
          cases hrun
          exact ⟨result', rfl, halike⟩
      | _ => exact halike.elim
  | defect error => exact h.elim
  | premise judgement next ih =>
      have hpremise : ∀ steps b, whole steps = some b → ∃ next' : Ty → Rule α,
          (∀ ty ty', answer judgement ty → ty.Like ty' →
            (next ty).Alike Eq answer like (next' ty')) ∧
          ((Rule.premise judgement next').run pure
            (tree.settlePlainly steps)).run = some b := by
        intro steps b hb
        obtain ⟨rule', halike, hrun⟩ := hwhole steps b hb
        cases rule' with
        | premise judgement' next' =>
            obtain ⟨rfl, halike⟩ := halike
            exact ⟨next', halike, hrun⟩
        | _ => exact halike.elim
      refine ⟨⟨h.1, fun steps b hb => ?_⟩, fun ty hty => ih ty (h.2 ty hty.1)
        fun steps b hb => ?_⟩
      · obtain ⟨next', -, hrun⟩ := hpremise steps b hb
        rcases Rule.run_plain_premise.mp hrun with ⟨e, he, -⟩ | ⟨ty, hty, -⟩
        · exact ⟨_, he⟩
        · exact ⟨_, hty⟩
      · obtain ⟨next', halike, hrun⟩ := hpremise steps b hb
        rcases Rule.run_plain_premise.mp hrun with
          ⟨e, he, -⟩ | ⟨ty', hty', hnext⟩
        · obtain ⟨_, heq, -⟩ := hty.2 steps _ he
          cases heq
        · obtain ⟨_, heq, hlike⟩ := hty.2 steps _ hty'
          cases heq
          exact ⟨next' ty', halike ty ty' hty.1 hlike, hnext⟩
  | stamp decl next ih =>
      refine fun n => ih n (h n) fun steps b hb => ?_
      obtain ⟨rule', halike, hrun⟩ := hwhole steps b hb
      cases rule' with
      | stamp decl' next' => exact ⟨next' decl', halike.2 n decl', hrun⟩
      | _ => exact halike.elim

theorem forall₂_getElem? {α β : Type} {r : α → β → Prop} {xs : List α}
    {ys : List β} (h : List.Forall₂ r xs ys) {i : Nat} {x : α}
    (hx : xs[i]? = some x) :
    ∃ y, ys[i]? = some y ∧ r x y := by
  induction h generalizing i with
  | nil => simp at hx
  | cons hhead _ ih =>
      cases i with
      | zero =>
          cases hx
          exact ⟨_, rfl, hhead⟩
      | succ i => exact ih hx

namespace Tree

variable {tree : Tree}

/-- There is a plain answer in that many steps. -/
def Defined (tree : Tree) (steps : Nat) (judgement : Judgement) : Prop :=
  ∃ a, (tree.settlePlainly steps judgement).run = some a

/-- The plain answer to the judgement takes fewer steps than that of any type
being worked out. -/
def Patient (tree : Tree) (busy : List NodeId) (judgement : Judgement) : Prop :=
  ∀ node ∈ busy, ∀ steps,
    tree.Defined (steps + 1) (.synth judgement.scope node) →
    tree.Defined steps judgement

theorem not_defined_zero (judgement : Judgement) :
    ¬ tree.Defined 0 judgement := by
  rintro ⟨a, ha⟩
  cases ha

theorem Defined.succ {steps : Nat} {judgement : Judgement}
    (h : tree.Defined steps judgement) :
    tree.Defined (steps + 1) judgement := by
  obtain ⟨a, ha⟩ := h
  exact ⟨a, settlePlainly_mono (Nat.le_succ steps) ha⟩

/-- A type that is being worked out and asked for again has no plain answer. -/
theorem Patient.not_defined {busy : List NodeId} {scope : Scope} {node : NodeId}
    (h : tree.Patient busy (.synth scope node)) (hbusy : node ∈ busy)
    (steps : Nat) :
    ¬ tree.Defined steps (.synth scope node) := by
  induction steps with
  | zero => exact not_defined_zero _
  | succ steps ih => exact fun hdefined => ih (h node hbusy steps hdefined)

/-- Answers that are sound and agree with plain evaluation. -/
def agreement (wf : tree.WellFormed) : tree.Policy where
  ask := tree.Asks
  answer judgement ty := tree.Answers judgement ty ∧ tree.Agrees judgement ty
  inside := (sound wf).inside
  bound scope node ty h hbound := by
    refine ⟨(sound wf).bound scope node ty h hbound, fun steps a ha => ?_⟩
    have hplain := tree.settlePlainly_of_bound
      (show (Judgement.synth scope node).bound? = some ty from hbound) 0
    exact ⟨ty, settlePlainly_unique ha hplain, .refl ty⟩
  scopes scope scope' node ty h h' hty :=
    ⟨hty.1, hty.2.kin wf h h' (.synth scope' scope node)⟩
  checks scope scope' node expected expected' ty h h' hsame hty := by
    refine ⟨(sound wf).checks scope scope' node expected expected' ty h h' hsame
      hty.1, ?_⟩
    by_cases hnode : ∃ name params body,
      tree.construct node = .ok (.predicate name params body)
    · obtain ⟨name, params, body, hnode⟩ := hnode
      intro steps a ha
      obtain rfl :=
        settlePlainly_unique ha (settlePlainly_predicate expected' hnode)
      exact hty.2 1 _ (settlePlainly_predicate expected hnode)
    · have hexpects : tree.Expects node expected := by cases h; assumption
      have hexpects' : tree.Expects node expected' := by cases h'; assumption
      obtain rfl := hexpects.eq_of_same hexpects' hsame
        fun name params body hpredicate =>
        hnode ⟨name, params, body, hpredicate⟩
      exact hty.2.kin wf h h' (.check scope' scope node expected)

/-- A premise of a judgement is answered sooner than what the judgement waits
for. -/
theorem Patient.premise {busy : List NodeId} {judgement premise : Judgement}
    (h : tree.Patient busy judgement) (hscope : premise.scope = judgement.scope)
    (hpremise : ∀ steps, tree.Defined (steps + 1) judgement →
      tree.Defined steps premise) :
    tree.Patient (judgement.enter busy) premise := by
  intro node hnode steps hdefined
  rw [hscope] at hdefined
  rw [← judgement.enter_slot, Slot.mem_enter_iff] at hnode
  rcases hnode with hnode | hnode
  · cases judgement with
    | synth scope id =>
        cases hnode
        exact hpremise steps hdefined
    | check => cases hnode
  · obtain ⟨steps, rfl⟩ : ∃ n, steps = n + 1 := by
      cases steps with
      | zero => exact absurd (h node hnode 0 hdefined) (not_defined_zero _)
      | succ n => exact ⟨n, rfl⟩
    exact (hpremise steps (h node hnode (steps + 1) hdefined)).succ

/-- The error for a type that depends on itself agrees with plain evaluation,
which has no answer there. -/
theorem Patient.answers_fault (wf : tree.WellFormed) {busy : List NodeId}
    {judgement : Judgement} (h : tree.Patient busy judgement)
    (hawaited : judgement.Awaited busy) (label : String) :
    (agreement wf).answer judgement
      (.fault judgement.node (.cyclic label)) := by
  cases judgement with
  | synth scope node =>
      exact ⟨Or.inl rfl, fun steps a ha =>
        absurd ⟨a, ha⟩ (h.not_defined hawaited steps)⟩
  | check => exact hawaited.elim

/-- A rule run in step with plain evaluation. -/
theorem meets_rule_inStep (wf : tree.WellFormed) {judgement : Judgement}
    (hask : tree.Asks judgement) (hbound : judgement.bound? = none) :
    (tree.rule judgement).Meets
      (fun premise => tree.Premise judgement.scope judgement.slot premise ∧
        ∀ steps, tree.Defined (steps + 1) judgement →
          tree.Defined steps premise)
      (agreement wf).answer ((agreement wf).answer judgement) := by
  have hmeets := (meets_rule wf hask).inStep tree
    (fun steps => (tree.settlePlainly (steps + 1) judgement).run)
    fun steps b hb =>
      ⟨tree.rule judgement,
        alike_rule_self wf hask, by rwa [settlePlainly_succ hbound] at hb⟩
  refine hmeets.mono
    (fun premise h => ⟨h.1, fun steps ⟨b, hb⟩ => h.2 steps b hb⟩) ?_
  rintro ty ⟨hanswer, hagrees⟩
  refine ⟨hanswer, fun steps a ha => ?_⟩
  cases steps with
  | zero => exact absurd ⟨a, ha⟩ (not_defined_zero judgement)
  | succ steps => exact hagrees steps a ha

/-- Agreement with plain evaluation is a practice. Its judgements are patient.
Only a function makes a premise in another scope than its own, and it is checked
only where nothing waits. -/
def patience (wf : tree.WellFormed) : tree.Practice where
  toPolicy := agreement wf
  state busy judgement := tree.Patient busy judgement ∧
    ∀ node, judgement.slot = .check node →
      tree.holds (·.isFunction) node = true → busy = []
  rule busy judgement hask hstate hbound := by
    refine (meets_rule_inStep wf hask hbound).mono ?_ fun _ hty => hty
    rintro premise ⟨hpremise, hsooner⟩
    refine ⟨hpremise.asks, hpremise.calls, ?_, fun node hslot hkind => ?_⟩
    · rcases hpremise.scope_eq with hscope | ⟨function, hslot, hkind⟩
      · exact hstate.1.premise hscope hsooner
      · rw [← judgement.enter_slot, hslot, hstate.2 function hslot hkind]
        exact fun node hnode => absurd hnode List.not_mem_nil
    · exact absurd hkind (wf.not_isFunction_of_calls (hslot ▸ hpremise.calls))
  cyclic _ _ label _ hstate hawaited := hstate.1.answers_fault wf hawaited label

/-- A judgement that nothing waits for is patient. -/
theorem patience_start (wf : tree.WellFormed) (judgement : Judgement) :
    (patience wf).state [] judgement :=
  ⟨fun _ hnode => absurd hnode List.not_mem_nil, fun _ _ _ => rfl⟩

/-! ### Declarations -/

/-- The type of a top-level declaration by the rules alone, with at most `steps`
judgements in a row. -/
def declPlainly (tree : Tree) (steps : Nat) (decl : NodeId) :
    ExceptT TreeError Option Ty :=
  (tree.declRule decl).run pure (tree.settlePlainly steps)

/-- The type is the plain type of the declaration, if there is one. -/
def AgreesDecl (tree : Tree) (decl : NodeId) (ty : Ty) : Prop :=
  ∀ steps a, (tree.declPlainly steps decl).run = some a →
    ∃ ty', a = .ok ty' ∧ ty.Like ty'

theorem alike_declRule (wf : tree.WellFormed) (decl : NodeId) :
    (tree.declRule decl).Alike Eq tree.Answers Ty.Like
      (tree.declRule decl) := by
  have hkin : KinScopes Eq Scope.empty Scope.empty :=
    ⟨fun _ => rfl, fun _ _ => rfl, fun _ _ _ => rfl⟩
  refine Rule.Alike.lift fun construct hconstruct => ?_
  cases construct with
  | function name params signature body =>
      refine (alike_synth hkin decl).bind ?_
      rintro ty _ (_ | _)
      · split
        · exact alike_check hkin decl ty
        · exact .refl ty
      · exact .relation _ _ _ _ _ _
  | var name typeNode value =>
      cases typeNode with
      | none => exact alike_synth hkin decl
      | some typeNode =>
          cases value with
          | none => exact alike_synth hkin decl
          | some value =>
              have htype : tree.holds (·.isTypeNode) typeNode = true :=
                wf.holds_part .typeNode hconstruct (by simp [Construct.parts])
              refine (alike_synth_typeNode hkin wf htype).bind ?_
              rintro ty _ rfl
              split
              · exact .refl ty
              · exact alike_check hkin value ty
  | _ => exact alike_synth hkin decl

/-- The judgements of a check agree with plain evaluation. -/
theorem judges_agreement (wf : tree.WellFormed) {options : Options}
    (hdepth : 2 * tree.size ≤ options.maxDepth) :
    tree.Judges options (agreement wf).Keeps tree.Starts (agreement wf).answer
      where
  start := (agreement wf).keeps_empty
  mint decl _ h := h.mint decl
  judge judgement _ hstarts h :=
    (patience wf).settle wf hdepth options.maxDepth [] [] judgement hstarts.1
      (patience_start wf judgement) (.nil hstarts.2) (Nat.le_refl _) h

/-- A check whose limit is at least twice the number of nodes has a result, and
it shows each declaration with the type that plain evaluation gives it, if plain
evaluation comes to an end. -/
theorem checkModel_plain (tree : Tree) (wf : tree.WellFormed)
    (options : Options) (hdepth : 2 * tree.size ≤ options.maxDepth) :
    ∃ result, tree.checkModel options = .ok result ∧
      List.Forall₂ (fun decl summary => ∀ steps answer,
        (tree.declPlainly steps decl).run = some answer →
          ∃ ty, answer = .ok ty ∧ summary.node = decl ∧ summary.type = ty.text ∧
            summary.ok = !ty.isError)
        tree.roots result.declarations := by
  have hrule : ∀ decl ∈ tree.roots, (tree.declRule decl).Meets tree.Starts
      (agreement wf).answer (tree.AgreesDecl decl) := by
    intro decl hdecl
    have hmeets := (meets_declRule wf hdecl).inStep tree
      (fun steps => (tree.declPlainly steps decl).run) fun steps b hb =>
        ⟨tree.declRule decl, alike_declRule wf decl, hb⟩
    exact hmeets.mono (fun _ h => h.1) fun _ h => h.2
  obtain ⟨result, hresult, hforall⟩ :=
    (judges_agreement wf hdepth).checkModel wf.root_lt_size hrule
    (fun decl _ relation hrelation => starts_relation wf hrelation)
  refine ⟨result, hresult, hforall.imp ?_⟩
  rintro decl _ ⟨ty, ⟨construct, -, rfl⟩, hty⟩ steps answer hanswer
  obtain ⟨ty', rfl, hlike⟩ := hty steps answer hanswer
  exact ⟨ty', rfl, rfl, hlike.text_eq, by rw [hlike.isError_eq]⟩

/-- Plain evaluation ends on the variable `larger` and on the function `scale`,
and the check shows the types that it gives them. -/
theorem checkModel_plain_smallModel :
    2 * smallModel.size ≤ ({} : Options).maxDepth ∧
      (smallModel.declPlainly 8 11).run = some (.ok (.integer none)) ∧
      (smallModel.declPlainly 12 18).run =
        some (.ok (.function [(12, .integer none)] (.integer none))) ∧
      ∃ result, smallModel.checkModel {} = .ok result ∧
        List.Forall₂ (fun decl summary => ∀ steps answer,
          (smallModel.declPlainly steps decl).run = some answer →
            ∃ ty, answer = .ok ty ∧ summary.node = decl ∧
              summary.type = ty.text ∧ summary.ok = !ty.isError)
          [2, 5, 11, 18, 20] result.declarations ∧
        ∃ larger scale, result.declarations[2]? = some larger ∧
          larger.node = 11 ∧ larger.type = "Integer" ∧ larger.ok = true ∧
          result.declarations[3]? = some scale ∧ scale.node = 18 ∧
          scale.type = "(Integer) => Integer" ∧ scale.ok = true := by
  have hdepth : 2 * smallModel.size ≤ ({} : Options).maxDepth := by
    decide +kernel
  have hlarger :
      (smallModel.declPlainly 8 11).run = some (.ok (.integer none)) := by
    with_unfolding_all rfl
  have hscale : (smallModel.declPlainly 12 18).run =
      some (.ok (.function [(12, .integer none)] (.integer none))) := by
    with_unfolding_all rfl
  obtain ⟨result, hresult, hforall⟩ :=
    checkModel_plain smallModel smallModel_wellFormed {} hdepth
  have hroots : smallModel.roots = [2, 5, 11, 18, 20] := rfl
  obtain ⟨larger, hthird, hplain⟩ := forall₂_getElem? hforall
    (show smallModel.roots[2]? = some 11 from rfl)
  obtain ⟨scale, hfourth, hplain'⟩ := forall₂_getElem? hforall
    (show smallModel.roots[3]? = some 18 from rfl)
  obtain ⟨_, ⟨⟩, hnode, htype, hok⟩ := hplain 8 _ hlarger
  obtain ⟨_, ⟨⟩, hnode', htype', hok'⟩ := hplain' 12 _ hscale
  exact ⟨hdepth, hlarger, hscale, result, hresult, hroots ▸ hforall, larger,
    scale, hthird, hnode, htype, hok, hfourth, hnode',
    htype'.trans (by decide +kernel), hok'⟩

end Tree

end ConceptLang
