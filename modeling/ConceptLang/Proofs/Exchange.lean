import ConceptLang.Proofs.Coherence
import ConceptLang.Proofs.TypeTexts

/-!
# Exchanging expected types

What becomes of a check if another type is expected in the place of one that it
is the same as? The two checks go side by side: they ask for the same premises,
up to such an exchange, and come to outcomes that read alike
(`Tree.accords_rule`).

This needs that the two types serve the check alike, which is so if they have
the same reading. A check of a function binds the parameter nodes that the
expected type names. All other checks only compare the expected type and put it
into words. So where no function is checked it is enough that the two types are
the same, are shown alike, and are taken for errors of recursion together.
-/

namespace ConceptLang

/-- The scope with the readings of its types. -/
def Scope.reading (scope : Scope) : Scope :=
  ⟨Ty.readingParams scope.bindings⟩

theorem Scope.find?_reading (scope : Scope) (node : NodeId) :
    scope.reading.find? node = (scope.find? node).map Ty.reading :=
  Ty.lookup_readingParams scope.bindings node

theorem Scope.reading_extend {scope scope' : Scope}
    (hscope : scope.reading = scope'.reading)
    {params params' : List (NodeId × Ty)}
    (hparams : Ty.readingParams params = Ty.readingParams params') :
    (scope.extend params).reading = (scope'.extend params').reading := by
  have hbindings :
      Ty.readingParams scope.bindings = Ty.readingParams scope'.bindings :=
    congrArg Scope.bindings hscope
  simp only [Ty.readingParams_eq_map] at hbindings hparams
  simp only [reading, extend, Ty.readingParams_eq_map, List.map_append,
    List.map_reverse, hbindings, hparams]

/-- Causes that mention types which are shown alike. -/
inductive Fault.Paraphrase : Fault → Fault → Prop where
  | notCallable {a b : Ty} (h : a.text = b.text) :
      Paraphrase (.notCallable a) (.notCallable b)
  | operands {a b c d expected expected' : Ty} (op : Operator)
      (h : a.text = b.text) (h' : c.text = d.text)
      (hexpected : expected.text = expected'.text) :
      Paraphrase (.operands op a c expected) (.operands op b d expected')
  | functionExpected {a b : Ty} (name : String) (h : a.text = b.text) :
      Paraphrase (.functionExpected name a) (.functionExpected name b)
  | condition {a b : Ty} (h : a.text = b.text) :
      Paraphrase (.condition a) (.condition b)
  | thenBranch {a b expected expected' : Ty} (h : a.text = b.text)
      (hexpected : expected.text = expected'.text) :
      Paraphrase (.thenBranch a expected) (.thenBranch b expected')
  | elseBranch {a b expected expected' : Ty} (h : a.text = b.text)
      (hexpected : expected.text = expected'.text) :
      Paraphrase (.elseBranch a expected) (.elseBranch b expected')
  | mismatch {a b expected expected' : Ty}
      (hexpected : expected.text = expected'.text) (h : a.text = b.text) :
      Paraphrase (.mismatch expected a) (.mismatch expected' b)
  | joinOperand {a b : Ty} (h : a.text = b.text) :
      Paraphrase (.joinOperand a) (.joinOperand b)
  | joinRelation {a b : Ty} (field : String) (h : a.text = b.text) :
      Paraphrase (.joinRelation field a) (.joinRelation field b)

/-- Of the types that a cause mentions only the texts matter. -/
theorem Fault.Paraphrase.reading_eq {cause cause' : Fault}
    (h : cause.Paraphrase cause') (node : NodeId) :
    (Ty.fault node cause).reading = (Ty.fault node cause').reading := by
  have hkind : cause.kind = cause'.kind := by cases h <;> rfl
  have hmessage : cause.message = cause'.message := by
    delta Fault.message
    cases h with
    | operands op h h' hexpected => simp only [h, h', hexpected]
    | thenBranch h hexpected | elseBranch h hexpected | mismatch hexpected h =>
        simp only [h, hexpected]
    | notCallable h | functionExpected _ h | condition h | joinOperand h
    | joinRelation _ h =>
        simp only [h]
  rw [Ty.fault, Ty.fault, Fault.toError, Fault.toError, hkind, hmessage]

namespace Tree

/-- No operand of the node is a function, so a check of the node binds no
parameters. -/
def FunctionFree (tree : Tree) (node : NodeId) : Prop :=
  ∀ operand, tree.Operand node operand →
    ¬ tree.holds (·.isFunction) operand = true

/-- The first type can take the place of the second one in a check of the
node. -/
structure Serves (tree : Tree) (node : NodeId) (expected expected' : Ty) :
    Prop where
  readsAs : expected.ReadsAs expected'
  binds : expected.reading = expected'.reading ∨ tree.FunctionFree node

/-- Judgements about the same node, with types exchanged. -/
inductive Exchanges (tree : Tree) : Judgement → Judgement → Prop where
  | synth {scope scope' : Scope} (hscope : scope.reading = scope'.reading)
      (node : NodeId) : Exchanges tree (.synth scope node) (.synth scope' node)
  | check {scope scope' : Scope} (hscope : scope.reading = scope'.reading)
      {node : NodeId} {expected expected' : Ty}
      (h : tree.Serves node expected expected') :
      Exchanges tree (.check scope node expected) (.check scope' node expected')

theorem Exchanges.node_eq {tree : Tree} {judgement judgement' : Judgement}
    (h : tree.Exchanges judgement judgement') :
    judgement.node = judgement'.node := by
  cases h <;> rfl

theorem Exchanges.enter_eq {tree : Tree} {judgement judgement' : Judgement}
    (h : tree.Exchanges judgement judgement') (busy : List NodeId) :
    judgement.enter busy = judgement'.enter busy := by
  cases h <;> rfl

/-- Two outcomes of a check that read alike. Unless they have the same reading,
the check has succeeded, which it never does for a predicate. -/
structure SameOutcomes (tree : Tree) (node : NodeId) (expected ty ty' : Ty) :
    Prop where
  readsAs : ty.ReadsAs ty'
  succeeds : ty.reading = ty'.reading ∨
    ty.same expected = true ∧ ¬ tree.holds (·.isPredicate) node = true

/-- Two answers to a judgement that read alike. -/
def SameAnswers (tree : Tree) : Judgement → Ty → Ty → Prop
  | .synth _ _, ty, ty' => ty.reading = ty'.reading
  | .check _ node expected, ty, ty' => tree.SameOutcomes node expected ty ty'

section Outcomes

variable {tree : Tree} {node : NodeId} {expected expected' : Ty}

theorem serves_of_reading_eq (h : expected.reading = expected'.reading) :
    tree.Serves node expected expected' :=
  ⟨.of_reading_eq h, Or.inl h⟩

theorem sameOutcomes_of_reading_eq {ty ty' : Ty}
    (h : ty.reading = ty'.reading) :
    tree.SameOutcomes node expected ty ty' :=
  ⟨.of_reading_eq h, Or.inl h⟩

/-- The answer that no rule was needed for reads alike for both judgements. -/
theorem sameAnswers_of_reading_eq (judgement : Judgement) {ty ty' : Ty}
    (h : ty.reading = ty'.reading) : tree.SameAnswers judgement ty ty' := by
  cases judgement with
  | synth scope node => exact h
  | check scope node expected => exact sameOutcomes_of_reading_eq h

/-- The expected types are the outcomes of checks that succeed. -/
theorem Serves.sameOutcomes (h : tree.Serves node expected expected')
    {construct : Construct} (hconstruct : tree.construct node = .ok construct)
    (hpredicate : construct.isPredicate = false) :
    tree.SameOutcomes node expected expected expected' :=
  ⟨h.readsAs, Or.inr ⟨Ty.same_refl expected, not_holds hconstruct hpredicate⟩⟩

/-- What serves the check of a function has the same reading, since a function
is its own operand. -/
theorem Serves.reading_eq (h : tree.Serves node expected expected')
    {name : Ident} {params signature : List NodeId} {body : NodeId}
    (hconstruct : tree.construct node =
      .ok (.function name params signature body)) :
    expected.reading = expected'.reading := by
  rcases h.binds with hreading | hfree
  · exact hreading
  · have hfunction : tree.holds (·.isFunction) node = true :=
      (holds_iff tree _ node).mpr ⟨_, hconstruct, rfl⟩
    exact absurd hfunction (hfree node (.self hconstruct (by simp)))

/-- What serves the check of an operator serves those of its operands. -/
theorem Serves.operands (h : tree.Serves node expected expected')
    {op : Operator} {lhs rhs : NodeId}
    (hconstruct : tree.construct node = .ok (.binary op lhs rhs)) :
    tree.Serves lhs expected expected' ∧
    tree.Serves rhs expected expected' := by
  refine ⟨⟨h.readsAs, h.binds.imp id ?_⟩, ⟨h.readsAs, h.binds.imp id ?_⟩⟩
  · exact fun hfree operand hoperand =>
      hfree operand (.left hconstruct hoperand)
  · exact fun hfree operand hoperand =>
      hfree operand (.right hconstruct hoperand)

/-- A type with the same reading is compared with the exchanged types alike. -/
theorem Serves.same_eq (h : tree.Serves node expected expected') {ty ty' : Ty}
    (hty : ty.same ty' = true) : ty.same expected = ty'.same expected' := by
  rw [Bool.eq_iff_iff, Ty.same_congr_right h.readsAs.same]
  exact ⟨Ty.same_trans (Ty.same_symm hty), Ty.same_trans hty⟩

end Outcomes

end Tree

/-! ### Rules side by side -/

/-- Two results of a rule that may have met a type error: errors with the same
reading, or other results that agree. -/
def SameResults {α : Type} (agree : α → α → Prop) :
    Except TypeError α → Except TypeError α → Prop
  | .ok a, .ok a' => agree a a'
  | .error e, .error e' => (Ty.error e).reading = (Ty.error e').reading
  | _, _ => False

namespace Rule

variable {α β : Type}

/-- With answers that read alike, the two rules ask for premises with types
exchanged, and come to conclusions that agree. -/
def Accords (tree : Tree) (agree : α → α → Prop) : Rule α → Rule α → Prop
  | .conclude a, .conclude a' => agree a a'
  | .defect e, .defect e' => e = e'
  | .premise judgement next, .premise judgement' next' =>
      tree.Exchanges judgement judgement' ∧
        ∀ ty ty', tree.SameAnswers judgement ty ty' →
          (next ty).Accords tree agree (next' ty')
  | .stamp _ next, .stamp _ next' => ∀ n, (next n).Accords tree agree (next' n)
  | _, _ => False

section Accords

variable {tree : Tree}

theorem Accords.bind {agree : α → α → Prop} {agree' : β → β → Prop}
    {rule rule' : Rule α} {f f' : α → Rule β}
    (h : rule.Accords tree agree rule')
    (hf : ∀ a a', agree a a' → (f a).Accords tree agree' (f' a')) :
    (rule.bind f).Accords tree agree' (rule'.bind f') := by
  induction rule generalizing rule' with
  | conclude a =>
      cases rule' with
      | conclude a' => exact hf a a' h
      | _ => exact h.elim
  | defect e =>
      cases rule' with
      | defect e' => exact h
      | _ => exact h.elim
  | premise judgement next ih =>
      cases rule' with
      | premise judgement' next' =>
          exact ⟨h.1, fun ty ty' hty => ih ty (h.2 ty ty' hty)⟩
      | _ => exact h.elim
  | stamp decl next ih =>
      cases rule' with
      | stamp decl' next' => exact fun n => ih n (h n)
      | _ => exact h.elim

theorem Accords.mono {agree agree' : α → α → Prop} {rule rule' : Rule α}
    (h : rule.Accords tree agree rule')
    (hagree : ∀ a a', agree a a' → agree' a a') :
    rule.Accords tree agree' rule' := by
  have hbind :
      (rule.bind .conclude).Accords tree agree' (rule'.bind .conclude) :=
      h.bind hagree
  rwa [bind_conclude, bind_conclude] at hbind

/-- A rule that stops at a type error goes on from results that agree. -/
theorem Accords.bind_outcome {agree : α → α → Prop} {agree' : β → β → Prop}
    {rule rule' : Rule (Except TypeError α)}
    {f f' : Except TypeError α → Rule β}
    (h : rule.Accords tree (SameResults agree) rule')
    (herror : ∀ e e', (Ty.error e).reading = (Ty.error e').reading →
      (f (.error e)).Accords tree agree' (f' (.error e')))
    (hok : ∀ a a', agree a a' → (f (.ok a)).Accords tree agree' (f' (.ok a'))) :
    (rule.bind f).Accords tree agree' (rule'.bind f') := by
  refine h.bind fun outcome outcome' houtcome => ?_
  cases outcome <;> cases outcome'
  case error.error e e' => exact herror e e' houtcome
  case ok.ok a a' => exact hok a a' houtcome
  all_goals exact houtcome.elim

theorem Accords.lift {agree : β → β → Prop} {x : Except TreeError α}
    {f f' : α → Rule β}
    (hf : ∀ a, x = .ok a → (f a).Accords tree agree (f' a)) :
    ((liftM x : Rule α) >>= f).Accords tree agree (liftM x >>= f') := by
  cases x with
  | error e => exact rfl
  | ok a => exact hf a rfl

variable {scope scope' : Scope} (hscope : scope.reading = scope'.reading)

include hscope

theorem accords_synth (node : NodeId) :
    (synth scope node).Accords tree (fun ty ty' => ty.reading = ty'.reading)
      (synth scope' node) :=
  ⟨.synth hscope node, fun _ _ h => h⟩

theorem accords_check {node : NodeId} {expected expected' : Ty}
    (h : tree.Serves node expected expected') :
    (check scope node expected).Accords tree (tree.SameOutcomes node expected)
      (check scope' node expected') :=
  ⟨.check hscope h, fun _ _ h => h⟩

end Accords

end Rule

namespace Tree

/-! ### Rules of synthesis -/

section Synthesis

variable {tree : Tree} {scope scope' : Scope}
  (hscope : scope.reading = scope'.reading) {node : NodeId}

theorem reading_joinThrough (field : String) (foundOn : NodeId) {ty ty' : Ty}
    (hty : ty.reading = ty'.reading) :
    (joinThrough node field foundOn ty).reading =
      (joinThrough node field foundOn ty').reading := by
  unfold joinThrough
  split
  · obtain ⟨relatum', rfl, hrelatum⟩ := Ty.exists_of_reading_eq_relation hty
    dsimp only
    split
    · exact hrelatum
    · rfl
  · next hrelation =>
      split
      · obtain ⟨relatum, rfl, -⟩ := Ty.exists_of_reading_eq_relation hty.symm
        exact absurd rfl (hrelation _ _ _ _ _)
      · have hcause :=
          Fault.Paraphrase.joinRelation field (Ty.text_eq_of_reading_eq hty)
        exact hcause.reading_eq node

include hscope

theorem accords_synthAll (nodes : List NodeId) :
    (Rule.synthAll scope nodes).Accords tree
      (SameResults fun types types' =>
        types.map Ty.reading = types'.map Ty.reading)
      (Rule.synthAll scope' nodes) := by
  induction nodes with
  | nil => exact rfl
  | cons id ids ih =>
      refine (Rule.accords_synth hscope id).bind fun ty ty' hty => ?_
      split
      · obtain ⟨e', rfl⟩ := Ty.exists_of_reading_eq_error hty
        exact hty
      · next hok =>
          split
          · obtain ⟨e, rfl⟩ := Ty.exists_of_reading_eq_error hty.symm
            exact absurd rfl (hok e)
          · refine ih.bind_outcome (fun _ _ herror => herror)
              fun types types' htypes => ?_
            change (ty :: types).map Ty.reading = (ty' :: types').map Ty.reading
            rw [List.map_cons, List.map_cons, hty, htypes]

theorem accords_checkAll (nodes : List NodeId) {types types' : List Ty}
    (htypes : types.map Ty.reading = types'.map Ty.reading) :
    (Rule.checkAll scope (nodes.zip types)).Accords tree
      (fun found found' => found.map (Ty.reading ∘ Ty.error) =
        found'.map (Ty.reading ∘ Ty.error))
      (Rule.checkAll scope' (nodes.zip types')) := by
  induction nodes generalizing types types' with
  | nil => exact rfl
  | cons id ids ih =>
      cases types with
      | nil =>
          obtain rfl := List.map_eq_nil_iff.mp htypes.symm
          exact rfl
      | cons expected types =>
          obtain ⟨expected', types', rfl, hexpected, hrest⟩ :=
            List.map_eq_cons_iff.mp htypes.symm
          refine (Rule.accords_check hscope
            (serves_of_reading_eq hexpected.symm)).bind
            fun ty ty' hty => ?_
          split
          · have hreading := hty.readsAs.reading_eq_of_error
            obtain ⟨e', rfl⟩ := Ty.exists_of_reading_eq_error hreading
            exact congrArg some hreading
          · next hok =>
              split
              · obtain ⟨e, rfl⟩ := Ty.exists_of_reading_eq_error
                  hty.readsAs.symm.reading_eq_of_error
                exact absurd rfl (hok e)
              · exact ih hrest.symm

theorem accords_synthParam (name : String) :
    (tree.synthParam scope node name).Accords tree
      (fun ty ty' => ty.reading = ty'.reading)
      (tree.synthParam scope' node name) := by
  refine Rule.Accords.lift fun parent _ => ?_
  cases parent with
  | none => exact rfl
  | some above =>
      refine (Rule.accords_synth hscope above).bind fun ty ty' hty => ?_
      split
      · next params result =>
          obtain ⟨params', result', rfl, hparams, -⟩ :=
            Ty.exists_of_reading_eq_function hty
          have htype : (params.lookup node).map Ty.reading =
              (params'.lookup node).map Ty.reading := by
            rw [← Ty.lookup_readingParams, hparams, Ty.lookup_readingParams]
          exact Ty.reading_getD htype _
      · next hfunction =>
          split
          · obtain ⟨params, result, rfl, -⟩ :=
              Ty.exists_of_reading_eq_function hty.symm
            exact absurd rfl (hfunction params result)
          · exact rfl

theorem accords_synthRelation (name : String) (relatum : NodeId) :
    (tree.synthRelation scope node name relatum).Accords tree
      (fun ty ty' => ty.reading = ty'.reading)
      (tree.synthRelation scope' node name relatum) := by
  refine Rule.Accords.lift fun owner _ => ?_
  cases owner with
  | none => exact rfl
  | some owner =>
      refine (Rule.accords_synth hscope relatum).bind fun ty ty' hty => ?_
      split
      · obtain ⟨e', rfl⟩ := Ty.exists_of_reading_eq_error hty
        exact hty
      · next hok =>
          split
          · obtain ⟨e, rfl⟩ := Ty.exists_of_reading_eq_error hty.symm
            exact absurd rfl (hok e)
          · intro n
            change (Ty.relation n node name owner ty).reading =
              (Ty.relation n node name owner ty').reading
            rw [Ty.reading, Ty.reading, hty]

theorem accords_synthFunction (name : String) (params slots : List NodeId) :
    (synthFunction scope node name params slots).Accords tree
      (fun ty ty' => ty.reading = ty'.reading)
      (synthFunction scope' node name params slots) := by
  rw [synthFunction, synthFunction]
  split
  · exact rfl
  · refine (accords_synthAll hscope slots).bind_outcome
      (fun _ _ herror => herror) fun types types' htypes => ?_
    have hlast :
        types.getLast?.map Ty.reading = types'.getLast?.map Ty.reading := by
      rw [← List.getLast?_map, htypes, List.getLast?_map]
    change (Ty.function (params.zip types)
      (types.getLast?.getD .unit)).reading =
      (Ty.function (params.zip types') (types'.getLast?.getD .unit)).reading
    rw [Ty.reading, Ty.reading, Ty.readingParams_zip, Ty.readingParams_zip,
      htypes, Ty.reading_getD hlast]

theorem accords_synthCall (callee : NodeId) (args : List NodeId) :
    (synthCall scope node callee args).Accords tree
      (fun ty ty' => ty.reading = ty'.reading)
      (synthCall scope' node callee args) := by
  refine (Rule.accords_synth hscope callee).bind fun ty ty' hty => ?_
  split
  · next params result =>
      obtain ⟨params', result', rfl, hparams, hresult⟩ :=
        Ty.exists_of_reading_eq_function hty
      rw [Ty.readingParams_eq_map, Ty.readingParams_eq_map] at hparams
      have hlength : params.length = params'.length := by
        simpa using congrArg List.length hparams
      have htypes :
          (params.map (·.2)).map Ty.reading =
            (params'.map (·.2)).map Ty.reading := by
        simpa [Function.comp_def] using congrArg (List.map Prod.snd) hparams
      dsimp only
      rw [hlength]
      split
      · exact rfl
      · refine (accords_checkAll hscope args htypes).bind
          fun found found' hfound => ?_
        cases found <;> cases found'
        case none.none => exact hresult
        case some.some => exact Option.some.inj hfound
        all_goals cases hfound
  · next hfunction =>
      split
      · obtain ⟨params, result, rfl, -⟩ :=
          Ty.exists_of_reading_eq_function hty.symm
        exact absurd rfl (hfunction params result)
      · have hcause :=
          Fault.Paraphrase.notCallable (Ty.text_eq_of_reading_eq hty)
        exact hcause.reading_eq node

theorem accords_predicateParams (params : List NodeId) :
    (tree.predicateParams scope params).Accords tree
      (SameResults fun bindings bindings' =>
        Ty.readingParams bindings = Ty.readingParams bindings')
      (tree.predicateParams scope' params) := by
  induction params with
  | nil => exact rfl
  | cons id ids ih =>
      refine Rule.Accords.lift fun construct _ => ?_
      cases construct with
      | typedParam formal typeNode =>
          refine (Rule.accords_synth hscope id).bind fun ty ty' hty => ?_
          split
          · obtain ⟨e', rfl⟩ := Ty.exists_of_reading_eq_error hty
            exact hty
          · next hok =>
              split
              · obtain ⟨e, rfl⟩ := Ty.exists_of_reading_eq_error hty.symm
                exact absurd rfl (hok e)
              · refine ih.bind_outcome (fun _ _ herror => herror)
                  fun bindings bindings' hbindings => ?_
                change Ty.readingParams ((formal, ty) :: bindings) =
                  Ty.readingParams ((formal, ty') :: bindings')
                rw [Ty.readingParams, Ty.readingParams, hty, hbindings]
      | _ => exact rfl

/-- A check of a predicate never succeeds, so its outcomes have the same
reading. -/
theorem accords_synthPredicate {name : Ident} {params : List NodeId}
    {body : Option NodeId}
    (hconstruct : tree.construct node = .ok (.predicate name params body)) :
    (tree.synthPredicate scope node params).Accords tree
      (fun ty ty' => ty.reading = ty'.reading)
      (tree.synthPredicate scope' node params) := by
  refine (accords_predicateParams hscope params).bind_outcome
    (fun _ _ herror => herror) fun bindings bindings' hbindings => ?_
  have hexpected :
      (Ty.predicate bindings).reading = (Ty.predicate bindings').reading := by
    rw [Ty.reading, Ty.reading, hbindings]
  refine (Rule.accords_check hscope (serves_of_reading_eq hexpected)).mono
    fun ty ty' hty => ?_
  have hpredicate : tree.holds (·.isPredicate) node = true :=
    (holds_iff tree _ node).mpr ⟨_, hconstruct, rfl⟩
  exact hty.succeeds.resolve_right fun hsucceeds => hsucceeds.2 hpredicate

theorem accords_synthBinary (op : Operator) :
    (synthBinary scope node op).Accords tree
      (fun ty ty' => ty.reading = ty'.reading)
      (synthBinary scope' node op) := by
  -- A type that is the same as one of these two differs from it in a literal
  -- only.
  have hcheck : ∀ {expected : Ty},
    (∀ ty : Ty, ty.same expected = true → ty.reading = expected) →
      (Rule.check scope node expected).Accords tree
        (fun ty ty' => ty.reading = ty'.reading)
        (Rule.check scope' node expected) := by
    intro expected hexpected
    refine (Rule.accords_check hscope (serves_of_reading_eq rfl)).mono
      fun ty ty' hty => ?_
    rcases hty.succeeds with hreading | ⟨hsame, -⟩
    · exact hreading
    · rw [hexpected ty hsame,
        hexpected ty' (Ty.same_trans (Ty.same_symm hty.readsAs.same) hsame)]
  have hboolean : ∀ ty : Ty, ty.same (.boolean none) = true →
      ty.reading = .boolean none := by
    intro ty hsame
    cases ty <;> first | rfl | cases hsame
  have hinteger : ∀ ty : Ty, ty.same (.integer none) = true →
      ty.reading = .integer none := by
    intro ty hsame
    cases ty <;> first | rfl | cases hsame
  cases op with
  | mod => exact rfl
  | or | and | eq | ne | lt | gt | le | ge => exact hcheck hboolean
  | add | sub | mul | div => exact hcheck hinteger

theorem accords_synthJoin (left field : NodeId) :
    (tree.synthJoin scope node left field).Accords tree
      (fun ty ty' => ty.reading = ty'.reading)
      (tree.synthJoin scope' node left field) := by
  refine (Rule.accords_synth hscope left).bind fun ty ty' hty => ?_
  split
  · obtain rfl := Ty.eq_of_reading_eq_concept hty
    refine Rule.Accords.lift fun construct _ => ?_
    cases construct with
    | reference text resolution =>
        refine Rule.Accords.lift fun found _ => ?_
        cases found with
        | none => exact rfl
        | some found =>
            refine (Rule.accords_synth hscope found.2).bind
              fun relation relation' hrelation => ?_
            exact reading_joinThrough text found.1 hrelation
    | _ => exact rfl
  · next hconcept =>
      split
      · exact absurd (Ty.eq_of_reading_eq_concept hty.symm) (hconcept _)
      · have hcause :=
          Fault.Paraphrase.joinOperand (Ty.text_eq_of_reading_eq hty)
        exact hcause.reading_eq node

theorem accords_synthRule :
    (tree.synthRule scope node).Accords tree
      (fun ty ty' => ty.reading = ty'.reading)
      (tree.synthRule scope' node) := by
  refine Rule.Accords.lift fun construct hconstruct => ?_
  cases construct with
  | reference text resolution =>
      cases resolution with
      | resolved target => exact Rule.accords_synth hscope target
      | unresolved note => exact rfl
  | join left field => exact accords_synthJoin hscope left field
  | stringLit | boolLit | intLit | keywordType | concept | conditional =>
      exact rfl
  | var name typeNode value =>
      cases typeNode with
      | some typeNode => exact Rule.accords_synth hscope typeNode
      | none =>
          cases value with
          | some value => exact Rule.accords_synth hscope value
          | none => exact rfl
  | param name => exact accords_synthParam hscope name.name
  | typedParam formal typeNode => exact Rule.accords_synth hscope typeNode
  | conceptType ref =>
      have hpure : (liftM (tree.conceptType node ref) : Rule Ty) =
          liftM (tree.conceptType node ref) >>= Rule.conclude :=
            (Rule.bind_conclude _).symm
      dsimp only
      rw [hpure]
      exact Rule.Accords.lift fun ty _ => rfl
  | relation name relatum =>
      exact accords_synthRelation hscope name.name relatum
  | binary op lhs rhs => exact accords_synthBinary hscope op
  | function name params slots body =>
      exact accords_synthFunction hscope name.name params slots
  | call callee args => exact accords_synthCall hscope callee args
  | predicate name params body => exact accords_synthPredicate hscope hconstruct

end Synthesis

/-! ### Rules of checking -/

section Checking

variable {tree : Tree} {scope scope' : Scope}
  (hscope : scope.reading = scope'.reading) {node : NodeId}
  {expected expected' : Ty} (hserves : tree.Serves node expected expected')

include hscope hserves

theorem accords_checkBinary {op : Operator} {lhs rhs : NodeId}
    (hconstruct : tree.construct node = .ok (.binary op lhs rhs)) :
    (checkBinary scope node op lhs rhs expected).Accords tree
      (tree.SameOutcomes node expected)
      (checkBinary scope' node op lhs rhs expected') := by
  obtain ⟨hlhs, hrhs⟩ := hserves.operands hconstruct
  -- An operand whose outcome is an error of recursion decides the outcome of
  -- the whole.
  have hrecursion : ∀ {ty ty' : Ty}, ty.ReadsAs ty' → ty.isRecursion = true →
      tree.SameOutcomes node expected ty ty' := by
    intro ty ty' hty hrecursion
    cases ty with
    | error e => exact sameOutcomes_of_reading_eq hty.reading_eq_of_error
    | _ => cases hrecursion
  refine (Rule.accords_check hscope hlhs).bind fun left left' hleft => ?_
  rw [← hleft.readsAs.isRecursion_eq]
  split
  · next hleftRecursion => exact hrecursion hleft.readsAs hleftRecursion
  · refine (Rule.accords_check hscope hrhs).bind fun right right' hright => ?_
    rw [← hright.readsAs.isRecursion_eq]
    split
    · next hrightRecursion => exact hrecursion hright.readsAs hrightRecursion
    · rw [← hserves.same_eq hleft.readsAs.same, ← hserves.same_eq
        hright.readsAs.same]
      split
      · exact hserves.sameOutcomes hconstruct rfl
      · refine (Rule.accords_synth hscope lhs).bind fun left left' hleft => ?_
        refine (Rule.accords_synth hscope rhs).bind
          fun right right' hright => ?_
        have hcause :=
          Fault.Paraphrase.operands op (Ty.text_eq_of_reading_eq hleft)
          (Ty.text_eq_of_reading_eq hright) hserves.readsAs.text_eq
        exact sameOutcomes_of_reading_eq (hcause.reading_eq node)

theorem accords_checkFunction {name : Ident} {params slots : List NodeId}
    {body : NodeId}
    (hconstruct : tree.construct node =
      .ok (.function name params slots body)) :
    (checkFunction scope node name.name body expected).Accords tree
      (tree.SameOutcomes node expected)
      (checkFunction scope' node name.name body expected') := by
  have hreading := hserves.reading_eq hconstruct
  unfold checkFunction
  split
  · obtain ⟨bindings', result', rfl, hbindings, hresult⟩ :=
      Ty.exists_of_reading_eq_function hreading
    refine (Rule.accords_check (Scope.reading_extend hscope hbindings)
      (serves_of_reading_eq hresult)).bind fun ty ty' hty => ?_
    split
    · have herror := hty.readsAs.reading_eq_of_error
      obtain ⟨e', rfl⟩ := Ty.exists_of_reading_eq_error herror
      exact sameOutcomes_of_reading_eq herror
    · next hok =>
        split
        · obtain ⟨e, rfl⟩ :=
            Ty.exists_of_reading_eq_error hty.readsAs.symm.reading_eq_of_error
          exact absurd rfl (hok e)
        · exact sameOutcomes_of_reading_eq hreading
  · next hfunction =>
      split
      · obtain ⟨bindings, result, rfl, -⟩ :=
          Ty.exists_of_reading_eq_function hreading.symm
        exact absurd rfl (hfunction bindings result)
      · have hcause :=
          Fault.Paraphrase.functionExpected name.name hserves.readsAs.text_eq
        exact sameOutcomes_of_reading_eq (hcause.reading_eq node)

theorem accords_checkConditional {condition thenBranch elseBranch : NodeId}
    (hconstruct : tree.construct node =
      .ok (.conditional condition thenBranch elseBranch)) :
    (checkConditional scope node condition thenBranch elseBranch
      expected).Accords tree (tree.SameOutcomes node expected)
      (checkConditional scope' node condition thenBranch elseBranch
        expected') := by
  refine (Rule.accords_synth hscope condition).bind
    fun conditionTy conditionTy' hcondition => ?_
  refine (Rule.accords_synth hscope thenBranch).bind
    fun thenTy thenTy' hthen => ?_
  refine (Rule.accords_synth hscope elseBranch).bind
    fun elseTy elseTy' helse => ?_
  have hexpected := hserves.readsAs.text_eq
  rw [← Ty.isBoolean_eq_of_reading_eq hcondition,
    ← hserves.same_eq (Ty.same_of_reading_eq hthen),
    ← hserves.same_eq (Ty.same_of_reading_eq helse)]
  split
  · have hcause :=
      Fault.Paraphrase.condition (Ty.text_eq_of_reading_eq hcondition)
    exact sameOutcomes_of_reading_eq (hcause.reading_eq node)
  · split
    · have hcause :=
        Fault.Paraphrase.thenBranch (Ty.text_eq_of_reading_eq hthen) hexpected
      exact sameOutcomes_of_reading_eq (hcause.reading_eq node)
    · split
      · have hcause :=
          Fault.Paraphrase.elseBranch (Ty.text_eq_of_reading_eq helse) hexpected
        exact sameOutcomes_of_reading_eq (hcause.reading_eq node)
      · exact hserves.sameOutcomes hconstruct rfl

theorem accords_checkBySynthesis {construct : Construct}
    (hconstruct : tree.construct node = .ok construct)
    (hpredicate : construct.isPredicate = false) :
    (checkBySynthesis scope node expected).Accords tree
      (tree.SameOutcomes node expected)
      (checkBySynthesis scope' node expected') := by
  refine (Rule.accords_synth hscope node).bind fun actual actual' hactual => ?_
  rw [← hserves.same_eq (Ty.same_of_reading_eq hactual)]
  split
  · exact hserves.sameOutcomes hconstruct hpredicate
  · have hcause := Fault.Paraphrase.mismatch hserves.readsAs.text_eq
      (Ty.text_eq_of_reading_eq hactual)
    exact sameOutcomes_of_reading_eq (hcause.reading_eq node)

theorem accords_checkRule :
    (tree.checkRule scope node expected).Accords tree
      (tree.SameOutcomes node expected)
      (tree.checkRule scope' node expected') := by
  refine Rule.Accords.lift fun construct hconstruct => ?_
  cases construct with
  | binary op lhs rhs => exact accords_checkBinary hscope hserves hconstruct
  | function name params slots body =>
      exact accords_checkFunction hscope hserves hconstruct
  | predicate name params body => exact sameOutcomes_of_reading_eq rfl
  | conditional condition thenBranch elseBranch =>
      exact accords_checkConditional hscope hserves hconstruct
  | _ => exact accords_checkBySynthesis hscope hserves hconstruct rfl

end Checking

/-- The rules for judgements with types exchanged go side by side. -/
theorem accords_rule {tree : Tree} {judgement judgement' : Judgement}
    (h : tree.Exchanges judgement judgement') :
    (tree.rule judgement).Accords tree (tree.SameAnswers judgement)
      (tree.rule judgement') := by
  cases h with
  | synth hscope node => exact accords_synthRule hscope
  | check hscope hserves => exact accords_checkRule hscope hserves

end Tree

end ConceptLang
