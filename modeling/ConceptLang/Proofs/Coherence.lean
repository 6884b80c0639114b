import ConceptLang.Proofs.ScopeIsolation
import ConceptLang.Proofs.TypingRelation

/-!
# Checking agrees with synthesis

Whether an expression has an expected type is decided by types that are found by
synthesis: by its own one, or for an operator by those of its operands, or for a
conditional by those of its three parts. `Tree.Decides` says how. So an operator
has a type if and only if all its operands have it, through any nesting of
operators, and an expression has no two different types.

The outcomes that a pass keeps agree with the types that it keeps
(`Pass.Supports`), as long as no expression is bound in a scope and nothing that
happens is a recursion error (`Tree.settleNoting_coherent`). The reason is that
a type which was found is never replaced, and that all checks of an expression
look at the same types.
-/

namespace ConceptLang

namespace Tree

/-! ### Operands -/

/-- The operands of a node: the nodes below it that are reached through
operators, and are not operators themselves. A node that is not an operator is
its only operand. -/
inductive Operand (tree : Tree) : NodeId → NodeId → Prop where
  | self {node : NodeId} {construct : Construct}
      (h : tree.construct node = .ok construct)
      (hop : ∀ op lhs rhs, construct ≠ .binary op lhs rhs) :
      Operand tree node node
  | left {node lhs rhs operand : NodeId} {op : Operator}
      (h : tree.construct node = .ok (.binary op lhs rhs))
      (hlhs : Operand tree lhs operand) : Operand tree node operand
  | right {node lhs rhs operand : NodeId} {op : Operator}
      (h : tree.construct node = .ok (.binary op lhs rhs))
      (hrhs : Operand tree rhs operand) : Operand tree node operand

theorem operand_iff {tree : Tree} {node operand : NodeId}
    {construct : Construct} (h : tree.construct node = .ok construct)
    (hop : ∀ op lhs rhs, construct ≠ .binary op lhs rhs) :
    tree.Operand node operand ↔ operand = node := by
  constructor
  · intro hoperand
    cases hoperand with
    | self => rfl
    | left h' => exact absurd (Except.ok.inj (h.symm.trans h')) (hop _ _ _)
    | right h' => exact absurd (Except.ok.inj (h.symm.trans h')) (hop _ _ _)
  · rintro rfl
    exact .self h hop

theorem operand_binary_iff {tree : Tree} {node operand lhs rhs : NodeId}
    {op : Operator} (h : tree.construct node = .ok (.binary op lhs rhs)) :
    tree.Operand node operand ↔
      tree.Operand lhs operand ∨ tree.Operand rhs operand := by
  constructor
  · intro hoperand
    cases hoperand with
    | self h' hop => exact absurd (Except.ok.inj (h'.symm.trans h)) (hop _ _ _)
    | left h' hoperand =>
        cases Except.ok.inj (h.symm.trans h')
        exact Or.inl hoperand
    | right h' hoperand =>
        cases Except.ok.inj (h.symm.trans h')
        exact Or.inr hoperand
  · exact fun hoperand => hoperand.elim (.left h) (.right h)

/-- The operands of an expression are expressions. -/
theorem Operand.isExpression {tree : Tree} (wf : tree.WellFormed)
    {node operand : NodeId} (h : tree.Operand node operand)
    (hnode : tree.holds (·.isExpression) node = true) :
    tree.holds (·.isExpression) operand = true := by
  induction h with
  | self => exact hnode
  | left h _ ih =>
      exact ih (wf.holds_part .expression h (by simp [Construct.parts]))
  | right h _ ih =>
      exact ih (wf.holds_part .expression h (by simp [Construct.parts]))

/-! ### What decides a check -/

/-- How types that are in memory decide whether an expression has an expected
type. -/
inductive Decides (tree : Tree) (cache : Cache) (expected : Ty) :
    NodeId → Bool → Prop where
  | compared {node : NodeId} {construct : Construct} {ty : Ty}
      (h : tree.construct node = .ok construct)
      (hcompared : construct.isCompared = true) (hty : cache[node]? = some ty) :
      Decides tree cache expected node (ty.same expected)
  | binary {node lhs rhs : NodeId} {op : Operator} {left right : Bool}
      (h : tree.construct node = .ok (.binary op lhs rhs))
      (hlhs : Decides tree cache expected lhs left)
      (hrhs : Decides tree cache expected rhs right) :
      Decides tree cache expected node (left && right)
  | conditional {node condition thenBranch elseBranch : NodeId}
      {conditionTy thenTy elseTy : Ty}
      (h : tree.construct node =
        .ok (.conditional condition thenBranch elseBranch))
      (hcondition : cache[condition]? = some conditionTy)
      (hthen : cache[thenBranch]? = some thenTy)
      (helse : cache[elseBranch]? = some elseTy) :
      Decides tree cache expected node
        (conditionTy.isBoolean && thenTy.same expected && elseTy.same expected)

namespace Decides

variable {tree : Tree} {cache cache' : Cache} {expected expected' : Ty}
  {node : NodeId} {verdict verdict' : Bool}

theorem mono (h : tree.Decides cache expected node verdict)
    (hcache : ∀ (node : NodeId) (ty : Ty), cache[node]? = some ty →
      cache'[node]? = some ty) :
    tree.Decides cache' expected node verdict := by
  induction h with
  | compared h hcompared hty => exact .compared h hcompared (hcache _ _ hty)
  | binary h _ _ ihl ihr => exact .binary h ihl ihr
  | conditional h hcondition hthen helse =>
      exact .conditional h (hcache _ _ hcondition) (hcache _ _ hthen)
        (hcache _ _ helse)

theorem congr (h : tree.Decides cache expected node verdict)
    (hsame : expected.same expected' = true) :
    tree.Decides cache expected' node verdict := by
  induction h with
  | @compared node construct ty h hcompared hty =>
      rw [Ty.same_congr_right hsame ty]
      exact .compared h hcompared hty
  | binary h _ _ ihl ihr => exact .binary h ihl ihr
  | @conditional node condition thenBranch elseBranch conditionTy thenTy elseTy
      h hcondition hthen helse =>
      rw [Ty.same_congr_right hsame thenTy, Ty.same_congr_right hsame elseTy]
      exact .conditional h hcondition hthen helse

theorem of_compared (h : tree.Decides cache expected node verdict)
    {construct : Construct} (hconstruct : tree.construct node = .ok construct)
    (hcompared : construct.isCompared = true) :
    ∃ ty, cache[node]? = some ty ∧ verdict = ty.same expected := by
  cases h with
  | compared _ _ hty => exact ⟨_, hty, rfl⟩
  | binary h =>
      obtain rfl := Except.ok.inj (hconstruct.symm.trans h)
      cases hcompared
  | conditional h =>
      obtain rfl := Except.ok.inj (hconstruct.symm.trans h)
      cases hcompared

theorem of_binary (h : tree.Decides cache expected node verdict) {op : Operator}
    {lhs rhs : NodeId}
    (hconstruct : tree.construct node = .ok (.binary op lhs rhs)) :
    ∃ left right, tree.Decides cache expected lhs left ∧
      tree.Decides cache expected rhs right ∧
      verdict = (left && right) := by
  cases h with
  | compared h hcompared =>
      obtain rfl := Except.ok.inj (hconstruct.symm.trans h)
      cases hcompared
  | binary h hlhs hrhs =>
      cases Except.ok.inj (hconstruct.symm.trans h)
      exact ⟨_, _, hlhs, hrhs, rfl⟩
  | conditional h => cases Except.ok.inj (hconstruct.symm.trans h)

theorem of_conditional (h : tree.Decides cache expected node verdict)
    {condition thenBranch elseBranch : NodeId}
    (hconstruct : tree.construct node =
      .ok (.conditional condition thenBranch elseBranch)) :
    ∃ conditionTy thenTy elseTy, cache[condition]? = some conditionTy ∧
      cache[thenBranch]? = some thenTy ∧ cache[elseBranch]? = some elseTy ∧
      verdict = (conditionTy.isBoolean && thenTy.same expected &&
        elseTy.same expected) := by
  cases h with
  | compared h hcompared =>
      obtain rfl := Except.ok.inj (hconstruct.symm.trans h)
      cases hcompared
  | binary h => cases Except.ok.inj (hconstruct.symm.trans h)
  | conditional h hcondition hthen helse =>
      cases Except.ok.inj (hconstruct.symm.trans h)
      exact ⟨_, _, _, hcondition, hthen, helse, rfl⟩

theorem unique (h : tree.Decides cache expected node verdict)
    (h' : tree.Decides cache expected node verdict') : verdict = verdict' := by
  induction h generalizing verdict' with
  | compared h hcompared hty =>
      obtain ⟨ty', hty', rfl⟩ := h'.of_compared h hcompared
      rw [Option.some.inj (hty.symm.trans hty')]
  | binary h _ _ ihl ihr =>
      obtain ⟨left, right, hlhs, hrhs, rfl⟩ := h'.of_binary h
      rw [ihl hlhs, ihr hrhs]
  | conditional h hcondition hthen helse =>
      obtain ⟨_, _, _, hcondition', hthen', helse', rfl⟩ := h'.of_conditional h
      rw [Option.some.inj (hcondition.symm.trans hcondition'),
        Option.some.inj (hthen.symm.trans hthen'),
        Option.some.inj (helse.symm.trans helse')]

end Decides

end Tree

/-! ### Memory that grows -/

namespace Pass

/-- All that the first pass remembers the second one does, too. -/
structure Within (pass pass' : Pass) : Prop where
  cache : ∀ (node : NodeId) (ty : Ty), pass.cache[node]? = some ty →
    pass'.cache[node]? = some ty
  memo : ∀ node, pass.outcomes node <+: pass'.outcomes node

namespace Within

variable {pass pass' : Pass}

theorem of_eq (hcache : pass'.cache = pass.cache)
    (hmemo : pass'.memo = pass.memo) :
    pass.Within pass' := by
  refine ⟨fun node ty h => by rwa [hcache], fun node => ⟨[], ?_⟩⟩
  rw [outcomes, outcomes, hmemo, List.append_nil]

theorem recordType {node : NodeId} (h : pass.cache[node]? = none) (ty : Ty) :
    pass.Within (pass.recordType node ty) := by
  refine ⟨fun other known hknown => ?_, fun other => List.prefix_rfl⟩
  have hne : other ≠ node := by
    rintro rfl
    rw [h] at hknown
    cases hknown
  rwa [cache_recordType, if_neg hne]

theorem recordCheck (node : NodeId) (expected ty : Ty) :
    pass.Within (pass.recordCheck node expected ty) := by
  refine ⟨fun _ _ h => h, fun other => ?_⟩
  rw [outcomes_recordCheck]
  split
  · next heq =>
      subst heq
      exact List.prefix_append _ _
  · exact List.prefix_rfl

/-- An outcome that is known stays known. -/
theorem recalled? (h : pass.Within pass') {node : NodeId} {expected ty : Ty}
    (hty : pass.recalled? node expected = some ty) :
    pass'.recalled? node expected = some ty := by
  obtain ⟨rest, hrest⟩ := h.memo node
  rw [recalled?_eq, Option.map_eq_some_iff] at hty ⊢
  obtain ⟨entry, hentry, rfl⟩ := hty
  exact ⟨entry, by rw [← hrest, List.find?_append, hentry, Option.some_or], rfl⟩

theorem isSome_recalled? (h : pass.Within pass') {node : NodeId} {expected : Ty}
    (hsome : (pass.recalled? node expected).isSome = true) :
    (pass'.recalled? node expected).isSome = true := by
  obtain ⟨ty, hty⟩ := Option.isSome_iff_exists.mp hsome
  rw [h.recalled? hty]
  rfl

end Within

theorem isSome_recalled?_recordCheck (pass : Pass) (node : NodeId)
    (expected ty : Ty) :
    ((pass.recordCheck node expected ty).recalled? node expected).isSome =
      true := by
  rw [recalled?_eq, Option.isSome_map, List.find?_isSome, outcomes_recordCheck,
    if_pos rfl]
  exact ⟨(expected, ty), by simp, Ty.same_refl expected⟩

theorem recalled?_congr (pass : Pass) (node : NodeId) {expected expected' : Ty}
    (h : expected.same expected' = true) :
    pass.recalled? node expected = pass.recalled? node expected' := by
  rw [recalled?_eq, recalled?_eq]
  simp only [Ty.same_congr_right h]

end Pass

namespace Tree

/-- A judgement only adds to memory. The induction for the outcomes of checks is
on the room. -/
theorem settle_within (tree : Tree) {limit room : Nat} {busy : List NodeId}
    {judgement : Judgement} {pass pass' : Pass} {ty : Ty}
    (hrun : (tree.settle limit room busy judgement).run pass =
      .ok (ty, pass')) :
    pass.Within pass' := by
  refine ⟨(tree.settle_grows hrun).kept, ?_⟩
  induction room using Nat.strongRecOn
    generalizing busy judgement pass ty pass' with
  | ind room ih =>
      rcases tree.settle_cases hrun with hsettled | ⟨middle, hsettled, hcase⟩
      · cases tree.settled?_eq_ok_iff.mp hsettled <;> exact fun _ =>
          List.prefix_rfl
      · obtain rfl := (tree.settled?_eq_ok_iff.mp hsettled).eq_of_none
        rcases hcase with ⟨-, -, rfl⟩ | ⟨less, last, rfl, rfl, hrule⟩
        · exact fun _ => List.prefix_rfl
        · have hlast : ∀ node, middle.outcomes node <+: last.outcomes node :=
            Rule.run_relates (fun _ _ => List.prefix_rfl)
              (fun h h' node => (h node).trans (h' node))
              (fun _ _ => List.prefix_rfl)
              (fun premise before found after hpremise =>
                ih less (Nat.lt_succ_self less) hpremise) hrule
          cases judgement with
          | synth scope node => exact hlast
          | check scope node expected =>
              intro other
              exact (hlast other).trans
                ((Pass.Within.recordCheck node expected ty).memo other)

end Tree

/-! ### Calls that memory supports -/

namespace Pass

/-- The pass knows whether the node has the expected type: the types that it
remembers decide it, and the checks of the node and of all its operands are
known. -/
structure HasDecided (tree : Tree) (pass : Pass) (expected : Ty) (node : NodeId)
    (verdict : Bool) :
    Prop where
  decides : tree.Decides pass.cache expected node verdict
  recalled : (pass.recalled? node expected).isSome = true
  operands : ∀ operand, tree.Operand node operand →
    (pass.recalled? operand expected).isSome = true

/-- The answer to a judgement about an expression agrees with memory. A type is
remembered, and if it was found by a check then the check is known. The outcome
of a check is decided, and a success is the expected type. -/
def Supports (tree : Tree) (pass : Pass) : Judgement → Ty → Prop
  | .synth _ node, ty => tree.holds (·.isExpression) node = true →
    pass.cache[node]? = some ty ∧
    (∀ construct, tree.construct node = .ok construct →
      construct.isCompared = false → ty.isError = false →
      pass.HasDecided tree ty node true)
  | .check _ node expected, ty => tree.holds (·.isExpression) node = true →
    expected.isError = false →
    pass.HasDecided tree expected node (!ty.isError) ∧
      (ty.isError = false → ty.same expected = true)

variable {tree : Tree} {pass pass' : Pass}

theorem HasDecided.mono {expected : Ty} {node : NodeId} {verdict : Bool}
    (h : pass.HasDecided tree expected node verdict)
    (hwithin : pass.Within pass') :
    pass'.HasDecided tree expected node verdict :=
  ⟨h.decides.mono hwithin.cache, hwithin.isSome_recalled? h.recalled,
    fun operand hoperand =>
      hwithin.isSome_recalled? (h.operands operand hoperand)⟩

theorem HasDecided.congr {expected expected' : Ty} {node : NodeId}
    {verdict : Bool} (h : pass.HasDecided tree expected node verdict)
    (hsame : expected.same expected' = true) :
    pass.HasDecided tree expected' node verdict := by
  refine ⟨h.decides.congr hsame, ?_, fun operand hoperand => ?_⟩
  · rw [← pass.recalled?_congr node hsame]
    exact h.recalled
  · rw [← pass.recalled?_congr operand hsame]
    exact h.operands operand hoperand

namespace Supports

variable {judgement : Judgement} {ty : Ty}

theorem mono (h : pass.Supports tree judgement ty)
    (hwithin : pass.Within pass') :
    pass'.Supports tree judgement ty := by
  cases judgement with
  | synth scope node =>
      intro hnode
      obtain ⟨hty, hdecided⟩ := h hnode
      exact ⟨hwithin.cache node ty hty,
        fun construct hconstruct hcompared herror =>
        (hdecided construct hconstruct hcompared herror).mono hwithin⟩
  | check scope node expected =>
      intro hnode hexpected
      obtain ⟨hdecided, hsame⟩ := h hnode hexpected
      exact ⟨hdecided.mono hwithin, hsame⟩

/-- The answer to a judgement is one to its twins. -/
theorem of_twin (h : pass.Supports tree judgement ty) {judgement' : Judgement}
    (htwin : judgement.Twin judgement') : pass.Supports tree judgement' ty := by
  cases htwin with
  | synth scope scope' node => exact h
  | @check scope scope' node expected expected' hsame =>
      intro hnode hexpected
      obtain ⟨hdecided, hty⟩ :=
        h hnode ((Ty.isError_eq_of_same hsame).trans hexpected)
      exact ⟨hdecided.congr hsame, fun hok => Ty.same_trans (hty hok) hsame⟩

end Supports

end Pass

/-! ### Scopes that bind no expression -/

/-- No expression of the tree is bound. -/
def Scope.Spares (tree : Tree) (scope : Scope) : Prop :=
  ∀ node, tree.holds (·.isExpression) node = true → scope.find? node = none

namespace Tree

/-- No expression is bound in the scope of the judgement, and to settle it binds
none. -/
def Sparing (tree : Tree) : Judgement → Prop
  | .synth scope _ => scope.Spares tree
  | .check scope node expected =>
    scope.Spares tree ∧ (tree.innerScope scope node expected).Spares tree

theorem Stays.sparing {tree : Tree} {scope : Scope} {judgement : Judgement}
    (h : tree.Stays scope judgement) (hscope : scope.Spares tree) :
    tree.Sparing judgement := by
  cases judgement with
  | synth inner node =>
      obtain rfl := h
      exact hscope
  | check inner node expected =>
      obtain ⟨rfl, hfunction⟩ := h
      refine ⟨hscope, ?_⟩
      rwa [innerScope_of_not_isFunction _ _ hfunction]

theorem Sparing.always_rule {tree : Tree} (wf : tree.WellFormed)
    {judgement : Judgement} (h : tree.Sparing judgement) :
    (tree.rule judgement).Always tree.Sparing := by
  cases judgement with
  | synth scope node =>
      exact (stays_synthRule scope node wf).mono fun _ hstays =>
        hstays.sparing h
  | check scope node expected =>
      exact (stays_checkRule scope node wf expected).mono fun _ hstays =>
        hstays.sparing h.2

/-- All that is asked for to settle a judgement that binds no expression binds
none. -/
theorem Sparing.of_settleNoting {tree : Tree} (wf : tree.WellFormed)
    {limit room : Nat} {busy : List NodeId} {judgement : Judgement}
    (h : tree.Sparing judgement) {diary diary' : Diary} {ty : Ty}
    (hrun : (tree.settleNoting limit room busy judgement).run diary =
      .ok (ty, diary')) :
    ∀ call ∈ diary'.calls, call ∈ diary.calls ∨ tree.Sparing call.judgement :=
  fun call hcall =>
    (tree.settleNoting_asks (fun _ hspares => Sparing.always_rule wf hspares) h
      hrun call hcall).imp_right And.left

end Tree

/-- The call is not answered with a recursion error, and binds no expression. -/
structure Call.Quiet (tree : Tree) (call : Call) : Prop where
  calm : call.answer.isRecursion = false
  spares : tree.Sparing call.judgement

namespace Tree

/-! ### What the rules conclude from calls that memory supports -/

section Follows

variable {base : Nat} {calls : List Call} {scope : Scope} {node : NodeId}
  {expected ty : Ty} (hexpected : expected.isError = false)

/-- A type that is found for an operator was found by a check of the
operator. -/
theorem follows_synthBinary {op : Operator}
    (h : (synthBinary scope node op).Follows base calls ty)
    (hty : ty.isError = false) :
    ∃ expected, expected.isError = false ∧
      ⟨.check scope node expected, ty⟩ ∈ calls := by
  cases op with
  | mod =>
      obtain rfl : _ = ty := h
      cases hty
  | _ =>
      obtain ⟨found, hfound, rfl⟩ := h
      exact ⟨_, rfl, hfound⟩

include hexpected

/-- A comparison succeeds if the type that was found is the expected one. -/
theorem follows_checkBySynthesis
    (h : (checkBySynthesis scope node expected).Follows base calls ty) :
    ∃ actual, ⟨.synth scope node, actual⟩ ∈ calls ∧
      (!ty.isError) = actual.same expected := by
  obtain ⟨actual, hactual, h⟩ := h
  refine ⟨actual, hactual, ?_⟩
  change Rule.Follows base calls (if actual.same expected then _ else _) ty at h
  cases hsame : actual.same expected with
  | true =>
      rw [hsame] at h
      obtain rfl : expected = ty := h
      rw [hexpected, Bool.not_false]
  | false =>
      rw [hsame] at h
      obtain rfl : _ = ty := h
      rfl

/-- A conditional succeeds if all its parts have the right types. -/
theorem follows_checkConditional {condition thenBranch elseBranch : NodeId}
    (h : (checkConditional scope node condition thenBranch elseBranch
      expected).Follows base calls ty) :
    ∃ conditionTy thenTy elseTy, ⟨.synth scope condition, conditionTy⟩ ∈ calls ∧
      ⟨.synth scope thenBranch, thenTy⟩ ∈ calls ∧
      ⟨.synth scope elseBranch, elseTy⟩ ∈ calls ∧
      (!ty.isError) =
        (conditionTy.isBoolean && thenTy.same expected &&
          elseTy.same expected) := by
  obtain ⟨conditionTy, hcondition, thenTy, hthen, elseTy, helse, h⟩ := h
  refine ⟨conditionTy, thenTy, elseTy, hcondition, hthen, helse, ?_⟩
  change Rule.Follows base calls (if !conditionTy.isBoolean then _ else
    if !thenTy.same expected then _ else if !elseTy.same expected then _ else _)
      ty at h
  cases hboolean : conditionTy.isBoolean with
  | false =>
      rw [hboolean] at h
      obtain rfl : _ = ty := h
      rfl
  | true =>
      cases hthenSame : thenTy.same expected with
      | false =>
          rw [hboolean, hthenSame] at h
          obtain rfl : _ = ty := h
          rfl
      | true =>
          cases helseSame : elseTy.same expected with
          | false =>
              rw [hboolean, hthenSame, helseSame] at h
              obtain rfl : _ = ty := h
              rfl
          | true =>
              rw [hboolean, hthenSame, helseSame] at h
              obtain rfl : expected = ty := h
              rw [hexpected]
              rfl

/-- An operator succeeds if both checks of its operands do. -/
theorem follows_checkBinary {op : Operator} {lhs rhs : NodeId}
    (hcalm : ∀ call ∈ calls, call.answer.isRecursion = false)
    (h : (checkBinary scope node op lhs rhs expected).Follows base calls ty) :
    ∃ left right, ⟨.check scope lhs expected, left⟩ ∈ calls ∧
      ⟨.check scope rhs expected, right⟩ ∈ calls ∧
      (!ty.isError) = (left.same expected && right.same expected) := by
  obtain ⟨left, hleft, h⟩ := h
  change Rule.Follows base calls (if left.isRecursion then _ else _) ty at h
  rw [hcalm _ hleft] at h
  obtain ⟨right, hright, h⟩ := h
  change Rule.Follows base calls (if right.isRecursion then _ else
    if left.same expected && right.same expected then _ else _) ty at h
  rw [hcalm _ hright] at h
  refine ⟨left, right, hleft, hright, ?_⟩
  cases hboth : left.same expected && right.same expected with
  | true =>
      rw [hboth] at h
      obtain rfl : expected = ty := h
      rw [hexpected, Bool.not_false]
  | false =>
      rw [hboth] at h
      obtain ⟨_, -, _, -, rfl⟩ := h
      rfl

end Follows

section Rules

variable {tree : Tree} {pass : Pass} {base : Nat} {calls : List Call}
  {scope : Scope} {node : NodeId} {expected ty : Ty}
  (hcalls : ∀ call ∈ calls, pass.Supports tree call.judgement call.answer)

include hcalls

/-- An operand has the expected type if the check of it says so. -/
theorem check_of_mem {lhs : NodeId} {left : Ty}
    (hlhs : tree.holds (·.isExpression) lhs = true)
    (hexpected : expected.isError = false)
    (h : ⟨.check scope lhs expected, left⟩ ∈ calls) :
    tree.Decides pass.cache expected lhs (left.same expected) ∧ ∀ operand,
      tree.Operand lhs operand →
      (pass.recalled? operand expected).isSome = true := by
  obtain ⟨hdecided, hsame⟩ := hcalls _ h hlhs hexpected
  have hverdict : left.same expected = !left.isError := by
    cases hleft : left.isError with
    | false => exact hsame hleft
    | true =>
        rw [Bool.not_true, Bool.eq_false_iff]
        intro heq
        rw [Ty.isError_eq_of_same heq, hexpected] at hleft
        cases hleft
  rw [hverdict]
  exact ⟨hdecided.decides, hdecided.operands⟩

/-- Where all answers agree with memory, the outcome of a check is decided, and
the checks of operands are known. -/
theorem decides_of_follows (wf : tree.WellFormed)
    (hcalm : ∀ call ∈ calls, call.answer.isRecursion = false)
    (hnode : tree.holds (·.isExpression) node = true)
    (hexpected : expected.isError = false)
    (h : (tree.checkRule scope node expected).Follows base calls ty) :
    tree.Decides pass.cache expected node (!ty.isError) ∧
    ∀ operand, tree.Operand node operand →
      operand = node ∨ (pass.recalled? operand expected).isSome = true := by
  obtain ⟨construct, hconstruct, hexpression⟩ :=
    (holds_iff tree _ node).mp hnode
  have hpart : ∀ {id}, (Role.expression, id) ∈ construct.parts →
      tree.holds (·.isExpression) id = true :=
        wf.holds_part .expression hconstruct
  rw [checkRule, hconstruct] at h
  cases construct with
  | binary op lhs rhs =>
      obtain ⟨left, right, hleft, hright, hverdict⟩ :=
        follows_checkBinary hexpected hcalm h
      obtain ⟨hlhs, hlhs'⟩ :=
        check_of_mem hcalls (hpart (by simp [Construct.parts])) hexpected hleft
      obtain ⟨hrhs, hrhs'⟩ :=
        check_of_mem hcalls (hpart (by simp [Construct.parts])) hexpected hright
      rw [hverdict]
      refine ⟨.binary hconstruct hlhs hrhs, fun operand hoperand => Or.inr ?_⟩
      exact ((operand_binary_iff hconstruct).mp hoperand).elim (hlhs' operand)
        (hrhs' operand)
  | conditional condition thenBranch elseBranch =>
      obtain ⟨_, _, _, hcondition, hthen, helse, hverdict⟩ :=
        follows_checkConditional hexpected h
      rw [hverdict]
      refine ⟨.conditional hconstruct
        (hcalls _ hcondition (hpart (by simp [Construct.parts]))).1
        (hcalls _ hthen (hpart (by simp [Construct.parts]))).1
        (hcalls _ helse (hpart (by simp [Construct.parts]))).1,
        fun operand hoperand => Or.inl ?_⟩
      exact (operand_iff hconstruct (by simp)).mp hoperand
  | reference | join | stringLit | boolLit | intLit | call =>
      obtain ⟨actual, hactual, hverdict⟩ := follows_checkBySynthesis hexpected h
      rw [hverdict]
      have hty := (hcalls _ hactual hnode).1
      refine ⟨.compared hconstruct rfl hty, fun operand hoperand => Or.inl ?_⟩
      exact (operand_iff hconstruct (by simp)).mp hoperand
  | _ => cases hexpression

/-- A type that is found for an operator or a conditional was found by a
check. -/
theorem hasDecided_of_follows {construct : Construct}
    (hconstruct : tree.construct node = .ok construct)
    (hexpression : construct.isExpression = true)
    (hcompared : construct.isCompared = false) (hty : ty.isError = false)
    (h : (tree.synthRule scope node).Follows base calls ty) :
    pass.HasDecided tree ty node true := by
  have hnode : tree.holds (·.isExpression) node = true :=
    (holds_iff tree _ node).mpr ⟨construct, hconstruct, hexpression⟩
  rw [synthRule, hconstruct] at h
  cases construct with
  | binary op lhs rhs =>
      obtain ⟨expected, hexpected, hcheck⟩ := follows_synthBinary h hty
      obtain ⟨hdecided, hsame⟩ := hcalls _ hcheck hnode hexpected
      rw [hty] at hdecided
      exact hdecided.congr (Ty.same_symm (hsame hty))
  | conditional condition thenBranch elseBranch =>
      obtain rfl : _ = ty := h
      cases hty
  | function | predicate => cases hexpression
  | _ => cases hcompared

end Rules

end Tree

/-! ### Passes -/

/-- All that a pass has noted and all that it remembers agrees with its
memory. -/
structure Diary.Coherent (tree : Tree) (diary : Diary) : Prop where
  noted : ∀ call ∈ diary.calls,
    diary.pass.Supports tree call.judgement call.answer
  memory : diary.pass.Remembers (diary.pass.Supports tree)

namespace Diary.Coherent

variable {tree : Tree} {diary : Diary}

theorem of_eq (h : diary.Coherent tree) {pass : Pass}
    (hcache : pass.cache = diary.pass.cache)
    (hmemo : pass.memo = diary.pass.memo) :
    Diary.Coherent tree ⟨pass, diary.calls⟩ := by
  have hwithin : diary.pass.Within pass := .of_eq hcache hmemo
  have hmemory := h.memory.mono fun _ _ hsupports => hsupports.mono hwithin
  refine ⟨fun call hcall => (h.noted call hcall).mono hwithin, ?_, ?_⟩
  · rw [hcache]
    exact hmemory.cache
  · simp only [Pass.outcomes, hmemo]
    exact hmemory.memo

theorem note (h : diary.Coherent tree) {judgement : Judgement} {ty : Ty}
    (hsupports : diary.pass.Supports tree judgement ty) :
    Diary.Coherent tree ⟨diary.pass, ⟨judgement, ty⟩ :: diary.calls⟩ :=
  ⟨List.forall_mem_cons.mpr ⟨hsupports, h.noted⟩, h.memory⟩

theorem record (h : diary.Coherent tree) {judgement : Judgement} {ty : Ty}
    (hwithin : diary.pass.Within (diary.pass.record judgement ty))
    (hsupports : (diary.pass.record judgement ty).Supports tree judgement ty) :
    Diary.Coherent tree ⟨diary.pass.record judgement ty, diary.calls⟩ :=
  ⟨fun call hcall => (h.noted call hcall).mono hwithin,
    (h.memory.mono fun _ _ hold => hold.mono hwithin).record hsupports⟩

end Diary.Coherent

namespace Tree

variable {tree : Tree}

/-- What a pass knows agrees with its memory, as no expression is bound. -/
theorem supports_of_known {pass : Pass}
    (hmemory : pass.Remembers (pass.Supports tree)) {judgement : Judgement}
    (hspares : tree.Sparing judgement) {ty : Ty}
    (h : pass.known? judgement = some ty) :
    pass.Supports tree judgement ty := by
  rcases hmemory.known h with hbound | ⟨twin, htwin, hsupports⟩
  · cases judgement with
    | synth scope node =>
        intro hnode
        have hnone := hspares node hnode
        rw [show scope.find? node = some ty from hbound] at hnone
        cases hnone
    | check => cases hbound
  · exact hsupports.of_twin htwin

/-- Until the type of a node has been worked out there is none in memory, so
nothing is replaced. -/
theorem within_record {limit room : Nat} {busy : List NodeId}
    {judgement : Judgement} {diary last : Diary} {ty : Ty}
    (h : tree.Found busy diary.pass judgement none diary.pass)
    (hrule : ((tree.rule judgement).run (fun _ => Diary.inPass Pass.mint)
      (tree.settleNoting limit room (judgement.enter busy))).run diary =
        .ok (ty, last)) :
    last.pass.Within (last.pass.record judgement ty) := by
  cases h with
  | @free scope node hlookup hbusy =>
      have hpass := (Mirrors.rule (fun _ => Diary.mirrors_inPass Pass.mint)
        (tree.mirrors_settleNoting limit room _) _).run_eq hrule
      have hgrows : diary.pass.Grows tree.size (node :: busy) last.pass :=
        Rule.run_relates .refl .trans (fun _ => .of_cache_eq rfl rfl)
          (fun _ _ _ _ hpremise => tree.settle_grows hpremise) hpass
      have hnone : last.pass.cache[node]? = none :=
        (hgrows.spared node List.mem_cons_self).trans
          (Option.or_eq_none_iff.mp hlookup).2
      exact .recordType hnone ty
  | recalled => exact .recordCheck _ _ ty

/-- What a rule concludes from answers that agree with memory does so too, once
it is recorded. -/
theorem supports_record (wf : tree.WellFormed) {base : Nat} {diary : Diary}
    {judgement : Judgement} {ty : Ty} (hdiary : diary.Coherent tree)
    (hcalm : ∀ call ∈ diary.calls, call.answer.isRecursion = false)
    (hwithin : diary.pass.Within (diary.pass.record judgement ty))
    (h : (tree.rule judgement).Follows base diary.calls ty) :
    (diary.pass.record judgement ty).Supports tree judgement ty := by
  cases judgement with
  | synth scope node =>
      intro hnode
      obtain ⟨construct, hconstruct, hexpression⟩ :=
        (holds_iff tree _ node).mp hnode
      refine ⟨by rw [Pass.record, Pass.cache_recordType, if_pos rfl], ?_⟩
      intro construct' hconstruct' hcompared hty
      obtain rfl := Except.ok.inj (hconstruct.symm.trans hconstruct')
      exact (hasDecided_of_follows hdiary.noted hconstruct hexpression hcompared
        hty h).mono hwithin
  | check scope node expected =>
      intro hnode hexpected
      obtain ⟨hdecides, hoperands⟩ :=
        decides_of_follows hdiary.noted wf hcalm hnode hexpected h
      have hrecalled := diary.pass.isSome_recalled?_recordCheck node expected ty
      refine ⟨⟨hdecides.mono hwithin.cache, hrecalled,
        fun operand hoperand => ?_⟩, fun hty => ?_⟩
      · rcases hoperands operand hoperand with rfl | hknown
        · exact hrecalled
        · exact hwithin.isSome_recalled? hknown
      · obtain rfl :=
          ((checkRule_outcome scope node tree expected).follows h).resolve_right
          (by simp [hty])
        exact Ty.same_refl ty

/-- The memory of a pass stays coherent, as long as no answer is a recursion
error and no expression is bound. The induction is on the room. -/
theorem settleNoting_coherent (wf : tree.WellFormed) {limit room : Nat}
    {busy : List NodeId} {judgement : Judgement} {diary diary' : Diary}
    {ty : Ty}
    (hrun : (tree.settleNoting limit room busy judgement).run diary =
      .ok (ty, diary'))
    (hquiet : ∀ call ∈ diary'.calls, call.Quiet tree)
    (hdiary : diary.Coherent tree) :
    diary'.Coherent tree := by
  induction room using Nat.strongRecOn
    generalizing busy judgement diary ty diary' with
  | ind room ih =>
      obtain ⟨hcalm, hspares⟩ := hquiet _ (tree.settleNoting_grows hrun).2
      cases tree.answered_of_settleNoting hrun with
      | found h =>
          obtain ⟨hty, hpass⟩ := h.known?_eq hcalm
          have hnoted :=
            hdiary.note (supports_of_known hdiary.memory hspares hty)
          rcases hpass with rfl | rfl
          · exact hnoted
          · exact hnoted.of_eq rfl rfl
      | deep h hty =>
          rw [hty] at hcalm
          cases hcalm
      | @ruled less ty last h hrule =>
          have hkept : Diary.KeptBy (Call.Quiet tree) (·.Coherent tree)
              (tree.settleNoting limit less (judgement.enter busy)) :=
            fun premise before found after hpremise =>
              ⟨tree.settleNoting_grows hpremise,
                ih less (Nat.lt_succ_self less) hpremise⟩
          have hlastQuiet :=
            fun call hcall => hquiet call (List.mem_cons_of_mem _ hcall)
          have hlast : last.Coherent tree :=
            (hkept.run (fun _ hcoherent => hcoherent.of_eq rfl rfl) hrule).2
              hlastQuiet hdiary
          have hfollows : (tree.rule judgement).Follows 0 last.calls ty :=
            Rule.follows_of_run (fun _ _ _ _ hpremise =>
              (hkept _ _ _ _ hpremise).1) (Nat.zero_le _) hrule
          have hwithin := within_record h hrule
          have hsupports := supports_record wf hlast
            (fun call hcall => (hlastQuiet call hcall).calm) hwithin hfollows
          exact (hlast.record hwithin hsupports).note hsupports

end Tree

end ConceptLang
