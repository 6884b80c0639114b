import ConceptLang.Proofs.Memory
import ConceptLang.Proofs.Repetition
import ConceptLang.Proofs.Sameness

/-!
# Checks that are made twice

The outcome of a check is kept once its rule has ended, so the same check made
again is found in memory. What is found there is the oldest outcome for the node
and the expected type, and that need not be the outcome of the first call. Along
links that form a cycle a check can come back to itself; the inner check ends
first, and its outcome is the older one. Nothing keeps watch over checks as it
is done for types that are being worked out.

A check that succeeds has asked for successes only, so all that it has added to
memory is successes, and it succeeds again.
-/

namespace ConceptLang

/-! ### Outcomes in memory -/

namespace Pass

variable (pass : Pass) (node : NodeId)

/-- The outcomes of checks that are kept for a node, each with the expected
type, the oldest first. -/
def outcomes : List (Ty × Ty) :=
  (pass.memo[node]?).getD []

theorem recalled?_eq (expected : Ty) :
    pass.recalled? node expected =
      ((pass.outcomes node).find? (·.1.same expected)).map (·.2) := rfl

theorem outcomes_recordCheck (expected outcome : Ty) (other : NodeId) :
    (pass.recordCheck node expected outcome).outcomes other =
      if other = node then pass.outcomes node ++ [(expected, outcome)]
      else pass.outcomes other := by
  simp only [outcomes, recordCheck, Std.TreeMap.getElem?_insert,
    Nat.compare_eq_eq, eq_comm (a := node)]
  split <;> rfl

/-- All outcomes that the second pass remembers more than the first are
successes. -/
def Confirms (pass pass' : Pass) : Prop :=
  ∀ node, ∃ added, pass'.outcomes node = pass.outcomes node ++ added ∧
    ∀ entry ∈ added, entry.2 = entry.1

variable {pass} {pass' pass'' : Pass}

theorem Confirms.of_memo_eq (h : pass'.memo = pass.memo) :
    pass.Confirms pass' := by
  intro node
  refine ⟨[], ?_, by simp⟩
  rw [outcomes, outcomes, h, List.append_nil]

theorem Confirms.trans (h : pass.Confirms pass') (h' : pass'.Confirms pass'') :
    pass.Confirms pass'' := by
  intro node
  obtain ⟨added, heq, hsame⟩ := h node
  obtain ⟨added', heq', hsame'⟩ := h' node
  refine ⟨added ++ added', by rw [heq', heq, List.append_assoc],
    fun entry hentry => ?_⟩
  exact (List.mem_append.mp hentry).elim (hsame entry) (hsame' entry)

theorem Confirms.recordCheck (h : pass.Confirms pass') (node : NodeId)
    (expected : Ty) :
    pass.Confirms (pass'.recordCheck node expected expected) := by
  intro other
  obtain ⟨added, heq, hsame⟩ := h other
  rw [outcomes_recordCheck]
  split
  · next hother =>
      subst hother
      refine ⟨added ++ [(expected, expected)], by rw [heq, List.append_assoc],
        fun entry hentry => ?_⟩
      rcases List.mem_append.mp hentry with hentry | hentry
      · exact hsame entry hentry
      · rw [List.mem_singleton.mp hentry]
  · exact ⟨added, heq, hsame⟩

end Pass

/-- A successful run has only had successful answers, so it relates the passes
before and after it if successful answers do. -/
theorem Rule.Repeats.run_relates {α : Type} {fails : α → Prop}
    {rel : Pass → Pass → Prop} (hrefl : ∀ pass, rel pass pass)
    (htrans : ∀ {pass pass' pass''}, rel pass pass' → rel pass' pass'' →
      rel pass pass'')
    (hmint : ∀ pass : Pass, rel pass { pass with stamps := pass.stamps + 1 })
    {settle : Judgement → PassM Ty}
    (hsettle : ∀ judgement pass ty pass',
      (settle judgement).run pass = .ok (ty, pass') →
      ty.isError = false → rel pass pass')
    {rule rule' : Rule α} (h : rule.Repeats fails rule') {pass pass' : Pass}
    {a : α}
    (hrun : (rule.run (fun _ => Pass.mint) settle).run pass = .ok (a, pass'))
    (ha : ¬ fails a) :
    rel pass pass' := by
  induction rule generalizing rule' pass with
  | conclude result =>
      cases hrun
      exact hrefl _
  | defect error => cases hrun
  | premise judgement next ih =>
      rw [run_premise_apply] at hrun
      obtain ⟨⟨ty, middle⟩, hfirst, hnext⟩ := bind_eq_ok_iff.mp hrun
      rcases h with h | ⟨next', rfl, h⟩
      · exact absurd ((h ty).run hnext) ha
      · cases hty : ty.isError with
        | true => exact absurd (((h ty).1 hty).run hnext) ha
        | false =>
            exact htrans (hsettle judgement pass ty middle hfirst hty)
              (ih ty ((h ty).2 hty) hnext)
  | stamp decl next ih =>
      rw [run_stamp_apply] at hrun
      obtain ⟨⟨n, middle⟩, hfirst, hnext⟩ := bind_eq_ok_iff.mp hrun
      rcases h with h | ⟨next', rfl, h⟩
      · exact absurd ((h n).run hnext) ha
      · cases hfirst
        exact htrans (hmint pass) (ih _ (h _) hnext)

namespace Tree

/-! ### Outcomes of the rules of checking -/

section Rules

variable (scope : Scope) (node : NodeId)

theorem checkBinary_outcome (op : Operator) (lhs rhs : NodeId) (expected : Ty) :
    (checkBinary scope node op lhs rhs expected).Doomed
      (fun ty => ty = expected ∨ ty.isError = true) := by
  intro left
  change Rule.Doomed _ (if _ then _ else _)
  split
  · next hleft => exact Or.inr (Ty.isError_of_isRecursion hleft)
  · intro right
    change Rule.Doomed _ (if _ then _ else _)
    split
    · next hright => exact Or.inr (Ty.isError_of_isRecursion hright)
    · split
      · exact Or.inl rfl
      · exact fun _ _ => Or.inr rfl

theorem checkFunction_outcome (name : String) (body : NodeId) (expected : Ty) :
    (checkFunction scope node name body expected).Doomed
      (fun ty => ty = expected ∨ ty.isError = true) := by
  cases expected with
  | function params result =>
      intro ty
      cases ty with
      | error e => exact Or.inr rfl
      | _ => exact Or.inl rfl
  | _ => exact Or.inr rfl

theorem checkConditional_outcome (condition thenBranch elseBranch : NodeId)
    (expected : Ty) :
    (checkConditional scope node condition thenBranch elseBranch
      expected).Doomed (fun ty => ty = expected ∨ ty.isError = true) := by
  intro conditionTy thenTy elseTy
  change Rule.Doomed _ (if _ then _ else _)
  split
  · exact Or.inr rfl
  · split
    · exact Or.inr rfl
    · split
      · exact Or.inr rfl
      · exact Or.inl rfl

theorem checkBySynthesis_outcome (expected : Ty) :
    (checkBySynthesis scope node expected).Doomed
      (fun ty => ty = expected ∨ ty.isError = true) := by
  intro actual
  change Rule.Doomed _ (if _ then _ else _)
  split
  · exact Or.inl rfl
  · exact Or.inr rfl

/-- Whatever the answers to its premises are, a rule of checking comes to the
expected type or to a type error. -/
theorem checkRule_outcome (tree : Tree) (expected : Ty) :
    (tree.checkRule scope node expected).Doomed
      (fun ty => ty = expected ∨ ty.isError = true) := by
  rw [checkRule]
  cases tree.construct node with
  | error e => trivial
  | ok construct =>
      cases construct with
      | binary op lhs rhs =>
          exact checkBinary_outcome scope node op lhs rhs expected
      | function name params signature body =>
          exact checkFunction_outcome scope node name.name body expected
      | predicate name params body => exact Or.inr rfl
      | conditional condition thenBranch elseBranch =>
          exact checkConditional_outcome scope node condition thenBranch
            elseBranch expected
      | _ => exact checkBySynthesis_outcome scope node expected

end Rules

/-! ### Passes -/

section Passes

variable (tree : Tree)

/-- A judgement that succeeds adds only successes to memory. The induction is on
the room. -/
theorem settle_confirms {limit room : Nat} {busy : List NodeId}
    {judgement : Judgement} {pass pass' : Pass} {ty : Ty}
    (hrun : (tree.settle limit room busy judgement).run pass = .ok (ty, pass'))
    (hty : ty.isError = false) : pass.Confirms pass' := by
  induction room using Nat.strongRecOn
    generalizing busy judgement pass ty pass' with
  | ind room ih =>
      rcases tree.settle_cases hrun with hsettled | ⟨middle, hsettled, hcase⟩
      · cases tree.settled?_eq_ok_iff.mp hsettled <;> exact .of_memo_eq rfl
      · obtain rfl := (tree.settled?_eq_ok_iff.mp hsettled).eq_of_none
        rcases hcase with ⟨-, rfl, -⟩ | ⟨less, last, rfl, rfl, hrule⟩
        · cases hty
        · have hconfirms : middle.Confirms last :=
            ((Extends.refl tree).repeats_rule judgement).run_relates
              (fun _ => .of_memo_eq rfl) .trans (fun _ => .of_memo_eq rfl)
              (fun premise before found after hpremise hfound =>
                ih less (Nat.lt_succ_self less) hpremise hfound) hrule
                (by simp [hty])
          cases judgement with
          | synth scope node => exact hconfirms
          | check scope node expected =>
              have houtcome :=
                (checkRule_outcome scope node tree expected).run hrule
              obtain rfl := houtcome.resolve_right (by simp [hty])
              exact hconfirms.recordCheck node ty

/-- A check made twice. The second call returns and changes nothing: it makes no
inference. If the first one succeeded, the second one does, with the same type.
And if memory holds no more than one outcome for the node and the expected type,
the second answer is the first. -/
theorem check_again {options : Options} {scope : Scope} {node : NodeId}
    {expected ty : Ty} {pass pass' : Pass}
    (h : (tree.check options scope node expected).run pass = .ok (ty, pass')) :
    ∃ again,
      (tree.check options scope node expected).run pass' = .ok (again, pass') ∧
      (ty.isError = false → again.isError = false ∧ ty.same again = true) ∧
      ((pass'.outcomes node).countP (·.1.same expected) ≤ 1 → again = ty) := by
  rcases tree.settle_cases h with hsettled | ⟨middle, hsettled, hcase⟩
  · -- The first call found its answer in memory and left it there.
    have hsettled' := hsettled
    rw [settled?_check, Except.ok.injEq, Prod.mk.injEq] at hsettled'
    obtain ⟨-, rfl⟩ := hsettled'
    exact ⟨ty, h, fun hty => ⟨hty, Ty.same_refl ty⟩, fun _ => rfl⟩
  · have hnone := hsettled
    rw [settled?_check, Except.ok.injEq, Prod.mk.injEq] at hnone
    obtain ⟨hnone, rfl⟩ := hnone
    rcases hcase with ⟨-, rfl, rfl⟩ | ⟨less, last, -, hlast, hrule⟩
    · exact ⟨_, h, fun hty => ⟨hty, Ty.same_refl _⟩, fun _ => rfl⟩
    · have houtcomes :
          pass'.outcomes node = last.outcomes node ++ [(expected, ty)] := by
        rw [hlast, Pass.record, Pass.outcomes_recordCheck, if_pos rfl]
      obtain ⟨entry, hentry⟩ : ∃ entry,
          (pass'.outcomes node).find? (·.1.same expected) = some entry := by
        rw [← Option.isSome_iff_exists, List.find?_isSome]
        exact ⟨(expected, ty), by simp [houtcomes], Ty.same_refl expected⟩
      have hagain : (tree.check options scope node expected).run pass' =
          .ok (entry.2, pass') := by
        refine tree.settle_of_settled ?_
        rw [settled?_check, Pass.recalled?_eq, hentry]
        rfl
      refine ⟨entry.2, hagain, fun hty => ?_, fun hcount => ?_⟩
      · -- The entry is new, since there was none before, and new entries are
        -- successes.
        obtain rfl :=
          ((checkRule_outcome scope node tree expected).run hrule).resolve_right
          (by simp [hty])
        obtain ⟨added, hadded, hsuccess⟩ := tree.settle_confirms h hty node
        have hsame : entry.1.same ty = true := by
          simpa using List.find?_some hentry
        rw [hadded, List.find?_append] at hentry
        rw [Pass.recalled?_eq, Option.map_eq_none_iff] at hnone
        rw [hnone, Option.none_or] at hentry
        rw [hsuccess entry (List.mem_of_find?_eq_some hentry)]
        refine ⟨?_, Ty.same_symm hsame⟩
        cases herror : entry.1.isError with
        | false => rfl
        | true => exact absurd (Ty.isError_of_same hsame herror) (by simp [hty])
      · -- The own entry is the last one, so no other one matches.
        have hown : [(expected, ty)].find? (·.1.same expected) =
          some (expected, ty) := by simp
        have hothers : (last.outcomes node).find? (·.1.same expected) =
            none := by
          rw [houtcomes, List.countP_append] at hcount
          exact List.find?_eq_none.mpr
            (List.countP_eq_zero.mp (by simpa using hcount))
        rw [houtcomes, List.find?_append, hothers, Option.none_or, hown]
          at hentry
        cases hentry
        rfl

end Passes

/-- A model in which the argument of a call is the variable that the call
defines. -/
def selfCallModel : Tree :=
  let named (name : String) : Ident := ⟨name, Span.unknown⟩
  ofConstructs [
    .keywordType "Integer", .keywordType "Integer", .intLit 1,
    .param (named "x"),
    .function (named "f") [3] [0, 1] 2, .reference "v" (.resolved 8),
    .reference "f" (.resolved 4), .call 6 [5], .var (named "v") none (some 7)]
    [4, 8]

theorem check_again_selfCallModel : ∃ ty again pass,
    (selfCallModel.check {} Scope.empty 5 (.integer none)).run {} =
      .ok (ty, pass) ∧
    (selfCallModel.check {} Scope.empty 5 (.integer none)).run pass =
      .ok (again, pass) ∧
    pass.counters.inferences = 7 := by
  have hrun : (do
      let out ← (selfCallModel.check {} Scope.empty 5 (.integer none)).run {}
      return out.2.counters.inferences) = .ok 7 := by decide +kernel
  obtain ⟨⟨ty, pass⟩, hfirst, hrun⟩ := bind_eq_ok_iff.mp hrun
  obtain ⟨again, hagain, -⟩ := selfCallModel.check_again hfirst
  exact ⟨ty, again, pass, hfirst, hagain, Except.ok.inj hrun⟩

/-- The argument of the call is checked inside of its own check, and fails there
because its type depends on itself; the outer check then fails because of that.
The second call finds the inner failure, which reads differently. -/
theorem check_twice_selfCallModel : ∃ ty again pass pass',
    (selfCallModel.check {} Scope.empty 5 (.integer none)).run {} =
      .ok (ty, pass) ∧
    (selfCallModel.check {} Scope.empty 5 (.integer none)).run pass =
      .ok (again, pass') ∧
    ty.isError = true ∧ again.isError = true ∧ ty.same again = false := by
  have hruns : (do
      let out ← (selfCallModel.check {} Scope.empty 5 (.integer none)).run {}
      let out' ← (selfCallModel.check {} Scope.empty 5 (.integer none)).run
        out.2
      return (out.1.isError, out'.1.isError, out.1.same out'.1)) =
        .ok (true, true, false) := by
    decide +kernel
  obtain ⟨⟨ty, pass⟩, hfirst, hruns⟩ := bind_eq_ok_iff.mp hruns
  obtain ⟨⟨again, pass'⟩, hsecond, hruns⟩ := bind_eq_ok_iff.mp hruns
  have hresult := Except.ok.inj hruns
  rw [Prod.mk.injEq, Prod.mk.injEq] at hresult
  exact ⟨ty, again, pass, pass', hfirst, hsecond, hresult⟩

end Tree

end ConceptLang
