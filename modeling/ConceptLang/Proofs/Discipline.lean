import ConceptLang.Proofs.RuleLogic

/-!
# Disciplines of judgements

What a pass remembers was settled in one situation and is used in others: a type
is kept without its scope, the outcome of a check for all expected types that
are the same. A *policy* says which judgements are made at all and which answers
they may get, in such a way that this reuse does no harm. A *discipline* is a
policy that every rule keeps to and that allows every judgement to fail. A pass
then keeps to it too, whatever it remembers already (`Tree.Discipline.settle`):
a judgement of the discipline is settled, the answer is one that the discipline
allows, and all that is remembered keeps to the discipline.
-/

namespace ConceptLang

/-! ### What is remembered of a judgement -/

namespace Pass

variable (pass : Pass) (node : NodeId)

theorem cache_recordType (ty : Ty) (other : NodeId) :
    (pass.recordType node ty).cache[other]? =
      if other = node then some ty else pass.cache[other]? := by
  simp only [recordType, store, Std.TreeMap.getElem?_insert, Nat.compare_eq_eq,
    eq_comm (a := node)]

theorem mem_memo_recordCheck {expected outcome : Ty} {other : NodeId}
    {entries : List (Ty × Ty)}
    (h : (pass.recordCheck node expected outcome).memo[other]? = some entries)
    {entry : Ty × Ty} (hentry : entry ∈ entries) :
    (∃ old, pass.memo[other]? = some old ∧ entry ∈ old) ∨
      other = node ∧ entry = (expected, outcome) := by
  simp only [recordCheck, Std.TreeMap.getElem?_insert] at h
  split at h
  · next heq =>
      obtain rfl := Nat.compare_eq_eq.mp heq
      cases h
      rcases List.mem_append.mp hentry with hold | hnew
      · cases hentries : pass.memo[node]? with
        | none => simp [hentries] at hold
        | some old => exact Or.inl ⟨old, rfl, by simpa [hentries] using hold⟩
      · exact Or.inr ⟨rfl, List.mem_singleton.mp hnew⟩
  · exact Or.inl ⟨entries, h, hentry⟩

theorem mem_memo_of_recalled {expected ty : Ty}
    (h : pass.recalled? node expected = some ty) :
    ∃ entries entry, pass.memo[node]? = some entries ∧ entry ∈ entries ∧
      entry.1.same expected = true ∧ entry.2 = ty := by
  obtain ⟨entry, hfind, rfl⟩ := Option.map_eq_some_iff.mp h
  have hsame := List.find?_some hfind
  have hmem := List.mem_of_find?_eq_some hfind
  cases hentries : pass.memo[node]? with
  | none => simp [hentries] at hmem
  | some entries =>
      rw [hentries, Option.getD_some] at hmem
      exact ⟨entries, entry, rfl, hmem, hsame, rfl⟩

end Pass

namespace Tree

/-! ### One judgement in a pass -/

section Settle

variable (tree : Tree) {limit room : Nat} {busy : List NodeId}
  {judgement : Judgement} {pass pass' : Pass} {ty : Ty}

theorem settled?_synth_of_lookup {scope : Scope} {node : NodeId}
    (h : pass.lookup scope node = some ty) :
    (tree.settled? busy (.synth scope node)).run pass =
      .ok (some ty, pass.countHit) := by
  rw [settled?, run_bind_of_ok (run_get pass), h]
  rfl

theorem settled?_synth_of_busy {scope : Scope} {node : NodeId}
    {construct : Construct} (h : pass.lookup scope node = none)
    (hbusy : node ∈ busy) (hconstruct : tree.construct node = .ok construct) :
    (tree.settled? busy (.synth scope node)).run pass =
      .ok (some (.fault node (.cyclic construct.label)), pass) := by
  rw [settled?, run_bind_of_ok (run_get pass), h]
  dsimp only
  rw [if_pos (List.contains_iff_mem.mpr hbusy), hconstruct]
  rfl

theorem settled?_synth_of_free {scope : Scope} {node : NodeId}
    (h : pass.lookup scope node = none) (hbusy : node ∉ busy) :
    (tree.settled? busy (.synth scope node)).run pass = .ok (none, pass) := by
  rw [settled?, run_bind_of_ok (run_get pass), h]
  dsimp only
  rw [if_neg fun hmem => hbusy (List.contains_iff_mem.mp hmem)]
  rfl

theorem settled?_check {scope : Scope} {node : NodeId} {expected : Ty} :
    (tree.settled? busy (.check scope node expected)).run pass =
      .ok (pass.recalled? node expected, pass) := rfl

/-- All the ways in which a judgement turns out to need no rule, or one. -/
inductive Found (tree : Tree) (busy : List NodeId) (pass : Pass) :
    Judgement → Option Ty → Pass → Prop where
  | known {scope : Scope} {node : NodeId} {ty : Ty}
      (h : pass.lookup scope node = some ty) :
      Found tree busy pass (.synth scope node) (some ty) pass.countHit
  | cyclic {scope : Scope} {node : NodeId} {construct : Construct}
      (h : pass.lookup scope node = none) (hbusy : node ∈ busy)
      (hconstruct : tree.construct node = .ok construct) :
      Found tree busy pass (.synth scope node)
        (some (.fault node (.cyclic construct.label))) pass
  | free {scope : Scope} {node : NodeId} (h : pass.lookup scope node = none)
      (hbusy : node ∉ busy) : Found tree busy pass (.synth scope node) none pass
  | recalled {scope : Scope} {node : NodeId} {expected : Ty} {known : Option Ty}
      (h : pass.recalled? node expected = known) :
      Found tree busy pass (.check scope node expected) known pass

theorem settled?_eq_ok_iff {known : Option Ty} :
    (tree.settled? busy judgement).run pass = .ok (known, pass') ↔
      tree.Found busy pass judgement known pass' := by
  constructor
  · intro h
    cases judgement with
    | synth scope node =>
        cases hlookup : pass.lookup scope node with
        | some ty =>
            rw [settled?_synth_of_lookup tree hlookup] at h
            cases h
            exact .known hlookup
        | none =>
            by_cases hbusy : node ∈ busy
            · cases hconstruct : tree.construct node with
              | error e =>
                  rw [settled?, run_bind_of_ok (run_get pass), hlookup] at h
                  dsimp only at h
                  rw [if_pos (List.contains_iff_mem.mpr hbusy), hconstruct] at h
                  cases h
              | ok construct =>
                  rw [settled?_synth_of_busy tree hlookup hbusy hconstruct] at h
                  cases h
                  exact .cyclic hlookup hbusy hconstruct
            · rw [settled?_synth_of_free tree hlookup hbusy] at h
              cases h
              exact .free hlookup hbusy
    | check scope node expected =>
        cases h
        exact .recalled rfl
  · intro h
    cases h with
    | known h => exact settled?_synth_of_lookup tree h
    | cyclic h hbusy hconstruct =>
        exact settled?_synth_of_busy tree h hbusy hconstruct
    | free h hbusy => exact settled?_synth_of_free tree h hbusy
    | recalled h =>
        subst h
        exact settled?_check tree

theorem Found.eq_of_none {tree : Tree}
    (h : tree.Found busy pass judgement none pass') :
    pass' = pass := by
  cases h <;> rfl

theorem settle_of_settled
    (h : (tree.settled? busy judgement).run pass = .ok (some ty, pass')) :
    (tree.settle limit room busy judgement).run pass = .ok (ty, pass') := by
  cases room <;> rw [settle, StateT.run_bind, h] <;> rfl

theorem settle_of_settled_error {e : TreeError}
    (h : (tree.settled? busy judgement).run pass = .error e) :
    (tree.settle limit room busy judgement).run pass = .error e := by
  cases room <;> rw [settle, StateT.run_bind, h] <;> rfl

theorem settle_zero
    (h : (tree.settled? busy judgement).run pass = .ok (none, pass')) :
    (tree.settle limit 0 busy judgement).run pass =
      .ok (.fault judgement.node (.tooDeep limit), pass') := by
  rw [settle, StateT.run_bind, h]
  rfl

theorem settle_succ
    (h : (tree.settled? busy judgement).run pass = .ok (none, pass')) :
    (tree.settle limit (room + 1) busy judgement).run pass =
      ((tree.rule judgement).run (fun _ => Pass.mint)
          (tree.settle limit room (judgement.enter busy))).run pass' >>=
        fun out => .ok (out.1, out.2.record judgement out.1) := by
  rw [settle, StateT.run_bind, h]
  rfl

/-- A judgement that needs a rule is answered with what the rule concludes. -/
theorem judge_of_rule {options : Options} {last : Pass}
    (hroom : options.maxDepth = room + 1)
    (h : (tree.settled? [] judgement).run pass = .ok (none, pass'))
    (hrule : ((tree.rule judgement).run (fun _ => Pass.mint)
      (tree.settle options.maxDepth room (judgement.enter []))).run pass' =
        .ok (ty, last)) :
    (tree.judge options judgement).run pass =
      .ok (ty, last.record judgement ty) := by
  have hjudge : tree.judge options judgement =
      tree.settle options.maxDepth (room + 1) [] judgement := by
    rw [judge, ← hroom]
  rw [hjudge, tree.settle_succ h, hrule]
  rfl

/-- All the ways in which a judgement is settled: it needs no rule, there is no
room left for one, or its rule is followed. -/
theorem settle_cases
    (h : (tree.settle limit room busy judgement).run pass = .ok (ty, pass')) :
    (tree.settled? busy judgement).run pass = .ok (some ty, pass') ∨
      ∃ middle, (tree.settled? busy judgement).run pass = .ok (none, middle) ∧
        (room = 0 ∧ ty = .fault judgement.node (.tooDeep limit) ∧
            pass' = middle ∨
          ∃ less last, room = less + 1 ∧ pass' = last.record judgement ty ∧
            ((tree.rule judgement).run (fun _ => Pass.mint)
              (tree.settle limit less (judgement.enter busy))).run middle =
              .ok (ty, last)) := by
  cases hsettled : (tree.settled? busy judgement).run pass with
  | error e =>
      rw [tree.settle_of_settled_error hsettled] at h
      cases h
  | ok out =>
      obtain ⟨known, middle⟩ := out
      cases known with
      | some known =>
          rw [tree.settle_of_settled hsettled] at h
          cases h
          exact Or.inl rfl
      | none =>
          refine Or.inr ⟨middle, rfl, ?_⟩
          cases room with
          | zero =>
              rw [tree.settle_zero hsettled] at h
              cases h
              exact Or.inl ⟨rfl, rfl, rfl⟩
          | succ less =>
              rw [tree.settle_succ hsettled] at h
              obtain ⟨⟨found, last⟩, hrule, hrecord⟩ := bind_eq_ok_iff.mp h
              cases hrecord
              exact Or.inr ⟨less, last, rfl, rfl, hrule⟩

end Settle

/-- Which judgements are made about a tree, and which answers they may get. -/
structure Policy (tree : Tree) where
  ask : Judgement → Prop
  answer : Judgement → Ty → Prop
  /-- Only nodes of the tree are asked about. -/
  inside : ∀ judgement, ask judgement → judgement.node < tree.size
  /-- What a scope says is allowed. -/
  bound : ∀ scope node ty, ask (.synth scope node) →
    scope.find? node = some ty → answer (.synth scope node) ty
  /-- The type of a node may be used in other scopes. -/
  scopes : ∀ scope scope' node ty, ask (.synth scope node) →
    ask (.synth scope' node) → answer (.synth scope node) ty →
    answer (.synth scope' node) ty
  /-- The outcome of a check may be used in other scopes and for the same
  type. -/
  checks : ∀ scope scope' node expected expected' ty,
    ask (.check scope node expected) → ask (.check scope' node expected') →
    expected.same expected' = true → answer (.check scope node expected) ty →
    answer (.check scope' node expected') ty

/-- A policy that the rules keep to, and that lets every judgement fail. -/
structure Discipline (tree : Tree) extends Policy tree where
  rule : ∀ judgement, ask judgement →
    (tree.rule judgement).Meets ask answer (answer judgement)
  fault : ∀ judgement cause, ask judgement →
    answer judgement (.fault judgement.node cause)

end Tree

/-- The judgement asks for a type that is being worked out. -/
def Judgement.Awaited (busy : List NodeId) : Judgement → Prop
  | .synth _ node => node ∈ busy
  | .check _ _ _ => False

namespace Tree

namespace Policy

variable {tree : Tree} (policy : tree.Policy)

/-- All that the pass remembers keeps to the policy. -/
structure Keeps (pass : Pass) : Prop where
  cache : ∀ node ty, pass.cache[node]? = some ty →
    ∃ scope, policy.ask (.synth scope node) ∧
      policy.answer (.synth scope node) ty
  memo : ∀ node entries, pass.memo[node]? = some entries → ∀ entry ∈ entries,
    ∃ scope, policy.ask (.check scope node entry.1) ∧
      policy.answer (.check scope node entry.1) entry.2

theorem keeps_empty : policy.Keeps {} := by
  constructor
  · intro node ty h
    simp at h
  · intro node entries h
    simp at h

variable {policy} {pass : Pass}

theorem Keeps.countHit (h : policy.Keeps pass) : policy.Keeps pass.countHit :=
  ⟨h.cache, h.memo⟩

theorem Keeps.mint (h : policy.Keeps pass) (decl : NodeId) :
    ∃ n pass', ((fun _ => Pass.mint) decl : PassM Nat).run pass =
      .ok (n, pass') ∧ policy.Keeps pass' :=
  ⟨_, _, rfl, h.cache, h.memo⟩

theorem Keeps.lookup (h : policy.Keeps pass) {scope : Scope} {node : NodeId}
    {ty : Ty} (hask : policy.ask (.synth scope node))
    (hlookup : pass.lookup scope node = some ty) :
    policy.answer (.synth scope node) ty := by
  rw [Pass.lookup] at hlookup
  cases hbound : scope.find? node with
  | some known =>
      rw [hbound, Option.some_or] at hlookup
      cases hlookup
      exact policy.bound scope node _ hask hbound
  | none =>
      rw [hbound, Option.none_or] at hlookup
      obtain ⟨scope', hask', hanswer⟩ := h.cache node ty hlookup
      exact policy.scopes scope' scope node ty hask' hask hanswer

theorem Keeps.recalled (h : policy.Keeps pass) {scope : Scope} {node : NodeId}
    {expected ty : Ty} (hask : policy.ask (.check scope node expected))
    (hrecalled : pass.recalled? node expected = some ty) :
    policy.answer (.check scope node expected) ty := by
  obtain ⟨entries, entry, hentries, hmem, hsame, rfl⟩ :=
    pass.mem_memo_of_recalled node hrecalled
  obtain ⟨scope', hask', hanswer⟩ := h.memo node entries hentries entry hmem
  exact policy.checks scope' scope node entry.1 expected entry.2 hask' hask
    hsame hanswer

theorem Keeps.record (h : policy.Keeps pass) {judgement : Judgement} {ty : Ty}
    (hask : policy.ask judgement) (hanswer : policy.answer judgement ty) :
    policy.Keeps (pass.record judgement ty) := by
  cases judgement with
  | synth scope node =>
      refine ⟨fun other ty' hother => ?_, h.memo⟩
      rw [Pass.record, Pass.cache_recordType] at hother
      split at hother
      · next heq =>
          subst heq
          cases hother
          exact ⟨scope, hask, hanswer⟩
      · exact h.cache other ty' hother
  | check scope node expected =>
      refine ⟨h.cache, fun other entries hother entry hentry => ?_⟩
      rcases pass.mem_memo_recordCheck node hother hentry with
        ⟨old, hold, hmem⟩ | ⟨rfl, rfl⟩
      · exact h.memo other old hold entry hmem
      · exact ⟨scope, hask, hanswer⟩

/-- What needs no rule: a remembered answer, the error of a type that depends on
itself, or nothing. -/
theorem Keeps.settled (h : policy.Keeps pass) (busy : List NodeId)
    {judgement : Judgement} (hask : policy.ask judgement) :
    ∃ known pass', (tree.settled? busy judgement).run pass =
      .ok (known, pass') ∧ policy.Keeps pass' ∧
      (∀ ty, known = some ty → policy.answer judgement ty ∨
        judgement.Awaited busy ∧
        ∃ label, ty = .fault judgement.node (.cyclic label)) ∧
      (known = none → ¬ judgement.Awaited busy ∧ judgement.bound? = none) := by
  cases judgement with
  | synth scope node =>
      cases hlookup : pass.lookup scope node with
      | some ty =>
          refine ⟨some ty, _, tree.settled?_synth_of_lookup hlookup, h.countHit,
            ?_, by simp⟩
          rintro _ ⟨⟩
          exact Or.inl (h.lookup hask hlookup)
      | none =>
          by_cases hbusy : node ∈ busy
          · obtain ⟨construct, hconstruct⟩ :=
              exists_construct (policy.inside _ hask)
            refine ⟨_, pass,
              tree.settled?_synth_of_busy hlookup hbusy hconstruct, h, ?_,
              by simp⟩
            rintro _ ⟨⟩
            exact Or.inr ⟨hbusy, _, rfl⟩
          · refine ⟨none, pass, tree.settled?_synth_of_free hlookup hbusy,
              h, by simp, ?_⟩
            exact fun _ => ⟨hbusy, (Option.or_eq_none_iff.mp hlookup).1⟩
  | check scope node expected =>
      exact ⟨_, pass, tree.settled?_check, h,
        fun ty hty => Or.inl (h.recalled hask hty),
        fun _ => ⟨id, rfl⟩⟩

/-- A judgement that needs no rule is settled, within the policy if that allows
types that depend on themselves to fail. -/
theorem Keeps.settle_of_known {limit room : Nat} {busy : List NodeId}
    {judgement : Judgement} {pass' : Pass} {ty : Ty}
    (hpass' : policy.Keeps pass')
    (hrun : (tree.settled? busy judgement).run pass = .ok (some ty, pass'))
    (hty : policy.answer judgement ty ∨ judgement.Awaited busy ∧
      ∃ label, ty = .fault judgement.node (.cyclic label))
    (hfault : judgement.Awaited busy → ∀ label,
      policy.answer judgement (.fault judgement.node (.cyclic label))) :
    ∃ ty pass', (tree.settle limit room busy judgement).run pass =
      .ok (ty, pass') ∧ policy.Keeps pass' ∧ policy.answer judgement ty := by
  refine ⟨ty, pass', tree.settle_of_settled hrun, hpass', ?_⟩
  rcases hty with hty | ⟨hawaited, label, rfl⟩
  · exact hty
  · exact hfault hawaited label

end Policy

namespace Discipline

variable {tree : Tree} (discipline : tree.Discipline)

/-- A judgement of the discipline is settled, within the discipline. The
induction is on the room that is left; the rule at hand takes care of everything
but its premises. -/
theorem settle (limit room : Nat) (busy : List NodeId) (judgement : Judgement)
    (hask : discipline.ask judgement) {pass : Pass}
    (hpass : discipline.Keeps pass) :
    ∃ ty pass', (tree.settle limit room busy judgement).run pass =
      .ok (ty, pass') ∧ discipline.Keeps pass' ∧
      discipline.answer judgement ty := by
  induction room generalizing busy judgement pass with
  | zero =>
      obtain ⟨known, pass', hrun, hpass', hsome, -⟩ := hpass.settled busy hask
      cases known with
      | some ty =>
          exact hpass'.settle_of_known hrun (hsome ty rfl) fun _ label =>
            discipline.fault judgement (.cyclic label) hask
      | none =>
          exact ⟨_, pass', tree.settle_zero hrun, hpass',
            discipline.fault _ _ hask⟩
  | succ room ih =>
      obtain ⟨known, middle, hrun, hmiddle, hsome, -⟩ := hpass.settled busy hask
      cases known with
      | some ty =>
          exact hmiddle.settle_of_known hrun (hsome ty rfl) fun _ label =>
            discipline.fault judgement (.cyclic label) hask
      | none =>
          obtain ⟨ty, last, hrule, hlast, hty⟩ :=
            Rule.Meets.run (fun decl _ h => h.mint decl)
              (fun premise _ hpremise h =>
                ih (judgement.enter busy) premise hpremise h)
              (discipline.rule judgement hask) hmiddle
          refine ⟨ty, last.record judgement ty, ?_, hlast.record hask hty, hty⟩
          rw [tree.settle_succ hrun, hrule]
          rfl

end Discipline

end Tree

end ConceptLang
