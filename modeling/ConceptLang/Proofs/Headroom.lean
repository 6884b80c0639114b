import ConceptLang.Proofs.Soundness
import ConceptLang.Proofs.Transcripts

/-!
# Room for two judgements of each node

A chain of judgements has at most two slots for each node
(`Tree.Chain.length_lt`). So a pass with room for that many never comes to its
limit, and what holds of its answers need not allow for judgements that are
refused. `Tree.Practice` is a policy for such passes. It may also depend on
which types are being worked out while a judgement is made.

The result is about diaries (`Tree.Practice.settleNoting`), so it says something
about every call on the way, and not only about the types that are remembered.
-/

namespace ConceptLang

namespace Tree

/-- A policy that the rules keep to as long as there is room for them. -/
structure Practice (tree : Tree) extends Policy tree where
  /-- What is known of a judgement that is made while some types are being
  worked out. -/
  state : List NodeId → Judgement → Prop
  rule : ∀ busy judgement, ask judgement → state busy judgement →
    judgement.bound? = none → (tree.rule judgement).Meets
      (fun premise => ask premise ∧ tree.Calls judgement.slot premise.slot ∧
        state (judgement.enter busy) premise)
      answer (answer judgement)
  /-- A type that depends on itself may fail. -/
  cyclic : ∀ busy judgement label, ask judgement → state busy judgement →
    judgement.Awaited busy →
    answer judgement (.fault judgement.node (.cyclic label))

/-- All that the pass of a diary remembers keeps to the policy, and so do all
calls. -/
structure Policy.Obeys {tree : Tree} (policy : tree.Policy) (diary : Diary) :
    Prop where
  pass : policy.Keeps diary.pass
  calls : ∀ call ∈ diary.calls, policy.answer call.judgement call.answer

namespace Policy.Obeys

variable {tree : Tree} {policy : tree.Policy} {diary : Diary}

theorem mint (h : policy.Obeys diary) (decl : NodeId) :
    ∃ n diary', ((fun _ => Diary.inPass Pass.mint) decl : DiaryM Nat).run
      diary = .ok (n, diary') ∧ policy.Obeys diary' :=
  ⟨_, diary.stamped, rfl, ⟨h.pass.cache, h.pass.memo⟩, h.calls⟩

theorem note (h : policy.Obeys diary) {pass : Pass} (hpass : policy.Keeps pass)
    {judgement : Judgement} {ty : Ty} (hty : policy.answer judgement ty) :
    policy.Obeys ⟨pass, ⟨judgement, ty⟩ :: diary.calls⟩ :=
  ⟨hpass, List.forall_mem_cons.mpr ⟨hty, h.calls⟩⟩

end Policy.Obeys

namespace Practice

variable {tree : Tree} (practice : tree.Practice)

theorem slot_lt_size {judgement : Judgement} (hask : practice.ask judgement) :
    judgement.slot.node < tree.size := by
  rw [judgement.node_slot]
  exact practice.inside judgement hask

/-- What needs no rule is answered within the practice. -/
theorem exists_settled {busy : List NodeId} {judgement : Judgement}
    (hask : practice.ask judgement) (hstate : practice.state busy judgement)
    {pass : Pass} (hpass : practice.Keeps pass) :
    ∃ known pass', (tree.settled? busy judgement).run pass =
      .ok (known, pass') ∧ practice.Keeps pass' ∧
      (∀ ty, known = some ty → practice.answer judgement ty) ∧
      (known = none → ¬ judgement.Awaited busy ∧ judgement.bound? = none) := by
  obtain ⟨known, pass', hrun, hpass', hsome, hnone⟩ := hpass.settled busy hask
  refine ⟨known, pass', hrun, hpass', fun ty hty => ?_, hnone⟩
  rcases hsome ty hty with hanswer | ⟨hawaited, label, rfl⟩
  · exact hanswer
  · exact practice.cyclic busy judgement label hask hstate hawaited

/-- If there is room, a judgement is settled within the practice, and so are all
on the way. The induction is on the room that is left. The chain of judgements
that wait is as long as the room that is used, and without room it would be too
long. -/
theorem settleNoting (wf : tree.WellFormed) {limit : Nat}
    (hlimit : 2 * tree.size ≤ limit) (room : Nat) (busy : List NodeId)
    (chain : List Slot) (judgement : Judgement) (hask : practice.ask judgement)
    (hstate : practice.state busy judgement)
    (hchain : tree.Chain busy chain judgement.slot)
    (hroom : limit ≤ room + chain.length) {diary : Diary}
    (hdiary : practice.Obeys diary) :
    ∃ ty diary', (tree.settleNoting limit room busy judgement).run diary =
      .ok (ty, diary') ∧ practice.Obeys diary' ∧
      practice.answer judgement ty := by
  induction room generalizing busy chain judgement diary with
  | zero =>
      obtain ⟨known, pass, hrun, hpass, hsome, hnone⟩ :=
        practice.exists_settled hask hstate hdiary.pass
      cases known with
      | some ty =>
          have hty := hsome ty rfl
          exact ⟨ty, _, tree.settleNoting_of_settled hrun,
            hdiary.note hpass hty, hty⟩
      | none =>
          have := hchain.length_lt (judgement.free_slot (hnone rfl).1)
            (practice.slot_lt_size hask)
          omega
  | succ room ih =>
      obtain ⟨known, pass, hrun, hpass, hsome, hnone⟩ :=
        practice.exists_settled hask hstate hdiary.pass
      cases known with
      | some ty =>
          have hty := hsome ty rfl
          exact ⟨ty, _, tree.settleNoting_of_settled hrun,
            hdiary.note hpass hty, hty⟩
      | none =>
          obtain ⟨hawaited, hbound⟩ := hnone rfl
          obtain ⟨ty, last, hrule, hlast, hty⟩ :=
            Rule.Meets.run (fun decl _ h => h.mint decl)
              (fun premise _ ⟨hpremise, hcalls, hnext⟩ h => by
                have hcall := hchain.call wf (judgement.free_slot hawaited)
                  (practice.slot_lt_size hask) hcalls
                rw [judgement.enter_slot] at hcall
                exact ih (judgement.enter busy) (judgement.slot :: chain)
                  premise hpremise hnext hcall
                  (by simp only [List.length_cons]; omega) h)
              (practice.rule busy judgement hask hstate hbound)
              (show practice.Obeys { diary with pass }
                from ⟨hpass, hdiary.calls⟩)
          refine ⟨ty, _, ?_, hlast.note (hlast.pass.record hask hty) hty, hty⟩
          rw [tree.settleNoting_succ hrun, hrule]
          rfl

/-- The same without notes. -/
theorem settle (wf : tree.WellFormed) {limit : Nat}
    (hlimit : 2 * tree.size ≤ limit) (room : Nat) (busy : List NodeId)
    (chain : List Slot) (judgement : Judgement) (hask : practice.ask judgement)
    (hstate : practice.state busy judgement)
    (hchain : tree.Chain busy chain judgement.slot)
    (hroom : limit ≤ room + chain.length) {pass : Pass}
    (hpass : practice.Keeps pass) :
    ∃ ty pass', (tree.settle limit room busy judgement).run pass =
      .ok (ty, pass') ∧ practice.Keeps pass' ∧
      practice.answer judgement ty := by
  have hblank : practice.Obeys ⟨pass, []⟩ := ⟨hpass, nofun⟩
  obtain ⟨ty, diary, hrun, hdiary, hty⟩ :=
    practice.settleNoting wf hlimit room busy chain judgement
    hask hstate hchain hroom hblank
  exact ⟨ty, diary.pass,
    (tree.mirrors_settleNoting limit room busy judgement).run_eq hrun,
    hdiary.pass, hty⟩

end Practice

end Tree

end ConceptLang
