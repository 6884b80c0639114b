import ConceptLang.Proofs.Lockstep
import ConceptLang.Proofs.RepeatedChecks

/-!
# Transcripts and the memory of other passes

Every answer in the transcript of a new pass has its ground: the scope alone
gives it, or it follows by a rule from answers in the same transcript
(`Tree.hasGround_of_settleNoting`). Answers that were found in memory are no
exception, since they were put there by a rule.

The answers of any other pass concur with such a transcript, as long as none of
them is a recursion error and those that concern bound nodes do
(`Tree.settleNoting_concurs`). The reason is that each rule goes in lockstep
with the one that the transcript has followed, and that memory holds nothing but
answers.
-/

namespace ConceptLang

/-! ### Rules along a transcript -/

namespace Rule

variable {α : Type}

/-- The rule comes to the conclusion with answers from the calls and with new
stamps. -/
def Follows (base : Nat) (calls : List Call) : Rule α → α → Prop
  | .conclude result, a => result = a
  | .defect _, _ => False
  | .premise judgement next, a =>
    ∃ ty, ⟨judgement, ty⟩ ∈ calls ∧ (next ty).Follows base calls a
  | .stamp _ next, a => ∃ n, base ≤ n ∧ (next n).Follows base calls a

section Follows

variable {base : Nat} {calls calls' : List Call} {rule : Rule α} {a : α}

theorem Follows.mono (h : rule.Follows base calls a) (hcalls : calls ⊆ calls') :
    rule.Follows base calls' a := by
  induction rule with
  | conclude result => exact h
  | defect error => exact h
  | premise judgement next ih =>
      obtain ⟨ty, hty, h⟩ := h
      exact ⟨ty, hcalls hty, ih ty h⟩
  | stamp decl next ih =>
      obtain ⟨n, hn, h⟩ := h
      exact ⟨n, hn, ih n h⟩

theorem Doomed.follows {fails : α → Prop} (h : rule.Doomed fails)
    (hfollows : rule.Follows base calls a) : fails a := by
  induction rule with
  | conclude result => exact hfollows ▸ h
  | defect error => exact hfollows.elim
  | premise judgement next ih =>
      obtain ⟨ty, -, hfollows⟩ := hfollows
      exact ih ty (h ty) hfollows
  | stamp decl next ih =>
      obtain ⟨n, -, hfollows⟩ := hfollows
      exact ih n (h n) hfollows

theorem Doomed.runNoting {fails : α → Prop} {settle : Judgement → DiaryM Ty}
    (h : rule.Doomed fails) {diary diary' : Diary}
    (hrun : (rule.run (fun _ => Diary.inPass Pass.mint) settle).run diary =
      .ok (a, diary')) :
    fails a := by
  induction rule generalizing diary with
  | conclude result =>
      cases hrun
      exact h
  | defect error => cases hrun
  | premise judgement next ih =>
      obtain ⟨ty, middle, -, hnext⟩ := run_premise_eq_ok_iff.mp hrun
      exact ih ty (h ty) hnext
  | stamp decl next ih =>
      rw [run_stamp_noting] at hrun
      exact ih _ (h _) hrun

/-- A run follows its own notes. -/
theorem follows_of_run {settle : Judgement → DiaryM Ty}
    (hsettle : ∀ judgement diary ty diary',
      (settle judgement).run diary = .ok (ty, diary') →
      diary.Grows diary' ∧ ⟨judgement, ty⟩ ∈ diary'.calls)
    {diary diary' : Diary} (hstamps : base ≤ diary.pass.stamps)
    (hrun : (rule.run (fun _ => Diary.inPass Pass.mint) settle).run diary =
      .ok (a, diary')) :
    rule.Follows base diary'.calls a := by
  induction rule generalizing diary with
  | conclude result =>
      cases hrun
      exact rfl
  | defect error => cases hrun
  | premise judgement next ih =>
      obtain ⟨ty, middle, hfirst, hnext⟩ := run_premise_eq_ok_iff.mp hrun
      obtain ⟨hgrows, hcall⟩ := hsettle judgement diary ty middle hfirst
      have hrest : middle.Grows diary' :=
        (always_true _).run_relates .refl .trans .stamped
        (fun premise before found after _ hpremise =>
          (hsettle _ _ _ _ hpremise).1) hnext
      exact ⟨ty, hrest.calls hcall,
        ih ty (Nat.le_trans hstamps hgrows.stamps) hnext⟩
  | stamp decl next ih =>
      rw [run_stamp_noting] at hrun
      exact ⟨_, hstamps, ih _ (Nat.le_succ_of_le hstamps) hrun⟩

end Follows

/-- After a type error a rule can only fail; until then it goes on repeating
itself. -/
theorem Repeats.premise {fails : α → Prop} {judgement : Judgement}
    {next : Ty → Rule α}
    (h : (Rule.premise judgement next).Repeats fails (.premise judgement next))
    (ty : Ty) :
    (ty.isError = true → (next ty).Doomed fails) ∧
      (ty.isError = false → (next ty).Repeats fails (next ty)) := by
  rcases h with h | ⟨next', heq, h⟩
  · exact ⟨fun _ => h ty, fun _ => (h ty).repeats _⟩
  · cases heq
    exact h ty

theorem Repeats.stamp {fails : α → Prop} {decl : NodeId} {next : Nat → Rule α}
    (h : (Rule.stamp decl next).Repeats fails (.stamp decl next)) (n : Nat) :
    (next n).Repeats fails (next n) := by
  rcases h with h | ⟨next', heq, h⟩
  · exact (h n).repeats _
  · cases heq
    exact h n

end Rule

/-! ### What a pass remembers -/

namespace Pass

/-- The answer to a judgement that the pass knows. -/
def known? (pass : Pass) : Judgement → Option Ty
  | .synth scope node => pass.lookup scope node
  | .check _ node expected => pass.recalled? node expected

/-- All that the pass remembers is a fact about some judgement that it was
remembered of. -/
structure Remembers (fact : Judgement → Ty → Prop) (pass : Pass) : Prop where
  cache : ∀ node ty, pass.cache[node]? = some ty →
    ∃ scope, fact (.synth scope node) ty
  memo : ∀ node, ∀ entry ∈ pass.outcomes node, ∃ scope,
    fact (.check scope node entry.1) entry.2

namespace Remembers

variable {fact fact' : Judgement → Ty → Prop} {pass : Pass}

theorem fresh (stamps : Nat) : Remembers fact { stamps } := by
  refine ⟨fun node ty h => ?_, fun node entry h => ?_⟩
  · simp at h
  · simp [outcomes] at h

theorem mono (h : pass.Remembers fact)
    (hfact : ∀ judgement ty, fact judgement ty → fact' judgement ty) :
    pass.Remembers fact' := by
  refine ⟨fun node ty hty => ?_, fun node entry hentry => ?_⟩
  · obtain ⟨scope, hscope⟩ := h.cache node ty hty
    exact ⟨scope, hfact _ _ hscope⟩
  · obtain ⟨scope, hscope⟩ := h.memo node entry hentry
    exact ⟨scope, hfact _ _ hscope⟩

theorem record (h : pass.Remembers fact) {judgement : Judgement} {ty : Ty}
    (hfact : fact judgement ty) :
    (pass.record judgement ty).Remembers fact := by
  cases judgement with
  | synth scope node =>
      refine ⟨fun other known hknown => ?_, h.memo⟩
      rw [Pass.record, cache_recordType] at hknown
      split at hknown
      · next heq =>
          subst heq
          cases hknown
          exact ⟨scope, hfact⟩
      · exact h.cache other known hknown
  | check scope node expected =>
      refine ⟨h.cache, fun other entry hentry => ?_⟩
      rw [Pass.record, outcomes_recordCheck] at hentry
      split at hentry
      · next heq =>
          subst heq
          rcases List.mem_append.mp hentry with hentry | hentry
          · exact h.memo other entry hentry
          · rw [List.mem_singleton.mp hentry]
            exact ⟨scope, hfact⟩
      · exact h.memo other entry hentry

/-- What is known is bound, or is a fact about a twin. -/
theorem known (h : pass.Remembers fact) {judgement : Judgement} {ty : Ty}
    (hknown : pass.known? judgement = some ty) :
    judgement.bound? = some ty ∨
      ∃ twin : Judgement, twin.Twin judgement ∧ fact twin ty := by
  cases judgement with
  | synth scope node =>
      rw [known?, lookup, Option.or_eq_some_iff] at hknown
      rcases hknown with hbound | ⟨-, hcache⟩
      · exact Or.inl hbound
      · obtain ⟨other, hfact⟩ := h.cache node ty hcache
        exact Or.inr ⟨_, .synth other scope node, hfact⟩
  | check scope node expected =>
      rw [known?, recalled?_eq] at hknown
      obtain ⟨entry, hentry, rfl⟩ := Option.map_eq_some_iff.mp hknown
      have hsame : entry.1.same expected = true := by
        simpa using List.find?_some hentry
      obtain ⟨other, hfact⟩ :=
        h.memo node entry (List.mem_of_find?_eq_some hentry)
      exact Or.inr ⟨_, .check other scope node hsame, hfact⟩

end Remembers

end Pass

/-- An answer that needs no rule is known, or it is the error of a type that
depends on itself. -/
theorem Tree.Found.known?_eq {tree : Tree} {busy : List NodeId}
    {pass pass' : Pass} {judgement : Judgement} {ty : Ty}
    (h : tree.Found busy pass judgement (some ty) pass')
    (hcalm : ty.isRecursion = false) :
    pass.known? judgement = some ty ∧
    (pass' = pass ∨ pass' = pass.countHit) := by
  cases h with
  | known hlookup => exact ⟨hlookup, Or.inr rfl⟩
  | cyclic => cases hcalm
  | recalled hrecalled => exact ⟨hrecalled, Or.inl rfl⟩

/-! ### Passes that answer without recursion errors -/

/-- To settle a judgement notes its answer, and keeps `inv` if all calls are
good. -/
def Diary.KeptBy (good : Call → Prop) (inv : Diary → Prop)
    (settle : Judgement → DiaryM Ty) :
    Prop :=
  ∀ judgement diary ty diary', (settle judgement).run diary = .ok (ty, diary') →
    (diary.Grows diary' ∧ ⟨judgement, ty⟩ ∈ diary'.calls) ∧
      ((∀ call ∈ diary'.calls, good call) → inv diary → inv diary')

/-- A run of a rule keeps what its premises and new stamps keep. -/
theorem Diary.KeptBy.run {α : Type} {good : Call → Prop} {inv : Diary → Prop}
    {settle : Judgement → DiaryM Ty} (h : Diary.KeptBy good inv settle)
    (hmint : ∀ diary, inv diary → inv diary.stamped) {rule : Rule α}
    {diary diary' : Diary} {a : α}
    (hrun : (rule.run (fun _ => Diary.inPass Pass.mint) settle).run diary =
      .ok (a, diary')) :
    diary.Grows diary' ∧
    ((∀ call ∈ diary'.calls, good call) → inv diary → inv diary') := by
  have hpremise : ∀ judgement diary ty diary', True →
      (settle judgement).run diary = .ok (ty, diary') →
      diary.Grows diary' ∧
      ((∀ call ∈ diary'.calls, good call) → inv diary → inv diary') := by
    intro judgement diary ty diary' _ hsettle
    obtain ⟨⟨hgrows, -⟩, hkeeps⟩ := h judgement diary ty diary' hsettle
    exact ⟨hgrows, hkeeps⟩
  refine (Rule.always_true rule).run_relates
    (fun diary => ⟨.refl diary, fun _ => id⟩) ?_
    (fun diary => ⟨.stamped diary, fun _ => hmint diary⟩) hpremise hrun
  rintro diary diary' diary'' ⟨hgrows, hkeeps⟩ ⟨hgrows', hkeeps'⟩
  refine ⟨hgrows.trans hgrows', fun hgood hinv => ?_⟩
  exact hkeeps' hgood
    (hkeeps (fun call hcall => hgood call (hgrows'.calls hcall)) hinv)

/-- What is kept where an answer is known and where a rule is followed is kept
along a whole run, if all calls are good and no good answer is a recursion
error. The induction is on the room. -/
theorem Tree.settleNoting_keeps (tree : Tree) {good : Call → Prop}
    {inv : Diary → Prop}
    (hcalm : ∀ call, good call → call.answer.isRecursion = false)
    (hmint : ∀ diary, inv diary → inv diary.stamped)
    (hhit : ∀ diary : Diary, inv diary →
      inv { diary with pass := diary.pass.countHit })
    (hknown : ∀ judgement diary ty, diary.pass.known? judgement = some ty →
      good ⟨judgement, ty⟩ → inv diary →
      inv ⟨diary.pass, ⟨judgement, ty⟩ :: diary.calls⟩)
    (hruled : ∀ settle judgement diary ty last, Diary.KeptBy good inv settle →
      ((tree.rule judgement).run (fun _ => Diary.inPass Pass.mint) settle).run
      diary = .ok (ty, last) → (∀ call ∈ last.calls, good call) →
      good ⟨judgement, ty⟩ → inv diary → inv last →
      inv ⟨last.pass.record judgement ty, ⟨judgement, ty⟩ :: last.calls⟩)
    (limit room : Nat) (busy : List NodeId) :
    Diary.KeptBy good inv (tree.settleNoting limit room busy) := by
  induction room using Nat.strongRecOn generalizing busy with
  | ind room ih =>
      intro judgement diary ty diary' hrun
      refine ⟨tree.settleNoting_grows hrun, fun hgood hinv => ?_⟩
      cases tree.answered_of_settleNoting hrun with
      | found h =>
          have hcall := hgood ⟨judgement, ty⟩ List.mem_cons_self
          obtain ⟨hty, rfl | rfl⟩ := h.known?_eq (hcalm _ hcall)
          · exact hknown judgement diary ty hty hcall hinv
          · exact hhit _ (hknown judgement diary ty hty hcall hinv)
      | deep h hty =>
          have hrecursion := hcalm _ (hgood _ List.mem_cons_self)
          rw [hty] at hrecursion
          cases hrecursion
      | @ruled less ty last h hrule =>
          have hkeeps := ih less (Nat.lt_succ_self less) (judgement.enter busy)
          have hlast : ∀ call ∈ last.calls, good call := fun call hcall =>
            hgood call (List.mem_cons_of_mem _ hcall)
          exact hruled _ judgement diary ty last hkeeps hrule hlast
            (hgood _ List.mem_cons_self) hinv
            ((hkeeps.run hmint hrule).2 hlast hinv)

/-! ### The grounds of a transcript -/

namespace Tree

/-- The answer follows by the rule of its judgement. -/
def Derived (tree : Tree) (base : Nat) (calls : List Call)
    (judgement : Judgement) (ty : Ty) :
    Prop :=
  (tree.rule judgement).Follows base calls ty

/-- The scope alone gives the answer, or it follows by the rule of a twin. -/
def HasGround (tree : Tree) (base : Nat) (calls : List Call) (call : Call) :
    Prop :=
  call.judgement.bound? = some call.answer ∨
    ∃ twin : Judgement, twin.Twin call.judgement ∧
      tree.Derived base calls twin call.answer

theorem HasGround.mono {tree : Tree} {base : Nat} {calls calls' : List Call}
    {call : Call} (h : tree.HasGround base calls call)
    (hcalls : calls ⊆ calls') :
    tree.HasGround base calls' call := by
  rcases h with h | ⟨twin, htwin, h⟩
  · exact Or.inl h
  · exact Or.inr ⟨twin, htwin, h.mono hcalls⟩

end Tree

/-- All that the pass has noted and all that it remembers has its ground in its
notes. -/
structure Diary.Grounded (tree : Tree) (base : Nat) (diary : Diary) : Prop where
  stamps : base ≤ diary.pass.stamps
  calls : ∀ call ∈ diary.calls, tree.HasGround base diary.calls call
  memory : diary.pass.Remembers (tree.Derived base diary.calls)

theorem Diary.Grounded.note {tree : Tree} {base : Nat} {diary : Diary}
    (h : diary.Grounded tree base) {call : Call}
    (hcall : tree.HasGround base diary.calls call) :
    Diary.Grounded tree base ⟨diary.pass, call :: diary.calls⟩ := by
  have hsub : diary.calls ⊆ call :: diary.calls := List.subset_cons_self _ _
  refine ⟨h.stamps,
    List.forall_mem_cons.mpr ⟨hcall.mono hsub, fun other hother => ?_⟩, ?_⟩
  · exact (h.calls other hother).mono hsub
  · exact h.memory.mono fun _ _ hderived => hderived.mono hsub

/-- In the notes of a pass that started with nothing in memory, every answer has
its ground. -/
theorem Tree.hasGround_of_settleNoting (tree : Tree) {base stamps : Nat}
    (hstamps : base ≤ stamps) {limit room : Nat} {busy : List NodeId}
    {judgement : Judgement} {diary : Diary} {ty : Ty}
    (hrun : (tree.settleNoting limit room busy judgement).run ⟨{ stamps }, []⟩ =
      .ok (ty, diary))
    (hcalm : ∀ call ∈ diary.calls, call.answer.isRecursion = false) :
    ∀ call ∈ diary.calls, tree.HasGround base diary.calls call := by
  have hfresh : Diary.Grounded tree base ⟨{ stamps }, []⟩ :=
    ⟨hstamps, by simp, .fresh stamps⟩
  refine ((tree.settleNoting_keeps (fun _ => id) (fun diary h => ?_)
    (fun diary h => ?_) ?_ ?_ limit room busy judgement _ ty diary hrun).2 hcalm
    hfresh).calls
  · exact ⟨Nat.le_succ_of_le h.stamps, h.calls, h.memory.cache, h.memory.memo⟩
  · exact ⟨h.stamps, h.calls, h.memory.cache, h.memory.memo⟩
  · intro judgement diary ty hknown _ hdiary
    exact hdiary.note (hdiary.memory.known hknown)
  · rintro settle judgement diary ty last hkeeps hrule - - hdiary hlast
    have hderived : tree.Derived base last.calls judgement ty :=
      Rule.follows_of_run (fun premise before found after hpremise =>
        (hkeeps _ _ _ _ hpremise).1) hdiary.stamps hrule
    have hrecord : Diary.Grounded tree base
        ⟨last.pass.record judgement ty, last.calls⟩ := by
      refine ⟨?_, hlast.calls, hlast.memory.record hderived⟩
      cases judgement <;> exact hlast.stamps
    exact hrecord.note (Or.inr ⟨judgement, .refl judgement, hderived⟩)

/-! ### Answers that concur with a transcript -/

/-- Whether both judgements ask for the type of one node, and it is bound for
one of them. -/
def Judgement.touches : Judgement → Judgement → Bool
  | .synth scope node, .synth scope' node' =>
    node == node' && ((scope.find? node).isSome || (scope'.find? node).isSome)
  | _, _ => false

theorem Judgement.touches_iff {judgement judgement' : Judgement} :
    judgement.touches judgement' = true ↔ ∃ scope scope' node,
      judgement = .synth scope node ∧ judgement' = .synth scope' node ∧
        ((scope.find? node).isSome = true ∨
          (scope'.find? node).isSome = true) := by
  constructor
  · intro h
    cases judgement with
    | synth scope node =>
        cases judgement' with
        | synth scope' node' =>
            simp only [touches, Bool.and_eq_true, beq_iff_eq, Bool.or_eq_true]
              at h
            obtain ⟨rfl, h⟩ := h
            exact ⟨scope, scope', node, rfl, rfl, h⟩
        | check scope' node' expected' => cases h
    | check scope node expected => cases h
  · rintro ⟨scope, scope', node, rfl, rfl, h⟩
    simpa [touches] using h

/-- The answer concurs with all answers that the calls give to twins of the
judgement. -/
def Tree.ConcursWith (tree : Tree) (base : Nat) (calls : List Call)
    (judgement : Judgement) (ty : Ty) : Prop :=
  ∀ call ∈ calls, judgement.Twin call.judgement →
    call.judgement.DecidedByGist base →
    tree.Concurs base judgement ty call.answer

theorem Tree.ConcursWith.of_twin {tree : Tree} {base : Nat} {calls : List Call}
    {judgement judgement' : Judgement} {ty : Ty}
    (h : tree.ConcursWith base calls judgement ty)
    (htwin : judgement.Twin judgement') :
    tree.ConcursWith base calls judgement' ty :=
  fun call hcall hother hdecided =>
    (h call hcall (htwin.trans hother) hdecided).of_twin htwin

/-- The call is not answered with a recursion error, and it concurs with the
calls where something is bound. -/
def Tree.Harmless (tree : Tree) (base : Nat) (calls : List Call) (call : Call) :
    Prop :=
  call.answer.isRecursion = false ∧ ∀ other ∈ calls,
    call.judgement.touches other.judgement = true →
    tree.Concurs base call.judgement call.answer other.answer

theorem Tree.Harmless.of_bound {tree : Tree} {base : Nat} {calls : List Call}
    {judgement : Judgement} {ty : Ty}
    (h : tree.Harmless base calls ⟨judgement, ty⟩) {call : Call}
    (hcall : call ∈ calls) (htwin : judgement.Twin call.judgement)
    (hbound : judgement.bound?.isSome = true ∨
      call.judgement.bound?.isSome = true) :
    tree.Concurs base judgement ty call.answer := by
  refine h.2 call hcall ?_
  generalize call.judgement = other at *
  cases htwin with
  | synth scope scope' node =>
      exact Judgement.touches_iff.mpr ⟨scope, scope', node, rfl, rfl, hbound⟩
  | check => simp [Judgement.bound?] at hbound

/-- All that a pass has noted and all that it remembers concurs with the
calls. -/
structure Diary.ConcursWith (tree : Tree) (base : Nat) (calls : List Call)
    (diary : Diary) :
    Prop where
  stamps : base ≤ diary.pass.stamps
  noted : ∀ call ∈ diary.calls,
    tree.ConcursWith base calls call.judgement call.answer
  memory : diary.pass.Remembers (tree.ConcursWith base calls)

namespace Diary.ConcursWith

variable {tree : Tree} {base : Nat} {calls : List Call} {diary : Diary}

theorem fresh {stamps : Nat} (h : base ≤ stamps) :
    Diary.ConcursWith tree base calls ⟨{ stamps }, []⟩ :=
  ⟨h, by simp, .fresh stamps⟩

theorem stamped (h : diary.ConcursWith tree base calls) :
    diary.stamped.ConcursWith tree base calls :=
  ⟨Nat.le_succ_of_le h.stamps, h.noted, h.memory.cache, h.memory.memo⟩

theorem note (h : diary.ConcursWith tree base calls) {call : Call}
    (hcall : tree.ConcursWith base calls call.judgement call.answer) :
    Diary.ConcursWith tree base calls ⟨diary.pass, call :: diary.calls⟩ :=
  ⟨h.stamps, List.forall_mem_cons.mpr ⟨hcall, h.noted⟩, h.memory⟩

theorem record (h : diary.ConcursWith tree base calls) {judgement : Judgement}
    {ty : Ty} (hconcurs : tree.ConcursWith base calls judgement ty) :
    Diary.ConcursWith tree base calls ⟨diary.pass.record judgement ty,
      diary.calls⟩ := by
  refine ⟨?_, h.noted, h.memory.record hconcurs⟩
  cases judgement <;> exact h.stamps

end Diary.ConcursWith

/-- A run that goes in lockstep with a rule along the calls comes to an agreeing
conclusion. -/
theorem Rule.Tracks.run {tree : Tree} {base : Nat} {calls : List Call}
    {good : Call → Prop} {agree : Ty → Ty → Prop}
    (hfail : ∀ ty ty' : Ty, ty.isError = true → ty'.isError = true →
      agree ty ty')
    {settle : Judgement → DiaryM Ty}
    (hsettle : Diary.KeptBy good (·.ConcursWith tree base calls) settle)
    {rule rule' : Rule Ty} (htracks : rule.Tracks tree base agree rule')
    (hrepeats : rule.Repeats (·.isError = true) rule)
    (hrepeats' : rule'.Repeats (·.isError = true) rule') {diary diary' : Diary}
    {ty ty' : Ty}
    (hrun : (rule.run (fun _ => Diary.inPass Pass.mint) settle).run diary =
      .ok (ty, diary'))
    (hgood : ∀ call ∈ diary'.calls, good call)
    (hdiary : diary.ConcursWith tree base calls)
    (hfollows : rule'.Follows base calls ty') : agree ty ty' := by
  induction rule generalizing rule' diary with
  | conclude result =>
      cases hrun
      cases rule' with
      | conclude result' => exact hfollows ▸ htracks
      | _ => exact htracks.elim
  | defect error => cases hrun
  | premise judgement next ih =>
      cases rule' with
      | premise judgement' next' =>
          obtain ⟨⟨htwin, hdecided⟩, htracks⟩ := htracks
          obtain ⟨found', hcall, hfollows⟩ := hfollows
          obtain ⟨found, middle, hfirst, hnext⟩ := run_premise_eq_ok_iff.mp hrun
          obtain ⟨⟨-, hnoted⟩, hkeeps⟩ :=
            hsettle judgement diary found middle hfirst
          have hrest : middle.Grows diary' :=
            (hsettle.run (fun _ => .stamped) hnext).1
          have hmiddle :=
            hkeeps (fun call hcall => hgood call (hrest.calls hcall)) hdiary
          have hconcurs : tree.Concurs base judgement found found' :=
            hmiddle.noted _ hnoted _ hcall htwin hdecided
          cases hfound : found'.isError with
          | true =>
              have hdoomed :=
                (hrepeats.premise found).1 (hconcurs.isError_eq.trans hfound)
              have hdoomed' := (hrepeats'.premise found').1 hfound
              exact hfail ty ty' (hdoomed.runNoting hnext)
                (hdoomed'.follows hfollows)
          | false =>
              exact ih found (htracks found found' hconcurs hfound)
                ((hrepeats.premise found).2 (hconcurs.isError_eq.trans hfound))
                ((hrepeats'.premise found').2 hfound) hnext hmiddle hfollows
      | _ => exact htracks.elim
  | stamp decl next ih =>
      cases rule' with
      | stamp decl' next' =>
          obtain ⟨n', hn', hfollows⟩ := hfollows
          rw [run_stamp_noting] at hrun
          exact ih _ (htracks _ n' hdiary.stamps hn') (hrepeats.stamp _)
            (hrepeats'.stamp n') hrun hdiary.stamped hfollows
      | _ => exact htracks.elim

namespace Tree

/-- A pass whose calls are harmless answers all of them as a grounded transcript
does, if its memory concurs with the transcript. -/
theorem settleNoting_concurs {tree : Tree} (wf : tree.WellFormed) {base : Nat}
    {calls : List Call}
    (hcalls : ∀ call ∈ calls, tree.HasGround base calls call) {limit room : Nat}
    {busy : List NodeId} {judgement : Judgement} {diary diary' : Diary}
    {ty : Ty}
    (hrun : (tree.settleNoting limit room busy judgement).run diary =
      .ok (ty, diary'))
    (hharmless : ∀ call ∈ diary'.calls, tree.Harmless base calls call)
    (hdiary : diary.ConcursWith tree base calls) :
    diary'.ConcursWith tree base calls := by
  refine (tree.settleNoting_keeps (fun _ h => h.1) (fun _ h => h.stamped)
    (fun diary h => ⟨h.stamps, h.noted, h.memory.cache, h.memory.memo⟩) ?_ ?_
    limit room
    busy judgement diary ty diary' hrun).2 hharmless hdiary
  · intro judgement diary ty hknown hcall hdiary
    refine hdiary.note ?_
    rcases hdiary.memory.known hknown with hfind | ⟨twin, htwin, hconcurs⟩
    · exact fun call hmem htwin _ =>
        hcall.of_bound hmem htwin (Or.inl (by rw [hfind]; rfl))
    · exact hconcurs.of_twin htwin
  · rintro settle judgement diary ty last hkeeps hrule hgood hcall hdiary hlast
    suffices hconcurs : tree.ConcursWith base calls judgement ty from
      (hlast.record hconcurs).note hconcurs
    intro call hmem htwin hdecided
    rcases hcalls call hmem with hfind | ⟨twin, htwin', hderived⟩
    · exact hcall.of_bound hmem htwin (Or.inr (by rw [hfind]; rfl))
    · exact (tracks_rule wf (htwin.trans htwin'.symm)
        (htwin'.decidedByGist hdecided)).run
        (fun _ _ h h' => concurs_of_isError h h' judgement) hkeeps
        ((Extends.refl tree).repeats_rule judgement)
        ((Extends.refl tree).repeats_rule twin) hrule
        hgood hdiary hderived

end Tree

end ConceptLang
