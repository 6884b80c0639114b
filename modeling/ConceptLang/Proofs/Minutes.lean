import ConceptLang.Proofs.Reviews
import ConceptLang.Proofs.Transcripts

/-!
# Minutes of checks and of linking

A check of a model makes one judgement after the other, and linking makes one
for the left side of each join whose field it looks up. Here both are done once
more, with notes of all calls that are answered on the way. Each computation
stands beside its original, with a judgement that takes notes in the place of
each judgement. That notes change nothing is `Tree.reviewNoting_eq`,
`Tree.notes_linkNoting` and `Tree.linkAndCheckNoting_eq`.
-/

namespace ConceptLang

variable {α β : Type}

/-- A check under way, together with the calls it has answered, the latest
first. -/
structure Minutes where
  review : Review
  calls : List Call := []

/-- A computation that carries on a check and takes notes. -/
abbrev MinutesM := StateT Minutes (Except TreeError)

namespace Minutes

/-- Makes a computation of the pass that takes notes. -/
def inDiary (action : DiaryM α) : MinutesM α := fun minutes => do
  let out ← action.run ⟨minutes.review.pass, minutes.calls⟩
  return (out.1, ⟨{ minutes.review with pass := out.2.pass }, out.2.calls⟩)

/-- The check as it stands. -/
def current : MinutesM Review :=
  return (← get).review

/-- Carries on the check without a judgement. -/
def amend (change : Review → Review) : MinutesM Unit :=
  modify fun minutes => { minutes with review := change minutes.review }

theorem mirrors_inDiary {action : DiaryM α} {action' : PassM α}
    (h : Mirrors Diary.pass action action') :
    Mirrors review (inDiary action) (Review.inPass action') := by
  intro minutes
  have hrun := h ⟨minutes.review.pass, minutes.calls⟩
  rw [StateT.run, StateT.run, Review.inPass_apply, inDiary]
  rw [StateT.run, StateT.run] at hrun
  rw [← hrun, StateT.run]
  cases action ⟨minutes.review.pass, minutes.calls⟩ <;> rfl

theorem mirrors_current : Mirrors review current get :=
  fun _ => rfl

theorem mirrors_amend (change : Review → Review) :
    Mirrors review (amend change) (modify change) :=
  fun _ => rfl

end Minutes

namespace Tree

variable (tree : Tree) (options : Options)

/-! ### Checks -/

/-- Settles a judgement that no other one depends on. -/
def judgeNoting (judgement : Judgement) : DiaryM Ty :=
  tree.settleNoting options.maxDepth options.maxDepth [] judgement

/-- Reports the problems of a node. -/
def reportNoting (node : NodeId) : MinutesM Unit := do
  let ty ← Minutes.inDiary (tree.judgeNoting options (.synth Scope.empty node))
  Minutes.amend (Review.report tree ty)

/-- Reports the problems of the relations of a concept. -/
def reportRelationsNoting (decl : NodeId) : MinutesM Unit := do
  match ← tree.construct decl with
  | .concept _ _ relations => relations.forM (tree.reportNoting options)
  | _ => return ()

/-- Checks a top-level declaration, reports its problems and sums it up. -/
def checkDeclNoting (decl : NodeId) : MinutesM Unit := do
  let construct ← tree.construct decl
  let ty ← Minutes.inDiary
    ((tree.declRule decl).run (fun _ => Diary.inPass Pass.mint)
      (tree.judgeNoting options))
  tree.reportRelationsNoting options decl
  let name := construct.name?.getD "<anonymous>"
  let summary : DeclSummary :=
    ⟨decl, name, construct.label, ty.text, !ty.isError⟩
  Minutes.amend fun review =>
    let review := review.report tree ty
    { review with declarations := review.declarations ++ [summary] }

/-- Reports a reference that stayed open, unless its join has been reported for
it. -/
def reportOpenNoting (ref : NodeId) : MinutesM Unit := do
  if ← tree.coveredByJoin (← Minutes.current).pass ref then
    return ()
  else
    tree.reportNoting options ref

/-- The check of the top-level declarations, and then of the references `refs`
that stayed open, with all calls. -/
def reviewNoting (refs : List NodeId) :
    Except TreeError (CheckResult × List Call) := do
  let action : MinutesM Unit := do
    tree.roots.forM (tree.checkDeclNoting options)
    refs.forM (tree.reportOpenNoting options)
  let (_, minutes) ← action.run
    { review := { log := Log.withLimit options.maxDiagnostics } }
  return (minutes.review.result, minutes.calls)

theorem mirrors_judgeNoting (judgement : Judgement) :
    Mirrors Diary.pass (tree.judgeNoting options judgement)
      (tree.judge options judgement) :=
  tree.mirrors_settleNoting _ _ _ judgement

theorem mirrors_reportNoting (node : NodeId) :
    Mirrors Minutes.review (tree.reportNoting options node)
      (tree.reportRelation options node) :=
  (Minutes.mirrors_inDiary (tree.mirrors_judgeNoting options _)).bind fun _ =>
    Minutes.mirrors_amend _

theorem mirrors_reportRelationsNoting (decl : NodeId) :
    Mirrors Minutes.review (tree.reportRelationsNoting options decl)
      (tree.reportRelations options decl) := by
  refine (Mirrors.look _).bind fun construct => ?_
  cases construct with
  | concept name parents relations =>
      exact .forM (tree.mirrors_reportNoting options) relations
  | _ => exact .pure ()

theorem mirrors_checkDeclNoting (decl : NodeId) :
    Mirrors Minutes.review (tree.checkDeclNoting options decl)
      (tree.checkDecl options decl) := by
  rw [checkDeclNoting, checkDecl, declType_eq]
  refine (Mirrors.look _).bind fun construct => ?_
  simp only [bind_assoc, pure_bind]
  refine (Minutes.mirrors_inDiary
    (Mirrors.rule (fun _ => Diary.mirrors_inPass _)
      (tree.mirrors_judgeNoting options) _)).bind fun ty => ?_
  exact (tree.mirrors_reportRelationsNoting options decl).bind fun _ =>
    Minutes.mirrors_amend _

theorem mirrors_reportOpenNoting (ref : NodeId) :
    Mirrors Minutes.review (tree.reportOpenNoting options ref)
      (tree.reportOpen options ref) := by
  refine Minutes.mirrors_current.bind fun review => (Mirrors.look _).bind
    fun covered => ?_
  cases covered with
  | true => exact .pure ()
  | false => exact tree.mirrors_reportNoting options ref

/-- A check with notes is a check. -/
theorem reviewNoting_eq (refs : List NodeId) :
    (tree.reviewNoting options refs).map (·.1) = tree.review options refs := by
  have hmirrors : Mirrors Minutes.review
      (do
        tree.roots.forM (tree.checkDeclNoting options)
        refs.forM (tree.reportOpenNoting options))
      (do
        tree.roots.forM (tree.checkDecl options)
        refs.forM (tree.reportOpen options)) :=
    (Mirrors.forM (tree.mirrors_checkDeclNoting options) _).bind fun _ =>
      .forM (tree.mirrors_reportOpenNoting options) refs
  have hrun :=
    hmirrors { review := { log := Log.withLimit options.maxDiagnostics } }
  simp only [reviewNoting, review]
  rw [← hrun]
  generalize StateT.run _ _ = out
  cases out <;> rfl

/-! ### Linking -/

/-- The relations that the field of a join may name: those visible on the
concept on its left. -/
def joinCandidatesNoting (scope : Scope) (join : NodeId) :
    DiaryM (List (String × NodeId)) := do
  match ← tree.construct join with
  | .join left _ =>
    match ← tree.judgeNoting options (.synth scope left) with
    | .concept concept => tree.relationCandidates concept.decl
    | _ => return []
  | _ => return []

/-- What the reference `ref` may name, the most preferred first. -/
def candidatesNoting (scope : Scope) (ref : NodeId) :
    DiaryM (List (String × NodeId)) := do
  match ← tree.contextOf ref with
  | .joinField join => tree.joinCandidatesNoting options scope join
  | context => tree.lexicalScope ref context

/-- The declaration that the reference `ref` names. -/
def resolveNoting (scope : Scope) (ref : NodeId) : DiaryM (Option NodeId) := do
  match ← tree.construct ref with
  | .reference text _ =>
      return (← tree.candidatesNoting options scope ref).lookup text
  | _ => return none

theorem mirrors_joinCandidatesNoting (scope : Scope) (join : NodeId) :
    Mirrors Diary.pass (tree.joinCandidatesNoting options scope join)
      (tree.joinCandidates options scope join) := by
  refine (Mirrors.look _).bind fun construct => ?_
  cases construct with
  | join left field =>
      refine (tree.mirrors_judgeNoting options _).bind fun ty => ?_
      cases ty with
      | concept concept => exact .look _
      | _ => exact .pure []
  | _ => exact .pure []

theorem mirrors_resolveNoting (scope : Scope) (ref : NodeId) :
    Mirrors Diary.pass (tree.resolveNoting options scope ref)
      (tree.resolve options scope ref) := by
  have hcandidates :
      Mirrors Diary.pass (tree.candidatesNoting options scope ref)
        (tree.candidates options scope ref) := by
    refine (Mirrors.look _).bind fun context => ?_
    cases context with
    | joinField join =>
        exact tree.mirrors_joinCandidatesNoting options scope join
    | _ => exact .look _
  refine (Mirrors.look _).bind fun construct => ?_
  cases construct with
  | reference text link => exact hcandidates.bind fun _ => .pure _
  | _ => exact .pure none

end Tree

/-- A computation that takes notes of calls. -/
abbrev NotingM := StateT (List Call) (Except TreeError)

/-- The first computation has the outcome of the second one, whatever its notes
are. -/
def Notes (x : NotingM α) (y : Except TreeError α) : Prop :=
  ∀ calls, (x.run calls).map (·.1) = y

theorem Notes.look (x : Except TreeError α) : Notes (liftM x) x := by
  intro calls
  cases x <;> rfl

theorem Notes.bind {x : NotingM α} {y : Except TreeError α} {f : α → NotingM β}
    {g : α → Except TreeError β} (h : Notes x y) (hf : ∀ a, Notes (f a) (g a)) :
    Notes (x >>= f) (y >>= g) := by
  intro calls
  rw [StateT.run_bind, ← h calls]
  cases x.run calls with
  | error e => rfl
  | ok out => exact hf out.1 out.2

namespace Tree

/-- The declaration that the reference `ref` names, found by a pass of its
own. -/
def resolveAfreshNoting (tree : Tree) (options : Options) (ref : NodeId) :
    NotingM (Option NodeId) := fun calls => do
  let out ← (tree.resolveNoting options Scope.empty ref).run { pass := {} }
  return (out.1, out.2.calls ++ calls)

/-- One round over the open references: the tree with those linked that can be,
and the others. -/
def linkRoundNoting (options : Options) (tree : Tree) :
    List NodeId → NotingM (Tree × List NodeId)
  | [] => return (tree, [])
  | ref :: refs => do
    match ← tree.resolveAfreshNoting options ref with
    | some target =>
        linkRoundNoting options (← tree.setLink ref (.resolved target)) refs
    | none =>
      let (tree, others) ← linkRoundNoting options tree refs
      return (tree, ref :: others)

/-- Rounds over the open references until one of them links nothing or nothing
is open. Also tells the number of rounds, after `rounds` earlier ones. -/
def linkRoundsNoting (options : Options) (tree : Tree) (refs : List NodeId)
    (rounds : Nat) :
    NotingM (Tree × List NodeId × Nat) := fun calls =>
  if refs.isEmpty then
    .ok ((tree, refs, rounds), calls)
  else
    match (linkRoundNoting options tree refs).run calls with
    | .error e => .error e
    | .ok ((tree, others), calls) =>
      if others.length < refs.length then
        linkRoundsNoting options tree others (rounds + 1) calls
      else
        .ok ((tree, others, rounds + 1), calls)
termination_by refs.length

/-- Links every open reference below the top-level declarations. -/
def linkNoting (tree : Tree) (options : Options) :
    NotingM (Tree × LinkReport) := do
  let opened ← tree.select (·.isOpen) (← tree.references)
  let (linked, others, rounds) ← linkRoundsNoting options tree opened 0
  let noted ← linked.noteUnresolved others
  return (noted, ⟨opened.length - others.length, others, rounds⟩)

/-- Links a tree and checks it, with all calls. -/
def linkAndCheckNoting (tree : Tree) (options : Options) :
    Except TreeError ((Tree × CheckResult) × List Call) := do
  let ((linked, report), calls) ← (tree.linkNoting options).run []
  let (result, later) ← linked.reviewNoting options report.unresolved
  return ((linked, result), later ++ calls)

theorem notes_resolveAfreshNoting (tree : Tree) (options : Options)
    (ref : NodeId) :
    Notes (tree.resolveAfreshNoting options ref)
      (tree.resolveAfresh options ref) := by
  intro calls
  have hrun := tree.mirrors_resolveNoting options Scope.empty ref { pass := {} }
  change _ = (tree.resolve options Scope.empty ref).run {} at hrun
  change Except.map _
    ((tree.resolveNoting options Scope.empty ref).run { pass := {} } >>= _) =
    Except.map (·.1) ((tree.resolve options Scope.empty ref).run {})
  rw [← hrun]
  cases (tree.resolveNoting options Scope.empty ref).run { pass := {} } <;> rfl

theorem notes_linkRoundNoting (options : Options) (tree : Tree)
    (refs : List NodeId) :
    Notes (linkRoundNoting options tree refs)
      (linkRound options tree refs) := by
  induction refs generalizing tree with
  | nil => exact fun _ => rfl
  | cons ref refs ih =>
      refine (tree.notes_resolveAfreshNoting options ref).bind fun found => ?_
      cases found with
      | some target => exact (Notes.look _).bind fun linked => ih linked
      | none => exact (ih tree).bind fun _ => .look (.ok _)

theorem notes_linkRoundsNoting (options : Options) (tree : Tree)
    (refs : List NodeId) (rounds : Nat) :
    Notes (linkRoundsNoting options tree refs rounds)
      (linkRounds options tree refs rounds) := by
  intro calls
  change (linkRoundsNoting options tree refs rounds calls).map (·.1) = _
  fun_induction linkRoundsNoting options tree refs rounds calls with
  | case1 tree refs rounds calls hempty =>
      rw [linkRounds, if_pos hempty]
      rfl
  | case2 tree refs rounds calls hempty e hrun =>
      have hround := notes_linkRoundNoting options tree refs calls
      rw [hrun] at hround
      rw [linkRounds, if_neg hempty, ← hround]
      rfl
  | case3 tree refs rounds calls hempty middle others calls' hrun hlt ih =>
      have hround := notes_linkRoundNoting options tree refs calls
      rw [hrun] at hround
      rw [linkRounds, if_neg hempty, ← hround, ih]
      exact (if_pos hlt).symm
  | case4 tree refs rounds calls hempty middle others calls' hrun hge =>
      have hround := notes_linkRoundNoting options tree refs calls
      rw [hrun] at hround
      rw [linkRounds, if_neg hempty, ← hround]
      exact (if_neg hge).symm

/-- Linking with notes is linking. -/
theorem notes_linkNoting (tree : Tree) (options : Options) :
    Notes (tree.linkNoting options) (tree.link options) := by
  refine (Notes.look _).bind fun refs => (Notes.look _).bind fun opened => ?_
  refine (notes_linkRoundsNoting options tree opened 0).bind fun out => ?_
  exact (Notes.look _).bind fun noted => .look (.ok _)

/-- Linking and checking with notes is linking and checking. -/
theorem linkAndCheckNoting_eq (tree : Tree) (options : Options) :
    (tree.linkAndCheckNoting options).map (·.1) =
      tree.linkAndCheck options := by
  rw [linkAndCheckNoting, linkAndCheck, ← tree.notes_linkNoting options []]
  cases (tree.linkNoting options).run [] with
  | error e => rfl
  | ok out =>
      obtain ⟨⟨linked, report⟩, calls⟩ := out
      have hreview := linked.reviewNoting_eq options report.unresolved
      simp only [bind, Except.bind, Except.map, ← hreview]
      cases linked.reviewNoting options report.unresolved <;> rfl

end Tree

end ConceptLang
