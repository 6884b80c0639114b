import Mathlib.Data.List.Forall2
import ConceptLang.Model
import ConceptLang.Proofs.Discipline
import ConceptLang.Proofs.Walks

/-!
# Runs of a check

The type of a top-level declaration is settled by a rule of its own,
`Tree.declRule`, whose premises are judgements that no other one depends on. A
check of a model makes these judgements for one declaration after the other, all
in one pass. `Tree.checkModel_of_judge` says what follows for the summaries from
what is known about single judgements: an invariant of the pass that every
judgement keeps, the answers it allows, and what the rules of the declarations
make of these answers.
-/

namespace ConceptLang

theorem run_bind_eq_ok_iff {σ α β : Type} {x : StateT σ (Except TreeError) α}
    {f : α → StateT σ (Except TreeError) β} {s s' : σ} {b : β} :
    (x >>= f).run s = .ok (b, s') ↔
      ∃ a middle, x.run s = .ok (a, middle) ∧
        (f a).run middle = .ok (b, s') := by
  rw [StateT.run_bind, bind_eq_ok_iff]
  exact Prod.exists

theorem run_look_eq_ok_iff {σ α : Type} {x : Except TreeError α} {s s' : σ}
    {a : α} :
    (liftM x : StateT σ (Except TreeError) α).run s = .ok (a, s') ↔
      x = .ok a ∧ s' = s := by
  cases x with
  | error e => exact ⟨nofun, nofun⟩
  | ok b =>
      constructor
      · rintro ⟨⟩
        exact ⟨rfl, rfl⟩
      · rintro ⟨⟨⟩, rfl⟩
        rfl

theorem run_forM_cons_of_ok {σ α : Type}
    {f : α → StateT σ (Except TreeError) Unit} {x : α} {s s' : σ}
    (h : (f x).run s = .ok ((), s')) (xs : List α) :
    ((x :: xs).forM f).run s = (xs.forM f).run s' :=
  run_bind_of_ok h fun _ => xs.forM f

theorem run_forM_append_of_ok {σ α : Type}
    {f : α → StateT σ (Except TreeError) Unit} {xs : List α} {s s' : σ}
    (h : (xs.forM f).run s = .ok ((), s')) (ys : List α) :
    ((xs ++ ys).forM f).run s = (ys.forM f).run s' :=
  (congrArg (StateT.run · s) List.forM_append).trans (run_bind_of_ok h fun _ =>
    ys.forM f)

theorem run_forM_append_eq_ok_iff {σ α : Type}
    {f : α → StateT σ (Except TreeError) Unit} {xs ys : List α} {s s' : σ} :
    ((xs ++ ys).forM f).run s = .ok ((), s') ↔
      ∃ middle, (xs.forM f).run s = .ok ((), middle) ∧
        (ys.forM f).run middle = .ok ((), s') := by
  change (forM (xs ++ ys) f).run s = _ ↔ _
  rw [List.forM_append]
  exact run_bind_eq_ok_iff.trans
    ⟨fun ⟨(), middle, h⟩ => ⟨middle, h⟩, fun ⟨middle, h⟩ => ⟨(), middle, h⟩⟩

theorem run_forM_cons_eq_ok_iff {σ α : Type}
    {f : α → StateT σ (Except TreeError) Unit} {x : α} {xs : List α}
    {s s' : σ} :
    ((x :: xs).forM f).run s = .ok ((), s') ↔
      ∃ middle, (f x).run s = .ok ((), middle) ∧
        (xs.forM f).run middle = .ok ((), s') :=
  run_bind_eq_ok_iff.trans ⟨fun ⟨(), middle, h⟩ => ⟨middle, h⟩,
    fun ⟨middle, h⟩ => ⟨(), middle, h⟩⟩

namespace Review

variable {α β : Type}

theorem inPass_apply (action : PassM α) (review : Review) :
    inPass action review =
      match action review.pass with
      | .error e => .error e
      | .ok out => .ok (out.1, { review with pass := out.2 }) := by
  simp only [inPass, bind, StateT.bind, StateT.run, get, getThe,
    MonadStateOf.get, StateT.get, pure, Except.pure, Except.bind, liftM,
    monadLift, MonadLift.monadLift, StateT.lift]
  cases action review.pass <;> rfl

theorem inPass_pure (a : α) : inPass (pure a) = pure a := by
  funext review
  rfl

theorem inPass_bind (action : PassM α) (next : α → PassM β) :
    inPass (action >>= next) = inPass action >>= fun a => inPass (next a) := by
  funext review
  simp only [inPass_apply, bind, StateT.bind, Except.bind]
  cases action review.pass with
  | error e => rfl
  | ok out => cases next out.1 out.2 <;> rfl

theorem run_inPass {action : PassM α} {review : Review} {a : α} {pass : Pass}
    (h : action.run review.pass = .ok (a, pass)) :
    (inPass action).run review = .ok (a, { review with pass }) := by
  rw [StateT.run, inPass_apply, show action review.pass = .ok (a, pass) from h]

theorem run_inPass_eq_ok_iff {action : PassM α} {review review' : Review}
    {a : α} :
    (inPass action).run review = .ok (a, review') ↔
      ∃ pass, action.run review.pass = .ok (a, pass) ∧
        review' = { review with pass } := by
  constructor
  · intro h
    rw [StateT.run, inPass_apply] at h
    cases haction : action review.pass with
    | error e => simp [haction] at h
    | ok out =>
        rw [haction] at h
        cases h
        exact ⟨out.2, haction, rfl⟩
  · rintro ⟨pass, h, rfl⟩
    exact run_inPass h

theorem pass_report (tree : Tree) (ty : Ty) (review : Review) :
    (review.report tree ty).pass = review.pass := by
  unfold report
  split
  · split <;> rfl
  · rfl

theorem declarations_report (tree : Tree) (ty : Ty) (review : Review) :
    (review.report tree ty).declarations = review.declarations := by
  unfold report
  split
  · split <;> rfl
  · rfl

end Review

namespace Tree

/-- What has to be settled for the type of a top-level declaration. -/
def declRule (tree : Tree) (decl : NodeId) : Rule Ty := do
  match ← tree.construct decl with
  | .function _ _ _ _ =>
    let ty ← Rule.synth Scope.empty decl
    if ty.isFunction then Rule.check Scope.empty decl ty else return ty
  | .var _ (some typeNode) (some value) =>
    let ty ← Rule.synth Scope.empty typeNode
    if ty.isError then return ty else Rule.check Scope.empty value ty
  | _ => Rule.synth Scope.empty decl

/-- Reports the problems of a relation. -/
def reportRelation (tree : Tree) (options : Options) (relation : NodeId) :
    ReviewM Unit := do
  let ty ← Review.inPass (tree.synth options Scope.empty relation)
  modify (Review.report tree ty)

/-- Reports the problems of the relations of a concept. -/
def reportRelations (tree : Tree) (options : Options) (decl : NodeId) :
    ReviewM Unit := do
  match ← tree.construct decl with
  | .concept _ _ relations => relations.forM (tree.reportRelation options)
  | _ => return ()

/-- The type of a declaration is found by a run of its rule; all else is
reporting. -/
theorem declType_eq (tree : Tree) (options : Options) (decl : NodeId) :
    tree.declType options decl = do
      let ty ← Review.inPass
        ((tree.declRule decl).run (fun _ => Pass.mint) (tree.judge options))
      tree.reportRelations options decl
      return ty := by
  cases hconstruct : tree.construct decl with
  | error e =>
      simp only [declType, declRule, hconstruct]
      rfl
  | ok construct =>
      have hlift :
          (liftM (Except.ok construct : Except TreeError Construct) :
            ReviewM Construct) = pure construct := rfl
      simp only [declType, declRule, reportRelations, hconstruct, hlift,
        pure_bind, Rule.lift_ok, Rule.bind_eq, Rule.bind]
      cases construct with
      | function name params signature body =>
          simp only [Rule.synth, Rule.bind, Rule.run, Review.inPass_bind,
            pure_bind, bind_assoc]
          refine bind_congr fun ty => ?_
          cases ty.isFunction <;>
            simp [Rule.check, Rule.pure_eq, Rule.run, Review.inPass_pure,
              Tree.check]
      | var name typeNode value =>
          cases typeNode with
          | none => simp [Rule.synth, Rule.run, Tree.synth]
          | some typeNode =>
              cases value with
              | none => simp [Rule.synth, Rule.run, Tree.synth]
              | some value =>
                  simp only [Rule.synth, Rule.bind, Rule.run,
                    Review.inPass_bind, pure_bind, bind_assoc]
                  refine bind_congr fun ty => ?_
                  cases ty.isError <;>
                    simp [Rule.check, Rule.pure_eq, Rule.run,
                      Review.inPass_pure, Tree.check]
      | concept name parents relations =>
          simp only [Rule.synth, Rule.run, bind_pure]
          rfl
      | _ => simp [Rule.synth, Rule.run, Tree.synth]

theorem run_reportRelation_eq_ok_iff {tree : Tree} {options : Options}
    {relation : NodeId} {review review' : Review} :
    (tree.reportRelation options relation).run review = .ok ((), review') ↔
      ∃ ty pass, (tree.synth options Scope.empty relation).run review.pass =
        .ok (ty, pass) ∧
        review' = Review.report tree ty { review with pass } := by
  simp only [reportRelation, run_bind_eq_ok_iff, Review.run_inPass_eq_ok_iff]
  constructor
  · rintro ⟨ty, _, ⟨pass, h, rfl⟩, ⟨⟩⟩
    exact ⟨ty, pass, h, rfl⟩
  · rintro ⟨ty, pass, h, rfl⟩
    exact ⟨ty, _, ⟨pass, h, rfl⟩, rfl⟩

/-- What is known about the single judgements of a check: the invariant of the
pass that they keep, which ones are made, and which answers they get. -/
structure Judges (tree : Tree) (options : Options) (inv : Pass → Prop)
    (ask : Judgement → Prop) (answer : Judgement → Ty → Prop) : Prop where
  start : inv {}
  mint : ∀ (decl : NodeId) pass, inv pass →
    ∃ n pass', ((fun _ => Pass.mint) decl : PassM Nat).run pass =
      .ok (n, pass') ∧ inv pass'
  judge : ∀ judgement pass, ask judgement → inv pass → ∃ ty pass',
    (tree.judge options judgement).run pass = .ok (ty, pass') ∧ inv pass' ∧
    answer judgement ty

/-- A discipline is known to hold of the judgements that it is about. -/
theorem Discipline.judges {tree : Tree} (discipline : tree.Discipline)
    (options : Options) {ask : Judgement → Prop}
    (hask : ∀ judgement, ask judgement → discipline.ask judgement) :
    tree.Judges options discipline.Keeps ask discipline.answer where
  start := discipline.keeps_empty
  mint decl _ h := h.mint decl
  judge judgement _ hjudgement h :=
    discipline.settle _ _ [] judgement (hask judgement hjudgement) h

/-- The summary of the declaration `decl` with the type `ty`. -/
def IsSummary (tree : Tree) (decl : NodeId) (ty : Ty) (summary : DeclSummary) :
    Prop :=
  ∃ construct, tree.construct decl = .ok construct ∧
    summary = ⟨decl, construct.name?.getD "<anonymous>", construct.label,
      ty.text, !ty.isError⟩

/-- What it takes to check a declaration: its rule is run, the problems of its
relations are reported, and then its own. -/
theorem run_checkDecl_eq_ok_iff {tree : Tree} {options : Options}
    {decl : NodeId} {review review' : Review} :
    (tree.checkDecl options decl).run review = .ok ((), review') ↔
      ∃ ty pass middle summary,
        ((tree.declRule decl).run (fun _ => Pass.mint) (tree.judge options)).run
          review.pass = .ok (ty, pass) ∧
        (tree.reportRelations options decl).run { review with pass } =
          .ok ((), middle) ∧
        tree.IsSummary decl ty summary ∧
        review' = { middle.report tree ty with
          declarations := middle.declarations ++ [summary] } := by
  simp only [checkDecl, declType_eq, run_bind_eq_ok_iff, run_look_eq_ok_iff,
    Review.run_inPass_eq_ok_iff]
  constructor
  · rintro ⟨construct, _, ⟨hconstruct, rfl⟩, ty, middle,
      ⟨_, _, ⟨pass, hrule, rfl⟩, _, _, hreport, ⟨⟩⟩, ⟨⟩⟩
    refine ⟨ty, pass, middle, _, hrule, hreport, ⟨construct, hconstruct, rfl⟩,
      ?_⟩
    simp only [Review.declarations_report]
  · rintro ⟨ty, pass, middle, _, hrule, hreport, ⟨construct, hconstruct, rfl⟩,
      rfl⟩
    refine ⟨construct, review, ⟨hconstruct, rfl⟩, ty, middle,
      ⟨ty, _, ⟨pass, hrule, rfl⟩, (), middle, hreport, rfl⟩, ?_⟩
    rw [← Review.declarations_report tree ty middle]
    rfl

namespace Judges

variable {tree : Tree} {options : Options} {inv : Pass → Prop}
  {ask : Judgement → Prop} {answer : Judgement → Ty → Prop}
  (h : tree.Judges options inv ask answer)

include h

theorem reportRelation {relation : NodeId}
    (hask : ask (.synth Scope.empty relation)) {review : Review}
    (hinv : inv review.pass) :
    ∃ review', (tree.reportRelation options relation).run review =
      .ok ((), review') ∧ inv review'.pass ∧
      review'.declarations = review.declarations := by
  obtain ⟨ty, pass, hrun, hpass, -⟩ := h.judge _ review.pass hask hinv
  refine ⟨Review.report tree ty { review with pass }, ?_, ?_, ?_⟩
  · exact run_bind_of_ok (Review.run_inPass hrun) _
  · rw [Review.pass_report]
    exact hpass
  · rw [Review.declarations_report]

theorem reportRelations {decl : NodeId} (hdecl : decl < tree.size)
    (hask : ∀ relation, tree.Declares decl relation →
      ask (.synth Scope.empty relation))
    {review : Review} (hinv : inv review.pass) :
    ∃ review', (tree.reportRelations options decl).run review =
      .ok ((), review') ∧ inv review'.pass ∧
      review'.declarations = review.declarations := by
  obtain ⟨construct, hconstruct⟩ := exists_construct hdecl
  rw [Tree.reportRelations, hconstruct]
  cases construct with
  | concept name parents relations =>
      have hrelations : ∀ relation ∈ relations,
          ask (.synth Scope.empty relation) :=
        fun relation hmem =>
          hask relation ⟨name, parents, relations, hconstruct, hmem⟩
      clear hconstruct
      change ∃ review',
        (relations.forM (tree.reportRelation options)).run review = _ ∧ _
      induction relations generalizing review with
      | nil => exact ⟨review, rfl, hinv, rfl⟩
      | cons relation relations ih =>
          obtain ⟨middle, hrun, hmiddle, heq⟩ :=
            h.reportRelation (hrelations relation (by simp)) hinv
          obtain ⟨last, hrest, hlast, heq'⟩ :=
            ih hmiddle fun other hother => hrelations other (by simp [hother])
          exact ⟨last, (run_forM_cons_of_ok hrun relations).trans hrest, hlast,
            heq'.trans heq⟩
  | _ => exact ⟨review, rfl, hinv, rfl⟩

/-- One declaration: its type is as its rule says, and its summary is added to
the others. -/
theorem checkDecl {decl : NodeId} {post : Ty → Prop} (hdecl : decl < tree.size)
    (hrule : (tree.declRule decl).Meets ask answer post)
    (hask : ∀ relation, tree.Declares decl relation →
      ask (.synth Scope.empty relation))
    {review : Review} (hinv : inv review.pass) :
    ∃ review' ty summary, (tree.checkDecl options decl).run review =
      .ok ((), review') ∧ inv review'.pass ∧
      review'.declarations = review.declarations ++ [summary] ∧
      tree.IsSummary decl ty summary ∧ post ty := by
  obtain ⟨construct, hconstruct⟩ := exists_construct hdecl
  obtain ⟨ty, pass, hrun, hpass, hpost⟩ :=
    Rule.Meets.run h.mint h.judge hrule hinv
  obtain ⟨middle, hreport, hmiddle, heq⟩ :=
    h.reportRelations hdecl hask (show inv ({ review with pass } : Review).pass
      from hpass)
  have hsummary : tree.IsSummary decl ty _ := ⟨construct, hconstruct, rfl⟩
  refine ⟨_, ty, _,
    run_checkDecl_eq_ok_iff.mpr ⟨ty, pass, middle, _, hrun, hreport, hsummary,
      rfl⟩, ?_, ?_, hsummary, hpost⟩
  · rw [← Review.pass_report tree ty middle] at hmiddle
    exact hmiddle
  · simp only [heq]

/-- All declarations, one after the other. -/
theorem checkDecls {post : NodeId → Ty → Prop} (decls : List NodeId)
    (hdecls : ∀ decl ∈ decls, decl < tree.size)
    (hrule : ∀ decl ∈ decls, (tree.declRule decl).Meets ask answer (post decl))
    (hask : ∀ decl ∈ decls, ∀ relation, tree.Declares decl relation →
      ask (.synth Scope.empty relation))
    {review : Review} (hinv : inv review.pass) :
    ∃ review' summaries, (decls.forM (tree.checkDecl options)).run review =
      .ok ((), review') ∧ inv review'.pass ∧
      review'.declarations = review.declarations ++ summaries ∧
      List.Forall₂ (fun decl summary => ∃ ty, tree.IsSummary decl ty summary ∧
        post decl ty) decls summaries := by
  induction decls generalizing review with
  | nil => exact ⟨review, [], rfl, hinv, by simp, .nil⟩
  | cons decl decls ih =>
      obtain ⟨middle, ty, summary, hrun, hmiddle, heq, hsummary, hpost⟩ :=
        h.checkDecl (hdecls decl (by simp)) (hrule decl (by simp))
          (hask decl (by simp)) hinv
      obtain ⟨last, summaries, hrest, hlast, heq', hforall⟩ :=
        ih (fun other hother => hdecls other (by simp [hother]))
          (fun other hother => hrule other (by simp [hother]))
          (fun other hother => hask other (by simp [hother])) hmiddle
      refine ⟨last, summary :: summaries,
        (run_forM_cons_of_ok hrun decls).trans hrest, hlast, ?_,
        .cons ⟨ty, hsummary, hpost⟩ hforall⟩
      rw [heq', heq, List.append_assoc, List.singleton_append]

/-- A check of a model has a result, with one summary for each top-level
declaration. -/
theorem checkModel {post : NodeId → Ty → Prop}
    (hroots : ∀ decl ∈ tree.roots, decl < tree.size)
    (hrule : ∀ decl ∈ tree.roots, (tree.declRule decl).Meets ask answer
      (post decl))
    (hask : ∀ decl ∈ tree.roots, ∀ relation, tree.Declares decl relation →
      ask (.synth Scope.empty relation)) :
    ∃ result, tree.checkModel options = .ok result ∧
      List.Forall₂ (fun decl summary => ∃ ty, tree.IsSummary decl ty summary ∧
        post decl ty) tree.roots result.declarations := by
  obtain ⟨last, summaries, hrun, -, heq, hforall⟩ :=
    h.checkDecls tree.roots hroots hrule hask
    (show inv ({ log := Log.withLimit options.maxDiagnostics } : Review).pass
      from h.start)
  refine ⟨last.result, ?_, ?_⟩
  · rw [Tree.checkModel, Tree.review]
    have hall := run_bind_of_ok hrun fun _ => [].forM (tree.reportOpen options)
    simp only [hall]
    rfl
  · rw [Review.result, CheckResult.of, heq]
    exact hforall

end Judges

end Tree

end ConceptLang
