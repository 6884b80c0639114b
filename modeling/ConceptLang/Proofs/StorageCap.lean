import Mathlib.Data.List.Induction
import ConceptLang.Proofs.OpenReferences

/-!
# The cap on stored errors

A log is what becomes of the reports that were made, and its limit only decides
how many of the errors among them are stored (`Log.ofReports_eq`). No step of a
check looks into the log, so a check goes the same way and makes the same
reports whatever the limit is (`Review.Oblivious`), and linking knows of no
limit but that of depth. Two runs with different caps therefore differ in
nothing but the length of what they store.
-/

namespace ConceptLang

/-! ### Logs -/

namespace Log

/-- The log after `reports` were made, of which at most `limit` errors are
stored. -/
def ofReports (limit : Nat) (reports : List Diagnostic) : Log :=
  reports.foldl push (withLimit limit)

@[simp] theorem ofReports_nil (limit : Nat) :
    ofReports limit [] = withLimit limit := rfl

theorem ofReports_concat (limit : Nat) (reports : List Diagnostic)
    (report : Diagnostic) :
    ofReports limit (reports ++ [report]) =
      (ofReports limit reports).push report := by
  simp [ofReports]

/-- To store one more error if there is room is to store the first `limit` of
all. -/
theorem take_concat (errors : List Diagnostic) (error : Diagnostic)
    (limit : Nat) :
    (errors ++ [error]).take limit =
      if (errors.take limit).length < limit then errors.take limit ++ [error]
      else errors.take limit := by
  rw [List.take_append, List.length_take]
  split
  · next hroom => rw [List.take_of_length_le (l := [error]) (by simp; omega)]
  · next hfull =>
      rw [Nat.sub_eq_zero_of_le (by omega), List.take_zero, List.append_nil]

/-- Everything in a log but the stored errors is independent of the limit. -/
theorem ofReports_eq (limit : Nat) (reports : List Diagnostic) :
    ofReports limit reports =
      { errors := (reports.filter (·.severity = .error)).take limit
        warnings := reports.filter (·.severity = .warning)
        totalErrors := (reports.filter (·.severity = .error)).length
        totalWarnings := (reports.filter (·.severity = .warning)).length
        limit } := by
  induction reports using List.reverseRecOn with
  | nil => simp [withLimit]
  | append_singleton reports report ih =>
      rw [ofReports_concat, ih, push]
      cases hseverity : report.severity with
      | warning => simp [hseverity]
      | error => simp [take_concat, hseverity]

theorem hasErrors_ofReports (limit : Nat) (reports : List Diagnostic) :
    (ofReports limit reports).hasErrors = true ↔
      ∃ report ∈ reports, report.severity = .error := by
  rw [ofReports_eq, hasErrors, decide_eq_true_iff, List.length_filter_pos_iff]
  simp

end Log

/-! ### Checks under way -/

namespace Review

variable {α β : Type}

/-- The check under way with the log that `reports` make under a limit. -/
def logging (limit : Nat) (reports : List Diagnostic) (review : Review) :
    Review :=
  { review with log := .ofReports limit reports }

/-- The action goes the same way whatever the limit of the log is: it fails for
the same reason, or makes the same reports. -/
def Oblivious (action : ReviewM α) : Prop :=
  ∀ review reports,
    (∃ e, ∀ limit, action.run (logging limit reports review) = .error e) ∨
    ∃ a review' reports', ∀ limit,
      action.run (logging limit reports review) =
        .ok (a, logging limit reports' review')

namespace Oblivious

theorem pure (a : α) : Oblivious (pure a) :=
  fun review reports => Or.inr ⟨a, review, reports, fun _ => rfl⟩

theorem bind {action : ReviewM α} {next : α → ReviewM β} (h : Oblivious action)
    (hnext : ∀ a, Oblivious (next a)) : Oblivious (action >>= next) := by
  intro review reports
  rcases h review reports with ⟨e, he⟩ | ⟨a, middle, reports', hrun⟩
  · refine Or.inl ⟨e, fun limit => ?_⟩
    rw [StateT.run_bind, he limit]
    rfl
  · rcases hnext a middle reports' with ⟨e, he⟩ | ⟨b, last, reports'', hlast⟩
    · exact Or.inl
        ⟨e, fun limit => (run_bind_of_ok (hrun limit) next).trans (he limit)⟩
    · exact Or.inr ⟨b, last, reports'', fun limit =>
        (run_bind_of_ok (hrun limit) next).trans (hlast limit)⟩

theorem look (x : Except TreeError α) : Oblivious (liftM x : ReviewM α) := by
  cases x with
  | error e => exact fun _ _ => Or.inl ⟨e, fun _ => rfl⟩
  | ok a => exact .pure a

/-- What the pass remembers may be looked at. -/
theorem getPass {next : Review → ReviewM α}
    (h : ∀ review, Oblivious (next review))
    (hpass : ∀ review review', review.pass = review'.pass →
      next review = next review') :
    Oblivious (get >>= next) := by
  intro review reports
  have hrun (limit : Nat) : (get >>= next).run (logging limit reports review) =
      (next review).run (logging limit reports review) := by
    rw [← hpass (logging limit reports review) review rfl]
    rfl
  simp only [hrun]
  exact h review review reports

theorem inPass (action : PassM α) : Oblivious (inPass action) := by
  intro review reports
  simp only [StateT.run, inPass_apply]
  cases h : action review.pass with
  | error e => exact Or.inl ⟨e, fun limit => by rw [logging, h]⟩
  | ok out =>
      exact Or.inr ⟨out.1, { review with pass := out.2 }, reports,
        fun limit => by
        rw [logging, h]
        rfl⟩

/-- Whether a report is dropped depends on the reports before it, and not on
what is stored. -/
theorem report (tree : Tree) (ty : Ty) :
    Oblivious (modify (Review.report tree ty)) := by
  intro review reports
  cases ty with
  | error e =>
      by_cases h : review.reported.contains (e.node, e.message)
      · refine Or.inr ⟨(), review, reports, fun limit => ?_⟩
        change Except.ok
          ((), Review.report tree (.error e) (logging limit reports review)) = _
        simp only [Review.report, logging, h, if_true]
      · refine Or.inr
          ⟨(), { review with
            reported := (e.node, e.message) :: review.reported },
            reports ++ [e.diagnostic tree], fun limit => ?_⟩
        change Except.ok
          ((), Review.report tree (.error e) (logging limit reports review)) = _
        simp only [Review.report, logging, h, Log.ofReports_concat]
        rfl
  | _ => exact Or.inr ⟨(), review, reports, fun _ => rfl⟩

theorem summarise (summary : DeclSummary) :
    Oblivious (modify fun review =>
      { review with declarations := review.declarations ++ [summary] }) :=
  fun review reports => Or.inr
    ⟨(), { review with declarations := review.declarations ++ [summary] },
      reports, fun _ => rfl⟩

theorem forM {f : NodeId → ReviewM Unit} (h : ∀ x, Oblivious (f x))
    (xs : List NodeId) :
    Oblivious (xs.forM f) := by
  induction xs with
  | nil => exact .pure ()
  | cons x xs ih => exact (h x).bind fun _ => ih

end Oblivious

end Review

/-! ### The parts of a check -/

namespace Tree

open Review

theorem oblivious_reportRelation (tree : Tree) (options : Options)
    (relation : NodeId) :
    Oblivious (tree.reportRelation options relation) :=
  (Oblivious.inPass _).bind fun ty => .report tree ty

theorem oblivious_reportRelations (tree : Tree) (options : Options)
    (decl : NodeId) :
    Oblivious (tree.reportRelations options decl) := by
  refine (Oblivious.look _).bind fun construct => ?_
  cases construct with
  | concept name parents relations =>
      exact .forM (tree.oblivious_reportRelation options) relations
  | _ => exact .pure ()

theorem oblivious_checkDecl (tree : Tree) (options : Options) (decl : NodeId) :
    Oblivious (tree.checkDecl options decl) := by
  rw [checkDecl]
  refine (Oblivious.look _).bind fun construct => .bind ?_ fun ty => ?_
  · rw [declType_eq]
    exact (Oblivious.inPass _).bind fun ty =>
      (tree.oblivious_reportRelations options decl).bind fun _ => .pure ty
  · exact (Oblivious.report tree ty).bind fun _ => .summarise _

theorem oblivious_reportOpen (tree : Tree) (options : Options) (ref : NodeId) :
    Oblivious (tree.reportOpen options ref) := by
  apply Oblivious.getPass
  · refine fun review => (Oblivious.look _).bind fun covered => ?_
    cases covered with
    | true => exact .pure ()
    | false => exact (Oblivious.inPass _).bind fun ty => .report tree ty
  · intro review review' hpass
    rw [hpass]

/-- A check makes the same reports and sums up the declarations in the same way
for every cap. -/
theorem review_of_cap (tree : Tree) (depth : Nat) (refs : List NodeId) :
    (∃ e, ∀ cap, tree.review ⟨depth, cap⟩ refs = .error e) ∨
    ∃ declarations reports, ∀ cap,
      tree.review ⟨depth, cap⟩ refs =
        .ok (.of declarations (.ofReports cap reports)) := by
  have hoblivious : Oblivious (do
      tree.roots.forM (tree.checkDecl ⟨depth, 0⟩)
      refs.forM (tree.reportOpen ⟨depth, 0⟩)) :=
    (Oblivious.forM (tree.oblivious_checkDecl _) tree.roots).bind fun _ =>
      .forM (tree.oblivious_reportOpen _) refs
  rcases hoblivious { log := {} } [] with ⟨e, he⟩ | ⟨_, last, reports, hrun⟩
  · refine Or.inl ⟨e, fun cap => ?_⟩
    exact congrArg (· >>= fun out : Unit × Review => Except.ok out.2.result)
      (he cap)
  · refine Or.inr ⟨last.declarations, reports, fun cap => ?_⟩
    exact congrArg (· >>= fun out : Unit × Review => Except.ok out.2.result)
      (hrun cap)

/-! ### Linking -/

theorem resolveAfresh_of_cap (depth cap cap' : Nat) (tree : Tree)
    (ref : NodeId) :
    tree.resolveAfresh ⟨depth, cap⟩ ref =
      tree.resolveAfresh ⟨depth, cap'⟩ ref := rfl

theorem linkRound_of_cap (depth cap cap' : Nat) (tree : Tree)
    (refs : List NodeId) :
    linkRound ⟨depth, cap⟩ tree refs = linkRound ⟨depth, cap'⟩ tree refs := by
  induction refs generalizing tree with
  | nil => rfl
  | cons ref refs ih =>
      simp only [linkRound, resolveAfresh_of_cap depth cap cap', ih]

theorem linkRounds_of_cap (depth cap cap' : Nat) (tree : Tree)
    (refs : List NodeId) (rounds : Nat) :
    linkRounds ⟨depth, cap⟩ tree refs rounds =
      linkRounds ⟨depth, cap'⟩ tree refs rounds := by
  have hround := linkRound_of_cap depth cap cap'
  fun_induction linkRounds ⟨depth, cap⟩ tree refs rounds with
  | case1 tree refs rounds hempty => rw [linkRounds, if_pos hempty]
  | case2 tree refs rounds hempty e h =>
      rw [linkRounds, if_neg hempty, ← hround, h]
  | case3 tree refs rounds hempty tree' others h hless ih =>
      rw [ih]
      symm
      rw [linkRounds, if_neg hempty, ← hround, h]
      simp only [hless, if_true]
  | case4 tree refs rounds hempty tree' others h hless =>
      rw [linkRounds, if_neg hempty, ← hround, h]
      simp only [hless, if_false]

/-- Linking does not depend on the cap. -/
theorem link_of_cap (tree : Tree) (depth cap cap' : Nat) :
    tree.link ⟨depth, cap⟩ = tree.link ⟨depth, cap'⟩ := by
  simp only [link, linkRounds_of_cap depth cap cap']

end Tree

/-! ### Results -/

/-- Two results of one check, of which the first stores at most `cap` errors and
the second at most `cap'`. They tell of the same reports, and differ at most in
the errors that they store. -/
structure CheckResult.Curtails (cap cap' : Nat) (result full : CheckResult) :
    Prop where
  success : result.success = full.success
  declarations : result.declarations = full.declarations
  totalErrors : result.diagnostics.totalErrors = full.diagnostics.totalErrors
  totalWarnings :
    result.diagnostics.totalWarnings = full.diagnostics.totalWarnings
  warnings : result.diagnostics.warnings = full.diagnostics.warnings
  errors : result.diagnostics.errors = full.diagnostics.errors.take cap
  reports : ∃ reports : List Diagnostic,
    result.diagnostics = .ofReports cap reports ∧
    full.diagnostics = .ofReports cap' reports ∧
    (result.success = false ↔ ∃ report ∈ reports, report.severity = .error)

theorem CheckResult.curtails_of {cap cap' : Nat} (hcap : cap ≤ cap')
    (declarations : List DeclSummary) (reports : List Diagnostic) :
    Curtails cap cap' (.of declarations (.ofReports cap reports))
      (.of declarations (.ofReports cap' reports)) where
  success := by simp [CheckResult.of, Log.ofReports_eq, Log.hasErrors]
  declarations := rfl
  totalErrors := by simp [CheckResult.of, Log.ofReports_eq]
  totalWarnings := by simp [CheckResult.of, Log.ofReports_eq]
  warnings := by simp [CheckResult.of, Log.ofReports_eq]
  errors := by
    simp only [CheckResult.of, Log.ofReports_eq, List.take_take]
    rw [Nat.min_eq_left hcap]
  reports := by
    refine ⟨reports, rfl, rfl, ?_⟩
    have herrors := Log.hasErrors_ofReports cap reports
    simp [CheckResult.of, ← herrors]

/-- Two outcomes that are the same failure, or results that stand in a
relation. -/
inductive SameOutcome {α : Type} (rel : α → α → Prop) :
    Except TreeError α → Except TreeError α → Prop where
  | error (e : TreeError) : SameOutcome rel (.error e) (.error e)
  | ok {a b : α} (h : rel a b) : SameOutcome rel (.ok a) (.ok b)

theorem SameOutcome.of_ok {α : Type} {rel : α → α → Prop}
    {x y : Except TreeError α} (h : SameOutcome rel x y) {a : α}
    (hx : x = .ok a) : ∃ b, y = .ok b ∧ rel a b := by
  cases h with
  | error e => cases hx
  | ok h =>
      cases hx
      exact ⟨_, rfl, h⟩

theorem SameOutcome.map {α β : Type} {rel : α → α → Prop} {rel' : β → β → Prop}
    {x y : Except TreeError α} (h : SameOutcome rel x y) {f : α → β}
    (hf : ∀ a b, rel a b → rel' (f a) (f b)) :
    SameOutcome rel' (x.map f) (y.map f) := by
  cases h with
  | error e => exact .error e
  | ok h => exact .ok (hf _ _ h)

namespace Tree

theorem sameOutcome_review (tree : Tree) (depth : Nat) {cap cap' : Nat}
    (hcap : cap ≤ cap') (refs : List NodeId) :
    SameOutcome (CheckResult.Curtails cap cap') (tree.review ⟨depth, cap⟩ refs)
      (tree.review ⟨depth, cap'⟩ refs) := by
  rcases tree.review_of_cap depth refs with ⟨e, he⟩ | ⟨declarations, reports, h⟩
  · rw [he cap, he cap']
    exact .error e
  · rw [h cap, h cap']
    exact .ok (CheckResult.curtails_of hcap declarations reports)

/-- A closed tree whose declarations exist can be linked and checked. -/
theorem Closed.exists_linkAndCheck {tree : Tree} (closed : tree.Closed)
    (options : Options) (hroots : ∀ root ∈ tree.roots, root < tree.size) :
    ∃ linked result, tree.linkAndCheck options = .ok (linked, result) := by
  obtain ⟨linked, report, hlink⟩ := closed.exists_link hroots options
  obtain ⟨hshape, hclosed, hnoted⟩ := closed.link_keeps hlink
  rw [hshape.roots, hshape.size] at hroots
  obtain ⟨middle, hdecls, hkeeps⟩ := hclosed.exists_checkDecls options hroots
  have hfair := (carries_checkDecls (Nat.le_refl _) linked.roots
    (Review.fair_start linked options.maxDiagnostics) hdecls).fair
  obtain ⟨last, hopens, -, -⟩ :=
    hclosed.exists_reportOpens options report.unresolved hnoted hfair hkeeps
  have hreview := review_eq_ok_iff.mpr ⟨middle, last, hdecls, hopens, rfl⟩
  refine ⟨linked, last.result, ?_⟩
  rw [linkAndCheck, hlink]
  exact bind_eq_ok_iff.mpr ⟨(linked, report), rfl,
    bind_eq_ok_iff.mpr ⟨_, hreview, rfl⟩⟩

/-- The cap on stored errors is only a cap: a check, with or without linking,
comes to the same for all caps but for the number of errors that it stores, and
succeeds if and only if it reported no error, stored or not. -/
theorem checks_of_cap_le {tree : Tree} (closed : tree.Closed) (depth : Nat)
    {cap cap' : Nat} (hcap : cap ≤ cap') :
    ((∀ root ∈ tree.roots, root < tree.size) →
      (∃ result, tree.checkModel ⟨depth, cap⟩ = .ok result) ∧
      ∃ linked result, tree.linkAndCheck ⟨depth, cap⟩ = .ok (linked, result)) ∧
    SameOutcome (CheckResult.Curtails cap cap') (tree.checkModel ⟨depth, cap⟩)
      (tree.checkModel ⟨depth, cap'⟩) ∧
    SameOutcome
      (fun out full => out.1 = full.1 ∧ out.2.Curtails cap cap' full.2)
      (tree.linkAndCheck ⟨depth, cap⟩) (tree.linkAndCheck ⟨depth, cap'⟩) := by
  refine ⟨fun hroots => ⟨?_, ?_⟩, tree.sameOutcome_review depth hcap [], ?_⟩
  · obtain ⟨review, hrun, -⟩ := closed.exists_checkDecls ⟨depth, cap⟩ hroots
    exact ⟨review.result, checkModel_eq_ok_iff.mpr ⟨review, hrun, rfl⟩⟩
  · exact closed.exists_linkAndCheck ⟨depth, cap⟩ hroots
  · rw [linkAndCheck, linkAndCheck, tree.link_of_cap depth cap' cap]
    cases tree.link ⟨depth, cap⟩ with
    | error e => exact .error e
    | ok out =>
        have hreview := out.1.sameOutcome_review depth hcap out.2.unresolved
        exact hreview.map (f := fun result => (out.1, result)) fun _ _ h =>
          ⟨rfl, h⟩

/-- Two errors and a warning: a body that is no number, a name of nothing, and a
predicate. -/
def faultyModel : Tree :=
  let named (name : String) : Ident := ⟨name, Span.unknown⟩
  ofConstructs [
    .keywordType "Integer", .boolLit true, .var (named "n") (some 0) (some 1),
    .reference "nothing" .pending, .var (named "m") none (some 3),
    .param (named "y"), .keywordType "Integer", .typedParam 5 6, .boolLit true,
    .predicate (named "p") [7] (some 8)]
    [2, 4, 9]

theorem faultyModel_closed : faultyModel.Closed where
  grown := grown_ofConstructs _ _
  before := by decide +kernel
  links := by decide +kernel

theorem checks_of_cap_le_faultyModel : ∃ result full linked result' full',
    faultyModel.checkModel ⟨512, 0⟩ = .ok result ∧
    faultyModel.checkModel ⟨512, 1⟩ = .ok full ∧
    faultyModel.linkAndCheck ⟨512, 0⟩ = .ok (linked, result') ∧
    faultyModel.linkAndCheck ⟨512, 1⟩ = .ok (linked, full') ∧
    result.Curtails 0 1 full ∧ result'.Curtails 0 1 full' ∧
    result.success = false ∧ result.diagnostics.errors = [] ∧
    result.diagnostics.totalErrors = 2 ∧
    full.diagnostics.errors.length = 1 := by
  obtain ⟨hexists, hcheck, hlink⟩ :=
    checks_of_cap_le faultyModel_closed 512 (show (0 : Nat) ≤ 1 by decide)
  obtain ⟨⟨result, hresult⟩, linked, result', hresult'⟩ :=
    hexists (by decide +kernel)
  obtain ⟨full, hfull, hcurtails⟩ := hcheck.of_ok hresult
  obtain ⟨⟨_, full'⟩, hfull', rfl, hcurtails'⟩ := hlink.of_ok hresult'
  have hnone : (faultyModel.checkModel ⟨512, 0⟩).map
      (fun result =>
        (result.success, result.diagnostics.errors,
          result.diagnostics.totalErrors)) =
      .ok (false, [], 2) := by decide +kernel
  have hone : (faultyModel.checkModel ⟨512, 1⟩).map
      (·.diagnostics.errors.length) = .ok 1 := by
    decide +kernel
  rw [hresult] at hnone
  rw [hfull] at hone
  simp only [Except.map, Except.ok.injEq, Prod.mk.injEq] at hnone hone
  exact ⟨result, full, linked, result', full', hresult, hfull, hresult', hfull',
    hcurtails, hcurtails', hnone.1, hnone.2.1, hnone.2.2, hone⟩

end Tree

end ConceptLang
