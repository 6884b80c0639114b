import Mathlib.Data.List.Perm.Basic
import ConceptLang.Proofs.CanonicalTypes
import ConceptLang.Proofs.StorageCap

/-!
# Diagnostics account for failed declarations

A check reports the types of the relations of concepts and of the declarations
themselves, as far as they are problems. It says the same about the same node
only once, and what kind of problem it is does not matter for that. So its log
is made of a list of problems that differ in node or message, and its books
balance (`Review.Balances`): this list gives the log and the keys that were
reported.

A problem that is not reported because its key was there before is accounted for
by the problem with that key. The two are of the same severity, since both are
faults, and the message of a missing rule is not the message of anything else.
-/

namespace ConceptLang

/-- What a problem is known by when it is reported. -/
def TypeError.key (e : TypeError) : NodeId × String :=
  (e.node, e.message)

/-- What a diagnostic is known by. -/
def Diagnostic.key (diagnostic : Diagnostic) : NodeId × String :=
  (diagnostic.node, diagnostic.message)

/-- The code for rules that do not exist yet. -/
def Code.missingRule : Code := ⟨900⟩

namespace TypeError

variable {tree : Tree} {e e' : TypeError}

@[simp] theorem key_diagnostic (tree : Tree) (e : TypeError) :
    (e.diagnostic tree).key = e.key := rfl

theorem category_diagnostic (tree : Tree) (e : TypeError) :
    (e.diagnostic tree).category = (e.diagnostic tree).code.category := rfl

theorem code_diagnostic_eq_iff (tree : Tree) (e : TypeError) :
    (e.diagnostic tree).code = .missingRule ↔
      (e.diagnostic tree).severity = .warning := by
  cases hkind : e.kind <;>
    simp [diagnostic, Diagnostic.ofCode, hkind, ErrorKind.code,
      Code.missingRule]

theorem severity_eq_warning_iff (tree : Tree) (e : TypeError) :
    (e.diagnostic tree).severity = .warning ↔ e.kind = .notImplemented := by
  simp [diagnostic, Diagnostic.ofCode]

theorem span_diagnostic {node : Node} (h : tree.get? e.node = some node) :
    (e.diagnostic tree).span = node.span := by
  simp [diagnostic, Diagnostic.ofCode, h]

/-- Faults that are known by the same key are of the same severity. -/
theorem severity_eq_of_key (h : (Ty.error e).Regular tree)
    (h' : (Ty.error e').Regular tree) (hkey : e.key = e'.key) :
    (e.diagnostic tree).severity = (e'.diagnostic tree).severity := by
  obtain ⟨node, cause, -, rfl⟩ := h.exists_fault
  obtain ⟨node', cause', -, rfl⟩ := h'.exists_fault
  have hmessage : cause.message = cause'.message := congrArg Prod.snd hkey
  have hiff := (cause.isSevere_toError_iff node).trans
    (hmessage ▸ (cause'.isSevere_toError_iff node').symm)
  rw [← severity_diagnostic tree, ← severity_diagnostic tree] at hiff
  cases hseverity : ((cause.toError node).diagnostic tree).severity <;>
    cases hseverity' : ((cause'.toError node').diagnostic tree).severity <;>
      simp_all

end TypeError

/-! ### The books of a check -/

namespace Review

/-- The log and the reported keys are those of `errors`, a list of faults in
which no key comes twice. -/
structure Balances (tree : Tree) (limit : Nat) (errors : List TypeError)
    (review : Review) :
    Prop where
  log : review.log = .ofReports limit (errors.map (·.diagnostic tree))
  reported : review.reported = (errors.map (·.key)).reverse
  once : (errors.map (·.key)).Nodup
  regular : ∀ e ∈ errors, (Ty.error e).Regular tree

variable {tree : Tree} {limit : Nat} {errors : List TypeError} {review : Review}

theorem balances_start (tree : Tree) (limit : Nat) :
    Balances tree limit [] { log := Log.withLimit limit } :=
  ⟨rfl, rfl, .nil, by simp⟩

/-- A report enters a problem into the books unless its key is there. -/
theorem Balances.report (h : review.Balances tree limit errors) {ty : Ty}
    (hty : ty.Regular tree) :
    ∃ errors', (review.report tree ty).Balances tree limit errors' ∧
      errors <+: errors' ∧
      ∀ e, ty = .error e → e.key ∈ errors'.map (·.key) := by
  cases ty with
  | error e =>
      rw [Review.report]
      split
      · next hmem =>
          refine ⟨errors, h, List.prefix_refl _, ?_⟩
          rintro _ ⟨⟩
          have hmem := List.contains_iff_mem.mp hmem
          rwa [h.reported, List.mem_reverse] at hmem
      · next hnew =>
          have hnew : e.key ∉ errors.map (·.key) := fun hmem =>
            hnew (List.contains_iff_mem.mpr
              (by rwa [h.reported, List.mem_reverse]))
          refine ⟨errors ++ [e], ⟨?_, ?_, ?_, ?_⟩, List.prefix_append _ _, ?_⟩
          · simp only [h.log, List.map_append, List.map_cons, List.map_nil,
              Log.ofReports_concat]
          · simp only [h.reported, List.map_append, List.map_cons, List.map_nil,
              List.reverse_append]
            rfl
          · rw [List.map_append, List.map_singleton, ← List.concat_eq_append]
            exact h.once.concat hnew
          · rw [List.forall_mem_append]
            exact ⟨h.regular, by simpa using hty⟩
          · rintro _ ⟨⟩
            simp
  | _ => exact ⟨errors, h, List.prefix_refl _, by rintro e ⟨⟩⟩

/-! ### What balanced books say about the log -/

namespace Balances

variable (h : review.Balances tree limit errors)

include h

theorem stored_eq : review.log.stored =
    ((errors.map (·.diagnostic tree)).filter (·.severity = .error)).take
      limit ++ (errors.map (·.diagnostic tree)).filter
        (·.severity = .warning) := by
  rw [h.log, Log.ofReports_eq]
  rfl

/-- No two diagnostics in the log have the same key. -/
theorem nodup_stored : (review.log.stored.map (·.key)).Nodup := by
  let reports := errors.map (·.diagnostic tree)
  have hreports : (reports.map (·.key)).Nodup := by
    simpa [reports, Function.comp_def] using h.once
  have hsplit : reports.filter (·.severity = .warning) =
      reports.filter (fun report => !decide (report.severity = .error)) :=
    List.filter_congr fun report _ => by cases report.severity <;> simp
  have hperm : List.Perm (reports.filter (·.severity = .error) ++
      reports.filter (·.severity = .warning)) reports := by
    rw [hsplit]
    exact List.filter_append_perm _ reports
  have hsub : List.Sublist review.log.stored
    (reports.filter (·.severity = .error) ++
      reports.filter (·.severity = .warning)) := by
    rw [h.stored_eq]
    exact (List.take_sublist _ _).append_right _
  exact ((hperm.map _).nodup_iff.mpr hreports).sublist (hsub.map _)

theorem exists_of_mem_stored {diagnostic : Diagnostic}
    (hmem : diagnostic ∈ review.log.stored) :
    ∃ e ∈ errors, diagnostic = e.diagnostic tree := by
  rw [h.stored_eq, List.mem_append] at hmem
  have hreport : diagnostic ∈ errors.map (·.diagnostic tree) :=
    hmem.elim (fun herror =>
      List.mem_of_mem_filter (List.mem_of_mem_take herror))
      List.mem_of_mem_filter
  obtain ⟨e, he, rfl⟩ := List.mem_map.mp hreport
  exact ⟨e, he, rfl⟩

theorem severity_of_mem_errors {diagnostic : Diagnostic}
    (hmem : diagnostic ∈ review.log.errors) :
    diagnostic.severity = .error := by
  rw [h.log, Log.ofReports_eq] at hmem
  simpa using List.of_mem_filter (List.mem_of_mem_take hmem)

theorem mem_warnings_iff {diagnostic : Diagnostic} :
    diagnostic ∈ review.log.warnings ↔
      ∃ e ∈ errors, diagnostic = e.diagnostic tree ∧
        diagnostic.severity = .warning := by
  rw [h.log, Log.ofReports_eq]
  simp only [List.mem_filter, List.mem_map, decide_eq_true_eq]
  constructor
  · rintro ⟨⟨e, he, rfl⟩, hseverity⟩
    exact ⟨e, he, rfl, hseverity⟩
  · rintro ⟨e, he, rfl, hseverity⟩
    exact ⟨⟨e, he, rfl⟩, hseverity⟩

/-- If the errors are within the limit, then the log stores all there is. -/
theorem mem_stored_of_mem (hlimit : review.log.totalErrors ≤ limit)
    {e : TypeError} (he : e ∈ errors) :
    e.diagnostic tree ∈ review.log.stored := by
  rw [h.log, Log.ofReports_eq] at hlimit
  have hreport : e.diagnostic tree ∈ errors.map (·.diagnostic tree) :=
    List.mem_map.mpr ⟨e, he, rfl⟩
  rw [h.stored_eq, List.take_of_length_le hlimit, List.mem_append]
  cases hseverity : (e.diagnostic tree).severity with
  | error =>
      exact Or.inl (List.mem_filter.mpr ⟨hreport, by simpa using hseverity⟩)
  | warning =>
      exact Or.inr (List.mem_filter.mpr ⟨hreport, by simpa using hseverity⟩)

theorem severity_of_not_hasErrors (hnone : review.log.hasErrors = false)
    {e : TypeError} (he : e ∈ errors) :
    (e.diagnostic tree).severity = .warning := by
  cases hseverity : (e.diagnostic tree).severity with
  | warning => rfl
  | error =>
      have hsome :=
        (Log.hasErrors_ofReports limit (errors.map (·.diagnostic tree))).mpr
        ⟨_, List.mem_map.mpr ⟨e, he, rfl⟩, hseverity⟩
      rw [← h.log, hnone] at hsome
      cases hsome

/-- Two stored diagnostics with the same key are one. -/
theorem eq_of_key {diagnostic other : Diagnostic}
    (hmem : diagnostic ∈ review.log.stored) (hother : other ∈ review.log.stored)
    (hkey : diagnostic.key = other.key) :
    diagnostic = other :=
  List.inj_on_of_nodup_map h.nodup_stored hmem hother hkey

/-- Every stored diagnostic stands where its node stands, and in the category of
its code. -/
theorem placed {diagnostic : Diagnostic}
    (hmem : diagnostic ∈ review.log.stored) :
    diagnostic.category = diagnostic.code.category ∧
      ∃ node, tree.get? diagnostic.node = some node ∧
        diagnostic.span = node.span := by
  obtain ⟨e, he, rfl⟩ := h.exists_of_mem_stored hmem
  obtain ⟨id, cause, hid, rfl⟩ := (h.regular e he).exists_fault
  obtain ⟨node, hnode⟩ := Tree.exists_get? hid
  exact ⟨TypeError.category_diagnostic tree _, node, hnode,
    TypeError.span_diagnostic hnode⟩

end Balances

end Review

/-! ### Runs -/

namespace Tree

variable {tree : Tree} {complete : tree.Complete} {options : Options}
  {limit : Nat} {errors : List TypeError} {review review' : Review}

/-- A check under way that keeps to the discipline and whose books balance. -/
structure InOrder (complete : tree.Complete) (limit : Nat)
    (errors : List TypeError) (review : Review) : Prop where
  keeps : complete.upkeep.Keeps review.pass
  balances : review.Balances tree limit errors

theorem InOrder.report (h : InOrder complete limit errors review) {ty : Ty}
    (hty : ty.Regular tree) :
    ∃ errors', InOrder complete limit errors' (review.report tree ty) ∧
      errors <+: errors' ∧
      ∀ e, ty = .error e → e.key ∈ errors'.map (·.key) := by
  obtain ⟨errors', hbalances, hadds, hmem⟩ := h.balances.report hty
  refine ⟨errors', ⟨?_, hbalances⟩, hadds, hmem⟩
  rw [Review.pass_report]
  exact h.keeps

theorem InOrder.withPass (h : InOrder complete limit errors review)
    {pass : Pass} (hpass : complete.upkeep.Keeps pass) :
    InOrder complete limit errors { review with pass } :=
  ⟨hpass, h.balances.log, h.balances.reported, h.balances.once,
    h.balances.regular⟩

/-- Steps that keep the books and only add to them do so one after the other. -/
theorem InOrder.forM {f : NodeId → ReviewM Unit} {ids : List NodeId}
    (hf : ∀ id ∈ ids, ∀ errors review review',
      InOrder complete limit errors review →
      (f id).run review = .ok ((), review') →
      ∃ errors', InOrder complete limit errors' review' ∧ errors <+: errors')
    (h : InOrder complete limit errors review)
    (hrun : (ids.forM f).run review = .ok ((), review')) :
    ∃ errors', InOrder complete limit errors' review' ∧ errors <+: errors' := by
  induction ids generalizing errors review with
  | nil =>
      cases hrun
      exact ⟨errors, h, List.prefix_refl _⟩
  | cons id ids ih =>
      obtain ⟨middle, hfirst, hrest⟩ := run_forM_cons_eq_ok_iff.mp hrun
      obtain ⟨errors', hmiddle, hadds⟩ :=
        hf id (by simp) errors review middle h hfirst
      obtain ⟨errors'', hlast, hadds'⟩ :=
        ih (fun other hother => hf other (by simp [hother])) hmiddle hrest
      exact ⟨errors'', hlast, hadds.trans hadds'⟩

theorem InOrder.reportRelation (h : InOrder complete limit errors review)
    {relation : NodeId} (hrelation : relation < tree.size)
    (hrun : (tree.reportRelation options relation).run review =
      .ok ((), review')) :
    ∃ errors', InOrder complete limit errors' review' ∧ errors <+: errors' := by
  obtain ⟨ty, pass, hsynth, rfl⟩ := run_reportRelation_eq_ok_iff.mp hrun
  obtain ⟨ty', pass', hsettle, hpass, hty⟩ :=
    complete.upkeep.settle options.maxDepth
    options.maxDepth [] _ (.synth (Scope.canonical_empty tree) hrelation)
      h.keeps
  obtain ⟨rfl, rfl⟩ : ty = ty' ∧ pass = pass' := by
    simpa using hsynth.symm.trans hsettle
  obtain ⟨errors', horder, hadds, -⟩ := (h.withPass hpass).report hty
  exact ⟨errors', horder, hadds⟩

theorem InOrder.reportRelations (h : InOrder complete limit errors review)
    {decl : NodeId}
    (hrun : (tree.reportRelations options decl).run review =
      .ok ((), review')) :
    ∃ errors', InOrder complete limit errors' review' ∧ errors <+: errors' := by
  rw [Tree.reportRelations] at hrun
  obtain ⟨construct, _, hlook, hrun⟩ := run_bind_eq_ok_iff.mp hrun
  obtain ⟨hconstruct, rfl⟩ := run_look_eq_ok_iff.mp hlook
  cases construct with
  | concept name parents relations =>
      refine InOrder.forM (fun relation hmem _ _ _ horder hstep => ?_) h hrun
      exact horder.reportRelation
        (complete.part_lt_size hconstruct (by simp [Construct.children, hmem]))
        hstep
  | _ =>
      cases hrun
      exact ⟨errors, h, List.prefix_refl _⟩

/-- The type of a declaration is regular, and to find it keeps the books. -/
theorem InOrder.declType (h : InOrder complete limit errors review)
    {decl : NodeId} {ty : Ty} (hdecl : decl < tree.size)
    (hrun : (tree.declType options decl).run review = .ok (ty, review')) :
    ty.Regular tree ∧ review'.declarations = review.declarations ∧
      ∃ errors', InOrder complete limit errors' review' ∧
        errors <+: errors' := by
  rw [declType_eq] at hrun
  obtain ⟨found, _, hfound, hrun⟩ := run_bind_eq_ok_iff.mp hrun
  obtain ⟨pass, hrule, rfl⟩ := Review.run_inPass_eq_ok_iff.mp hfound
  obtain ⟨_, last, hreport, hreturn⟩ := run_bind_eq_ok_iff.mp hrun
  cases hreturn
  have hjudges := complete.upkeep.judges options fun _ h => h
  obtain ⟨ty', pass', hrule', hpass, hty⟩ :=
    Rule.Meets.run hjudges.mint hjudges.judge
    (regulated_declRule complete hdecl) h.keeps
  obtain ⟨rfl, rfl⟩ : ty = ty' ∧ pass = pass' := by
    simpa using hrule.symm.trans hrule'
  have horder := h.withPass hpass
  obtain ⟨last, hreport', -, hdeclarations⟩ := hjudges.reportRelations hdecl
    (fun relation hrelation =>
      .synth (Scope.canonical_empty tree) (complete.declares_lt_size hrelation))
      horder.keeps
  obtain rfl : review' = last := by simpa using hreport.symm.trans hreport'
  exact ⟨hty, hdeclarations, horder.reportRelations hreport⟩

/-- A declaration is checked by finding its type, and then reported and summed
up. -/
theorem run_checkDecl_eq_ok_iff_declType {decl : NodeId} :
    (tree.checkDecl options decl).run review = .ok ((), review') ↔
      ∃ ty middle summary, (tree.declType options decl).run review =
        .ok (ty, middle) ∧ tree.IsSummary decl ty summary ∧
        review' = { middle.report tree ty with
          declarations := middle.declarations ++ [summary] } := by
  simp only [checkDecl, run_bind_eq_ok_iff, run_look_eq_ok_iff]
  constructor
  · rintro ⟨construct, _, ⟨hconstruct, rfl⟩, ty, middle, htype, ⟨⟩⟩
    refine ⟨ty, middle, _, htype, ⟨construct, hconstruct, rfl⟩, ?_⟩
    simp only [Review.declarations_report]
  · rintro ⟨ty, middle, _, htype, ⟨construct, hconstruct, rfl⟩, rfl⟩
    refine ⟨construct, review, ⟨hconstruct, rfl⟩, ty, middle, htype, ?_⟩
    rw [← Review.declarations_report tree ty middle]
    rfl

/-- One declaration: if its type is a problem, then the problem is in the books
afterwards. -/
theorem InOrder.checkDecl (h : InOrder complete limit errors review)
    {decl : NodeId}
    (hrun : (tree.checkDecl options decl).run review = .ok ((), review')) :
    ∃ ty middle summary errors', (tree.declType options decl).run review =
      .ok (ty, middle) ∧ tree.IsSummary decl ty summary ∧ ty.Regular tree ∧
      review'.declarations = review.declarations ++ [summary] ∧
      InOrder complete limit errors' review' ∧ errors <+: errors' ∧
      ∀ e, ty = .error e → e.key ∈ errors'.map (·.key) := by
  obtain ⟨ty, middle, summary, htype, hsummary, rfl⟩ :=
    run_checkDecl_eq_ok_iff_declType.mp hrun
  have hdecl := hsummary.elim fun construct hsummary =>
    lt_size_of_construct hsummary.1
  obtain ⟨hty, hdeclarations, errors', hmiddle, hadds⟩ := h.declType hdecl htype
  obtain ⟨errors'', hlast, hadds', hmem⟩ := hmiddle.report hty
  refine ⟨ty, middle, summary, errors'', htype, hsummary,
    hty, by rw [hdeclarations],
    ⟨hlast.keeps, hlast.balances.log, hlast.balances.reported,
      hlast.balances.once, hlast.balances.regular⟩, hadds.trans hadds', hmem⟩

theorem InOrder.checkDecls (h : InOrder complete limit errors review)
    {decls : List NodeId}
    (hrun : (decls.forM (tree.checkDecl options)).run review =
      .ok ((), review')) :
    (∃ errors', InOrder complete limit errors' review' ∧ errors <+: errors') ∧
      ∃ summaries, review'.declarations = review.declarations ++ summaries ∧
        summaries.map (·.node) = decls := by
  refine ⟨InOrder.forM (fun decl _ _ _ _ horder hstep => ?_) h hrun, ?_⟩
  · obtain ⟨_, _, _, errors', -, -, -, -, horder', hadds, -⟩ :=
      horder.checkDecl hstep
    exact ⟨errors', horder', hadds⟩
  · obtain ⟨last, summaries, hrun', -, heq, hforall⟩ :=
      complete.exists_checkDecls options decls
      (lt_size_of_checkDecls hrun) h.keeps
    obtain rfl : review' = last := by simpa using hrun.symm.trans hrun'
    refine ⟨summaries, heq, ?_⟩
    clear heq hrun hrun'
    induction hforall with
    | nil => rfl
    | cons hsummary _ ih =>
        obtain ⟨ty, ⟨construct, -, rfl⟩, -⟩ := hsummary
        rw [List.map_cons, ih]

/-- The declaration at each place of a run: its type, its summary, and the
problems in the books in the end. -/
theorem InOrder.checkDecl_at (h : InOrder complete limit errors review)
    {before after : List NodeId} {decl : NodeId}
    (hrun : ((before ++ decl :: after).forM (tree.checkDecl options)).run
      review = .ok ((), review')) :
    ∃ earlier ty later summary errors',
      (before.forM (tree.checkDecl options)).run review = .ok ((), earlier) ∧
      (tree.declType options decl).run earlier = .ok (ty, later) ∧
      review'.declarations[review.declarations.length + before.length]? =
        some summary ∧
      tree.IsSummary decl ty summary ∧ ty.Regular tree ∧
      InOrder complete limit errors' review' ∧
      ∀ e, ty = .error e → e.key ∈ errors'.map (·.key) := by
  obtain ⟨earlier, hbefore, hrest⟩ := run_forM_append_eq_ok_iff.mp hrun
  obtain ⟨middle, hdecl, hafter⟩ := run_forM_cons_eq_ok_iff.mp hrest
  obtain ⟨⟨errors₁, hearlier, -⟩, summaries, heq₁, hnodes⟩ :=
    h.checkDecls hbefore
  obtain ⟨ty, later, summary, errors₂, htype, hsummary, hty, heq₂, hmiddle, -,
      hmem⟩ :=
    hearlier.checkDecl hdecl
  obtain ⟨⟨errors₃, hlast, hadds⟩, rest, heq₃, -⟩ := hmiddle.checkDecls hafter
  refine ⟨earlier, ty, later, summary, errors₃, hbefore, htype, ?_, hsummary,
    hty, hlast, fun e he => (hadds.map _).subset (hmem e he)⟩
  have hlength : summaries.length = before.length := by
    rw [← hnodes, List.length_map]
  rw [heq₃, heq₂, heq₁, ← hlength]
  simp

/-- The diagnostics of a check account for the declarations that failed. -/
theorem checkModel_accounts {tree : Tree} (complete : tree.Complete)
    (hroots : ∀ root ∈ tree.roots, root < tree.size) (options : Options) :
    ∃ result, tree.checkModel options = .ok result ∧
      result.declarations.map (·.node) = tree.roots ∧
      (result.diagnostics.stored.map (·.key)).Nodup ∧
      (∀ diagnostic ∈ result.diagnostics.stored,
        diagnostic.category = diagnostic.code.category ∧
        ∃ node, tree.get? diagnostic.node = some node ∧
          diagnostic.span = node.span) ∧
      (∀ diagnostic ∈ result.diagnostics.warnings,
        diagnostic.code = .missingRule) ∧
      (∀ diagnostic ∈ result.diagnostics.errors,
        diagnostic.code ≠ .missingRule) ∧
      ∀ before decl after, tree.roots = before ++ decl :: after →
        ∃ earlier ty later summary,
          (before.forM (tree.checkDecl options)).run
            { log := Log.withLimit options.maxDiagnostics } =
            .ok ((), earlier) ∧
          (tree.declType options decl).run earlier = .ok (ty, later) ∧
          result.declarations[before.length]? = some summary ∧
          tree.IsSummary decl ty summary ∧
          (summary.ok = false → ∃ e, ty = .error e ∧
            (result.diagnostics.totalErrors ≤ options.maxDiagnostics →
              ∃! diagnostic, diagnostic ∈ result.diagnostics.stored ∧
                summary.type = "Error(" ++ diagnostic.message ++ ")" ∧
                diagnostic.key = e.key) ∧
            (result.success = true → e.kind = .notImplemented ∧
              ∃ diagnostic ∈ result.diagnostics.warnings,
                diagnostic.key = e.key)) := by
  have hstart : InOrder complete options.maxDiagnostics []
      { log := Log.withLimit options.maxDiagnostics } :=
    ⟨complete.upkeep.keeps_empty, Review.balances_start tree _⟩
  obtain ⟨last, -, hrun, -⟩ :=
    complete.exists_checkDecls options tree.roots hroots hstart.keeps
  obtain ⟨⟨errors, horder, -⟩, summaries, hdeclarations, hnodes⟩ :=
    hstart.checkDecls hrun
  have hbooks := horder.balances
  refine ⟨last.result, checkModel_eq_ok_iff.mpr ⟨last, hrun, rfl⟩, ?_,
    hbooks.nodup_stored, fun _ => hbooks.placed, fun diagnostic hmem => ?_,
    fun diagnostic hmem => ?_, fun before decl after hsplit => ?_⟩
  · rw [Review.result, CheckResult.of, hdeclarations]
    exact hnodes
  · obtain ⟨e, -, rfl, hseverity⟩ := hbooks.mem_warnings_iff.mp hmem
    exact (TypeError.code_diagnostic_eq_iff tree e).mpr hseverity
  · obtain ⟨e, -, rfl⟩ :=
      hbooks.exists_of_mem_stored (List.mem_append_left _ hmem)
    intro hcode
    have hseverity := hbooks.severity_of_mem_errors hmem
    rw [(TypeError.code_diagnostic_eq_iff tree e).mp hcode] at hseverity
    cases hseverity
  · rw [hsplit] at hrun
    obtain ⟨earlier, ty, later, summary, errors', hbefore, htype, hat, hsummary,
      hty, horder', hmem⟩ := hstart.checkDecl_at hrun
    have hbooks' := horder'.balances
    refine ⟨earlier, ty, later, summary, hbefore, htype, ?_, hsummary,
      fun hok => ?_⟩
    · rwa [List.length_nil, Nat.zero_add] at hat
    obtain ⟨construct, -, rfl⟩ := hsummary
    cases ty with
    | error e =>
        obtain ⟨e', he', hkey⟩ := List.mem_map.mp (hmem e rfl)
        refine ⟨e, rfl, fun hlimit => ?_, fun hsuccess => ?_⟩
        · have hstored := hbooks'.mem_stored_of_mem hlimit he'
          refine ⟨e'.diagnostic tree, ⟨hstored, ?_, hkey⟩,
            fun other hother => ?_⟩
          · have hmessage : e'.message = e.message := congrArg Prod.snd hkey
            simp [Ty.text, TypeError.diagnostic, Diagnostic.ofCode, hmessage]
          · exact hbooks'.eq_of_key hother.1 hstored
              (hother.2.2.trans hkey.symm)
        · have hnone : last.log.hasErrors = false := by
            simpa [Review.result, CheckResult.of] using hsuccess
          have hseverity := hbooks'.severity_of_not_hasErrors hnone he'
          have hwarning :=
            hbooks'.mem_warnings_iff.mpr ⟨e', he', rfl, hseverity⟩
          refine ⟨?_, e'.diagnostic tree, hwarning, hkey⟩
          rw [TypeError.severity_eq_of_key (hbooks'.regular e' he') hty hkey]
            at hseverity
          exact (TypeError.severity_eq_warning_iff tree e).mp hseverity
    | _ => cases hok

/-- A model with an open reference that comes out as the problem of two
variables, and with a predicate. -/
def echoModel : Tree :=
  let named (name : String) : Ident := ⟨name, Span.unknown⟩
  ofConstructs [
    .reference "nothing" .pending, .var (named "a") none (some 0),
    .reference "a" (.resolved 1),
    .var (named "b") none (some 2), .predicate (named "p") [] none]
    [1, 3, 4]

theorem echoModel_complete : echoModel.Complete where
  grown := grown_ofConstructs _ _
  parts := by decide +kernel
  links := by decide +kernel

theorem checkModel_accounts_echoModel :
    ∃ result, echoModel.checkModel {} = .ok result ∧
    result.declarations.map (·.ok) = [false, false, false] ∧
    result.diagnostics.stored.map (·.key) =
      [(0, "unresolved reference 'nothing'"),
        (4, Fault.predicateBody.message)] ∧
    (result.diagnostics.stored.map (·.key)).Nodup ∧
    ∃ earlier e later summary,
      ([1].forM (echoModel.checkDecl {})).run { log := Log.withLimit 20 } =
        .ok ((), earlier) ∧
      (echoModel.declType {} 3).run earlier = .ok (.error e, later) ∧
      result.declarations[1]? = some summary ∧
      ∃! diagnostic, diagnostic ∈ result.diagnostics.stored ∧
        summary.type = "Error(" ++ diagnostic.message ++ ")" ∧
        diagnostic.key = e.key := by
  obtain ⟨result, hresult, -, hnodup, -, -, -, haccounts⟩ :=
    checkModel_accounts echoModel_complete (by decide) {}
  have heval : (echoModel.checkModel {}).map (fun result =>
      (result.declarations.map (·.ok), result.diagnostics.stored.map (·.key),
        result.diagnostics.totalErrors)) =
      .ok ([false, false, false], [(0, "unresolved reference 'nothing'"),
        (4, Fault.predicateBody.message)], 1) := by
    decide +kernel
  rw [hresult] at heval
  obtain ⟨hok, hkeys, htotal⟩ :
      result.declarations.map (·.ok) = [false, false, false] ∧
        result.diagnostics.stored.map (·.key) =
          [(0, "unresolved reference 'nothing'"),
            (4, Fault.predicateBody.message)] ∧
        result.diagnostics.totalErrors = 1 := by
    simpa using Except.ok.inj heval
  refine ⟨result, hresult, hok, hkeys, hnodup, ?_⟩
  obtain ⟨earlier, ty, later, summary, hbefore, htype, hat, -, hfailed⟩ :=
    haccounts [1] 3 [4] rfl
  have hsummary : summary.ok = false := by
    have hget : (result.declarations.map (·.ok))[1]? = some summary.ok := by
      rw [List.getElem?_map, show result.declarations[1]? = some summary
        from hat]
      rfl
    simpa [hok] using hget.symm
  obtain ⟨e, rfl, hunique, -⟩ := hfailed hsummary
  exact ⟨earlier, e, later, summary, hbefore, htype, hat,
    hunique (by rw [htotal]; decide)⟩

end Tree

end ConceptLang
