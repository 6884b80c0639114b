import ConceptLang.Proofs.Candour
import ConceptLang.Proofs.Reviews

/-!
# Verdicts and the limit of depth

A check reports every severe problem that it comes to know, if not in its own
words then in those of another problem that wraps it. It drops a report only if
the same was said before about the same node, and what was said before was then
an error too, since the message of a missing rule is not the message of anything
else (`Fault.isSevere_toError_iff`). So after a check without errors its pass
remembers no severe problem, and none was met on the way.

In particular the limit was not met. With a larger limit the check therefore
goes the same way and has the same result (`Tree.checkModel_of_le`).
-/

namespace ConceptLang

/-! ### Messages -/

theorem append_ne_of_not_prefix {cs ds : List Char} {s : String}
    (h : ¬ cs <+: ds) :
    String.ofList cs ++ s ≠ String.ofList ds := by
  intro heq
  have hchars : cs ++ s.toList = ds := by
    simpa only [String.toList_append, String.toList_ofList]
      using congrArg String.toList heq
  exact h ⟨s.toList, hchars⟩

theorem Fault.message_ne_predicateBody {cause : Fault}
    (h : cause.kind ≠ .notImplemented) :
    cause.message ≠ predicateBody.message := by
  cases cause with
  | predicateBody => exact absurd rfl h
  | unresolved text note =>
      cases note <;> unfold message <;> simp only [String.append_assoc] <;>
        exact append_ne_of_not_prefix (by decide)
  | _ =>
      unfold message
      simp only [String.append_assoc]
      exact append_ne_of_not_prefix (by decide)

/-- The message of a fault tells whether it is severe. -/
theorem Fault.isSevere_toError_iff (cause : Fault) (node : NodeId) :
    (cause.toError node).isSevere = true ↔
      cause.message ≠ predicateBody.message := by
  constructor
  · intro h
    exact message_ne_predicateBody (by simpa [TypeError.isSevere, toError]
      using h)
  · intro h
    cases cause with
    | predicateBody => exact absurd rfl h
    | _ => rfl

/-! ### Logs -/

namespace Log

variable {log : Log}

theorem hasErrors_push (log : Log) (diagnostic : Diagnostic) :
    (log.push diagnostic).hasErrors =
      (log.hasErrors || decide (diagnostic.severity = .error)) := by
  cases hseverity : diagnostic.severity <;> simp [push, hasErrors, hseverity]

end Log

theorem TypeError.severity_diagnostic (tree : Tree) (e : TypeError) :
    (e.diagnostic tree).severity = .error ↔ e.isSevere = true := by
  simp [diagnostic, Diagnostic.ofCode, isSevere]

namespace Review

/-- What was found is reported: a severe type in the memory of the pass has led
to an error, unless one is `due`, and every report was an error unless it was
about a missing rule. -/
structure Fair (tree : Tree) (due : Prop) (review : Review) : Prop where
  sincere : review.pass.Sincere tree
  told : ∀ (node : NodeId) (ty : Ty), review.pass.cache[node]? = some ty →
    ty.isSevere = true → review.log.hasErrors = true ∨ due
  reported : ∀ node message, (node, message) ∈ review.reported →
    message ≠ Fault.predicateBody.message → review.log.hasErrors = true

theorem fair_start (tree : Tree) (limit : Nat) :
    Fair tree False { log := Log.withLimit limit } where
  sincere := Pass.sincere_empty tree
  told node ty h := by simp at h
  reported := nofun

variable {tree : Tree} {due : Prop} {review : Review}

theorem hasErrors_report (tree : Tree) (ty : Ty) (review : Review)
    (h : review.log.hasErrors = true) :
    (review.report tree ty).log.hasErrors = true := by
  unfold report
  split
  · split
    · exact h
    · simp [Log.hasErrors_push, h]
  · exact h

/-- A severe problem is reported as an error, or was reported before. -/
theorem Fair.hasErrors_report_of_isSevere (h : review.Fair tree due) {ty : Ty}
    (hty : ty.Proper) (hsevere : ty.isSevere = true) :
    (review.report tree ty).log.hasErrors = true := by
  cases hty with
  | clean hclean =>
      have herror := Ty.isError_of_isSevere hsevere
      rw [hclean.isError_eq] at herror
      cases herror
  | @fault node cause =>
      have hmessage := (cause.isSevere_toError_iff node).mp hsevere
      change (if review.reported.contains (node, cause.message) then _ else
        _ : Review).log.hasErrors = true
      split
      · next hmem =>
          exact h.reported node _ (List.contains_iff_mem.mp hmem) hmessage
      · simp [Log.hasErrors_push,
          (TypeError.severity_diagnostic tree _).mpr hsevere]

theorem mem_reported_report {ty : Ty} {entry : NodeId × String}
    (h : entry ∈ (review.report tree ty).reported) :
    entry ∈ review.reported ∨
      ∃ e, ty = .error e ∧ entry = (e.node, e.message) := by
  unfold report at h
  split at h
  · next e =>
      split at h
      · exact Or.inl h
      · exact (List.mem_cons.mp h).symm.imp_right fun heq => ⟨e, rfl, heq⟩
  · exact Or.inl h

/-- A type was found that may be severe, so a report of it is due. -/
theorem Fair.found (h : review.Fair tree due) {again : PassM Ty} {ty : Ty}
    {pass : Pass}
    (htold :
      tree.Told (·.isSevere = true) Ty.Proper again review.pass ty pass) :
    Fair tree (due ∨ ty.isSevere = true) { review with pass } := by
  refine ⟨htold.sincere, fun node known hknown hsevere => ?_, h.reported⟩
  by_cases hty : ty.isSevere = true
  · exact Or.inr (Or.inr hty)
  · exact (h.told node known (htold.spares hty node known hknown hsevere)
      hsevere).imp_right Or.inl

/-- After the report nothing more is due. -/
theorem Fair.report {ty : Ty} (h : review.Fair tree (due ∨ ty.isSevere = true))
    (hty : ty.Proper) :
    (review.report tree ty).Fair tree due := by
  refine ⟨?_, fun node known hknown hsevere => ?_,
    fun node message hmem hmessage => ?_⟩
  · rw [pass_report]
    exact h.sincere
  · rw [pass_report] at hknown
    rcases h.told node known hknown hsevere with herrors | hdue | hsevere'
    · exact Or.inl (hasErrors_report tree ty review herrors)
    · exact Or.inr hdue
    · exact Or.inl (h.hasErrors_report_of_isSevere hty hsevere')
  · rcases mem_reported_report hmem with hold | ⟨e, rfl, heq⟩
    · exact hasErrors_report tree _ review
        (h.reported node message hold hmessage)
    · refine h.hasErrors_report_of_isSevere hty ?_
      cases hty with
      | clean hclean => cases hclean
      | @fault node' cause =>
          cases heq
          exact (cause.isSevere_toError_iff node').mpr hmessage

end Review

/-! ### A check and the same check with a larger limit -/

namespace Tree

/-- What a part of a check came to: it is fair, keeps the errors there were and,
if there are none at the end, `again` comes to the same. -/
structure Carries (tree : Tree) (due : Prop) (again : ReviewM Unit)
    (review review' : Review) :
    Prop where
  fair : review'.Fair tree due
  errors : review.log.hasErrors = true → review'.log.hasErrors = true
  repeated : review'.log.hasErrors = false →
    again.run review = .ok ((), review')

variable {tree : Tree} {due : Prop} {review review' : Review}

theorem Carries.quiet {again : ReviewM Unit}
    (h : tree.Carries due again review review')
    (hnone : review'.log.hasErrors = false) : review.log.hasErrors = false := by
  cases herrors : review.log.hasErrors with
  | false => rfl
  | true => exact (h.errors herrors).symm.trans hnone

theorem carries_forM {f f' : NodeId → ReviewM Unit}
    (hstep : ∀ x review review', review.Fair tree due →
      (f x).run review = .ok ((), review') →
      tree.Carries due (f' x) review review')
    (xs : List NodeId) (hfair : review.Fair tree due)
    (hrun : (xs.forM f).run review = .ok ((), review')) :
    tree.Carries due (xs.forM f') review review' := by
  induction xs generalizing review with
  | nil =>
      cases hrun
      exact ⟨hfair, id, fun _ => rfl⟩
  | cons x xs ih =>
      obtain ⟨middle, hfirst, hrest⟩ := run_forM_cons_eq_ok_iff.mp hrun
      have hmiddle := hstep x review middle hfair hfirst
      have hlast := ih hmiddle.fair hrest
      refine ⟨hlast.fair, fun herrors => hlast.errors (hmiddle.errors herrors),
        fun hnone => ?_⟩
      have hfirst' := hmiddle.repeated (hlast.quiet hnone)
      exact (run_forM_cons_of_ok hfirst' xs).trans (hlast.repeated hnone)

section Declarations

variable {options options' : Options}
  (hdepth : options.maxDepth ≤ options'.maxDepth)

theorem candid_declRule (tree : Tree) (made : Fault → Prop) (decl : NodeId) :
    (tree.declRule decl).CandidTy made := by
  have hsynth (node : NodeId) : (Rule.synth Scope.empty node).CandidTy made :=
    Rule.candid_synth Scope.clean_empty node
  refine Rule.Candid.lift fun construct _ => ?_
  cases construct with
  | function name params signature body =>
      refine (hsynth decl).bind_ty (fun e he => he) fun ty hty => ?_
      cases ty with
      | function params result =>
          exact Rule.candid_check Scope.clean_empty decl
            (hty.clean_of_isError rfl)
      | _ => exact hty
  | var name typeNode value =>
      cases typeNode with
      | none => exact hsynth decl
      | some typeNode =>
          cases value with
          | none => exact hsynth decl
          | some value =>
              refine (hsynth typeNode).bind_ty (fun e he => he) fun ty hty => ?_
              split
              · exact hty
              · next herror =>
                  exact Rule.candid_check Scope.clean_empty value
                    (hty.clean_of_isError (by simpa using herror))
  | _ => exact hsynth decl

include hdepth

theorem carries_reportRelation (relation : NodeId)
    (hfair : review.Fair tree due)
    (hrun : (tree.reportRelation options relation).run review =
      .ok ((), review')) :
    tree.Carries due (tree.reportRelation options' relation) review
      review' := by
  obtain ⟨ty, pass, hsynth, rfl⟩ := run_reportRelation_eq_ok_iff.mp hrun
  have htold :=
    tree.judge_candid hdepth (.synth Scope.clean_empty relation) hfair.sincere
      hsynth
  have hfound := hfair.found htold
  refine ⟨hfound.report htold.conclusion,
    Review.hasErrors_report tree ty { review with pass },
    fun hnone => ?_⟩
  have hty : ¬ ty.isSevere = true := fun hsevere => by
    rw [hfound.hasErrors_report_of_isSevere htold.conclusion hsevere] at hnone
    cases hnone
  exact run_reportRelation_eq_ok_iff.mpr ⟨ty, pass, htold.repeated hty, rfl⟩

theorem carries_reportRelations (decl : NodeId) (hfair : review.Fair tree due)
    (hrun : (tree.reportRelations options decl).run review =
      .ok ((), review')) :
    tree.Carries due (tree.reportRelations options' decl) review review' := by
  unfold reportRelations at hrun ⊢
  cases hconstruct : tree.construct decl with
  | error e =>
      rw [hconstruct] at hrun
      cases hrun
  | ok construct =>
      rw [hconstruct] at hrun
      cases construct with
      | concept name parents relations =>
          exact carries_forM (fun relation _ _ =>
            carries_reportRelation hdepth relation) relations
            hfair hrun
      | _ =>
          cases hrun
          exact ⟨hfair, id, fun _ => rfl⟩

theorem carries_checkDecl (decl : NodeId) (hfair : review.Fair tree False)
    (hrun : (tree.checkDecl options decl).run review = .ok ((), review')) :
    tree.Carries False (tree.checkDecl options' decl) review review' := by
  obtain ⟨ty, pass, middle, summary, hrule, hreport, hsummary, rfl⟩ :=
    run_checkDecl_eq_ok_iff.mp hrun
  have htold := (tree.candid_declRule _ decl).run
    (fun judgement _ _ _ hclean hpass => tree.judge_candid hdepth hclean hpass)
    hfair.sincere hrule
  have hmiddle :=
    carries_reportRelations hdepth decl (hfair.found htold) hreport
  have hfinal := hmiddle.fair.report htold.conclusion
  refine ⟨⟨hfinal.sincere, hfinal.told, hfinal.reported⟩,
    fun herrors =>
      Review.hasErrors_report tree ty middle (hmiddle.errors herrors),
      fun hnone => ?_⟩
  have hty : ¬ ty.isSevere = true := fun hsevere => by
    rw [hmiddle.fair.hasErrors_report_of_isSevere htold.conclusion hsevere]
      at hnone
    cases hnone
  have hnone' : middle.log.hasErrors = false := by
    cases herrors : middle.log.hasErrors with
    | false => rfl
    | true =>
        exact (Review.hasErrors_report tree ty middle herrors).symm.trans hnone
  exact run_checkDecl_eq_ok_iff.mpr
    ⟨ty, pass, middle, summary, htold.repeated hty, hmiddle.repeated hnone',
      hsummary, rfl⟩

theorem carries_checkDecls (decls : List NodeId)
    (hfair : review.Fair tree False)
    (hrun : (decls.forM (tree.checkDecl options)).run review =
      .ok ((), review')) :
    tree.Carries False (decls.forM (tree.checkDecl options')) review review' :=
  carries_forM (fun decl _ _ => carries_checkDecl hdepth decl) decls hfair hrun

end Declarations

/-- A check is a run over the declarations and then over the references that
stayed open. -/
theorem review_eq_ok_iff {options : Options} {refs : List NodeId}
    {result : CheckResult} :
    tree.review options refs = .ok result ↔ ∃ middle last,
      (tree.roots.forM (tree.checkDecl options)).run
        { log := Log.withLimit options.maxDiagnostics } =
        .ok ((), middle) ∧
      (refs.forM (tree.reportOpen options)).run middle = .ok ((), last) ∧
      result = last.result := by
  simp only [review]
  rw [bind_eq_ok_iff]
  constructor
  · rintro ⟨⟨_, last⟩, hrun, ⟨⟩⟩
    obtain ⟨_, middle, hdecls, hrefs⟩ := run_bind_eq_ok_iff.mp hrun
    exact ⟨middle, last, hdecls, hrefs, rfl⟩
  · rintro ⟨middle, last, hdecls, hrefs, rfl⟩
    exact ⟨((), last), run_bind_eq_ok_iff.mpr ⟨(), middle, hdecls, hrefs⟩, rfl⟩

theorem checkModel_eq_ok_iff {options : Options} {result : CheckResult} :
    tree.checkModel options = .ok result ↔ ∃ review,
      (tree.roots.forM (tree.checkDecl options)).run
        { log := Log.withLimit options.maxDiagnostics } =
        .ok ((), review) ∧ result = review.result := by
  rw [checkModel, review_eq_ok_iff]
  constructor
  · rintro ⟨middle, _, hrun, ⟨⟩, rfl⟩
    exact ⟨middle, hrun, rfl⟩
  · rintro ⟨middle, hrun, rfl⟩
    exact ⟨middle, middle, hrun, rfl, rfl⟩

/-- A larger limit does not change the result of a check that found no error. -/
theorem checkModel_of_le (tree : Tree) {options options' : Options}
    (hdepth : options.maxDepth ≤ options'.maxDepth)
    (hlimit : options'.maxDiagnostics = options.maxDiagnostics)
    {result : CheckResult} (h : tree.checkModel options = .ok result)
    (hsuccess : result.success = true) :
    tree.checkModel options' = .ok result := by
  obtain ⟨review, hrun, rfl⟩ := checkModel_eq_ok_iff.mp h
  have hcarries :=
    carries_checkDecls hdepth tree.roots (Review.fair_start tree _) hrun
  have hnone : review.log.hasErrors = false := by
    simpa [Review.result, CheckResult.of] using hsuccess
  rw [← hlimit] at hcarries
  exact checkModel_eq_ok_iff.mpr ⟨review, hcarries.repeated hnone, rfl⟩

/-- A model without errors: a concept with a field, a variable that joins to it,
a function that calls itself, and a predicate, whose body is not looked at. -/
def calmModel : Tree :=
  let named (name : String) : Ident := ⟨name, Span.unknown⟩
  ofConstructs [
    .keywordType "Integer", .relation (named "size") 0,
    .concept (named "Box") [] [1],
    .reference "Box" (.resolved 2), .conceptType 3,
    .var (named "box") (some 4) none,
    .reference "box" (.resolved 5), .reference "size" (.resolved 1), .join 6 7,
    .var (named "n") none (some 8),
    .param (named "x"), .keywordType "Integer", .keywordType "Integer",
    .reference "f" (.resolved 16), .reference "x" (.resolved 10), .call 13 [14],
    .function (named "f") [10] [11, 12] 15,
    .param (named "y"), .keywordType "Integer", .typedParam 17 18,
    .boolLit true,
    .predicate (named "p") [19] (some 20)]
    [2, 5, 9, 16, 21]

theorem checkModel_of_le_calmModel :
    (calmModel.checkModel { maxDepth := 5 }).map (·.success) = .ok true ∧
      calmModel.checkModel {} = calmModel.checkModel { maxDepth := 5 } := by
  have hdepth :
      ({ maxDepth := 5 } : Options).maxDepth ≤ ({} : Options).maxDepth := by
      decide
  have hsuccess : (calmModel.checkModel { maxDepth := 5 }).map (·.success) =
      .ok true := by
    decide +kernel
  refine ⟨hsuccess, ?_⟩
  cases h : calmModel.checkModel { maxDepth := 5 } with
  | error e =>
      rw [h] at hsuccess
      cases hsuccess
  | ok result =>
      rw [h] at hsuccess
      exact checkModel_of_le calmModel hdepth rfl h (Except.ok.inj hsuccess)

end Tree

end ConceptLang
