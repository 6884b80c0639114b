import ConceptLang.Proofs.PlainSuccess
import ConceptLang.Proofs.Verdicts

/-!
# Declarations by themselves

All declarations of a model are checked in one pass, so what one of them finds
out is there for the next. A declaration that is accepted when it is checked by
itself is shown in the same way when it is checked with the others, whatever
comes before it, if the limit is at least twice the number of nodes
(`Tree.checkModel_withRoots`).

With a smaller limit this can fail (`Tree.not_ok_deepModel`): a type that was
asked for too deep inside of an earlier declaration is remembered as a type
error, and the declaration is then shown with that. But it is never accepted
with another type.

Both follow from a comparison with plain evaluation, which has no memory that
declarations could share: a declaration that is accepted at any limit has a
plain type, and there is only one.
-/

namespace ConceptLang

namespace Tree

/-! ### Other top-level declarations -/

/-- The tree with other top-level declarations. -/
def withRoots (tree : Tree) (roots : List NodeId) : Tree :=
  { tree with roots }

section WithRoots

-- Only the list of declarations to check is different. All else reads the nodes
-- of the tree.
variable (tree : Tree) (roots : List NodeId)

theorem linkedConcepts_withRoots (parents : List NodeId) :
    (tree.withRoots roots).linkedConcepts parents =
      tree.linkedConcepts parents := by
  induction parents with
  | nil => rfl
  | cons parent parents ih =>
      rw [linkedConcepts, linkedConcepts, ih]
      rfl

theorem conceptParents_withRoots (id : NodeId) :
    (tree.withRoots roots).conceptParents id = tree.conceptParents id := by
  simp only [conceptParents, linkedConcepts_withRoots]
  rfl

theorem findNamed_withRoots (name : String) (pairs : List (NodeId × NodeId)) :
    (tree.withRoots roots).findNamed name pairs =
      tree.findNamed name pairs := by
  induction pairs with
  | nil => rfl
  | cons pair pairs ih =>
      rw [findNamed, findNamed, ih]
      rfl

theorem findRelation_withRoots (id : NodeId) (name : String) :
    (tree.withRoots roots).findRelation id name =
      tree.findRelation id name := by
  simp only [findRelation, visibleRelations, ancestors, findNamed_withRoots,
    search_congr (tree.conceptParents_withRoots roots)]
  rfl

theorem predicateParams_withRoots (scope : Scope) (params : List NodeId) :
    (tree.withRoots roots).predicateParams scope params =
      tree.predicateParams scope params := by
  induction params with
  | nil => rfl
  | cons typed params ih =>
      rw [predicateParams, predicateParams, ih]
      rfl

theorem rule_withRoots (judgement : Judgement) :
    (tree.withRoots roots).rule judgement = tree.rule judgement := by
  cases judgement with
  | synth scope node =>
      simp only [rule, synthRule, synthJoin, findRelation_withRoots,
        synthPredicate, predicateParams_withRoots]
      rfl
  | check scope node expected => rfl

theorem settle_withRoots (limit room : Nat) :
    (tree.withRoots roots).settle limit room = tree.settle limit room := by
  induction room with
  | zero =>
      funext busy judgement
      rw [settle, settle]
      cases judgement <;> rfl
  | succ room ih =>
      funext busy judgement
      rw [settle, settle, ih, rule_withRoots]
      cases judgement <;> rfl

theorem checkDecl_withRoots (options : Options) :
    (tree.withRoots roots).checkDecl options = tree.checkDecl options := by
  funext decl
  simp only [checkDecl, declType, synth, check, judge, settle_withRoots]
  rfl

end WithRoots

/-! ### Declarations with their plain types -/

variable {tree : Tree}

/-- The summary shows the declaration with its plain type. -/
def ShowsPlainly (tree : Tree) (decl : NodeId) (summary : DeclSummary) : Prop :=
  ∃ steps ty, (tree.declPlainly steps decl).run = some (.ok ty) ∧
    tree.IsSummary decl ty summary

theorem IsSummary.like {decl : NodeId} {ty ty' : Ty} {summary : DeclSummary}
    (h : tree.IsSummary decl ty summary) (hlike : ty.Like ty') :
    tree.IsSummary decl ty' summary := by
  obtain ⟨construct, hconstruct, rfl⟩ := h
  exact ⟨construct, hconstruct, by rw [hlike.text_eq, hlike.isError_eq]⟩

theorem IsSummary.unique {decl : NodeId} {ty : Ty}
    {summary summary' : DeclSummary} (h : tree.IsSummary decl ty summary)
    (h' : tree.IsSummary decl ty summary') :
    summary = summary' := by
  obtain ⟨construct, hconstruct, rfl⟩ := h
  obtain ⟨construct', hconstruct', rfl⟩ := h'
  obtain rfl := Except.ok.inj (hconstruct.symm.trans hconstruct')
  rfl

theorem declPlainly_mono {steps steps' : Nat} (hle : steps ≤ steps')
    {decl : NodeId} {a : Except TreeError Ty}
    (h : (tree.declPlainly steps decl).run = some a) :
    (tree.declPlainly steps' decl).run = some a :=
  Rule.run_plain_mono (fun _ _ => settlePlainly_mono hle) h

theorem ShowsPlainly.unique {decl : NodeId} {summary summary' : DeclSummary}
    (h : tree.ShowsPlainly decl summary)
    (h' : tree.ShowsPlainly decl summary') :
    summary = summary' := by
  obtain ⟨steps, ty, hrun, hsummary⟩ := h
  obtain ⟨steps', ty', hrun', hsummary'⟩ := h'
  have hsame :=
    (declPlainly_mono (Nat.le_max_left steps steps') hrun).symm.trans
    (declPlainly_mono (Nat.le_max_right steps steps') hrun')
  cases hsame
  exact hsummary.unique hsummary'

theorem AgreesDecl.eq_of_showsPlainly {decl : NodeId} {ty : Ty}
    {summary found : DeclSummary} (h : tree.AgreesDecl decl ty)
    (hfound : tree.IsSummary decl ty found)
    (hplain : tree.ShowsPlainly decl summary) : found = summary := by
  obtain ⟨steps, ty', hrun, hsummary⟩ := hplain
  obtain ⟨_, ⟨⟩, hlike⟩ := h steps _ hrun
  exact (hfound.like hlike).unique hsummary

/-- Whichever declarations are checked, those that are accepted are shown with
their plain types. -/
theorem checkModel_withRoots_showsPlainly (wf : tree.WellFormed)
    (options : Options) {decls : List NodeId} (hdecls : decls ⊆ tree.roots) :
    ∃ result, (tree.withRoots decls).checkModel options = .ok result ∧
      List.Forall₂ (fun decl summary => summary.ok = true →
        tree.ShowsPlainly decl summary) decls result.declarations := by
  obtain ⟨review, summaries, hrun, -, heq, hforall⟩ :=
    (judges_evaluated wf options).checkDecls decls
    (fun decl hdecl => wf.root_lt_size decl (hdecls hdecl))
    (fun decl hdecl => meets_declRule_evaluates wf (hdecls hdecl))
    (fun decl _ relation hrelation => starts_relation wf hrelation)
    (show (evaluated wf).Keeps
      ({ log := Log.withLimit options.maxDiagnostics } : Review).pass from
      (evaluated wf).keeps_empty)
  refine ⟨review.result, checkModel_eq_ok_iff.mpr ⟨review, ?_, rfl⟩, ?_⟩
  · rw [checkDecl_withRoots]
    exact hrun
  · rw [Review.result, CheckResult.of, heq]
    refine hforall.imp ?_
    rintro decl summary ⟨ty, hsummary, hplain⟩ hok
    have herror : ty.isError = false := by
      obtain ⟨construct, -, rfl⟩ := hsummary
      simpa using hok
    obtain ⟨steps, ty', hrun, hlike⟩ := hplain herror
    exact ⟨steps, ty', hrun, hsummary.like hlike⟩

/-- With enough room each declaration is shown with its plain type, if it has
one. -/
theorem checkModel_agreesDecl (wf : tree.WellFormed) {options : Options}
    (hdepth : 2 * tree.size ≤ options.maxDepth) :
    ∃ result, tree.checkModel options = .ok result ∧
      List.Forall₂ (fun decl found => ∃ ty, tree.IsSummary decl ty found ∧
        tree.AgreesDecl decl ty) tree.roots result.declarations := by
  refine (judges_agreement wf hdepth).checkModel wf.root_lt_size
    (fun decl hdecl => ?_) (fun decl _ relation hrelation =>
      starts_relation wf hrelation)
  have hmeets := (meets_declRule wf hdecl).inStep tree
    (fun steps => (tree.declPlainly steps decl).run) fun steps b hb =>
      ⟨tree.declRule decl, alike_declRule wf decl, hb⟩
  exact hmeets.mono (fun _ h => h.1) fun _ h => h.2

/-- A declaration that is accepted when it is checked by itself is shown in the
same way when it is checked with the others, or it is not accepted there. With
any limit that is at least twice the number of nodes it is accepted there. -/
theorem checkModel_withRoots (tree : Tree) (wf : tree.WellFormed)
    (options : Options) {before after : List NodeId} {decl : NodeId}
    (hroots : tree.roots = before ++ decl :: after) :
    ∃ alone summary result found,
      (tree.withRoots [decl]).checkModel options = .ok alone ∧
      alone.declarations = [summary] ∧
      tree.checkModel options = .ok result ∧
      result.declarations[before.length]? = some found ∧
      (summary.ok = true →
        (found = summary ∨ found.ok = false) ∧
        ∀ roomy : Options, 2 * tree.size ≤ roomy.maxDepth →
          ∃ result, tree.checkModel roomy = .ok result ∧
            result.declarations[before.length]? = some summary) := by
  have hdecl : tree.roots[before.length]? = some decl := by simp [hroots]
  obtain ⟨alone, halone, hforall⟩ :=
    checkModel_withRoots_showsPlainly wf options
    (List.cons_subset.mpr ⟨List.mem_of_getElem? hdecl, List.nil_subset _⟩)
  obtain ⟨summary, _, hsummary, hnil, hdeclarations⟩ :=
    List.forall₂_cons_left_iff.mp hforall
  cases hnil
  obtain ⟨result, hresult, hall⟩ :=
    checkModel_withRoots_showsPlainly wf options (List.Subset.refl tree.roots)
  obtain ⟨found, hplace, hfound⟩ := forall₂_getElem? hall hdecl
  refine ⟨alone, summary, result, found, halone, hdeclarations, hresult, hplace,
    fun hok =>
    ⟨?_, fun roomy hdepth => ?_⟩⟩
  · cases hfoundOk : found.ok with
    | true => exact Or.inl ((hfound hfoundOk).unique (hsummary hok))
    | false => exact Or.inr rfl
  · obtain ⟨roomyResult, hroomy, hagrees⟩ := checkModel_agreesDecl wf hdepth
    obtain ⟨shown, hshown, ty, hty, hplain⟩ := forall₂_getElem? hagrees hdecl
    exact ⟨roomyResult, hroomy, hplain.eq_of_showsPlainly hty (hsummary hok) ▸
      hshown⟩

/-- A variable `a` that is defined by a variable `b`, which is declared after
it. -/
def deepModel : Tree :=
  let named (name : String) : Ident := ⟨name, Span.unknown⟩
  ofConstructs [
    .reference "b" (.resolved 3), .var (named "a") none (some 0),
    .keywordType "Integer",
    .var (named "b") (some 2) none]
    [1, 3]

theorem deepModel_wellFormed : deepModel.WellFormed where
  grown := grown_ofConstructs _ _
  before := by decide +kernel
  links := by decide +kernel
  once := by decide +kernel
  roles := by decide +kernel
  roots := by decide +kernel
  targets := by decide +kernel

/-- With a limit of three, `b` is accepted by itself but not after `a`, from
which its annotation is four judgements away. -/
theorem not_ok_deepModel :
    deepModel.WellFormed ∧ deepModel.roots = [1, 3] ∧
      ((deepModel.withRoots [3]).checkModel { maxDepth := 3 }).map
        (·.declarations) = .ok [⟨3, "b", "variable", "Integer", true⟩] ∧
      (deepModel.checkModel { maxDepth := 3 }).map (·.declarations[1]?) =
        .ok (some ⟨3, "b", "variable", "Error(recursion limit of 3 exceeded)",
          false⟩) :=
  ⟨deepModel_wellFormed, by decide +kernel, by decide +kernel,
    by decide +kernel⟩

/-- A limit of eight is enough for that model, whatever the one at which `b` is
checked by itself. -/
theorem checkModel_withRoots_deepModel :
    deepModel.roots = [1] ++ 3 :: [] ∧ ∃ summary : DeclSummary,
      ((deepModel.withRoots [3]).checkModel { maxDepth := 3 }).map
        (·.declarations) = .ok [summary] ∧
      summary.ok = true ∧
      (deepModel.checkModel { maxDepth := 8 }).map (·.declarations[1]?) =
        .ok (some summary) := by
  have hroots : deepModel.roots = [1] ++ 3 :: [] := by decide +kernel
  obtain ⟨alone, summary, _, _, halone, hsummary, -, -, hsame⟩ :=
    checkModel_withRoots deepModel deepModel_wellFormed { maxDepth := 3 } hroots
  have hok : ((deepModel.withRoots [3]).checkModel { maxDepth := 3 }).map
      (·.declarations.map (·.ok)) = .ok [true] := by decide +kernel
  rw [halone, Except.map, hsummary] at hok
  have hsummaryOk : summary.ok = true := by simpa using hok
  obtain ⟨result, hresult, hplace⟩ :=
    (hsame hsummaryOk).2 { maxDepth := 8 } (by decide +kernel)
  refine ⟨hroots, summary, ?_, hsummaryOk, ?_⟩
  · rw [halone, Except.map, hsummary]
  · rw [hresult, Except.map, ← hplace]
    rfl

end Tree

end ConceptLang
