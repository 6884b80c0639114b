import ConceptLang.Proofs.Quotations
import ConceptLang.Proofs.Verdicts

/-!
# Which declaration reported a problem

A severe problem may be found deep inside of an expression and come out in other
words, or not at all if another problem comes out in its place. But the
declaration that was being checked when the problem was found has reported an
error: its own type is a severe problem, or the type of one of its relations is
(`Tree.exists_reportedFor`). Only in an outspoken tree is it sure that the error
quotes the problem, if that is one of a join.
-/

namespace ConceptLang

namespace Review

theorem reported_subset_report (tree : Tree) (ty : Ty) (review : Review) :
    review.reported ⊆ (review.report tree ty).reported := by
  unfold report
  split
  · split
    · exact List.Subset.refl _
    · exact List.subset_cons_self _ _
  · exact List.Subset.refl _

theorem mem_reported_report_error (tree : Tree) (e : TypeError)
    (review : Review) :
    (e.node, e.message) ∈ (review.report tree (.error e)).reported := by
  unfold report
  dsimp only
  split
  · next hmem => exact List.contains_iff_mem.mp hmem
  · exact List.mem_cons_self

end Review

theorem Ty.exists_error_of_isSevere {ty : Ty} (h : ty.isSevere = true) :
    ∃ e, ty = .error e ∧ e.isSevere = true := by
  cases ty with
  | error e => exact ⟨e, rfl, h⟩
  | _ => cases h

namespace Tree

variable {tree : Tree} {options : Options} {review review' : Review}

/-- A pass that may make no judgement at all adds nothing to its memory. -/
theorem cache_judge_of_maxDepth (hdepth : options.maxDepth = 0)
    {judgement : Judgement} {pass pass' : Pass} {ty : Ty}
    (hrun : (tree.judge options judgement).run pass = .ok (ty, pass')) :
    pass'.cache = pass.cache := by
  rcases tree.settle_cases hrun with hsettled | ⟨middle, hsettled, hcase⟩
  · cases tree.settled?_eq_ok_iff.mp hsettled <;> rfl
  · obtain rfl := (tree.settled?_eq_ok_iff.mp hsettled).eq_of_none
    rcases hcase with ⟨-, -, rfl⟩ | ⟨less, last, hroom, -, -⟩
    · rfl
    · omega

/-- The problem `e` was reported for a relation of the declaration `decl`: it is
its type. -/
def ReportedByRelation (tree : Tree) (decl : NodeId) (review : Review)
    (e : TypeError) : Prop :=
  e.isSevere = true ∧ (e.node, e.message) ∈ review.reported ∧
    ∃ relation, tree.Declares decl relation ∧
      review.pass.lookup Scope.empty relation = some (.error e)

/-- A severe problem that is new in memory was found with one of the relations,
whose problem was reported and, in an outspoken tree, quotes that of a join. -/
theorem forM_reportRelation_blames {due : Prop} {decl : NodeId}
    (relations : List NodeId)
    (hrelations : ∀ relation ∈ relations, tree.Declares decl relation)
    (hfair : review.Fair tree due)
    (hrun : (relations.forM (tree.reportRelation options)).run review =
      .ok ((), review')) :
    review.pass.Grows tree.size [] review'.pass ∧
      review.reported ⊆ review'.reported ∧
      ∀ (node : NodeId) (cause : TypeError),
        review'.pass.cache[node]? = some (.error cause) →
        cause.isSevere = true →
        review.pass.cache[node]? = some (.error cause) ∨
          ∃ e, tree.ReportedByRelation decl review' e ∧
            (tree.Outspoken → tree.holds (·.isJoin) node = true →
              e.Quotes cause) := by
  induction relations generalizing review with
  | nil =>
      cases hrun
      exact ⟨.refl _, List.Subset.refl _, fun node cause hcause _ =>
        Or.inl hcause⟩
  | cons relation relations ih =>
      obtain ⟨middle, hfirst, hrest⟩ := run_forM_cons_eq_ok_iff.mp hrun
      have hmiddle :=
        (carries_reportRelation (Nat.le_refl _) relation hfair hfirst).fair
      obtain ⟨hgrows, hsub, hblames⟩ :=
        ih (fun other hother => hrelations other (by simp [hother])) hmiddle
          hrest
      obtain ⟨found, pass, hsynth, rfl⟩ :=
        run_reportRelation_eq_ok_iff.mp hfirst
      rw [Review.pass_report] at hgrows hblames
      have hgrows' : review.pass.Grows tree.size [] pass :=
        tree.settle_grows hsynth
      have htold := tree.judge_candid (Nat.le_refl _)
        (.synth Scope.clean_empty relation) hfair.sincere hsynth
      refine ⟨hgrows'.trans hgrows, List.Subset.trans
        (Review.reported_subset_report tree found { review with pass }) hsub,
        fun node cause hcause hsevere => ?_⟩
      refine (hblames node cause hcause hsevere).elim (fun hpass => ?_) Or.inr
      by_cases hold : review.pass.cache[node]? = some (.error cause)
      · exact Or.inl hold
      · have hfound : found.isSevere = true := by
          by_contra hfound
          exact hold (htold.spares hfound node _ hpass hsevere)
        have hdepth : options.maxDepth ≠ 0 := fun hdepth => by
          rw [cache_judge_of_maxDepth hdepth hsynth] at hpass
          exact hold hpass
        obtain ⟨e, rfl, he⟩ := Ty.exists_error_of_isSevere hfound
        have hlookup := tree.lookup_of_synth (Nat.one_le_iff_ne_zero.mpr hdepth)
          hsynth
        refine Or.inr ⟨e, ⟨he, hsub (Review.mem_reported_report_error tree e _),
          relation, hrelations relation (by simp),
          hgrows.kept relation _ hlookup⟩, fun houtspoken hjoin => ?_⟩
        have hvoices := houtspoken.settle_voices
          (.synth Scope.clean_empty relation) hfair.sincere hsynth
        exact Rule.Names.quotes
          ((hvoices node cause hjoin hpass).resolve_left hold)

theorem reportRelations_blames {due : Prop} {decl : NodeId}
    (hfair : review.Fair tree due)
    (hrun : (tree.reportRelations options decl).run review =
      .ok ((), review')) :
    review.pass.Grows tree.size [] review'.pass ∧
      ∀ (node : NodeId) (cause : TypeError),
        review'.pass.cache[node]? = some (.error cause) →
        cause.isSevere = true →
        review.pass.cache[node]? = some (.error cause) ∨
          ∃ e, tree.ReportedByRelation decl review' e ∧
            (tree.Outspoken → tree.holds (·.isJoin) node = true →
              e.Quotes cause) := by
  unfold reportRelations at hrun
  cases hconstruct : tree.construct decl with
  | error e =>
      rw [hconstruct] at hrun
      cases hrun
  | ok construct =>
      rw [hconstruct] at hrun
      cases construct with
      | concept name parents relations =>
          obtain ⟨hgrows, -, hblames⟩ := forM_reportRelation_blames relations
            (fun relation hmem => ⟨name, parents, relations, hconstruct, hmem⟩)
            hfair hrun
          exact ⟨hgrows, hblames⟩
      | _ =>
          cases hrun
          exact ⟨.refl _, fun node cause hcause _ => Or.inl hcause⟩

/-- The rule of a declaration names the problems that it meets. -/
theorem vocal_declRule (tree : Tree) (decl : NodeId) :
    (tree.declRule decl).Vocal tree.Mute Ty.error? := by
  have hsynth (node : NodeId) :
      (Rule.synth Scope.empty node).Vocal tree.Mute Ty.error? :=
    Rule.vocal_synth Scope.empty node
  refine Rule.Vocal.lift fun construct _ => ?_
  cases construct with
  | function name params signature body =>
      refine (hsynth decl).bind_ty Rule.names_error fun ty => ?_
      split
      · exact Rule.vocal_check Scope.empty decl ty
      · trivial
  | var name typeNode value =>
      cases typeNode with
      | none => exact hsynth decl
      | some typeNode =>
          cases value with
          | none => exact hsynth decl
          | some value =>
              refine (hsynth typeNode).bind_ty Rule.names_error fun ty => ?_
              split
              · trivial
              · exact Rule.vocal_check Scope.empty value ty
  | _ => exact hsynth decl

/-- The problem `e` was reported for the declaration `decl`, the last one that
was checked: it is the type of the declaration itself or of one of its
relations. -/
def ReportedBy (tree : Tree) (decl : NodeId) (review : Review) (e : TypeError) :
    Prop :=
  tree.ReportedByRelation decl review e ∨
    e.isSevere = true ∧ (e.node, e.message) ∈ review.reported ∧
      ∃ summary, review.declarations.getLast? = some summary ∧
        tree.IsSummary decl (.error e) summary

/-- If a severe problem is new in memory after the check of a declaration, then
the declaration has reported a problem, which in an outspoken tree quotes that
of a join. -/
theorem checkDecl_blames {decl : NodeId} (hfair : review.Fair tree False)
    (hrun : (tree.checkDecl options decl).run review = .ok ((), review')) :
    review.pass.Grows tree.size [] review'.pass ∧
      ∀ (node : NodeId) (cause : TypeError),
        review'.pass.cache[node]? = some (.error cause) →
        cause.isSevere = true →
        review.pass.cache[node]? = some (.error cause) ∨
          ∃ e, tree.ReportedBy decl review' e ∧
            (tree.Outspoken → tree.holds (·.isJoin) node = true →
              e.Quotes cause) := by
  obtain ⟨found, pass, middle, summary, hrule, hreport, hsummary, rfl⟩ :=
    run_checkDecl_eq_ok_iff.mp hrun
  have hcandid := tree.candid_declRule (fun _ => True) decl
  have htold := hcandid.run (fun judgement _ _ _ hclean hpass =>
    tree.judge_candid (Nat.le_refl _) hclean hpass) hfair.sincere hrule
  have hgrows : review.pass.Grows tree.size [] pass :=
    Rule.run_relates .refl .trans (fun _ => .of_cache_eq rfl rfl)
      (fun _ _ _ _ hpremise => tree.settle_grows hpremise) hrule
  obtain ⟨hgrows', hblames⟩ :=
    reportRelations_blames (hfair.found htold) hreport
  refine ⟨?_, fun node cause hcause hsevere => ?_⟩
  · rw [← Review.pass_report tree found middle] at hgrows'
    exact hgrows.trans hgrows'
  · rw [Review.pass_report] at hcause
    rcases hblames node cause hcause hsevere with
      hpass | ⟨e, ⟨he, hmem, relation, hdeclares, hlookup⟩, hquotes⟩
    · by_cases hold : review.pass.cache[node]? = some (.error cause)
      · exact Or.inl hold
      · have hfound : found.isSevere = true := by
          by_contra hfound
          exact hold (htold.spares hfound node _ hpass hsevere)
        obtain ⟨e, rfl, he⟩ := Ty.exists_error_of_isSevere hfound
        refine Or.inr ⟨e, Or.inr ⟨he,
          Review.mem_reported_report_error tree e middle, summary,
          List.getLast?_concat, hsummary⟩, fun houtspoken hjoin => ?_⟩
        have hvoices := (tree.vocal_declRule decl).run
          (fun _ _ _ _ hclean hpass => houtspoken.settle_voices hclean hpass)
          hcandid hfair.sincere hrule
        exact Rule.Names.quotes
          ((hvoices node cause hjoin hpass).resolve_left hold)
    · refine Or.inr ⟨e, Or.inl ⟨he, ?_, relation, hdeclares, ?_⟩, hquotes⟩
      · exact Review.reported_subset_report tree found middle hmem
      · rw [← hlookup, ← Review.pass_report tree found middle]

/-- The type of `node` was found while a declaration was checked that has then
reported the problem `e`. This need not be about the type of `node`. -/
def ReportedFor (tree : Tree) (options : Options) (node : NodeId)
    (e : TypeError) : Prop :=
  ∃ before decl after earlier later, tree.roots = before ++ decl :: after ∧
    (before.forM (tree.checkDecl options)).run
      { log := Log.withLimit options.maxDiagnostics } = .ok ((), earlier) ∧
    (tree.checkDecl options decl).run earlier = .ok ((), later) ∧
    earlier.pass.cache[node]? = none ∧ later.pass.cache[node]?.isSome ∧
    tree.ReportedBy decl later e

/-- Every severe problem that is in memory after the declarations has led to the
report of a problem by the declaration with which it was found. In an outspoken
tree the report quotes the problem, if it is one of a join. -/
theorem exists_reportedFor {last : Review} {before after : List NodeId}
    (hroots : tree.roots = before ++ after)
    (hbefore : (before.forM (tree.checkDecl options)).run
      { log := Log.withLimit options.maxDiagnostics } = .ok ((), review))
    (hfair : review.Fair tree False)
    (hafter : (after.forM (tree.checkDecl options)).run review = .ok ((), last))
    {node : NodeId} {cause : TypeError}
    (hcause : last.pass.cache[node]? = some (.error cause))
    (hsevere : cause.isSevere = true) :
    review.pass.cache[node]? = some (.error cause) ∨
      ∃ e, tree.ReportedFor options node e ∧
        (tree.Outspoken → tree.holds (·.isJoin) node = true →
          e.Quotes cause) := by
  induction after generalizing before review with
  | nil =>
      cases hafter
      exact Or.inl hcause
  | cons decl after ih =>
      obtain ⟨later, hdecl, hrest⟩ := run_forM_cons_eq_ok_iff.mp hafter
      have hlater := (carries_checkDecl (Nat.le_refl _) decl hfair hdecl).fair
      have hbefore' : ((before ++ [decl]).forM (tree.checkDecl options)).run
          { log := Log.withLimit options.maxDiagnostics } = .ok ((), later) :=
        (run_forM_append_of_ok hbefore [decl]).trans
          (run_forM_cons_of_ok hdecl [])
      rcases ih (by simp [hroots]) hbefore' hlater hrest with hknown | hreported
      · obtain ⟨hgrows, hblames⟩ := checkDecl_blames hfair hdecl
        rcases hblames node cause hknown hsevere with
          hold | ⟨e, hblame, hquotes⟩
        · exact Or.inl hold
        · cases hnone : review.pass.cache[node]? with
          | none =>
              exact Or.inr
                ⟨e, ⟨before, decl, after, review, later, hroots, hbefore,
                  hdecl, hnone, by simp [hknown], hblame⟩, hquotes⟩
          | some old =>
              left
              rw [← hknown, hgrows.kept node old hnone]
      · exact Or.inr hreported

end Tree

end ConceptLang
