import ConceptLang.Proofs.Blame
import ConceptLang.Proofs.LinkedTrees

/-!
# Open references and what is said of them

A check that follows on linking does all that a check of the linked tree does,
and then reports the references that stayed open. Such a reference is a severe
problem for whoever asks for its type. It is passed over only if it is the field
of a join that is known to have failed for lack of it. This was found while a
declaration was checked, and that declaration has reported an error. So the
check succeeds if and only if the check of the linked tree does and no reference
stayed open (`Tree.linkAndCheck_spec`).

The error that the declaration has reported need not be about the join. In an
outspoken tree it quotes the problem of the join, but a conditional or an
operator inside of another one can put a problem of its own in its place
(`Tree.linkAndCheck_hushedModel`). Then nothing is said of the open reference.
-/

namespace ConceptLang

/-- The second log has what the first one has, and possibly more errors. -/
structure Log.Extends (log log' : Log) : Prop where
  errors : log.errors <+: log'.errors
  warnings : log'.warnings = log.warnings
  totalWarnings : log'.totalWarnings = log.totalWarnings

theorem Log.Extends.refl (log : Log) :
    log.Extends log := ⟨List.prefix_refl _, rfl, rfl⟩

theorem Log.Extends.trans {log log' log'' : Log} (h : log.Extends log')
    (h' : log'.Extends log'') :
    log.Extends log'' :=
  ⟨h.errors.trans h'.errors, h'.warnings.trans h.warnings,
    h'.totalWarnings.trans h.totalWarnings⟩

theorem Log.extends_push (log : Log) {diagnostic : Diagnostic}
    (h : diagnostic.severity = .error) : log.Extends (log.push diagnostic) := by
  rw [push, h]
  refine ⟨?_, rfl, rfl⟩
  dsimp only
  split
  · exact List.prefix_append _ _
  · exact List.prefix_refl _

/-- A report of a severe problem adds nothing but an error. -/
theorem Review.extends_report (tree : Tree) {ty : Ty} (h : ty.isSevere = true)
    (review : Review) :
    review.log.Extends (review.report tree ty).log := by
  obtain ⟨e, rfl, he⟩ := Ty.exists_error_of_isSevere h
  rw [report]
  split
  · exact .refl _
  · exact Log.extends_push _ ((TypeError.severity_diagnostic tree e).mpr he)

namespace Tree

variable {tree : Tree} {options : Options} {review review' : Review}
  {ref : NodeId}

/-! ### Checks of closed trees -/

/-- The judgements of a check of a closed tree are settled, whatever the nodes
say. -/
theorem Closed.judges (closed : tree.Closed) (options : Options) :
    tree.Judges options closed.typing.Keeps (·.Inside tree.size)
      (fun _ ty => ty.Inside tree.size) :=
  closed.typing.judges options fun _ h => h

theorem inside_empty (tree : Tree) : Scope.empty.Inside tree.size :=
  fun _ hbinding => absurd hbinding List.not_mem_nil

theorem Closed.inside_declRule (closed : tree.Closed) {decl : NodeId}
    (hdecl : decl < tree.size) :
    (tree.declRule decl).Meets (·.Inside tree.size)
      (fun _ ty => ty.Inside tree.size) (fun _ => True) := by
  obtain ⟨construct, hconstruct⟩ := exists_construct hdecl
  have hsynth : ∀ {node}, node < tree.size → (Rule.synth Scope.empty node).Meets
      (·.Inside tree.size) (fun _ ty => ty.Inside tree.size)
      (·.Inside tree.size) :=
    inside_synth tree.inside_empty
  have hcheck : ∀ {node expected}, node < tree.size →
      expected.Inside tree.size →
      (Rule.check Scope.empty node expected).Meets (·.Inside tree.size)
        (fun _ ty => ty.Inside tree.size) (fun _ => True) :=
          fun hnode hexpected =>
    (inside_check tree.inside_empty hnode hexpected).mono (fun _ h => h)
      fun _ _ => trivial
  have hother := (hsynth hdecl).mono (fun _ h => h) fun _ _ => trivial
  refine Rule.Meets.lift hconstruct ?_
  cases construct with
  | function name params signature body =>
      refine (hsynth hdecl).bind fun ty hty => ?_
      split
      · exact hcheck hdecl hty
      · trivial
  | var name typeNode value =>
      cases typeNode with
      | none => exact hother
      | some typeNode =>
          cases value with
          | none => exact hother
          | some value =>
              have hpart :
                  ∀ part, part ∈
                    (Construct.var name (some typeNode) (some value)).children →
                    part < tree.size :=
                    fun part => closed.complete.part_lt_size hconstruct
              refine (hsynth
                (hpart typeNode (by simp [Construct.children]))).bind
                fun ty hty => ?_
              split
              · trivial
              · exact hcheck (hpart value (by simp [Construct.children])) hty
  | _ => exact hother

/-- The declarations of a closed tree can be checked. -/
theorem Closed.exists_checkDecls (closed : tree.Closed) (options : Options)
    (hroots : ∀ root ∈ tree.roots, root < tree.size) :
    ∃ review, (tree.roots.forM (tree.checkDecl options)).run
        { log := Log.withLimit options.maxDiagnostics } = .ok ((), review) ∧
      closed.typing.Keeps review.pass := by
  obtain ⟨review, summaries, hrun, hpass, -, -⟩ :=
    (closed.judges options).checkDecls tree.roots hroots
      (fun decl hdecl => closed.inside_declRule (hroots decl hdecl))
      (fun decl hdecl relation hrelation =>
        .synth tree.inside_empty (closed.complete.declares_lt_size hrelation))
      (show closed.typing.Keeps
        ({ log := Log.withLimit options.maxDiagnostics } : Review).pass from
        closed.typing.keeps_empty)
  exact ⟨review, hrun, hpass⟩

/-! ### One open reference -/

/-- What it means that a reference is passed over. -/
theorem coveredByJoin_eq_true {pass : Pass}
    (h : tree.coveredByJoin pass ref = .ok true) :
    ∃ join e, tree.contextOf ref = .ok (.joinField join) ∧
      pass.lookup Scope.empty join = some (.error e) ∧
      (e.kind = .joinTarget ∨ e.kind = .joinOperand) := by
  rw [coveredByJoin] at h
  obtain ⟨context, hcontext, h⟩ := bind_eq_ok_iff.mp h
  cases context with
  | joinField join =>
      dsimp only at h
      split at h
      · next e hlookup =>
          have hkind := Except.ok.inj h
          rw [Bool.or_eq_true, beq_iff_eq, beq_iff_eq] at hkind
          exact ⟨join, e, hcontext, hlookup, hkind⟩
      · cases h
  | _ => cases h

theorem isSevere_of_joinError {e : TypeError}
    (h : e.kind = .joinTarget ∨ e.kind = .joinOperand) : e.isSevere = true := by
  rcases h with h | h <;> simp [TypeError.isSevere, h]

theorem Closed.exists_coveredByJoin (closed : tree.Closed)
    (href : ref < tree.size) (pass : Pass) :
    ∃ covered, tree.coveredByJoin pass ref = .ok covered := by
  obtain ⟨context, hcontext, -⟩ := closed.complete.yields_contextOf href
  simp only [coveredByJoin, hcontext, bind, Except.bind]
  cases context with
  | joinField join =>
      dsimp only
      split
      · exact ⟨_, rfl⟩
      · exact ⟨_, rfl⟩
  | _ => exact ⟨_, rfl⟩

/-- The type of an open reference is a severe problem, remembered or not. -/
theorem isSevere_of_synth_noted (hnoted : tree.Noted ref) {pass pass' : Pass}
    {ty : Ty} (hpass : pass.Sincere tree)
    (hrun : (tree.synth options Scope.empty ref).run pass = .ok (ty, pass')) :
    ty.isSevere = true ∧
      ∀ node, node ≠ ref → pass'.cache[node]? = pass.cache[node]? := by
  obtain ⟨text, hconstruct⟩ := hnoted
  rcases tree.settle_cases hrun with hsettled | ⟨middle, hsettled, hcase⟩
  · cases tree.settled?_eq_ok_iff.mp hsettled with
    | known hlookup =>
        exact ⟨hpass.opened ref ty text _ hlookup hconstruct, fun _ _ => rfl⟩
    | cyclic hlookup hbusy => cases hbusy
  · obtain rfl := (tree.settled?_eq_ok_iff.mp hsettled).eq_of_none
    rcases hcase with ⟨-, rfl, rfl⟩ | ⟨less, last, -, rfl, hrule⟩
    · exact ⟨rfl, fun _ _ => rfl⟩
    · refine ⟨tree.isSevere_of_run_opened hconstruct hrule, fun node hne => ?_⟩
      rw [rule, synthRule, hconstruct] at hrule
      cases hrule
      rw [Pass.record, Pass.cache_recordType, if_neg hne]

theorem run_reportOpen_of_covered
    (h : tree.coveredByJoin review.pass ref = .ok true) :
    (tree.reportOpen options ref).run review = .ok ((), review) := by
  have hlook :
      (liftM (tree.coveredByJoin review.pass ref) : ReviewM Bool).run review =
        .ok (true, review) := run_look_eq_ok_iff.mpr ⟨h, rfl⟩
  rw [reportOpen, run_bind_of_ok rfl, run_bind_of_ok hlook]
  rfl

theorem run_reportOpen_of_not_covered {ty : Ty} {pass : Pass}
    (h : tree.coveredByJoin review.pass ref = .ok false)
    (hrun : (tree.synth options Scope.empty ref).run review.pass =
      .ok (ty, pass)) :
    (tree.reportOpen options ref).run review =
      .ok ((), Review.report tree ty { review with pass }) := by
  have hlook :
      (liftM (tree.coveredByJoin review.pass ref) : ReviewM Bool).run review =
        .ok (false, review) := run_look_eq_ok_iff.mpr ⟨h, rfl⟩
  rw [reportOpen, run_bind_of_ok rfl, run_bind_of_ok hlook]
  exact run_bind_of_ok (Review.run_inPass hrun) _

/-- What reporting open references does to a check: it stays fair, gets nothing
but errors, and comes to know no other types than those of the references. -/
structure Pursued (tree : Tree) (review review' : Review) : Prop where
  fair : review'.Fair tree False
  declarations : review'.declarations = review.declarations
  log : review.log.Extends review'.log
  cache : ∀ node, ¬ tree.Noted node →
    review'.pass.cache[node]? = review.pass.cache[node]?

theorem Pursued.refl (h : review.Fair tree False) :
    tree.Pursued review review :=
  ⟨h, rfl, .refl _, fun _ _ => rfl⟩

theorem Pursued.trans {review'' : Review} (h : tree.Pursued review review')
    (h' : tree.Pursued review' review'') : tree.Pursued review review'' :=
  ⟨h'.fair, h'.declarations.trans h.declarations, h.log.trans h'.log,
    fun node hnode => (h'.cache node hnode).trans (h.cache node hnode)⟩

/-- After an open reference there is an error: its own, or that of the
declaration with which its join was found to fail. -/
theorem Closed.exists_reportOpen (closed : tree.Closed) (options : Options)
    (hnoted : tree.Noted ref) (hfair : review.Fair tree False)
    (hkeeps : closed.typing.Keeps review.pass) :
    ∃ review', (tree.reportOpen options ref).run review = .ok ((), review') ∧
      closed.typing.Keeps review'.pass ∧ tree.Pursued review review' ∧
      review'.log.hasErrors = true := by
  have href : ref < tree.size := hnoted.elim fun text h =>
    lt_size_of_construct h
  obtain ⟨covered, hcovered⟩ := closed.exists_coveredByJoin href review.pass
  cases covered with
  | true =>
      obtain ⟨join, e, -, hlookup, hkind⟩ := coveredByJoin_eq_true hcovered
      have hsevere : (Ty.error e).isSevere = true := isSevere_of_joinError hkind
      have herrors := (hfair.told join _ hlookup hsevere).resolve_right id
      exact ⟨review, run_reportOpen_of_covered hcovered, hkeeps, .refl hfair,
        herrors⟩
  | false =>
      obtain ⟨ty, pass, hrun, hpass, -⟩ := (closed.judges options).judge
        (.synth Scope.empty ref) review.pass (.synth tree.inside_empty href)
        hkeeps
      have htold :=
        tree.judge_candid (Nat.le_refl _) (.synth Scope.clean_empty ref)
          hfair.sincere hrun
      obtain ⟨hsevere, hcache⟩ :=
        isSevere_of_synth_noted hnoted hfair.sincere hrun
      have hfound := hfair.found htold
      refine ⟨_, run_reportOpen_of_not_covered hcovered hrun, ?_,
        ⟨hfound.report htold.conclusion, ?_, ?_, fun node hnode => ?_⟩,
        hfound.hasErrors_report_of_isSevere htold.conclusion hsevere⟩
      · rw [Review.pass_report]
        exact hpass
      · rw [Review.declarations_report]
      · exact Review.extends_report tree hsevere { review with pass }
      · rw [Review.pass_report]
        exact hcache node fun heq => hnode (heq ▸ hnoted)

theorem Closed.exists_reportOpens (closed : tree.Closed) (options : Options)
    (refs : List NodeId) (hnoted : ∀ ref ∈ refs, tree.Noted ref)
    (hfair : review.Fair tree False)
    (hkeeps : closed.typing.Keeps review.pass) :
    ∃ review', (refs.forM (tree.reportOpen options)).run review =
      .ok ((), review') ∧ tree.Pursued review review' ∧
      (refs = [] ∧ review' = review ∨ refs ≠ [] ∧
        review'.log.hasErrors = true) := by
  induction refs generalizing review with
  | nil => exact ⟨review, rfl, .refl hfair, Or.inl ⟨rfl, rfl⟩⟩
  | cons ref refs ih =>
      obtain ⟨middle, hrun, hmiddle, hpursued, herrors⟩ :=
        closed.exists_reportOpen options (hnoted ref (by simp)) hfair hkeeps
      obtain ⟨last, hrest, hpursued', hlast⟩ :=
        ih (fun other hother => hnoted other (by simp [hother])) hpursued.fair
          hmiddle
      refine ⟨last, (run_forM_cons_of_ok hrun refs).trans hrest,
        hpursued.trans hpursued', Or.inr ⟨List.cons_ne_nil ref refs, ?_⟩⟩
      rcases hlast with ⟨-, rfl⟩ | ⟨-, hlast⟩
      · exact herrors
      · exact hlast

/-! ### The check as a whole -/

/-- Linking keeps a tree outspoken. -/
theorem Outspoken.link (h : tree.Outspoken) {linked : Tree}
    {report : LinkReport} (hlink : tree.link options = .ok (linked, report)) :
    linked.Outspoken := by
  obtain ⟨hshape, -, -⟩ := h.toClosed.link_keeps hlink
  have hholds (id : NodeId) : tree.holds (·.isCompared) id =
      linked.holds (·.isCompared) id := hshape.holds _ (fun _ _ _ => rfl) id
  have hsame : Construct.isOutspoken tree = Construct.isOutspoken linked := by
    funext construct
    cases construct <;> simp only [Construct.isOutspoken, hholds]
  refine { h.toWellFormed.link hlink with constructs := fun id hid => ?_ }
  rw [← hshape.size] at hid
  rw [← hsame, ← hshape.holds _ fun _ _ _ => rfl]
  exact h.constructs id hid

/-- A check that follows on linking has a result. It has the declarations and
the warnings of the check of the linked tree, and at least its errors, and it
succeeds if and only if that check does and no reference stayed open. If a
reference is passed over, then its join is known to have failed, and the
declaration with which this was found has reported an error. In an outspoken
tree this error quotes the problem of the join. -/
theorem linkAndCheck_spec {tree : Tree} (closed : tree.Closed)
    (options : Options) :
    ((∀ root ∈ tree.roots, root < tree.size) →
      ∃ linked report, tree.link options = .ok (linked, report)) ∧
    ∀ linked report, tree.link options = .ok (linked, report) →
      ∃ checked result, linked.checkModel options = .ok checked ∧
        tree.linkAndCheck options = .ok (linked, result) ∧
        result.declarations = checked.declarations ∧
        result.diagnostics.warnings = checked.diagnostics.warnings ∧
        result.diagnostics.totalWarnings = checked.diagnostics.totalWarnings ∧
        checked.diagnostics.errors <+: result.diagnostics.errors ∧
        (result.success = true ↔
          checked.success = true ∧ report.unresolved = []) ∧
        ∀ before ref after review, report.unresolved = before ++ ref :: after →
          (do
            linked.roots.forM (linked.checkDecl options)
            before.forM (linked.reportOpen options) : ReviewM Unit).run
              { log := Log.withLimit options.maxDiagnostics } =
                .ok ((), review) →
          linked.coveredByJoin review.pass ref = .ok true →
          checked.success = false ∧ ∃ join cause e,
            linked.contextOf ref = .ok (.joinField join) ∧
            review.pass.lookup Scope.empty join = some (.error cause) ∧
            (cause.kind = .joinTarget ∨ cause.kind = .joinOperand) ∧
            linked.ReportedFor options join e ∧
            (tree.Outspoken → e.Quotes cause) := by
  refine ⟨fun hroots => closed.exists_link hroots options,
    fun linked report hlink => ?_⟩
  obtain ⟨hshape, hclosed, hnoted⟩ := closed.link_keeps hlink
  have hroots : ∀ root ∈ linked.roots, root < linked.size := by
    obtain ⟨refs, last, hrefs, -, -⟩ := link_eq_ok hlink
    rw [← hshape.roots, ← hshape.size]
    exact lt_size_of_references hrefs
  obtain ⟨middle, hdecls, hkeeps⟩ := hclosed.exists_checkDecls options hroots
  have hfair := (carries_checkDecls (Nat.le_refl _) linked.roots
    (Review.fair_start linked options.maxDiagnostics) hdecls).fair
  obtain ⟨last, hopens, hpursued, herrors⟩ :=
    hclosed.exists_reportOpens options report.unresolved hnoted hfair hkeeps
  refine ⟨middle.result, last.result,
    checkModel_eq_ok_iff.mpr ⟨middle, hdecls, rfl⟩, ?_, hpursued.declarations,
    hpursued.log.warnings, hpursued.log.totalWarnings, hpursued.log.errors, ?_,
    fun before ref after review hsplit hrun hcovered => ?_⟩
  · have hreview := review_eq_ok_iff.mpr ⟨middle, last, hdecls, hopens, rfl⟩
    rw [linkAndCheck, hlink]
    exact bind_eq_ok_iff.mpr
      ⟨(linked, report), rfl, bind_eq_ok_iff.mpr ⟨_, hreview, rfl⟩⟩
  · rcases herrors with ⟨hnil, rfl⟩ | ⟨hne, herrors⟩
    · simp [hnil]
    · simp [Review.result, CheckResult.of, hne, herrors]
  · obtain ⟨_, middle', hdecls', hbefore⟩ := run_bind_eq_ok_iff.mp hrun
    obtain rfl : middle = middle' := by simpa using hdecls.symm.trans hdecls'
    obtain ⟨review', hbefore', hpursued', -⟩ :=
      hclosed.exists_reportOpens options before
        (fun other hother => hnoted other (by simp [hsplit, hother])) hfair
        hkeeps
    obtain rfl : review = review' := by simpa using hbefore.symm.trans hbefore'
    obtain ⟨join, cause, hcontext, hlookup, hkind⟩ :=
      coveredByJoin_eq_true hcovered
    have hsevere : cause.isSevere = true := isSevere_of_joinError hkind
    obtain ⟨left, hconstruct⟩ := construct_of_joinField hcontext
    -- The join is no reference, so its type was found with the declarations.
    have hjoin : ¬ linked.Noted join := by
      rintro ⟨text, hnote⟩
      cases hnote.symm.trans hconstruct
    have hknown : middle.pass.cache[join]? = some (.error cause) :=
      (hpursued'.cache join hjoin).symm.trans hlookup
    refine ⟨?_, ?_⟩
    · have herrors := (hfair.told join _ hknown hsevere).resolve_right id
      simp [Review.result, CheckResult.of, herrors]
    · have hreported :=
        exists_reportedFor (List.nil_append linked.roots).symm rfl
        (Review.fair_start linked options.maxDiagnostics) hdecls hknown hsevere
      obtain ⟨e, hreported, hquotes⟩ := hreported.resolve_left (by simp)
      refine ⟨join, cause, e, hcontext, hlookup, hkind, hreported,
        fun houtspoken => hquotes (houtspoken.link hlink) ?_⟩
      exact (holds_iff linked _ join).mpr ⟨_, hconstruct, rfl⟩

/-- A model with a join whose field is declared nowhere, inside of a sum. -/
def sumModel : Tree :=
  let named (name : String) : Ident := ⟨name, Span.unknown⟩
  ofConstructs [
    .concept (named "Box") [] [], .reference "Box" .pending,
    .reference "size" .pending, .join 1 2, .intLit 1, .binary .add 3 4,
    .var (named "n") none (some 5)]
    [0, 6]

theorem sumModel_outspoken : sumModel.Outspoken where
  grown := grown_ofConstructs _ _
  before := by decide +kernel
  links := by decide +kernel
  once := by decide +kernel
  roles := by decide +kernel
  roots := by decide +kernel
  targets := by decide +kernel
  constructs := by decide +kernel

theorem linkAndCheck_spec_sumModel : ∃ linked checked result,
    sumModel.link {} = .ok (linked, ⟨1, [2], 2⟩) ∧
    linked.checkModel {} = .ok checked ∧
    sumModel.linkAndCheck {} = .ok (linked, result) ∧
    result.declarations = checked.declarations ∧
    checked.diagnostics.errors <+: result.diagnostics.errors ∧
    checked.success = false ∧ result.success = false ∧
    ∃ cause e, cause.message = "relatum 'size' not found in Box" ∧
      linked.ReportedFor {} 3 e ∧ e.Quotes cause := by
  obtain ⟨hlink, hspec⟩ := linkAndCheck_spec sumModel_outspoken.toClosed {}
  obtain ⟨linked, report, h⟩ := hlink (by decide +kernel)
  have hreport : (sumModel.link {}).map (·.2) = .ok ⟨1, [2], 2⟩ := by
    decide +kernel
  have hruns : (do
      let out ← sumModel.link {}
      let last ← (do
        out.1.roots.forM (out.1.checkDecl {})
        [].forM (out.1.reportOpen {}) : ReviewM Unit).run
          { log := Log.withLimit usualLimit }
      let covered ← out.1.coveredByJoin last.2.pass 2
      let context ← out.1.contextOf 2
      let known := (last.2.pass.lookup Scope.empty 3).bind (·.error?)
      return (covered, context, known.map TypeError.message)) =
        .ok (true, .joinField 3, some "relatum 'size' not found in Box") := by
    decide +kernel
  rw [h] at hreport hruns
  obtain rfl : report = ⟨1, [2], 2⟩ := Except.ok.inj hreport
  obtain ⟨_, ⟨⟩, hruns⟩ := bind_eq_ok_iff.mp hruns
  obtain ⟨⟨_, review⟩, hrun, hruns⟩ := bind_eq_ok_iff.mp hruns
  obtain ⟨covered, hcovered, hruns⟩ := bind_eq_ok_iff.mp hruns
  obtain ⟨context, hcontext, hruns⟩ := bind_eq_ok_iff.mp hruns
  obtain ⟨rfl, rfl, hmessage⟩ : covered = true ∧ context = .joinField 3 ∧
      _ := by
    simpa using Except.ok.inj hruns
  obtain ⟨checked, result, hchecked, hresult, hdecls, -, -, herrors, hsuccess,
    hskip⟩ := hspec linked _ h
  obtain ⟨hfailed, join, cause, e, hjoin, hlookup, -, hreported, hquotes⟩ :=
    hskip [] 2 [] review rfl hrun hcovered
  cases hcontext.symm.trans hjoin
  refine ⟨linked, checked, result, h, hchecked, hresult, hdecls, herrors,
    hfailed, ?_, cause, e, ?_, hreported, hquotes sumModel_outspoken⟩
  · cases hok : result.success with
    | false => rfl
    | true => exact absurd (hsuccess.mp hok).2 (by simp)
  · simpa [hlookup, Ty.error?] using hmessage

/-- A model with two joins whose field is declared nowhere: one is a branch of a
conditional whose condition is a number, the other an operand of an operator
that is an operand itself. -/
def hushedModel : Tree :=
  let named (name : String) : Ident := ⟨name, Span.unknown⟩
  ofConstructs [
    .concept (named "Box") [] [], .reference "Box" .pending, .conceptType 1,
    .var (named "b") (some 2) none,
    .keywordType "Integer", .intLit 1, .reference "b" .pending,
    .reference "size" .pending, .join 6 7, .intLit 2, .conditional 5 8 9,
    .var (named "n") (some 4) (some 10),
    .keywordType "Integer", .reference "b" .pending, .reference "size" .pending,
    .join 13 14, .intLit 1, .binary .mod 15 16, .intLit 2, .binary .add 17 18,
    .var (named "m") (some 12) (some 19)]
    [0, 3, 11, 20]

/-- The errors that are found in it, with their nodes. -/
def hushedErrors : List (NodeId × String) :=
  [(10, "conditional does not conform: " ++
      "condition has type Integer, expected Boolean"),
    (19, "operands of '+' have types Error(type of operator '%' cannot be " ++
      "inferred) and Integer, expected Integer")]

/-- Both fields stay open and are passed over, since both joins are known to
have failed. But the errors are about other things, and none names the field. -/
theorem linkAndCheck_hushedModel : ∃ linked report review result,
    hushedModel.link {} = .ok (linked, report) ∧ report.unresolved = [7, 14] ∧
    (linked.roots.forM (linked.checkDecl {})).run
      { log := Log.withLimit usualLimit } = .ok ((), review) ∧
    (∀ ref ∈ [7, 14], linked.coveredByJoin review.pass ref = .ok true) ∧
    (∀ join ∈ [8, 15], (review.pass.lookup Scope.empty join).bind (·.error?) =
      some ⟨join, .joinTarget, "relatum 'size' not found in Box"⟩) ∧
    hushedModel.linkAndCheck {} = .ok (linked, result) ∧
    result.diagnostics.totalErrors = 2 ∧
    result.diagnostics.errors.map (fun error => (error.node, error.message)) =
      hushedErrors ∧
    ∀ error ∈ hushedErrors, ¬ "size".toList <:+: error.2.toList := by
  have hdecls : (do
      let out ← hushedModel.link {}
      let last ← (out.1.roots.forM (out.1.checkDecl {})).run
        { log := Log.withLimit usualLimit }
      let covered := [7, 14].map (out.1.coveredByJoin last.2.pass)
      let known := [8, 15].map
        fun join => (last.2.pass.lookup Scope.empty join).bind (·.error?)
      return (out.2.unresolved, covered, known)) =
      .ok ([7, 14], [.ok true, .ok true], [8, 15].map
        fun join => some ⟨join, .joinTarget,
          "relatum 'size' not found in Box"⟩) := by
    decide +kernel
  have hresult : (do
      let out ← hushedModel.linkAndCheck {}
      let log := out.2.diagnostics
      return (log.totalErrors, log.errors.map
        fun (error : Diagnostic) => (error.node, error.message))) =
      .ok (2, hushedErrors) := by
    decide +kernel
  obtain ⟨⟨linked, report⟩, hlink, hdecls⟩ := bind_eq_ok_iff.mp hdecls
  obtain ⟨⟨_, review⟩, hrun, hdecls⟩ := bind_eq_ok_iff.mp hdecls
  obtain ⟨hunresolved, hcovered, hknown⟩ : _ ∧ _ ∧ _ := by
    simpa only [Prod.mk.injEq] using Except.ok.inj hdecls
  obtain ⟨⟨checked, result⟩, hcheck, hresult⟩ := bind_eq_ok_iff.mp hresult
  obtain ⟨htotal, herrors⟩ : _ ∧ _ := by
    simpa only [Prod.mk.injEq] using Except.ok.inj hresult
  obtain rfl : checked = linked := by
    rw [linkAndCheck, hlink] at hcheck
    obtain ⟨_, ⟨⟩, hcheck⟩ := bind_eq_ok_iff.mp hcheck
    obtain ⟨_, -, ⟨⟩⟩ := bind_eq_ok_iff.mp hcheck
    rfl
  exact ⟨checked, report, review, result, hlink, hunresolved, hrun,
    by simpa using hcovered, by simpa using hknown, hcheck, htotal, herrors,
    by decide +kernel⟩

end Tree

end ConceptLang
