import ConceptLang.Proofs.Acceptance
import ConceptLang.Proofs.Headroom
import ConceptLang.Proofs.LinkedTrees
import ConceptLang.Proofs.Minutes
import ConceptLang.Proofs.OpenReferences

/-!
# Nothing is refused where there is room

A pass refuses a judgement if too many others wait for it. With a limit of at
least twice the number of nodes this does not happen in a well-formed tree,
whatever cycles its links form: not in a check, not while linking, and not in
the check that follows on linking (`Tree.nothing_refused`).

The rules make no problem of recursion by themselves (`Tree.candid_rule`), so
where nothing is refused every such problem is that of a type that depends on
itself. Answers of this kind are a practice (`Tree.granting`), and chains of
judgements may start from all places where a check or the linker starts them.
The one exception are references that stayed open, perhaps in the middle of a
value; but to find that such a reference is open no premise is needed.
-/

namespace ConceptLang

/-! ### Refusals -/

/-- Whether the fault of a node is that its judgement was refused. -/
def Fault.isRefusal : Fault → Bool
  | .tooDeep _ => true
  | _ => false

/-- The type error is no refusal, and if it is about recursion then a type
depends on itself. -/
structure TypeError.Granted (e : TypeError) : Prop where
  message_ne : ∀ limit, e.message ≠ (Fault.tooDeep limit).message
  cyclic : e.kind = .recursion →
    ∃ label, e.message = (Fault.cyclic label).message

/-- The same for the diagnostic of a type error. -/
structure Diagnostic.Granted (diagnostic : Diagnostic) : Prop where
  message_ne : ∀ limit, diagnostic.message ≠ (Fault.tooDeep limit).message
  cyclic : diagnostic.code = ErrorKind.recursion.code →
    ∃ label, diagnostic.message = (Fault.cyclic label).message

/-- The call was not refused, and its answer does not come from a call that
was. -/
def Call.Granted (call : Call) : Prop :=
  ∀ e, call.answer = .error e → e.Granted

theorem append_ne_append {cs ds : List Char} {s t : String} (h : ¬ cs <+: ds)
    (h' : ¬ ds <+: cs) :
    String.ofList cs ++ s ≠ String.ofList ds ++ t := by
  intro heq
  have hchars : cs ++ s.toList = ds ++ t.toList := by
    simpa only [String.toList_append, String.toList_ofList]
      using congrArg String.toList heq
  rcases List.prefix_or_prefix_of_prefix ⟨s.toList, hchars⟩ ⟨t.toList, rfl⟩ with
    h'' | h''
  · exact h h''
  · exact h' h''

namespace Fault

theorem message_ne_tooDeep {cause : Fault} (h : cause.isRefusal = false)
    (limit : Nat) :
    cause.message ≠ (tooDeep limit).message := by
  cases cause with
  | tooDeep => cases h
  | predicateBody =>
      rw [← String.append_empty (s := predicateBody.message)]
      unfold message
      simp only [String.append_assoc]
      exact append_ne_append (by decide) (by decide)
  | unresolved text note =>
      cases note <;> unfold message <;> simp only [String.append_assoc] <;>
        exact append_ne_append (by decide) (by decide)
  | _ =>
      unfold message
      simp only [String.append_assoc]
      exact append_ne_append (by decide) (by decide)

theorem granted_toError {cause : Fault} (h : cause.isRefusal = false)
    (node : NodeId) :
    (cause.toError node).Granted := by
  refine ⟨message_ne_tooDeep h, fun hkind => ?_⟩
  cases cause with
  | cyclic label => exact ⟨label, rfl⟩
  | tooDeep => cases h
  | _ => cases hkind

theorem isRefusal_eq_false {cause : Fault} (h : cause.kind ≠ .recursion) :
    cause.isRefusal = false := by
  cases cause with
  | tooDeep => exact absurd rfl h
  | _ => rfl

end Fault

/-- The type is free of problems, or a fault of a node that is no refusal. -/
abbrev Ty.Granted : Ty → Prop := CleanOr (·.isRefusal = false)

theorem Ty.Granted.error {e : TypeError} (h : (Ty.error e).Granted) :
    e.Granted := by
  cases h with
  | clean h => cases h
  | fault node hcause => exact Fault.granted_toError hcause node

theorem TypeError.Granted.diagnostic {e : TypeError} (h : e.Granted)
    (tree : Tree) :
    (e.diagnostic tree).Granted := by
  refine ⟨h.message_ne, fun hcode => h.cyclic ?_⟩
  change e.kind.code = _ at hcode
  cases hkind : e.kind <;> rw [hkind] at hcode <;> first | rfl | cases hcode

/-! ### Answers without refusals -/

/-- What is candid and meets a policy does both at once. -/
theorem Rule.Candid.meets {α : Type} {made : Fault → Prop}
    {fails post post' : α → Prop} {ask : Judgement → Prop}
    {answer : Judgement → Ty → Prop} {rule : Rule α}
    (h : rule.Candid made fails post) (hmeets : rule.Meets ask answer post') :
    rule.Meets (fun judgement => ask judgement ∧ judgement.Clean)
      (fun judgement ty => answer judgement ty ∧ ty.CleanOr made)
      (fun a => post' a ∧ post a) := by
  induction rule with
  | conclude result => exact ⟨hmeets, h⟩
  | defect error => exact hmeets
  | premise judgement next ih =>
      exact ⟨⟨hmeets.1, h.1⟩,
        fun ty hty => ih ty (h.2 ty hty.2).2 (hmeets.2 ty hty.1)⟩
  | stamp decl next ih => exact fun n => ih n (h n) (hmeets n)

namespace Tree

variable {tree : Tree} (wf : tree.WellFormed)

/-- Sound answers without refusals are a practice. -/
def granting : tree.Practice where
  ask judgement := tree.Asks judgement ∧ judgement.Clean
  answer judgement ty := tree.Answers judgement ty ∧ ty.Granted
  inside judgement h := (sound wf).inside judgement h.1
  bound scope node ty h hbound := by
    refine ⟨(sound wf).bound scope node ty h.1 hbound, .clean ?_⟩
    cases h.2 with
    | synth hscope => exact hscope _ (mem_of_lookup hbound)
  scopes _ _ _ _ _ _ hty := hty
  checks scope scope' node expected expected' ty h h' hsame hty :=
    ⟨(sound wf).checks scope scope' node expected expected' ty h.1 h'.1 hsame
      hty.1, hty.2⟩
  state _ _ := True
  rule _ judgement h _ _ := by
    have hcandid := tree.candid_rule (fun _ => Fault.isRefusal_eq_false) h.2
    refine (hcandid.meets (meets_rule wf h.1)).mono ?_ fun _ hty => hty
    exact fun _ hpremise =>
      ⟨⟨hpremise.1.asks, hpremise.2⟩, hpremise.1.calls, trivial⟩
  cyclic _ judgement label h _ _ :=
    ⟨(sound wf).fault judgement _ h.1, .fault _ rfl⟩

theorem Policy.Obeys.granted {diary : Diary} (h : (granting wf).Obeys diary) :
    ∀ call ∈ diary.calls, call.Granted := by
  intro call hcall e he
  have hty : call.answer.Granted := (h.calls call hcall).2
  rw [he] at hty
  exact hty.error

variable {options : Options} (hdepth : 2 * tree.size ≤ options.maxDepth)

include hdepth

/-- A chain of judgements has room if it starts where a chain may start. -/
theorem exists_judgeNoting {judgement : Judgement}
    (hask : (granting wf).ask judgement)
    (hchain : tree.Chain [] [] judgement.slot) {diary : Diary}
    (h : (granting wf).Obeys diary) :
    ∃ ty diary', (tree.judgeNoting options judgement).run diary =
      .ok (ty, diary') ∧ (granting wf).Obeys diary' ∧
      (granting wf).answer judgement ty :=
  (granting wf).settleNoting wf hdepth options.maxDepth [] [] judgement hask
    trivial hchain (Nat.le_refl _) h

/-- The type of an open reference needs no premise. -/
theorem exists_judgeNoting_noted {ref : NodeId} (hnoted : tree.Noted ref)
    {diary : Diary} (h : (granting wf).Obeys diary) :
    ∃ ty diary', (tree.judgeNoting options (.synth Scope.empty ref)).run diary =
      .ok (ty, diary') ∧ (granting wf).Obeys diary' ∧
      (granting wf).answer (.synth Scope.empty ref) ty := by
  obtain ⟨text, hconstruct⟩ := hnoted
  have href := lt_size_of_construct hconstruct
  have hask : (granting wf).ask (.synth Scope.empty ref) :=
    ⟨.synth tree.fits_empty href, .synth Scope.clean_empty ref⟩
  have hstate : (granting wf).state [] (.synth Scope.empty ref) := trivial
  obtain ⟨known, pass, hrun, hpass, hsome, -⟩ :=
    (granting wf).exists_settled hask hstate h.pass
  rw [judgeNoting]
  cases known with
  | some ty =>
      have hty := hsome ty rfl
      exact ⟨ty, _, tree.settleNoting_of_settled hrun, h.note hpass hty, hty⟩
  | none =>
      have hpos : 0 < tree.size := Nat.zero_lt_of_lt href
      obtain ⟨room, hroom⟩ : ∃ room, options.maxDepth = room + 1 :=
        Nat.exists_eq_succ_of_ne_zero (by omega)
      have hty : (granting wf).answer (.synth Scope.empty ref)
          (.fault ref (.unresolved text (some (unresolvedNote text)))) :=
        ⟨Or.inl rfl, .fault ref rfl⟩
      refine ⟨_, _, ?_, h.note (hpass.record hask hty) hty, hty⟩
      rw [hroom, tree.settleNoting_succ hrun, rule, synthRule, hconstruct]
      rfl

end Tree

/-! ### Checks without refusals -/

theorem exists_run_forM {σ α : Type} {inv : σ → Prop}
    {f : α → StateT σ (Except TreeError) Unit} (xs : List α)
    (h : ∀ x ∈ xs, ∀ s, inv s → ∃ s', (f x).run s = .ok ((), s') ∧ inv s')
    {s : σ} (hs : inv s) :
    ∃ s', (xs.forM f).run s = .ok ((), s') ∧ inv s' := by
  induction xs generalizing s with
  | nil => exact ⟨s, rfl, hs⟩
  | cons x xs ih =>
      obtain ⟨middle, hfirst, hmiddle⟩ := h x List.mem_cons_self s hs
      obtain ⟨last, hrest, hlast⟩ :=
        ih (fun y hy => h y (List.mem_cons_of_mem x hy)) hmiddle
      exact ⟨last, (run_forM_cons_of_ok hfirst xs).trans hrest, hlast⟩

theorem Log.mem_stored_push {log : Log} {diagnostic other : Diagnostic}
    (h : other ∈ (log.push diagnostic).stored) :
    other ∈ log.stored ∨ other = diagnostic := by
  simp only [stored, push] at h ⊢
  cases hseverity : diagnostic.severity <;> simp only [hseverity] at h
  · split at h <;> simp only [List.mem_append, List.mem_singleton]
      at h ⊢ <;> tauto
  · simp only [List.mem_append, List.mem_singleton] at h ⊢
    tauto

/-- No judgement was refused so far, and no refusal was reported. -/
structure Minutes.Granted {tree : Tree} (wf : tree.WellFormed)
    (minutes : Minutes) : Prop where
  obeys : (Tree.granting wf).Obeys ⟨minutes.review.pass, minutes.calls⟩
  stored : ∀ diagnostic ∈ minutes.review.log.stored, diagnostic.Granted

namespace Minutes.Granted

variable {tree : Tree} {wf : tree.WellFormed} {minutes : Minutes}

theorem report (h : minutes.Granted wf) {ty : Ty} (hty : ty.Granted) :
    Granted wf { minutes with review := minutes.review.report tree ty } := by
  refine ⟨?_, fun diagnostic hmem => ?_⟩
  · rw [Review.pass_report]
    exact h.obeys
  · unfold Review.report at hmem
    split at hmem
    · split at hmem
      · exact h.stored diagnostic hmem
      · rcases Log.mem_stored_push hmem with hold | rfl
        · exact h.stored diagnostic hold
        · exact hty.error.diagnostic tree
    · exact h.stored diagnostic hmem

theorem inDiary {α : Type} (h : minutes.Granted wf) {action : DiaryM α}
    {post : α → Prop}
    (haction : ∀ diary, (Tree.granting wf).Obeys diary →
      ∃ a diary', action.run diary = .ok (a, diary') ∧
      (Tree.granting wf).Obeys diary' ∧ post a) :
    ∃ a minutes', (Minutes.inDiary action).run minutes = .ok (a, minutes') ∧
      minutes'.Granted wf ∧ post a := by
  obtain ⟨a, diary, hrun, hdiary, hpost⟩ := haction _ h.obeys
  refine ⟨a, ⟨{ minutes.review with pass := diary.pass }, diary.calls⟩, ?_,
    ⟨hdiary, h.stored⟩, hpost⟩
  change (action.run ⟨minutes.review.pass, minutes.calls⟩ >>= _) = _
  rw [hrun]
  rfl

end Minutes.Granted

namespace Tree

section Checks

variable {tree : Tree} (wf : tree.WellFormed) {options : Options}
  (hdepth : 2 * tree.size ≤ options.maxDepth) {minutes : Minutes}

theorem exists_reportNoting {node : NodeId}
    (hjudge : ∀ diary, (granting wf).Obeys diary →
      ∃ ty diary',
      (tree.judgeNoting options (.synth Scope.empty node)).run diary =
      .ok (ty, diary') ∧ (granting wf).Obeys diary' ∧
      (granting wf).answer (.synth Scope.empty node) ty)
    (h : minutes.Granted wf) :
    ∃ minutes', (tree.reportNoting options node).run minutes =
      .ok ((), minutes') ∧ minutes'.Granted wf := by
  obtain ⟨ty, middle, hrun, hmiddle, hty⟩ := h.inDiary hjudge
  exact ⟨_, run_bind_of_ok hrun _, hmiddle.report hty.2⟩

include hdepth

theorem exists_judgeNoting_starts {judgement : Judgement}
    (hstarts : tree.Starts judgement) (hclean : judgement.Clean) {diary : Diary}
    (h : (granting wf).Obeys diary) :
    ∃ ty diary', (tree.judgeNoting options judgement).run diary =
      .ok (ty, diary') ∧ (granting wf).Obeys diary' ∧
      (granting wf).answer judgement ty :=
  exists_judgeNoting wf hdepth ⟨hstarts.1, hclean⟩ (.nil hstarts.2) h

theorem exists_reportRelationsNoting {decl : NodeId} (hdecl : decl < tree.size)
    (h : minutes.Granted wf) :
    ∃ minutes', (tree.reportRelationsNoting options decl).run minutes =
      .ok ((), minutes') ∧ minutes'.Granted wf := by
  obtain ⟨construct, hconstruct⟩ := exists_construct hdecl
  rw [reportRelationsNoting,
    run_bind_of_ok (run_look_eq_ok_iff.mpr ⟨hconstruct, rfl⟩)]
  cases construct with
  | concept name parents relations =>
      refine exists_run_forM relations (fun relation hmem _ =>
        exists_reportNoting wf fun _ => ?_) h
      exact exists_judgeNoting_starts wf hdepth
        (starts_relation wf ⟨name, parents, relations, hconstruct, hmem⟩)
        (.synth Scope.clean_empty relation)
  | _ => exact ⟨minutes, rfl, h⟩

theorem exists_checkDeclNoting {decl : NodeId} (hdecl : decl ∈ tree.roots)
    (h : minutes.Granted wf) :
    ∃ minutes', (tree.checkDeclNoting options decl).run minutes =
      .ok ((), minutes') ∧ minutes'.Granted wf := by
  have hinside := wf.root_lt_size decl hdecl
  obtain ⟨construct, hconstruct⟩ := exists_construct hinside
  have hrule :=
    (tree.candid_declRule (·.isRefusal = false) decl).meets
      (meets_declRule wf hdecl)
  obtain ⟨ty, middle, hrun, hmiddle, -, hty⟩ := h.inDiary fun diary hdiary =>
    Rule.Meets.run (fun node _ hdiary => hdiary.mint node)
      (fun judgement _ hjudgement hdiary =>
        exists_judgeNoting_starts wf hdepth hjudgement.1 hjudgement.2 hdiary)
      hrule hdiary
  obtain ⟨last, hreport, hlast⟩ :=
    exists_reportRelationsNoting wf hdepth hinside hmiddle
  have hreported := hlast.report hty
  rw [checkDeclNoting,
    run_bind_of_ok (run_look_eq_ok_iff.mpr ⟨hconstruct, rfl⟩),
    run_bind_of_ok hrun, run_bind_of_ok hreport]
  exact ⟨_, rfl, hreported.obeys, hreported.stored⟩

theorem exists_reportOpenNoting {ref : NodeId} (hnoted : tree.Noted ref)
    (h : minutes.Granted wf) :
    ∃ minutes', (tree.reportOpenNoting options ref).run minutes =
      .ok ((), minutes') ∧ minutes'.Granted wf := by
  have href : ref < tree.size := hnoted.elim fun text hconstruct =>
    lt_size_of_construct hconstruct
  obtain ⟨covered, hcovered⟩ := wf.exists_coveredByJoin href minutes.review.pass
  rw [reportOpenNoting, run_bind_of_ok rfl,
    run_bind_of_ok (run_look_eq_ok_iff.mpr ⟨hcovered, rfl⟩)]
  cases covered with
  | true => exact ⟨minutes, rfl, h⟩
  | false =>
      exact exists_reportNoting wf
        (fun _ => exists_judgeNoting_noted wf hdepth hnoted) h

include wf in
/-- A check has a result, and nothing was refused on the way. -/
theorem exists_reviewNoting (refs : List NodeId)
    (hnoted : ∀ ref ∈ refs, tree.Noted ref) :
    ∃ result calls, tree.reviewNoting options refs = .ok (result, calls) ∧
      (∀ call ∈ calls, call.Granted) ∧
      ∀ diagnostic ∈ result.diagnostics.stored, diagnostic.Granted := by
  have hstart :
      Minutes.Granted wf
        { review := { log := Log.withLimit options.maxDiagnostics } } :=
    ⟨⟨(granting wf).keeps_empty, nofun⟩, nofun⟩
  obtain ⟨middle, hdecls, hmiddle⟩ := exists_run_forM tree.roots
    (fun decl hdecl _ => exists_checkDeclNoting wf hdepth hdecl) hstart
  obtain ⟨last, hopens, hlast⟩ := exists_run_forM refs
    (fun ref href _ => exists_reportOpenNoting wf hdepth (hnoted ref href))
    hmiddle
  refine ⟨last.review.result, last.calls, ?_, hlast.obeys.granted wf,
    hlast.stored⟩
  have hrun := run_bind_of_ok hdecls fun _ =>
    refs.forM (tree.reportOpenNoting options)
  simp only [reviewNoting, hrun, hopens]
  rfl

end Checks

/-! ### Linking without refusals -/

section Linking

variable {tree : Tree} {options : Options} (wf : tree.WellFormed)
  (hdepth : 2 * tree.size ≤ options.maxDepth) {calls calls' : List Call}

include wf hdepth

/-- The one judgement of a look-up is about the left side of a join, where a
chain may start. -/
theorem granted_of_joinCandidatesNoting {join : NodeId}
    {names : List (String × NodeId)} {diary diary' : Diary}
    (hdiary : (granting wf).Obeys diary)
    (h : (tree.joinCandidatesNoting options Scope.empty join).run diary =
      .ok (names, diary')) :
    ∀ call ∈ diary'.calls, call.Granted := by
  rw [joinCandidatesNoting] at h
  obtain ⟨construct, middle, hlook, h⟩ := run_bind_eq_ok_iff.mp h
  obtain ⟨hjoin, rfl⟩ := run_look_eq_ok_iff.mp hlook
  cases construct with
  | join left field =>
      obtain ⟨ty, after, hjudge, h⟩ := run_bind_eq_ok_iff.mp h
      have hleft : left < tree.size :=
        wf.complete.part_lt_size hjoin (by simp [Construct.children])
      obtain ⟨ty', after', hjudge', hafter, -⟩ := exists_judgeNoting wf hdepth
        ⟨.synth tree.fits_empty hleft, .synth Scope.clean_empty left⟩
        (.left ⟨join, field, hjoin⟩)
        hdiary
      obtain ⟨rfl, rfl⟩ : ty = ty' ∧ after = after' := by
        simpa using hjudge.symm.trans hjudge'
      have hsame : diary' = after := by
        cases ty with
        | concept concept => exact (run_look_eq_ok_iff.mp h).2
        | _ =>
            cases h
            rfl
      rw [hsame]
      exact hafter.granted wf
  | _ =>
      cases h
      exact hdiary.granted wf

theorem granted_of_resolveAfreshNoting {ref : NodeId} {found : Option NodeId}
    (hcalls : ∀ call ∈ calls, call.Granted)
    (h : (tree.resolveAfreshNoting options ref).run calls =
      .ok (found, calls')) :
    ∀ call ∈ calls', call.Granted := by
  have hstart : (granting wf).Obeys { pass := {} } :=
    ⟨(granting wf).keeps_empty, nofun⟩
  obtain ⟨⟨_, diary⟩, hrun, ⟨⟩⟩ := bind_eq_ok_iff.mp h
  have hdiary : ∀ call ∈ diary.calls, call.Granted := by
    rw [resolveNoting] at hrun
    obtain ⟨construct, middle, hlook, hrun⟩ := run_bind_eq_ok_iff.mp hrun
    obtain ⟨-, rfl⟩ := run_look_eq_ok_iff.mp hlook
    cases construct with
    | reference text link =>
        obtain ⟨names, last, hnames, ⟨⟩⟩ := run_bind_eq_ok_iff.mp hrun
        obtain ⟨context, middle, hlook, hnames⟩ := run_bind_eq_ok_iff.mp hnames
        obtain ⟨-, rfl⟩ := run_look_eq_ok_iff.mp hlook
        cases context with
        | joinField join =>
            exact granted_of_joinCandidatesNoting wf hdepth hstart hnames
        | _ =>
            obtain ⟨-, rfl⟩ := run_look_eq_ok_iff.mp hnames
            exact hstart.granted wf
    | _ =>
        cases hrun
        exact hstart.granted wf
  exact fun call hcall =>
    (List.mem_append.mp hcall).elim (hdiary call) (hcalls call)

/-- A round refuses nothing. The induction is on the references; the tree stays
well-formed and of the same size. -/
theorem granted_of_linkRoundNoting {refs others : List NodeId} {last : Tree}
    (hcalls : ∀ call ∈ calls, call.Granted)
    (h : (linkRoundNoting options tree refs).run calls =
      .ok ((last, others), calls')) :
    ∀ call ∈ calls', call.Granted := by
  induction refs generalizing tree others calls calls' with
  | nil =>
      cases h
      exact hcalls
  | cons ref refs ih =>
      rw [linkRoundNoting] at h
      obtain ⟨found, middle, hfirst, h⟩ := run_bind_eq_ok_iff.mp h
      have hmiddle := granted_of_resolveAfreshNoting wf hdepth hcalls hfirst
      cases found with
      | some target =>
          obtain ⟨linked, after, hlook, hnext⟩ := run_bind_eq_ok_iff.mp h
          obtain ⟨hset, rfl⟩ := run_look_eq_ok_iff.mp hlook
          have hresolve := tree.notes_resolveAfreshNoting options ref calls
          rw [hfirst] at hresolve
          have hsize := (sameShape_of_setLink hset).size
          exact ih (wf.setLink_resolved hresolve.symm hset) (hsize ▸ hdepth)
            hmiddle hnext
      | none =>
          obtain ⟨⟨final, rest⟩, after, hrest, ⟨⟩⟩ := run_bind_eq_ok_iff.mp h
          exact ih wf hdepth hmiddle hrest

theorem granted_of_linkRoundsNoting {refs others : List NodeId} {last : Tree}
    {count count' : Nat} (hcalls : ∀ call ∈ calls, call.Granted)
    (h : (linkRoundsNoting options tree refs count).run calls =
      .ok ((last, others, count'), calls')) :
    ∀ call ∈ calls', call.Granted := by
  change linkRoundsNoting options tree refs count calls = _ at h
  fun_induction linkRoundsNoting options tree refs count calls with
  | case1 tree refs count calls hempty =>
      cases h
      exact hcalls
  | case2 tree refs count calls hempty e hrun => cases h
  | case3 tree refs count calls hempty middle rest calls'' hrun hlt ih =>
      have hround := notes_linkRoundNoting options tree refs calls
      rw [hrun] at hround
      have hround := linkRound_eq_ok_iff.mp hround.symm
      exact ih (hround.wellFormed wf) (hround.keeps.1.size ▸ hdepth)
        (granted_of_linkRoundNoting wf hdepth hcalls hrun) h
  | case4 tree refs count calls hempty middle rest calls'' hrun hge =>
      cases h
      exact granted_of_linkRoundNoting wf hdepth hcalls hrun

/-- Linking has a result, and nothing was refused on the way. -/
theorem exists_linkNoting :
    ∃ linked report calls,
      (tree.linkNoting options).run [] = .ok ((linked, report), calls) ∧
      tree.link options = .ok (linked, report) ∧
      ∀ call ∈ calls, call.Granted := by
  obtain ⟨linked, report, hlink⟩ := wf.exists_link wf.root_lt_size options
  have hnotes := tree.notes_linkNoting options []
  rw [hlink] at hnotes
  cases hrun : (tree.linkNoting options).run [] with
  | error e =>
      rw [hrun] at hnotes
      cases hnotes
  | ok out =>
      obtain ⟨_, calls⟩ := out
      rw [hrun] at hnotes
      obtain rfl := Except.ok.inj hnotes
      refine ⟨linked, report, calls, rfl, hlink, ?_⟩
      rw [linkNoting] at hrun
      obtain ⟨refs, middle, hlook, hrun⟩ := run_bind_eq_ok_iff.mp hrun
      obtain ⟨-, rfl⟩ := run_look_eq_ok_iff.mp hlook
      obtain ⟨opened, middle, hlook, hrun⟩ := run_bind_eq_ok_iff.mp hrun
      obtain ⟨-, rfl⟩ := run_look_eq_ok_iff.mp hlook
      obtain ⟨⟨last, others, rounds⟩, calls, hrounds, hrun⟩ :=
        run_bind_eq_ok_iff.mp hrun
      obtain ⟨noted, middle, hlook, ⟨⟩⟩ := run_bind_eq_ok_iff.mp hrun
      obtain ⟨-, rfl⟩ := run_look_eq_ok_iff.mp hlook
      exact granted_of_linkRoundsNoting wf hdepth
        (fun _ hcall => absurd hcall List.not_mem_nil)
        hrounds

end Linking

/-- If the limit is at least twice the number of nodes, then no judgement of a
check is refused, none of linking, and none of linking and checking. No answer
and no diagnostic says that the limit was exceeded, and all that are about
recursion say that a type depends on itself. -/
theorem nothing_refused (tree : Tree) (wf : tree.WellFormed) (options : Options)
    (hdepth : 2 * tree.size ≤ options.maxDepth) :
    (∃ result calls, tree.checkModel options = .ok result ∧
      tree.reviewNoting options [] = .ok (result, calls) ∧
      (∀ call ∈ calls, call.Granted) ∧
      ∀ diagnostic ∈ result.diagnostics.stored, diagnostic.Granted) ∧
    (∃ linked report calls, tree.link options = .ok (linked, report) ∧
      (tree.linkNoting options).run [] = .ok ((linked, report), calls) ∧
      ∀ call ∈ calls, call.Granted) ∧
    ∃ linked result calls, tree.linkAndCheck options = .ok (linked, result) ∧
      tree.linkAndCheckNoting options = .ok ((linked, result), calls) ∧
      (∀ call ∈ calls, call.Granted) ∧
      ∀ diagnostic ∈ result.diagnostics.stored, diagnostic.Granted := by
  obtain ⟨linked, report, calls, hrun, hlink, hcalls⟩ :=
    exists_linkNoting wf hdepth
  refine ⟨?_, ⟨linked, report, calls, hlink, hrun, hcalls⟩, ?_⟩
  · obtain ⟨result, calls, hreview, hgranted⟩ :=
      exists_reviewNoting wf hdepth [] fun _ href =>
        absurd href List.not_mem_nil
    refine ⟨result, calls, ?_, hreview, hgranted⟩
    rw [checkModel, ← tree.reviewNoting_eq, hreview]
    rfl
  · obtain ⟨hshape, -, hnoted⟩ := wf.link_keeps hlink
    obtain ⟨result, later, hreview, hlater, hstored⟩ :=
      exists_reviewNoting (wf.link hlink) (hshape.size ▸ hdepth)
        report.unresolved hnoted
    have hboth :
        tree.linkAndCheckNoting options =
          .ok ((linked, result), later ++ calls) := by
      rw [linkAndCheckNoting, hrun]
      simp only [bind, Except.bind, hreview]
      rfl
    refine ⟨linked, result, later ++ calls, ?_, hboth, ?_, hstored⟩
    · rw [← tree.linkAndCheckNoting_eq, hboth]
      rfl
    · exact fun call hcall =>
        (List.mem_append.mp hcall).elim (hlater call) (hcalls call)

/-- A model with two variables that are defined by each other. One of them also
needs a join whose names are not linked yet. -/
def knotModel : Tree :=
  let named (name : String) : Ident := ⟨name, Span.unknown⟩
  ofConstructs [
    .keywordType "Integer", .relation (named "size") 0,
    .concept (named "Box") [] [1],
    .reference "Box" .pending, .conceptType 3, .var (named "box") (some 4) none,
    .reference "box" .pending, .reference "size" .pending, .join 6 7,
    .reference "loop" (.resolved 13), .binary .add 8 9,
    .var (named "n") none (some 10),
    .reference "n" (.resolved 11), .var (named "loop") none (some 12)]
    [2, 5, 11, 13]

theorem knotModel_wellFormed : knotModel.WellFormed where
  grown := grown_ofConstructs _ _
  before := by decide +kernel
  links := by decide +kernel
  once := by decide +kernel
  roles := by decide +kernel
  roots := by decide +kernel
  targets := by decide +kernel

theorem nothing_refused_knotModel :
    2 * knotModel.size ≤ 28 ∧
    (∃ linked report calls,
      knotModel.link { maxDepth := 28 } = .ok (linked, report) ∧
      (knotModel.linkNoting { maxDepth := 28 }).run [] =
        .ok ((linked, report), calls) ∧
      ∀ call ∈ calls, call.Granted) ∧
    ∃ linked result calls,
      knotModel.linkAndCheck { maxDepth := 28 } = .ok (linked, result) ∧
      knotModel.linkAndCheckNoting { maxDepth := 28 } =
        .ok ((linked, result), calls) ∧
      (∀ call ∈ calls, call.Granted) ∧
      result.diagnostics.hasCode ErrorKind.recursion.code = true := by
  have hdepth : 2 * knotModel.size ≤ 28 := by decide +kernel
  obtain ⟨-, hlink, linked, result, calls, hresult, hnoting, hcalls, -⟩ :=
    nothing_refused knotModel knotModel_wellFormed { maxDepth := 28 } hdepth
  refine ⟨hdepth, hlink, linked, result, calls, hresult, hnoting, hcalls, ?_⟩
  have hcode : (knotModel.linkAndCheck { maxDepth := 28 }).map
      (·.2.diagnostics.hasCode ErrorKind.recursion.code) = .ok true := by
        decide +kernel
  rw [hresult] at hcode
  exact Except.ok.inj hcode

end Tree

end ConceptLang
