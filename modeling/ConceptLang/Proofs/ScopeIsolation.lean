import ConceptLang.Proofs.Grounds
import ConceptLang.Proofs.TranscriptScope

/-!
# What a check can learn from other scopes

A pass keeps types for nodes, and outcomes for nodes and expected types, all
without the scopes in which they arose. So what was settled in one scope is seen
in other ones (`Session.Leaks`). But this does harm only through nodes that are
bound. Compare a check in a session with the same check in a new session. If,
wherever the first session asks for the type of a bound node, it finds what the
new one finds for this node, then the check fails in both sessions or in none
(`Session.check_isolated`).

The expected type and the types in the overlay have to be older than the
session, since a relation type that one session has made is different from those
that another one makes.
-/

namespace ConceptLang

/-- The call is not answered with a recursion error. And where it asks for the
type of a node that is bound, for itself or for one of `calls` that asks for the
same type, it finds what that call found, up to literals, names and new
stamps. -/
def Call.KeepsTo (base : Nat) (calls : List Call) (call : Call) : Prop :=
  call.answer.isRecursion = false ∧ ∀ other ∈ calls,
    call.judgement.touches other.judgement = true →
      call.answer.verdict base = other.answer.verdict base

namespace Session

/-- A new session about the tree, with an environment that was made from its
first one. The stamps below `base` were given out before. -/
inductive Begins (tree : Tree) (options : Options) (base : Nat) :
    Session → Environment → Prop where
  | mk {session : Session} {origin env : Environment}
      (h : ({ tree, options, stamps := base } : Session).newEnvironment =
        (origin, session))
      (henv : origin.DerivedFrom env) : Begins tree options base session env

/-- The calls that are answered when a judgement is settled in an
environment. -/
def transcript (session : Session) (env : Environment) (judgement : Judgement) :
    List Call :=
  session.tree.transcript session.options judgement (session.pass env)

/-- Judgements are settled one after the other, in environments that were made
from `origin`, with good calls only. -/
abbrev GoesWith (good : Call → Prop) (origin : Environment) :
    Session → Session → Prop :=
  Relation.ReflTransGen fun session session' => ∃ judgement ty,
    session.Settles origin judgement ty session' ∧
      ∀ call ∈ session.transcript origin judgement, good call

section Begins

variable {tree : Tree} {options : Options} {base : Nat} {session : Session}
  {env : Environment}

theorem Begins.pass_eq (h : Begins tree options base session env) :
    session.pass env = { stamps := base } := by
  obtain ⟨h, henv⟩ := h
  cases h
  rw [pass, henv.cache_eq]
  rfl

theorem Begins.tallies (h : Begins tree options base session env) :
    session.Tallies tree options env := by
  have hpass := h.pass_eq
  obtain ⟨h, henv⟩ := h
  cases h
  refine ⟨rfl, rfl, ?_, ?_, fun node hnode => ?_⟩
  · rw [henv.cache_eq]
    exact Nat.zero_lt_one
  · rw [hpass]
    rfl
  · rw [hpass] at hnode
    simp at hnode

/-- What a step of a session does, with the notes that are taken on the way. -/
theorem Tallies.settleNoting (h : session.Tallies tree options env)
    {judgement : Judgement} {ty : Ty} {session' : Session}
    (hstep : session.Settles env judgement ty session') :
    (tree.settleNoting options.maxDepth options.maxDepth [] judgement).run
      ⟨session.pass env, []⟩ =
      .ok (ty, ⟨session'.pass env, session.transcript env judgement⟩) := by
  have hjudge := (hstep.judge h.bound).1
  rw [transcript, h.tree_eq, h.options_eq]
  rw [h.tree_eq, h.options_eq] at hjudge
  exact Tree.settleNoting_of_judge hjudge

end Begins

end Session

/-! ### The scope of a check -/

theorem Scope.Old.extend {base : Nat} {scope : Scope} (h : scope.Old base)
    {bindings : List (NodeId × Ty)}
    (hbindings : ∀ binding ∈ bindings, binding.2.Old base) :
    (scope.extend bindings).Old base := by
  intro node ty hfind
  rw [find?_extend, Option.or_eq_some_iff] at hfind
  rcases hfind with hnew | ⟨-, hold⟩
  · exact hbindings (node, ty) (List.mem_reverse.mp (mem_of_lookup hnew))
  · exact h node ty hold

namespace Tree

variable {tree : Tree} {base : Nat} {scope : Scope} {node : NodeId}
  {expected : Ty}

theorem old_innerScope (hscope : scope.Old base)
    (hexpected : expected.Old base) :
    (tree.innerScope scope node expected).Old base := by
  cases hexpected with
  | function hparams hresult =>
      rw [innerScope]
      split
      · exact hscope.extend hparams
      · exact hscope
  | _ => exact hscope

/-- Two runs of one check find the same for what is bound, since they look at it
in one scope. -/
theorem harmless_transcript (wf : tree.WellFormed) (hscope : scope.Old base)
    (hexpected : expected.Old base) {options : Options} {pass pass' : Pass}
    (hcalm : ∀ call ∈ tree.transcript options (.check scope node expected) pass,
      call.answer.isRecursion = false) :
    ∀ call ∈ tree.transcript options (.check scope node expected) pass,
      tree.Harmless base
        (tree.transcript options (.check scope node expected) pass') call := by
  rintro ⟨judgement, ty⟩ hcall
  refine ⟨hcalm _ hcall, ?_⟩
  rintro ⟨judgement', ty'⟩ hother htouches
  obtain ⟨inner, inner', id, rfl, rfl, hbound⟩ :=
    Judgement.touches_iff.mp htouches
  obtain ⟨rfl, hty⟩ := transcript_scope scope node wf hcall
  obtain ⟨rfl, hty'⟩ := transcript_scope scope node wf hother
  obtain ⟨bound, hfind⟩ := Option.isSome_iff_exists.mp (or_self_iff.mp hbound)
  rw [hty bound hfind, hty' bound hfind]
  exact ⟨rfl, neat_of_old (old_innerScope hscope hexpected id bound hfind)⟩

/-- In the transcript of a new pass every answer has its ground, and where a
call keeps to the transcript it is harmless: the transcript concurs with itself,
so its types are made of old ones. -/
theorem fresh_transcript (wf : tree.WellFormed) (hscope : scope.Old base)
    (hexpected : expected.Old base) {options : Options} {later : Nat}
    (hlater : base ≤ later) {ty : Ty} {pass : Pass} {calls : List Call}
    (hcalls : calls = tree.transcript options (.check scope node expected)
      { stamps := later })
    (hrun : (tree.settleNoting options.maxDepth options.maxDepth []
      (.check scope node expected)).run ⟨{ stamps := later }, []⟩ =
        .ok (ty, ⟨pass, calls⟩))
    (hcalm : ∀ call ∈ calls, call.answer.isRecursion = false) :
    (∀ call ∈ calls, tree.HasGround base calls call) ∧
      ∀ call : Call, call.KeepsTo base calls →
        tree.Harmless base calls call := by
  have hgrounds := tree.hasGround_of_settleNoting hlater hrun hcalm
  have hharmless : ∀ call ∈ calls, tree.Harmless base calls call := by
    rw [hcalls] at hcalm ⊢
    exact harmless_transcript wf hscope hexpected hcalm
  have hself := settleNoting_concurs wf hgrounds hrun hharmless (.fresh hlater)
  refine ⟨hgrounds, ?_⟩
  rintro ⟨judgement, ty⟩ ⟨hrecursion, hkeeps⟩
  refine ⟨hrecursion, ?_⟩
  rintro ⟨judgement', ty'⟩ hcall htouches
  have hverdict := hkeeps _ hcall htouches
  obtain ⟨inner, inner', id, rfl, rfl, -⟩ := Judgement.touches_iff.mp htouches
  exact ⟨hverdict, (hself.noted _ hcall _ hcall (.refl _) trivial).2⟩

end Tree

namespace Session

/-- The memory of a session concurs with a grounded transcript at all times, if
its calls are harmless. -/
theorem Tallies.concurs_goes {tree : Tree} (wf : tree.WellFormed)
    {options : Options} {base : Nat} {calls : List Call}
    (hgrounds : ∀ call ∈ calls, tree.HasGround base calls call)
    {good : Call → Prop}
    (hharmless : ∀ call, good call → tree.Harmless base calls call)
    {start session : Session} {env : Environment}
    (hstart : start.Tallies tree options env)
    (hpass : Diary.ConcursWith tree base calls ⟨start.pass env, []⟩)
    (hgoes : GoesWith good env start session) :
    session.Tallies tree options env ∧
      Diary.ConcursWith tree base calls ⟨session.pass env, []⟩ := by
  induction hgoes with
  | refl => exact ⟨hstart, hpass⟩
  | tail _ hstep ih =>
      obtain ⟨judgement, ty, hstep, hgood⟩ := hstep
      obtain ⟨htallies, hconcurs⟩ := ih
      have hafter :=
        Tree.settleNoting_concurs wf hgrounds (htallies.settleNoting hstep)
        (fun call hcall => hharmless call (hgood call hcall)) hconcurs
      exact ⟨htallies.settles hstep, hafter.stamps, by simp, hafter.memory⟩

/-- A check in a session, after judgements in environments that were made from
that of the check, and the same check in a new session with the same overlay. No
call of the two is answered with a recursion error, the calls before the first
check keep to those of the second one, and the expected type and the types in
the overlay are older than the first session. Then the two checks fail
together. -/
theorem check_isolated (tree : Tree) (wf : tree.WellFormed) (options : Options)
    {base later : Nat} (hlater : base ≤ later) {start session fresh : Session}
    {env env' : Environment} (hstart : Begins tree options base start env)
    (hfresh : Begins tree options later fresh env')
    (hoverlay : env'.scope = env.scope) (hscope : env.scope.Old base)
    {node : NodeId} {expected : Ty} (hexpected : expected.Old base)
    (hgoes : GoesWith (Call.KeepsTo base
      (fresh.transcript env' (.check env'.scope node expected)))
      env start session)
    (hcalm : ∀ call ∈ session.transcript env (.check env.scope node expected),
      call.answer.isRecursion = false)
    (hcalm' : ∀ call ∈ fresh.transcript env' (.check env'.scope node expected),
      call.answer.isRecursion = false)
    {ty ty' : Ty} {last last' : Session}
    (hcheck : session.check env node expected = .ok (ty, last))
    (hcheck' : fresh.check env' node expected = .ok (ty', last')) :
    ty.isError = ty'.isError := by
  have hnotes' := hfresh.tallies.settleNoting (.check .refl hcheck')
  -- Both transcripts are about one judgement, from passes of their own.
  have hcalls : fresh.transcript env' (.check env'.scope node expected) =
      tree.transcript options (.check env.scope node expected)
        { stamps := later } := by
    rw [transcript, hfresh.tallies.tree_eq, hfresh.tallies.options_eq,
      hfresh.pass_eq, hoverlay]
  generalize fresh.transcript env' (.check env'.scope node expected) = calls
    at *
  rw [hfresh.pass_eq, hoverlay] at hnotes'
  obtain ⟨hgrounds, hkeeps⟩ :=
    Tree.fresh_transcript wf hscope hexpected hlater hcalls hnotes' hcalm'
  have hpass : Diary.ConcursWith tree base calls ⟨start.pass env, []⟩ := by
    rw [hstart.pass_eq]
    exact .fresh (Nat.le_refl base)
  obtain ⟨htallies, hconcurs⟩ :=
    hstart.tallies.concurs_goes wf hgrounds hkeeps hpass hgoes
  have hnotes := htallies.settleNoting (.check .refl hcheck)
  have hharmless :
      ∀ call ∈ session.transcript env (.check env.scope node expected),
        tree.Harmless base calls call := by
    rw [transcript, htallies.tree_eq, htallies.options_eq] at hcalm ⊢
    rw [hcalls]
    exact Tree.harmless_transcript wf hscope hexpected hcalm
  have hlast := Tree.settleNoting_concurs wf hgrounds hnotes hharmless hconcurs
  have hcall := (tree.settleNoting_grows hnotes).2
  have hcall' := (tree.settleNoting_grows hnotes').2
  exact (hlast.noted _ hcall _ hcall'
    (.refl _) hexpected.decidedByGist).isError_eq

/-- A function that returns its parameter, and a concept with a field. -/
def identityModel : Tree :=
  let named (name : String) : Ident := ⟨name, Span.unknown⟩
  .ofConstructs [
    .keywordType "Integer", .keywordType "Integer",
    .reference "x" (.resolved 3),
    .param (named "x"), .function (named "f") [3] [0, 1] 2,
    .keywordType "Integer",
    .relation (named "size") 5, .concept (named "Box") [] [6]]
    [4, 7]

theorem identityModel_wellFormed : identityModel.WellFormed where
  grown := Tree.grown_ofConstructs _ _
  before := by decide +kernel
  links := by decide +kernel
  once := by decide +kernel
  roles := by decide +kernel
  roots := by decide +kernel
  targets := by decide +kernel

/-- The reference to the parameter is looked at first in a scope that binds the
parameter to its own type, and then the function is checked. -/
theorem check_isolated_identityModel : ∃ start session last last' ty ty',
    let env : Environment := ⟨0, Scope.empty⟩
    let expected : Ty := .function [(3, .integer none)] (.integer none)
    Begins identityModel {} 0 start env ∧
      (start.check (env.extend [(3, .integer none)]) 2 (.integer none)).map
        (·.2) = .ok session ∧
      session.check env 4 expected = .ok (ty, last) ∧
      start.check env 4 expected = .ok (ty', last') ∧
      ty.isError = ty'.isError := by
  let env : Environment := ⟨0, Scope.empty⟩
  let other : Environment := env.extend [(3, .integer none)]
  let expected : Ty := .function [(3, .integer none)] (.integer none)
  let start :=
    ({ tree := identityModel, options := {} } : Session).newEnvironment.2
  have hstart : Begins identityModel {} 0 start env := .mk rfl .refl
  let isInteger (call : Call) : Bool := call.answer.same (.integer none)
  have hruns : (do
      let first ← start.check other 2 (.integer none)
      let second ← first.2.check env 4 expected
      let new ← start.check env 4 expected
      let calls := start.transcript env (.check env.scope 4 expected)
      return ((start.transcript env (.check other.scope 2 (.integer none))).all
        (fun call =>
          !call.answer.isRecursion && calls.all fun call' =>
            !call.judgement.touches call'.judgement || isInteger call &&
              isInteger call'),
        (first.2.transcript env (.check env.scope 4 expected) ++ calls).all
          (!·.answer.isRecursion))) = .ok (true, true) := by decide +kernel
  obtain ⟨⟨found, session⟩, hfirst, hruns⟩ := bind_eq_ok_iff.mp hruns
  obtain ⟨⟨ty, last⟩, hsecond, hruns⟩ := bind_eq_ok_iff.mp hruns
  obtain ⟨⟨ty', last'⟩, hnew, hruns⟩ := bind_eq_ok_iff.mp hruns
  have hresult := Except.ok.inj hruns
  rw [Prod.mk.injEq, List.all_eq_true, List.all_eq_true] at hresult
  obtain ⟨hkeeps, hcalm⟩ := hresult
  have hinteger : ∀ call : Call, isInteger call = true →
      call.answer.verdict 0 = some (.integer none) := by
    rintro ⟨judgement, answer⟩ h
    cases answer with
    | integer literal => rfl
    | _ => cases h
  have hgoes :
      GoesWith (Call.KeepsTo 0
        (start.transcript env (.check env.scope 4 expected))) env
        start session := by
    refine .single ⟨_, found, .check (.extend .refl _) hfirst,
      fun call hcall => ?_⟩
    have hcall := hkeeps call hcall
    rw [Bool.and_eq_true, Bool.not_eq_true', List.all_eq_true] at hcall
    refine ⟨hcall.1, fun call' hcall' htouches => ?_⟩
    have hboth := hcall.2 call' hcall'
    rw [htouches, Bool.not_true, Bool.false_or, Bool.and_eq_true] at hboth
    rw [hinteger call hboth.1, hinteger call' hboth.2]
  have hcalm :
      ∀ call, call ∈ session.transcript env (.check env.scope 4 expected) ∨
        call ∈ start.transcript env (.check env.scope 4 expected) →
        call.answer.isRecursion = false := fun call hcall => by
    simpa using hcalm call (List.mem_append.mpr hcall)
  refine ⟨start, session, last, last', ty, ty', hstart, ?_, hsecond, hnew, ?_⟩
  · rw [show start.check other 2 _ = _ from hfirst]
    rfl
  · have hold : expected.Old 0 :=
      .function (by simp [Ty.Old.integer]) (.integer none)
    exact check_isolated identityModel identityModel_wellFormed {}
      (Nat.le_refl 0) hstart hstart rfl (fun node ty h => by cases h) hold hgoes
      (fun call hcall => hcalm call (Or.inl hcall))
      (fun call hcall => hcalm call (Or.inr hcall)) hsecond hnew

/-- After some judgements without recursion errors a check fails in a session
and succeeds in a new one, or the other way round. -/
def Leaks (tree : Tree) (node : NodeId) (expected : Ty) : Prop :=
  ∃ (start session fresh last last' : Session) (env : Environment) (later : Nat)
    (ty ty' : Ty), Begins tree {} 0 start env ∧ Begins tree {} later fresh env ∧
      GoesWith (·.answer.isRecursion = false) env start session ∧
      session.check env node expected = .ok (ty, last) ∧
      fresh.check env node expected = .ok (ty', last') ∧
      (∀ call ∈ session.transcript env (.check env.scope node expected),
        call.answer.isRecursion = false) ∧
      (∀ call ∈ fresh.transcript env (.check env.scope node expected),
        call.answer.isRecursion = false) ∧
      ty.isError ≠ ty'.isError

theorem leaks_of_runs {tree : Tree} {start fresh : Session} {env : Environment}
    {later : Nat} (hstart : Begins tree {} 0 start env)
    (hfresh : Begins tree {} later fresh env) {judgement : Judgement}
    {first : Except TreeError (Ty × Session)}
    (hfirst : ∀ ty session, first = .ok (ty, session) →
      start.Settles env judgement ty session)
    {node : NodeId} {expected : Ty}
    (hruns : (do
      let first ← first
      let second ← first.2.check env node expected
      let new ← fresh.check env node expected
      return ((start.transcript env judgement ++
          first.2.transcript env (.check env.scope node expected) ++
          fresh.transcript env (.check env.scope node expected)).all
            (!·.answer.isRecursion),
        second.1.isError == new.1.isError)) = .ok (true, false)) :
    Leaks tree node expected := by
  obtain ⟨⟨found, session⟩, hfound, hruns⟩ := bind_eq_ok_iff.mp hruns
  obtain ⟨⟨ty, last⟩, hsecond, hruns⟩ := bind_eq_ok_iff.mp hruns
  obtain ⟨⟨ty', last'⟩, hnew, hruns⟩ := bind_eq_ok_iff.mp hruns
  have hresult := Except.ok.inj hruns
  rw [Prod.mk.injEq, List.all_eq_true] at hresult
  obtain ⟨hcalm, hdiffer⟩ := hresult
  simp only [List.mem_append, Bool.not_eq_true'] at hcalm
  refine ⟨start, session, fresh, last, last', env, later, ty, ty', hstart,
    hfresh, .single ⟨judgement, found, hfirst found session hfound,
      fun call hcall => ?_⟩, hsecond, hnew, fun call hcall => ?_,
    fun call hcall => ?_, by simpa using hdiffer⟩
  · exact hcalm call (Or.inl (Or.inl hcall))
  · exact hcalm call (Or.inl (Or.inr hcall))
  · exact hcalm call (Or.inr hcall)

/-- The type of the reference under a binding is kept, and found without the
binding too. A check of the function against one function type binds the
parameter, and changes the check against another one. And a relation type that a
session has made is known to that session only. -/
theorem leaks_identityModel : identityModel.WellFormed ∧
    Leaks identityModel 2 (.string none) ∧
    Leaks identityModel 4 (.function [(3, .integer none)] (.integer none)) ∧
    Leaks identityModel 6
      (.relation 0 6 "size" ⟨7, "Box"⟩ (.integer none)) := by
  let env : Environment := ⟨0, Scope.empty⟩
  let other : Environment := env.extend [(3, .string none)]
  let strings : Ty := .function [(3, .string none)] (.string none)
  have hbegins : ∀ base, Begins identityModel {} base
      ({ tree := identityModel, options := {}, stamps := base } :
        Session).newEnvironment.2 env :=
    fun base => .mk rfl .refl
  have hbound : ∀ (start session : Session) ty,
      start.check other 2 (.string none) =
      .ok (ty, session) →
      start.Settles env (.check other.scope 2 (.string none)) ty session :=
    fun _ _ _ => .check (.extend .refl _)
  have hfunction : ∀ (start session : Session) ty,
    start.check env 4 strings = .ok (ty, session) →
      start.Settles env (.check env.scope 4 strings) ty session :=
        fun _ _ _ => .check .refl
  have hrelation : ∀ (start session : Session) ty,
    start.synth env 6 = .ok (ty, session) →
      start.Settles env (.synth env.scope 6) ty session :=
        fun _ _ _ => .synth .refl
  refine ⟨identityModel_wellFormed, ?_, ?_, ?_⟩
  · exact leaks_of_runs (hbegins 0) (hbegins 0)
      (fun ty session => hbound _ session ty)
      (by decide +kernel)
  · exact leaks_of_runs (hbegins 0) (hbegins 0)
      (fun ty session => hfunction _ session ty)
      (by decide +kernel)
  · exact leaks_of_runs (hbegins 0) (hbegins 1)
      (fun ty session => hrelation _ session ty)
      (by decide +kernel)

end Session

end ConceptLang
