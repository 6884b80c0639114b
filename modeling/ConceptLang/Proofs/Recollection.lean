import ConceptLang.Linking.Candidates
import ConceptLang.Proofs.Exchange
import ConceptLang.Proofs.Reviews

/-!
# Outcomes that are recalled for the same type

The outcome of a check is recalled for every expected type that is the same as
the one it was worked out for. Judgements with types exchanged are settled side
by side, whatever the pass remembers (`Tree.settle_accords`). So an outcome that
is recalled reads like the one that would have been worked out for the type that
is asked about, if only the two types serve the check alike.

They need not. A function that is checked binds the parameter nodes of the
expected type, and an operator looks whether the outcome for an operand is an
error of recursion; parameter nodes and the sorts of problems do not matter for
types to be the same.
-/

namespace ConceptLang

/-! ### Passes side by side -/

namespace Pass

/-- What the two passes remember was found side by side. -/
structure Accords (tree : Tree) (pass pass' : Pass) : Prop where
  cache : ∀ node : NodeId,
    pass.cache[node]?.map Ty.reading = pass'.cache[node]?.map Ty.reading
  memo : ∀ node,
    List.Forall₂ (fun entry entry' => entry.1.same entry'.1 = true ∧
        tree.SameOutcomes node entry.1 entry.2 entry'.2)
      (pass.outcomes node) (pass'.outcomes node)
  stamps : pass.stamps = pass'.stamps

namespace Accords

variable {tree : Tree} {pass pass' : Pass}

theorem refl (tree : Tree) (pass : Pass) : pass.Accords tree pass := by
  refine ⟨fun _ => rfl, fun node => List.forall₂_same.mpr fun entry _ => ?_,
    rfl⟩
  exact ⟨Ty.same_refl entry.1, Tree.sameOutcomes_of_reading_eq rfl⟩

theorem lookup (h : pass.Accords tree pass') {scope scope' : Scope}
    (hscope : scope.reading = scope'.reading) (node : NodeId) :
    (pass.lookup scope node).map Ty.reading =
      (pass'.lookup scope' node).map Ty.reading := by
  have hbound : (scope.find? node).map Ty.reading =
      (scope'.find? node).map Ty.reading := by
    rw [← Scope.find?_reading, hscope, Scope.find?_reading]
  rw [Pass.lookup, Pass.lookup, Option.map_or, Option.map_or, hbound,
    h.cache node]

/-- Of types that are the same, both passes recall an outcome or none does. -/
theorem recalled? (h : pass.Accords tree pass') (node : NodeId)
    {expected expected' : Ty} (hexpected : expected.same expected' = true) :
    Option.Rel (tree.SameOutcomes node expected) (pass.recalled? node expected)
      (pass'.recalled? node expected') := by
  rw [recalled?_eq, recalled?_eq]
  have hmemo := h.memo node
  generalize pass.outcomes node = entries, pass'.outcomes node = entries'
    at hmemo ⊢
  induction hmemo with
  | nil => exact .none
  | @cons entry entry' entries entries' hentry _ ih =>
      have hmatch : entry.1.same expected = entry'.1.same expected' := by
        rw [Bool.eq_iff_iff, Ty.same_congr_right hexpected]
        exact ⟨Ty.same_trans (Ty.same_symm hentry.1), Ty.same_trans hentry.1⟩
      rw [List.find?_cons, List.find?_cons, ← hmatch]
      cases hsame : entry.1.same expected with
      | true =>
          exact .some ⟨hentry.2.readsAs, hentry.2.succeeds.imp id
            fun hsucceeds =>
            ⟨Ty.same_trans hsucceeds.1 hsame, hsucceeds.2⟩⟩
      | false => exact ih

theorem record (h : pass.Accords tree pass') {judgement judgement' : Judgement}
    (hjudgement : tree.Exchanges judgement judgement') {ty ty' : Ty}
    (hty : tree.SameAnswers judgement ty ty') :
    (pass.record judgement ty).Accords tree (pass'.record judgement' ty') := by
  cases hjudgement with
  | synth hscope node =>
      refine ⟨fun other => ?_, h.memo, h.stamps⟩
      rw [Pass.record, Pass.record, cache_recordType, cache_recordType]
      split
      · exact congrArg some hty
      · exact h.cache other
  | check hscope hserves =>
      refine ⟨h.cache, fun other => ?_, h.stamps⟩
      rw [Pass.record, Pass.record, outcomes_recordCheck, outcomes_recordCheck]
      split
      · next heq =>
          subst heq
          exact List.rel_append (h.memo other)
            (.cons ⟨hserves.readsAs.same, hty⟩ .nil)
      · exact h.memo other

end Accords

end Pass

/-- Two runs that meet the same defect, or come to results that agree and leave
passes that go side by side. -/
def SameRuns {α : Type} (tree : Tree) (agree : α → α → Prop) :
    Except TreeError (α × Pass) → Except TreeError (α × Pass) → Prop
  | .ok (a, pass), .ok (a', pass') => agree a a' ∧ pass.Accords tree pass'
  | .error e, .error e' => e = e'
  | _, _ => False

section Runs

variable {tree : Tree} {α β : Type} {agree : α → α → Prop}

theorem SameRuns.bind {agree' : β → β → Prop}
    {x x' : Except TreeError (α × Pass)}
    {f f' : α × Pass → Except TreeError (β × Pass)}
    (h : SameRuns tree agree x x')
    (hf : ∀ a a' pass pass', agree a a' → pass.Accords tree pass' →
      SameRuns tree agree' (f (a, pass)) (f' (a', pass'))) :
    SameRuns tree agree' (x >>= f) (x' >>= f') := by
  cases x with
  | error e =>
      cases x' with
      | error e' => exact h
      | ok out' => exact h.elim
  | ok out =>
      cases x' with
      | error e' => exact h.elim
      | ok out' => exact hf out.1 out'.1 out.2 out'.2 h.1 h.2

/-- Rules that go side by side do so in a run, if their premises are settled
side by side. -/
theorem Rule.Accords.run {settle settle' : Judgement → PassM Ty}
    (hsettle : ∀ judgement judgement' pass pass',
      tree.Exchanges judgement judgement' → pass.Accords tree pass' →
      SameRuns tree (tree.SameAnswers judgement) ((settle judgement).run pass)
      ((settle' judgement').run pass'))
    {rule rule' : Rule α} (h : rule.Accords tree agree rule')
    {pass pass' : Pass} (hpass : pass.Accords tree pass') :
    SameRuns tree agree ((rule.run (fun _ => Pass.mint) settle).run pass)
      ((rule'.run (fun _ => Pass.mint) settle').run pass') := by
  induction rule generalizing rule' pass pass' with
  | conclude a =>
      cases rule' with
      | conclude a' => exact ⟨h, hpass⟩
      | _ => exact h.elim
  | defect e =>
      cases rule' with
      | defect e' => exact h
      | _ => exact h.elim
  | premise judgement next ih =>
      cases rule' with
      | premise judgement' next' =>
          rw [run_premise_apply, run_premise_apply]
          refine (hsettle judgement judgement' pass pass' h.1 hpass).bind ?_
          exact fun ty ty' _ _ hty hmiddle => ih ty (h.2 ty ty' hty) hmiddle
      | _ => exact h.elim
  | stamp decl next ih =>
      cases rule' with
      | stamp decl' next' =>
          have hminted :
              Pass.Accords tree { pass with stamps := pass.stamps + 1 }
              { pass' with stamps := pass'.stamps + 1 } :=
            ⟨hpass.cache, hpass.memo, congrArg (· + 1) hpass.stamps⟩
          have hnext :
              (next pass.stamps).Accords tree agree (next' pass'.stamps) := by
            rw [← hpass.stamps]
            exact h pass.stamps
          exact ih pass.stamps hnext hminted
      | _ => exact h.elim

end Runs

namespace Tree

variable {tree : Tree} {judgement judgement' : Judgement}

/-- Both judgements need a rule, or none does. -/
theorem settled?_accords (h : tree.Exchanges judgement judgement')
    (busy : List NodeId) {pass pass' : Pass} (hpass : pass.Accords tree pass') :
    SameRuns tree (Option.Rel (tree.SameAnswers judgement))
      ((tree.settled? busy judgement).run pass)
      ((tree.settled? busy judgement').run pass') := by
  cases h with
  | check hscope hserves =>
      exact ⟨hpass.recalled? _ hserves.readsAs.same, hpass⟩
  | @synth scope scope' hscope node =>
      have hlookup := hpass.lookup hscope node
      cases hty : pass.lookup scope node <;> cases hty' :
        pass'.lookup scope' node <;> rw [hty, hty'] at hlookup
      case some.some ty ty' =>
        rw [tree.settled?_synth_of_lookup hty,
          tree.settled?_synth_of_lookup hty']
        exact ⟨.some (Option.some.inj hlookup), hpass.cache, hpass.memo,
          hpass.stamps⟩
      case none.none =>
        rw [settled?, settled?, run_bind_of_ok (run_get pass),
          run_bind_of_ok (run_get pass'), hty, hty']
        dsimp only
        split
        · cases tree.construct node with
          | error e => exact rfl
          | ok construct => exact ⟨.some rfl, hpass⟩
        · exact ⟨.none, hpass⟩
      all_goals cases hlookup

/-- Judgements with types exchanged are settled side by side. The induction is
on the room. -/
theorem settle_accords (h : tree.Exchanges judgement judgement')
    (limit room : Nat) (busy : List NodeId) {pass pass' : Pass}
    (hpass : pass.Accords tree pass') :
    SameRuns tree (tree.SameAnswers judgement)
      ((tree.settle limit room busy judgement).run pass)
      ((tree.settle limit room busy judgement').run pass') := by
  induction room generalizing judgement judgement' busy pass pass' with
  | zero =>
      rw [settle, settle, StateT.run_bind, StateT.run_bind]
      refine (settled?_accords h busy hpass).bind
        fun known known' _ _ hknown hmiddle => ?_
      cases hknown with
      | some hty => exact ⟨hty, hmiddle⟩
      | none =>
          rw [← h.node_eq]
          exact ⟨sameAnswers_of_reading_eq judgement rfl, hmiddle⟩
  | succ room ih =>
      rw [settle, settle, StateT.run_bind, StateT.run_bind]
      refine (settled?_accords h busy hpass).bind
        fun known known' _ _ hknown hmiddle => ?_
      cases hknown with
      | some hty => exact ⟨hty, hmiddle⟩
      | none =>
          dsimp only
          rw [← h.enter_eq, StateT.run_bind, StateT.run_bind]
          refine ((accords_rule h).run (fun _ _ _ _ hpremise hbefore =>
            ih hpremise _ hbefore) hmiddle).bind fun ty ty' _ _ hty hlast => ?_
          exact ⟨hty, hlast.record h hty⟩

end Tree

/-! ### Where outcomes come from -/

/-- Where and when a check is made: how much room there is for its rule, of
`limit` in all, which types are being worked out, the scope, and the pass. -/
structure Occasion where
  limit : Nat
  room : Nat
  busy : List NodeId
  scope : Scope
  pass : Pass

/-- Makes a check on an occasion. -/
def Tree.checkOn (tree : Tree) (occasion : Occasion) (node : NodeId)
    (expected : Ty) :
    Except TreeError (Ty × Pass) :=
  (tree.settle occasion.limit (occasion.room + 1) occasion.busy
    (.check occasion.scope node expected)).run occasion.pass

namespace Pass

/-- What becomes of a pass about the tree, also in the middle of a judgement: an
answer is found in memory, a stamp is given out, or the answer of a rule that
has ended is kept. Between judgements the pass can turn to another cache, and
outcomes of checks can be forgotten. -/
inductive Leads (tree : Tree) : Pass → Pass → Prop where
  | refl (pass : Pass) : Leads tree pass pass
  | hit {start pass : Pass} (h : Leads tree start pass) :
      Leads tree start pass.countHit
  | stamp {start pass : Pass} (h : Leads tree start pass) :
      Leads tree start { pass with stamps := pass.stamps + 1 }
  | record {start before last : Pass} {limit room : Nat} {busy : List NodeId}
      {judgement : Judgement} {ty : Ty} (h : Leads tree start last)
      (hbefore : Leads tree {} before)
      (hfree : tree.Found busy before judgement none before)
      (hrule : ((tree.rule judgement).run (fun _ => Pass.mint)
        (tree.settle limit room (judgement.enter busy))).run before =
          .ok (ty, last)) : Leads tree start (last.record judgement ty)
  | turn {start pass : Pass} (h : Leads tree start pass) (cache : Cache) :
      Leads tree start { pass with cache }
  | forget {start pass : Pass} (h : Leads tree start pass) :
      Leads tree start { pass with memo := ∅, counters := {} }

namespace Leads

variable {tree : Tree} {pass pass' pass'' : Pass}

theorem trans (h : Leads tree pass pass') (h' : Leads tree pass' pass'') :
    Leads tree pass pass'' := by
  induction h' with
  | refl => exact h
  | hit _ ih => exact .hit (ih h)
  | stamp _ ih => exact .stamp (ih h)
  | record _ hbefore hfree hrule ih _ =>
      exact .record (ih h) hbefore hfree hrule
  | turn _ cache ih => exact .turn (ih h) cache
  | forget _ ih => exact .forget (ih h)

/-- A judgement leads on. The induction is on the room. -/
theorem settle {limit room : Nat} {busy : List NodeId} {judgement : Judgement}
    {ty : Ty}
    (hrun : (tree.settle limit room busy judgement).run pass = .ok (ty, pass'))
    (hpass : Leads tree {} pass) : Leads tree pass pass' := by
  induction room using Nat.strongRecOn
    generalizing busy judgement pass ty pass' with
  | ind room ih =>
      rcases tree.settle_cases hrun with hsettled | ⟨middle, hsettled, hcase⟩
      · cases tree.settled?_eq_ok_iff.mp hsettled with
        | known => exact .hit (.refl _)
        | cyclic | recalled => exact .refl _
      · have hfree := tree.settled?_eq_ok_iff.mp hsettled
        obtain rfl := hfree.eq_of_none
        rcases hcase with ⟨-, -, rfl⟩ | ⟨less, last, rfl, rfl, hrule⟩
        · exact .refl _
        · let rel (before after : Pass) : Prop := Leads tree {} before →
            Leads tree before after
          have hlast : rel middle last :=
            Rule.run_relates (fun _ _ => .refl _)
              (fun h h' hbefore =>
                (h hbefore).trans (h' (hbefore.trans (h hbefore))))
              (fun _ _ => .stamp (.refl _))
              (fun premise before found after hpremise hbefore =>
                ih less (Nat.lt_succ_self less) hpremise hbefore) hrule
          exact .record (hlast hpass) hpass hfree hrule

/-- To list the candidates for the field of a join, the type of its left side is
asked for. -/
theorem joinCandidates {options : Options} {scope : Scope} {join : NodeId}
    {entries : List (String × NodeId)}
    (hrun : (tree.joinCandidates options scope join).run pass =
      .ok (entries, pass'))
    (hpass : Leads tree {} pass) : Leads tree pass pass' := by
  rw [Tree.joinCandidates, run_bind_eq_ok_iff] at hrun
  obtain ⟨construct, middle, hlook, hrun⟩ := hrun
  obtain ⟨-, rfl⟩ := run_look_eq_ok_iff.mp hlook
  cases construct with
  | join left field =>
      obtain ⟨ty, last, hsynth, hrun⟩ := run_bind_eq_ok_iff.mp hrun
      have hlast : pass' = last := by
        cases ty with
        | concept concept => exact (run_look_eq_ok_iff.mp hrun).2
        | _ =>
            cases hrun
            rfl
      exact hlast ▸ .settle hsynth hpass
  | _ =>
      cases hrun
      exact .refl _

theorem candidates {options : Options} {scope : Scope} {ref : NodeId}
    {entries : List (String × NodeId)}
    (hrun : (tree.candidates options scope ref).run pass = .ok (entries, pass'))
    (hpass : Leads tree {} pass) : Leads tree pass pass' := by
  rw [Tree.candidates, run_bind_eq_ok_iff] at hrun
  obtain ⟨context, middle, hlook, hrun⟩ := hrun
  obtain ⟨-, rfl⟩ := run_look_eq_ok_iff.mp hlook
  cases context with
  | joinField join => exact .joinCandidates hrun hpass
  | _ =>
      obtain ⟨-, rfl⟩ := run_look_eq_ok_iff.mp hrun
      exact .refl _

end Leads

/-- The outcome of a check was worked out on an occasion that has led to this
pass. -/
structure WorkedOut (tree : Tree) (pass : Pass) (occasion : Occasion)
    (node : NodeId) (expected ty : Ty) : Prop where
  reached : Leads tree {} occasion.pass
  unknown : occasion.pass.recalled? node expected = none
  leads : ∃ after, tree.checkOn occasion node expected = .ok (ty, after) ∧
    Leads tree after pass

section WorkedOut

variable {tree : Tree} {pass pass' : Pass} {node : NodeId} {expected ty : Ty}

theorem WorkedOut.mono {occasion : Occasion}
    (h : pass.WorkedOut tree occasion node expected ty)
    (hleads : Leads tree pass pass') :
    pass'.WorkedOut tree occasion node expected ty := by
  obtain ⟨after, hrun, hafter⟩ := h.leads
  exact ⟨h.reached, h.unknown, after, hrun, hafter.trans hleads⟩

theorem WorkedOut.outcome {occasion : Occasion}
    (h : pass.WorkedOut tree occasion node expected ty) :
    ty = expected ∨ ty.isError = true := by
  obtain ⟨after, hrun, -⟩ := h.leads
  rcases tree.settle_cases hrun with
    hsettled | ⟨middle, -, hroom | ⟨less, last, -, -, hrule⟩⟩
  · rw [Tree.settled?_check, h.unknown] at hsettled
    cases hsettled
  · cases hroom.1
  · exact (Tree.checkRule_outcome occasion.scope node tree expected).run hrule

/-- Every outcome that is new in memory was worked out. -/
theorem Leads.exists_workedOut (h : Leads tree pass pass')
    (hentry : (expected, ty) ∈ pass'.outcomes node) :
    (expected, ty) ∈ pass.outcomes node ∨
      ∃ occasion, pass'.WorkedOut tree occasion node expected ty := by
  have hmono : ∀ {start before after : Pass}, Leads tree before after →
      ((expected, ty) ∈ start.outcomes node ∨
        ∃ occasion, before.WorkedOut tree occasion node expected ty) →
      (expected, ty) ∈ start.outcomes node ∨
        ∃ occasion, after.WorkedOut tree occasion node expected ty := by
    intro start before after hleads
    exact Or.imp_right fun ⟨occasion, hworked⟩ =>
      ⟨occasion, hworked.mono hleads⟩
  induction h with
  | refl => exact Or.inl hentry
  | hit _ ih => exact hmono (.hit (.refl _)) (ih hentry)
  | stamp _ ih => exact hmono (.stamp (.refl _)) (ih hentry)
  | turn _ cache ih => exact hmono (.turn (.refl _) cache) (ih hentry)
  | forget _ ih => simp [outcomes] at hentry
  | @record start before last limit room busy judgement found h hbefore hfree
      hrule ih _ =>
      have hleads := Leads.record (.refl last) hbefore hfree hrule
      cases judgement with
      | synth scope other => exact hmono hleads (ih hentry)
      | check scope other asked =>
          have hold : (expected, ty) ∈ last.outcomes node ∨
              node = other ∧ expected = asked ∧ ty = found := by
            rw [Pass.record, outcomes_recordCheck] at hentry
            split at hentry
            · next heq =>
                subst heq
                simpa using hentry
            · exact Or.inl hentry
          rcases hold with hold | ⟨rfl, rfl, rfl⟩
          · exact hmono hleads (ih hold)
          · have hsettled := tree.settled?_eq_ok_iff.mpr hfree
            refine Or.inr ⟨⟨limit, room, busy, scope, before⟩, hbefore, ?_, _,
              ?_, .refl _⟩
            · cases hfree with
              | recalled hnone => exact hnone
            · rw [Tree.checkOn, tree.settle_succ hsettled, hrule]
              rfl

end WorkedOut

end Pass

/-! ### Sessions -/

namespace Session

/-- What can be done with a session, besides looking at it: an environment is
made, types, checks or candidates are asked for, a type is put into a cache, a
stamp is taken for a relation type of one's own, or the session starts over with
other options. -/
inductive Acts (session : Session) : Session → Prop where
  | newEnvironment : Acts session session.newEnvironment.2
  | synth {env : Environment} {node : NodeId} {ty : Ty} {session' : Session}
      (h : session.synth env node = .ok (ty, session')) : Acts session session'
  | check {env : Environment} {node : NodeId} {expected ty : Ty}
      {session' : Session}
      (h : session.check env node expected = .ok (ty, session')) :
      Acts session session'
  | candidates {env : Environment} {ref : NodeId}
      {entries : List (String × NodeId)} {session' : Session}
      (h : session.run env
        (session.tree.candidates session.options env.scope ref) =
        .ok (entries, session')) : Acts session session'
  | joinCandidates {env : Environment} {join : NodeId}
      {entries : List (String × NodeId)} {session' : Session}
      (h : session.run env
        (session.tree.joinCandidates session.options env.scope join) =
        .ok (entries, session')) : Acts session session'
  | set (env : Environment) (node : NodeId) (ty : Ty) :
      Acts session (session.set env node ty)
  | stamp : Acts session { session with stamps := session.stamps + 1 }
  | reset (options : Options) : Acts session (session.reset options)

/-- Whatever is done with a session, its environments show passes that can be
reached. -/
theorem leads_of_acts {tree : Tree} {options : Options} {session : Session}
    (h : Relation.ReflTransGen Acts { tree, options } session) :
    session.tree = tree ∧ ∀ env, Pass.Leads tree {} (session.pass env) := by
  induction h with
  | refl => exact ⟨rfl, fun env => .refl _⟩
  | @tail session session' _ hstep ih =>
      obtain ⟨rfl, hleads⟩ := ih
      have hrun : ∀ {env : Environment} {pass : Pass},
          Pass.Leads session.tree (session.pass env) pass →
          (session.withPass env pass).tree = session.tree ∧
            ∀ other, Pass.Leads session.tree {}
              ((session.withPass env pass).pass other) :=
        fun hpass => ⟨rfl, fun _ => .turn ((hleads _).trans hpass) _⟩
      cases hstep with
      | newEnvironment => exact ⟨rfl, fun env => .turn (hleads env) _⟩
      | synth h | check h =>
          obtain ⟨pass, hpass, rfl⟩ := run_eq_ok_iff.mp h
          exact hrun (.settle hpass (hleads _))
      | candidates h =>
          obtain ⟨pass, hpass, rfl⟩ := run_eq_ok_iff.mp h
          exact hrun (.candidates hpass (hleads _))
      | joinCandidates h =>
          obtain ⟨pass, hpass, rfl⟩ := run_eq_ok_iff.mp h
          exact hrun (.joinCandidates hpass (hleads _))
      | set env node ty => exact hrun (.turn (.refl _) _)
      | stamp => exact ⟨rfl, fun env => .stamp (hleads env)⟩
      | reset options => exact ⟨rfl, fun env => .forget (hleads env)⟩

end Session

namespace Tree

/-- On any occasion, types that serve a check alike have outcomes that read
alike. -/
theorem checkOn_readsAs {tree : Tree} {node : NodeId} {expected asked : Ty}
    (h : tree.Serves node expected asked) {occasion : Occasion} {ty : Ty}
    {after : Pass}
    (hrun : tree.checkOn occasion node expected = .ok (ty, after)) :
    ∃ ty' after', tree.checkOn occasion node asked = .ok (ty', after') ∧
      ty.ReadsAs ty' := by
  have hsame : SameRuns tree (tree.SameOutcomes node expected)
      (tree.checkOn occasion node expected)
      (tree.checkOn occasion node asked) :=
    settle_accords (.check rfl h) _ _ _ (.refl tree occasion.pass)
  rw [hrun] at hsame
  cases hasked : tree.checkOn occasion node asked with
  | error e =>
      rw [hasked] at hsame
      exact hsame.elim
  | ok out =>
      rw [hasked] at hsame
      exact ⟨out.1, out.2, rfl, hsame.1.readsAs⟩

theorem serves_of_same {tree : Tree} {node : NodeId} {naming : Naming}
    {expected asked : Ty} (hexpected : expected.Follows naming)
    (hasked : asked.Follows naming) (hsame : expected.same asked = true)
    (huse : expected.sameUse asked = true ∨
      expected.isRecursion = asked.isRecursion ∧ tree.FunctionFree node) :
    tree.Serves node expected asked := by
  rcases huse with huse | ⟨hrecursion, hfree⟩
  · exact serves_of_reading_eq
      (Ty.reading_eq_of_same hexpected hasked hsame huse)
  · exact ⟨⟨hsame, Ty.text_eq_of_same hexpected hasked hsame, hrecursion⟩,
      Or.inr hfree⟩

/-- To be the same type is an equivalence, and types that are the same and
follow one naming are shown alike. Whatever was done with a session before, an
outcome that is recalled for the type `asked` was worked out for a type that is
the same. If it is a success, it reads like `asked`. And on the occasion on
which it was worked out, `asked` would have had an outcome that reads alike, if
the two types bind the same parameter nodes and have their errors of recursion
in the same places, or, if no function is checked, if they are errors of
recursion together. -/
theorem recall_reads_as_computed (tree : Tree) (options : Options) :
    Equivalence (fun a b : Ty => a.same b = true) ∧
    (∀ (naming : Naming) (a b : Ty), a.Follows naming → b.Follows naming →
      a.same b = true → a.text = b.text) ∧
    (∀ session, Relation.ReflTransGen Session.Acts { tree, options } session →
      session.tree = tree ∧ ∀ env, Pass.Leads tree {} (session.pass env)) ∧
    ∀ (pass : Pass) (node : NodeId) (expected asked ty : Ty),
      Pass.Leads tree {} pass →
      (pass.outcomes node).find? (·.1.same asked) = some (expected, ty) →
      (∀ limit room busy scope,
        (tree.settle limit room busy (.check scope node asked)).run pass =
          .ok (ty, pass)) ∧
      ∃ occasion : Occasion, pass.WorkedOut tree occasion node expected ty ∧
        occasion.pass.recalled? node asked = none ∧
        ∀ naming : Naming, expected.Follows naming → asked.Follows naming →
          (ty.isError = false → ty.same asked = true ∧ ty.text = asked.text) ∧
          ((expected.sameUse asked = true ∨
              expected.isRecursion = asked.isRecursion ∧
              tree.FunctionFree node) →
            ∃ ty' after, tree.checkOn occasion node asked = .ok (ty', after) ∧
              ty.same ty' = true ∧ ty.text = ty'.text) := by
  refine ⟨⟨Ty.same_refl, Ty.same_symm, Ty.same_trans⟩, fun naming a b =>
    Ty.text_eq_of_same, fun session => Session.leads_of_acts, ?_⟩
  intro pass node expected asked ty hleads hfind
  have hsame : expected.same asked = true := by
    simpa using List.find?_some hfind
  refine ⟨fun limit room busy scope => tree.settle_of_settled ?_, ?_⟩
  · rw [settled?_check, Pass.recalled?_eq, hfind]
    rfl
  · obtain hnone | ⟨occasion, hworked⟩ :=
      hleads.exists_workedOut (List.mem_of_find?_eq_some hfind)
    · simp [Pass.outcomes] at hnone
    · refine ⟨occasion, hworked, ?_, fun naming hexpected hasked =>
        ⟨fun hty => ?_, fun huse => ?_⟩⟩
      · rw [← Pass.recalled?_congr _ _ hsame]
        exact hworked.unknown
      · obtain rfl := hworked.outcome.resolve_right (by simp [hty])
        exact ⟨hsame, Ty.text_eq_of_same hexpected hasked hsame⟩
      · obtain ⟨after, hrun, -⟩ := hworked.leads
        obtain ⟨ty', after', hrun', hreads⟩ :=
          checkOn_readsAs (serves_of_same hexpected hasked hsame huse) hrun
        exact ⟨ty', after', hrun', hreads.same, hreads.text_eq⟩

/-- Two functions, a reference to the second one, and a sum with a name that
means nothing. -/
def twoFunctions : Tree :=
  let named (name : String) : Ident := ⟨name, Span.unknown⟩
  ofConstructs [
    .keywordType "Integer", .keywordType "Integer",
    .reference "x" (.resolved 3),
    .param (named "x"), .function (named "f") [3] [0, 1] 2,
    .keywordType "String",
    .keywordType "String", .stringLit "s", .param (named "y"),
    .function (named "g") [8] [5, 6] 7,
    .reference "g" (.resolved 9), .reference "a" (.unresolved none), .intLit 1,
    .binary .add 11 12]
    [4, 9]

/-- A session recalls an outcome for the type `asked` that was worked out for
another one. On that occasion `asked` would have had an outcome that reads
alike. -/
def RecallsAlike (tree : Tree) (node : NodeId) (expected asked : Ty) : Prop :=
  ∃ (session : Session) (env : Environment) (occasion : Occasion) (ty ty' : Ty)
    (after : Pass),
    Relation.ReflTransGen Session.Acts { tree, options := {} } session ∧
    (session.pass env).WorkedOut tree occasion node expected ty ∧
    (session.pass env).recalled? node asked = some ty ∧
    tree.checkOn occasion node asked = .ok (ty', after) ∧ ty.text = ty'.text

/-- The only outcome that a check has left behind is its own. -/
theorem outcomes_of_check {tree : Tree} {options : Options} {scope : Scope}
    {node : NodeId} {expected ty : Ty} {pass pass' : Pass}
    (h : (tree.check options scope node expected).run pass = .ok (ty, pass'))
    (hnone : pass.outcomes node = [])
    (hlength : (pass'.outcomes node).length = 1) :
    pass'.outcomes node = [(expected, ty)] := by
  rcases tree.settle_cases h with hsettled | ⟨middle, hsettled, hcase⟩
  · rw [settled?_check, Pass.recalled?_eq, hnone] at hsettled
    cases hsettled
  · rw [settled?_check, Except.ok.injEq, Prod.mk.injEq] at hsettled
    obtain ⟨-, rfl⟩ := hsettled
    rcases hcase with ⟨-, -, rfl⟩ | ⟨less, last, -, rfl, -⟩
    · rw [hnone] at hlength
      cases hlength
    · rw [Pass.record, Pass.outcomes_recordCheck, if_pos rfl] at hlength ⊢
      have hlast : last.outcomes node = [] := by simpa using hlength
      rw [hlast, List.nil_append]

/-- The first function is checked against a type and asked about with a literal
in it, and a reference to the second one with another parameter node. -/
theorem recall_reads_as_computed_twoFunctions :
    twoFunctions.RecallsAlike 4 (.function [(3, .integer none)] (.integer none))
      (.function [(3, .integer (some 12))] (.integer none)) ∧
    twoFunctions.RecallsAlike 10 (.function [(8, .string none)] (.string none))
      (.function [(3, .string none)] (.string (some 7))) := by
  let env : Environment := ⟨0, Scope.empty⟩
  let start :=
    ({ tree := twoFunctions, options := {} } : Session).newEnvironment.2
  obtain ⟨-, -, hsessions, hpasses⟩ := recall_reads_as_computed twoFunctions {}
  have halike : ∀ (node : NodeId) (expected asked : Ty), (do
      let out ← start.check env node expected
      return ((out.2.pass env).outcomes node).length) = .ok 1 →
      expected.same asked = true →
      (∀ naming : Naming, expected.Follows naming ∧ asked.Follows naming) →
      (expected.sameUse asked = true ∨
        expected.isRecursion = asked.isRecursion ∧
        twoFunctions.FunctionFree node) →
      twoFunctions.RecallsAlike node expected asked := by
    intro node expected asked hruns hsame hfollows huse
    obtain ⟨⟨ty, session⟩, hcheck, hlength⟩ := bind_eq_ok_iff.mp hruns
    have hacts : Relation.ReflTransGen Session.Acts
        { tree := twoFunctions, options := {} } session :=
      (Relation.ReflTransGen.single .newEnvironment).tail (.check hcheck)
    obtain ⟨pass, hpass, rfl⟩ := Session.run_eq_ok_iff.mp hcheck
    have hshown : (start.withPass env pass).pass env = pass :=
      Session.pass_withPass Nat.zero_lt_one pass
    have hfind :
        (((start.withPass env pass).pass env).outcomes node).find?
          (·.1.same asked) = some (expected, ty) := by
      have hnone : (start.pass env).outcomes node = [] := by
        simp [Pass.outcomes, start, Session.pass, Session.newEnvironment]
      rw [hshown, outcomes_of_check hpass hnone
        (hshown ▸ Except.ok.inj hlength)]
      simp [hsame]
    let naming : Naming := ⟨fun _ => "", fun _ => (0, "", ⟨0, ""⟩, .unit)⟩
    obtain ⟨hexpected, hasked⟩ := hfollows naming
    obtain ⟨-, occasion, hworked, -, halike⟩ :=
      hpasses _ node expected asked ty ((hsessions _ hacts).2 env) hfind
    obtain ⟨ty', after, hrun, -, htext⟩ :=
      (halike naming hexpected hasked).2 huse
    refine ⟨_, env, occasion, ty, ty', after, hacts, hworked, ?_, hrun, htext⟩
    rw [Pass.recalled?_eq, hfind]
    rfl
  have hreference :
      twoFunctions.construct 10 = .ok (.reference "g" (.resolved 9)) := rfl
  have hfree : twoFunctions.FunctionFree 10 := by
    intro operand hoperand
    obtain rfl := (operand_iff hreference (by simp)).mp hoperand
    decide +kernel
  constructor
  · refine halike 4 _ _ (by decide +kernel) (by decide) (fun naming => ⟨?_, ?_⟩)
      (Or.inl rfl)
    · exact .function (by simp [Ty.Follows.integer]) (.integer none)
    · exact .function (by simp [Ty.Follows.integer]) (.integer none)
  · refine halike 10 _ _ (by decide +kernel) (by decide)
      (fun naming => ⟨?_, ?_⟩) (Or.inr ⟨rfl, hfree⟩)
    · exact .function (by simp [Ty.Follows.string]) (.string none)
    · exact .function (by simp [Ty.Follows.string]) (.string (some 7))

/-- A new session works an outcome out and recalls it for a type that is the
same, but from the same start it works out an outcome for that type that reads
otherwise. -/
def Misreads (tree : Tree) (node : NodeId) (expected asked : Ty) : Prop :=
  expected.same asked = true ∧
    (∀ naming : Naming, expected.Follows naming ∧ asked.Follows naming) ∧
    ∃ (start session last last' : Session) (env : Environment)
      (found ty ty' : Ty), ({ tree, options := {} } : Session).newEnvironment =
      (env, start) ∧ start.check env node expected = .ok (found, session) ∧
      (session.pass env).recalled? node asked = some ty ∧
      session.check env node asked = .ok (ty, last) ∧
      start.check env node asked = .ok (ty', last') ∧ ty.text ≠ ty'.text

theorem misreads_of_runs {tree : Tree} {node : NodeId} {expected asked : Ty}
    (hsame : expected.same asked = true)
    (hfollows : ∀ naming : Naming, expected.Follows naming ∧
      asked.Follows naming)
    {start : Session} {env : Environment}
    (hstart : ({ tree, options := {} } : Session).newEnvironment = (env, start))
    (hruns : (do
      let first ← start.check env node expected
      let new ← start.check env node asked
      return ((first.2.pass env).recalled? node asked).any fun (ty : Ty) =>
        ty.text != new.1.text) = .ok true) :
    tree.Misreads node expected asked := by
  obtain ⟨⟨found, session⟩, hfirst, hruns⟩ := bind_eq_ok_iff.mp hruns
  obtain ⟨⟨ty', last'⟩, hnew, hruns⟩ := bind_eq_ok_iff.mp hruns
  obtain ⟨ty, hrecalled, htext⟩ :=
    (Option.any_eq_true _ _).mp (Except.ok.inj hruns)
  have hagain : session.check env node asked =
      .ok (ty, session.withPass env (session.pass env)) := by
    refine Session.run_eq_ok_iff.mpr ⟨_, session.tree.settle_of_settled ?_, rfl⟩
    rw [settled?_check, hrecalled]
  exact ⟨hsame, hfollows, start, session, _, last', env, found, ty, ty', hstart,
    hfirst, hrecalled, hagain, hnew, by simpa using htext⟩

/-- A check of the first function binds its parameter if the expected type names
it, and not if it names that of the second function. And an operand that is an
error of recursion is the outcome for the sum, which otherwise is an error about
both operands. -/
theorem misreads_twoFunctions :
    twoFunctions.Misreads 4 (.function [(3, .string none)] (.string none))
      (.function [(8, .string none)] (.string none)) ∧
    twoFunctions.Misreads 13
      (.error ⟨11, .recursion, "unresolved reference 'a'"⟩)
      (.error ⟨11, .unresolved, "unresolved reference 'a'"⟩) := by
  have hstrings : ∀ (naming : Naming) (param : NodeId),
      (Ty.function [(param, .string none)] (.string none)).Follows naming := by
    intro naming param
    exact .function (by simp [Ty.Follows.string]) (.string none)
  constructor
  · exact misreads_of_runs (by decide)
      (fun naming => ⟨hstrings naming 3, hstrings naming 8⟩) rfl
      (by decide +kernel)
  · exact misreads_of_runs (by decide) (fun naming => ⟨.error _, .error _⟩) rfl
      (by decide +kernel)

end Tree

end ConceptLang
