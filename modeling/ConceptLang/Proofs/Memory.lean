import Mathlib.Data.List.Perm.Subperm
import Mathlib.Logic.Relation
import ConceptLang.Typing.Session
import ConceptLang.Proofs.Transcripts
import ConceptLang.Proofs.Watch

/-!
# The memory of a pass

A pass never forgets or changes a type that it has kept for a node, and it works
the type of a node out at most once: the number of inferences goes up with the
number of types in memory, and by exactly as much (`Pass.Grows`). The reason is
that a node whose type is being worked out gets no entry in memory until that is
done.

A session asks for types and checks one after the other, in environments that
share one memory. `Session.remembers` says what each of these operations does to
that memory and to the counters.
-/

namespace ConceptLang

/-- A run relates the passes before and after it, if settling a premise that is
asked for and giving out a stamp do. -/
theorem Rule.Always.relates {α : Type} {ask : Judgement → Prop}
    {rel : Pass → Pass → Prop} (hrefl : ∀ pass, rel pass pass)
    (htrans : ∀ {pass pass' pass''}, rel pass pass' → rel pass' pass'' →
      rel pass pass'')
    (hmint : ∀ pass : Pass, rel pass { pass with stamps := pass.stamps + 1 })
    {settle : Judgement → PassM Ty}
    (hsettle : ∀ judgement pass ty pass', ask judgement →
      (settle judgement).run pass = .ok (ty, pass') → rel pass pass')
    {rule : Rule α} (h : rule.Always ask) {pass pass' : Pass} {a : α}
    (hrun : (rule.run (fun _ => Pass.mint) settle).run pass = .ok (a, pass')) :
    rel pass pass' := by
  induction rule generalizing pass with
  | conclude result =>
      cases hrun
      exact hrefl _
  | defect error => cases hrun
  | premise judgement next ih =>
      rw [run_premise_apply] at hrun
      obtain ⟨⟨ty, middle⟩, hfirst, hnext⟩ := bind_eq_ok_iff.mp hrun
      exact htrans (hsettle judgement pass ty middle h.1 hfirst)
        (ih ty (h.2 ty) hnext)
  | stamp decl next ih =>
      rw [run_stamp_apply] at hrun
      obtain ⟨⟨n, middle⟩, hfirst, hnext⟩ := bind_eq_ok_iff.mp hrun
      cases hfirst
      exact htrans (hmint pass) (ih _ (h _) hnext)

/-- The same if settling any premise does. -/
theorem Rule.run_relates {α : Type} {rel : Pass → Pass → Prop}
    (hrefl : ∀ pass, rel pass pass)
    (htrans : ∀ {pass pass' pass''},
      rel pass pass' → rel pass' pass'' → rel pass pass'')
    {settle : Judgement → PassM Ty}
    (hmint : ∀ pass : Pass, rel pass { pass with stamps := pass.stamps + 1 })
    (hsettle : ∀ judgement pass ty pass',
      (settle judgement).run pass = .ok (ty, pass') → rel pass pass')
    {rule : Rule α} {pass pass' : Pass} {a : α}
    (hrun : (rule.run (fun _ => Pass.mint) settle).run pass = .ok (a, pass')) :
    rel pass pass' :=
  rule.always_true.relates hrefl htrans hmint
    (fun judgement pass ty pass' _ => hsettle judgement pass ty pass') hrun

namespace Pass

/-- What the second pass remembers more than the first: nothing is changed, no
entry is new for the nodes of `busy`, every new entry is for one of the first
`size` nodes, and each was counted as an inference. -/
structure Grows (size : Nat) (busy : List NodeId) (pass pass' : Pass) :
    Prop where
  kept : ∀ (node : NodeId) (ty : Ty), pass.cache[node]? = some ty →
    pass'.cache[node]? = some ty
  spared : ∀ node ∈ busy, pass'.cache[node]? = pass.cache[node]?
  inside : ∀ node ∈ pass'.cache, node ∈ pass.cache ∨ node < size
  counted : ∃ added, pass'.cache.size = pass.cache.size + added ∧
    pass'.counters.inferences = pass.counters.inferences + added

namespace Grows

variable {size : Nat} {busy : List NodeId} {pass pass' pass'' : Pass}

theorem of_cache_eq (hcache : pass'.cache = pass.cache)
    (hcounters : pass'.counters.inferences = pass.counters.inferences) :
    pass.Grows size busy pass' := by
  refine ⟨?_, ?_, ?_, 0, ?_, hcounters⟩
  · intro node ty h
    rwa [hcache]
  · intro node _
    rw [hcache]
  · intro node h
    rw [hcache] at h
    exact Or.inl h
  · rw [hcache, Nat.add_zero]

theorem refl (pass : Pass) : pass.Grows size busy pass := of_cache_eq rfl rfl

theorem lookup (h : pass.Grows size busy pass') {scope : Scope} {node : NodeId}
    {ty : Ty} (hlookup : pass.lookup scope node = some ty) :
    pass'.lookup scope node = some ty := by
  rw [Pass.lookup, Option.or_eq_some_iff] at hlookup ⊢
  exact hlookup.imp_right fun hcache => ⟨hcache.1, h.kept node ty hcache.2⟩

theorem trans (h : pass.Grows size busy pass')
    (h' : pass'.Grows size busy pass'') :
    pass.Grows size busy pass'' := by
  obtain ⟨added, hsize, hcount⟩ := h.counted
  obtain ⟨added', hsize', hcount'⟩ := h'.counted
  refine ⟨fun node ty hty => h'.kept node ty (h.kept node ty hty),
    fun node hnode => ?_, fun node hnode => ?_, added + added', by omega,
    by omega⟩
  · rw [h'.spared node hnode, h.spared node hnode]
  · rcases h'.inside node hnode with hold | hlt
    · exact h.inside node hold
    · exact Or.inr hlt

/-- The type of a node is kept once it is worked out, and until then there is
none. -/
theorem record_synth {node : NodeId} (h : pass.Grows size (node :: busy) pass')
    (hnone : pass.cache[node]? = none) (hnode : node < size)
    (hbusy : node ∉ busy) (ty : Ty) :
    pass.Grows size busy (pass'.recordType node ty) := by
  have hnone' : pass'.cache[node]? = none :=
    (h.spared node (by simp)).trans hnone
  obtain ⟨added, hsize, hcount⟩ := h.counted
  refine ⟨fun other known hknown => ?_, fun other hother => ?_,
    fun other hother => ?_, added + 1, ?_, ?_⟩
  · have hne : other ≠ node := by
      rintro rfl
      rw [hnone] at hknown
      cases hknown
    rw [cache_recordType, if_neg hne]
    exact h.kept other known hknown
  · have hne : other ≠ node := fun heq => hbusy (heq ▸ hother)
    rw [cache_recordType, if_neg hne]
    exact h.spared other (by simp [hother])
  · rw [Std.TreeMap.mem_iff_isSome_getElem?, cache_recordType] at hother
    split at hother
    · next heq => exact Or.inr (heq ▸ hnode)
    · exact h.inside other (Std.TreeMap.mem_iff_isSome_getElem?.mpr hother)
  · have hnew : ¬ pass'.cache.contains node = true := by
      rw [Std.TreeMap.contains_iff_mem, Std.TreeMap.mem_iff_isSome_getElem?,
        hnone']
      simp
    rw [recordType, store, Std.TreeMap.size_insert, if_neg hnew, hsize,
      Nat.add_assoc]
  · change pass'.counters.inferences + 1 = _
    rw [hcount, Nat.add_assoc]

end Grows

end Pass

namespace Tree

variable (tree : Tree)

theorem lt_size_of_run_rule {mint : NodeId → PassM Nat}
    {settle : Judgement → PassM Ty} {judgement : Judgement} {pass pass' : Pass}
    {ty : Ty}
    (hrun : ((tree.rule judgement).run mint settle).run pass =
      .ok (ty, pass')) :
    judgement.node < tree.size := by
  cases hconstruct : tree.construct judgement.node with
  | ok construct => exact lt_size_of_construct hconstruct
  | error e =>
      cases judgement with
      | synth scope node =>
          rw [rule, synthRule, show tree.construct node = .error e
            from hconstruct] at hrun
          cases hrun
      | check scope node expected =>
          rw [rule, checkRule, show tree.construct node = .error e
            from hconstruct] at hrun
          cases hrun

/-- A judgement only adds to the memory of the pass. The induction is on the
room. -/
theorem settle_grows {limit room : Nat} {busy : List NodeId}
    {judgement : Judgement} {pass pass' : Pass} {ty : Ty}
    (hrun : (tree.settle limit room busy judgement).run pass =
      .ok (ty, pass')) :
    pass.Grows tree.size busy pass' := by
  induction room using Nat.strongRecOn
    generalizing busy judgement pass ty pass' with
  | ind room ih =>
      rcases tree.settle_cases hrun with hsettled | ⟨middle, hsettled, hcase⟩
      · cases tree.settled?_eq_ok_iff.mp hsettled with
        | known => exact .of_cache_eq rfl rfl
        | cyclic => exact .refl pass
        | recalled => exact .refl pass
      · have hfound := tree.settled?_eq_ok_iff.mp hsettled
        obtain rfl := hfound.eq_of_none
        rcases hcase with ⟨-, -, rfl⟩ | ⟨less, last, rfl, rfl, hrule⟩
        · exact .refl _
        · have hgrows : middle.Grows tree.size (judgement.enter busy) last :=
            Rule.run_relates .refl .trans (fun _ => .of_cache_eq rfl rfl)
              (fun premise before found after hpremise =>
                ih less (Nat.lt_succ_self less) hpremise) hrule
          cases judgement with
          | synth scope node =>
              cases hfound with
              | free hlookup hbusy =>
                  have hnone := (Option.or_eq_none_iff.mp hlookup).2
                  exact hgrows.record_synth hnone
                    (tree.lt_size_of_run_rule hrule) hbusy ty
          | check scope node expected =>
              exact ⟨hgrows.kept, hgrows.spared, hgrows.inside, hgrows.counted⟩

/-- A type that is in memory is found there. -/
theorem settle_of_lookup {limit room : Nat} {busy : List NodeId} {scope : Scope}
    {node : NodeId} {pass : Pass} {ty : Ty}
    (h : pass.lookup scope node = some ty) :
    (tree.settle limit room busy (.synth scope node)).run pass =
      .ok (ty, pass.countHit) :=
  tree.settle_of_settled (tree.settled?_synth_of_lookup h)

theorem synth_of_lookup {options : Options} {scope : Scope} {node : NodeId}
    {pass : Pass} {ty : Ty} (h : pass.lookup scope node = some ty) :
    (tree.synth options scope node).run pass = .ok (ty, pass.countHit) :=
  tree.settle_of_lookup h

/-- A type that was found is in memory, unless it is being worked out or there
is no room to do so. -/
theorem lookup_of_settle {limit room : Nat} {busy : List NodeId} {scope : Scope}
    {node : NodeId} {pass pass' : Pass} {ty : Ty}
    (hrun : (tree.settle limit room busy (.synth scope node)).run pass =
      .ok (ty, pass')) :
    pass'.lookup scope node = some ty ∨
      pass' = pass ∧ (node ∈ busy ∨ room = 0) := by
  rcases tree.settle_cases hrun with hsettled | ⟨middle, hsettled, hcase⟩
  · cases tree.settled?_eq_ok_iff.mp hsettled with
    | known hlookup => exact Or.inl hlookup
    | cyclic hlookup hbusy => exact Or.inr ⟨rfl, Or.inl hbusy⟩
  · cases tree.settled?_eq_ok_iff.mp hsettled with
    | free hlookup hbusy =>
        rcases hcase with ⟨hroom, -, rfl⟩ | ⟨less, last, -, rfl, -⟩
        · exact Or.inr ⟨rfl, Or.inr hroom⟩
        · left
          have hfree := (Option.or_eq_none_iff.mp hlookup).1
          rw [Pass.lookup, hfree, Pass.record, Pass.cache_recordType,
            if_pos rfl]
          rfl

/-- A type that was found is in memory. -/
theorem lookup_of_synth {options : Options} (hdepth : 1 ≤ options.maxDepth)
    {scope : Scope} {node : NodeId} {pass pass' : Pass} {ty : Ty}
    (hrun : (tree.synth options scope node).run pass = .ok (ty, pass')) :
    pass'.lookup scope node = some ty := by
  rcases tree.lookup_of_settle hrun with hlookup | ⟨-, hbusy | hroom⟩
  · exact hlookup
  · cases hbusy
  · omega

end Tree

/-- A memory has no more entries than there are nodes. -/
theorem Cache.size_le {cache : Cache} {size : Nat}
    (h : ∀ node ∈ cache, node < size) :
    cache.size ≤ size := by
  have hnodup : cache.keys.Nodup :=
    Std.TreeMap.distinct_keys.imp fun hne heq => hne (Nat.compare_eq_eq.mpr heq)
  have hsub : cache.keys ⊆ List.range size := fun node hnode =>
    List.mem_range.mpr (h node (Std.TreeMap.mem_keys.mp hnode))
  have hle := (hnodup.subperm hsub).length_le
  rwa [Std.TreeMap.length_keys, List.length_range] at hle

/-! ### Sessions -/

/-- The environments that were made from `origin` by adding bindings. -/
inductive Environment.DerivedFrom (origin : Environment) :
    Environment → Prop where
  | refl : DerivedFrom origin origin
  | extend {env : Environment} (h : DerivedFrom origin env)
      (bindings : List (NodeId × Ty)) : DerivedFrom origin (env.extend bindings)

theorem Environment.DerivedFrom.cache_eq {origin env : Environment}
    (h : DerivedFrom origin env) : env.cache = origin.cache := by
  induction h with
  | refl => rfl
  | extend h bindings ih => exact ih

namespace Session

/-- The session settles a judgement, in an environment that was made from
`origin`. -/
inductive Settles (origin : Environment) (session : Session) :
    Judgement → Ty → Session → Prop where
  | synth {env : Environment} {node : NodeId} {ty : Ty} {session' : Session}
      (henv : origin.DerivedFrom env)
      (h : session.synth env node = .ok (ty, session')) :
      Settles origin session (.synth env.scope node) ty session'
  | check {env : Environment} {node : NodeId} {expected ty : Ty}
      {session' : Session} (henv : origin.DerivedFrom env)
      (h : session.check env node expected = .ok (ty, session')) :
      Settles origin session (.check env.scope node expected) ty session'

/-- Judgements are settled one after the other, in environments that were made
from `origin`. -/
abbrev Goes (origin : Environment) : Session → Session → Prop :=
  Relation.ReflTransGen fun session session' => ∃ judgement ty,
    session.Settles origin judgement ty session'

variable {origin : Environment} {session session' : Session}

theorem run_eq_ok_iff {α : Type} {env : Environment} {action : PassM α}
    {a : α} :
    session.run env action = .ok (a, session') ↔
      ∃ pass, action.run (session.pass env) = .ok (a, pass) ∧
        session' = session.withPass env pass := by
  rw [run, bind_eq_ok_iff]
  constructor
  · rintro ⟨⟨b, pass⟩, h, ⟨⟩⟩
    exact ⟨pass, h, rfl⟩
  · rintro ⟨pass, h, rfl⟩
    exact ⟨(a, pass), h, rfl⟩

theorem pass_withPass {env : Environment} (h : env.cache < session.caches.size)
    (pass : Pass) :
    (session.withPass env pass).pass env = pass := by
  simp [Session.pass, withPass, Array.getD, h]

theorem withPass_countHit {env : Environment}
    (h : env.cache < session.caches.size) :
    session.withPass env (session.pass env).countHit =
      { session with counters.cacheHits := session.counters.cacheHits +
        1 } := by
  have hcaches :
      session.caches.setIfInBounds env.cache (session.pass env).cache =
        session.caches := by
    simp [Session.pass, Array.getD, Array.setIfInBounds, h]
  simp only [withPass, Pass.countHit, hcaches]
  rfl

/-- What an operation of a session does is a judgement in a pass. -/
theorem Settles.judge {judgement : Judgement} {ty : Ty}
    (h : session.Settles origin judgement ty session')
    (hcache : origin.cache < session.caches.size) :
    (session.tree.judge session.options judgement).run (session.pass origin) =
        .ok (ty, session'.pass origin) ∧
      session' = session.withPass origin (session'.pass origin) := by
  have hrun : ∀ env, origin.DerivedFrom env →
      session.run env (session.tree.judge session.options judgement) =
        .ok (ty, session') →
      session.run origin (session.tree.judge session.options judgement) =
        .ok (ty, session') := by
    intro env henv hrun
    rwa [show env = ⟨origin.cache, env.scope⟩ by rw [← henv.cache_eq]] at hrun
  have hrun' :
      session.run origin (session.tree.judge session.options judgement) =
        .ok (ty, session') := by
    cases h with
    | synth henv h => exact hrun _ henv h
    | check henv h => exact hrun _ henv h
  obtain ⟨pass, hpass, rfl⟩ := run_eq_ok_iff.mp hrun'
  rw [pass_withPass hcache]
  exact ⟨hpass, rfl⟩

/-- A session about `tree` in which the memory of `origin` and the counter of
inferences go together. -/
structure Tallies (tree : Tree) (options : Options) (origin : Environment)
    (session : Session) :
    Prop where
  tree_eq : session.tree = tree
  options_eq : session.options = options
  bound : origin.cache < session.caches.size
  tallied : session.counters.inferences = (session.pass origin).cache.size
  inside : ∀ node ∈ (session.pass origin).cache, node < tree.size

theorem tallies_newEnvironment {tree : Tree} {options : Options}
    (h : ({ tree, options } : Session).newEnvironment = (origin, session)) :
    session.Tallies tree options origin := by
  cases h
  exact ⟨rfl, rfl, Nat.zero_lt_one, rfl, fun node hnode => by cases hnode⟩

theorem Tallies.grows {tree : Tree} {options : Options}
    (h : session.Tallies tree options origin) {judgement : Judgement} {ty : Ty}
    (hstep : session.Settles origin judgement ty session') :
    (session.pass origin).Grows tree.size [] (session'.pass origin) := by
  have hjudge := (hstep.judge h.bound).1
  rw [h.tree_eq] at hjudge
  exact tree.settle_grows hjudge

theorem Tallies.settles {tree : Tree} {options : Options}
    (h : session.Tallies tree options origin) {judgement : Judgement} {ty : Ty}
    (hstep : session.Settles origin judgement ty session') :
    session'.Tallies tree options origin := by
  have hgrows := h.grows hstep
  obtain ⟨-, heq⟩ := hstep.judge h.bound
  obtain ⟨added, hsize, hcount⟩ := hgrows.counted
  refine ⟨?_, ?_, ?_, ?_, fun node hnode => ?_⟩
  · rw [heq]
    exact h.tree_eq
  · rw [heq]
    exact h.options_eq
  · rw [heq]
    simpa [withPass] using h.bound
  · have htallied := h.tallied
    change (session'.pass origin).counters.inferences = _
    rw [hcount, hsize, ← htallied]
    rfl
  · exact (hgrows.inside node hnode).elim (h.inside node) id

theorem Tallies.goes {tree : Tree} {options : Options}
    (h : session.Tallies tree options origin)
    (hgoes : Goes origin session session') :
    session'.Tallies tree options origin := by
  induction hgoes with
  | refl => exact h
  | tail _ hstep ih =>
      obtain ⟨judgement, ty, hstep⟩ := hstep
      exact ih.settles hstep

/-- What the operations of a session do to the memory of the environments that
they are made in. Each of them keeps what is there, counts as many inferences as
there are new entries, of which there is at most one for each node, and leaves
the watch over the recursion as it was. A type that was asked for is in memory
afterwards, and is found there when it is asked for again. -/
theorem remembers (tree : Tree) (options : Options) {start : Session}
    (hstart : ({ tree, options } : Session).newEnvironment = (origin, start))
    (hgoes : Goes origin start session) :
    (∀ judgement ty session', session.Settles origin judgement ty session' →
      (∀ (node : NodeId) (known : Ty),
        (session.pass origin).cache[node]? = some known →
        (session'.pass origin).cache[node]? = some known) ∧
      (∃ added,
        (session'.pass origin).cache.size =
          (session.pass origin).cache.size + added ∧
        session'.counters.inferences = session.counters.inferences + added) ∧
      session'.counters.inferences ≤ tree.size ∧
      tree.settleWatched options.maxDepth (options.maxDepth + 1) judgement
          { pass := session.pass origin, depth := 0, inProgress := [] } =
        some (.ok (ty,
          { pass := session'.pass origin, depth := 0, inProgress := [] }))) ∧
    (1 ≤ options.maxDepth → ∀ env node ty session', origin.DerivedFrom env →
      session.synth env node = .ok (ty, session') →
      session'.lookup env node = some ty ∧
      session'.synth env node = .ok (ty, { session' with
        counters.cacheHits := session'.counters.cacheHits + 1 })) := by
  have htallies := (tallies_newEnvironment hstart).goes hgoes
  refine ⟨fun judgement ty session' hstep => ?_,
    fun hdepth env node ty session' henv hsynth => ?_⟩
  · have hgrows := htallies.grows hstep
    have htallies' := htallies.settles hstep
    refine ⟨hgrows.kept, hgrows.counted, ?_, ?_⟩
    · rw [htallies'.tallied]
      exact Cache.size_le htallies'.inside
    · have hjudge := (hstep.judge htallies.bound).1
      rw [htallies.tree_eq, htallies.options_eq] at hjudge
      have hsteps : options.maxDepth - 0 < options.maxDepth + 1 :=
        Nat.lt_succ_self _
      exact (tree.settleWatched_apply hsteps [] judgement
        (session.pass origin)).trans (Watch.inPass_of_ok hjudge)
  · have hbound : env.cache < session.caches.size :=
      henv.cache_eq ▸ htallies.bound
    obtain ⟨pass, hrun, rfl⟩ := run_eq_ok_iff.mp hsynth
    rw [htallies.tree_eq, htallies.options_eq] at hrun
    have hbound' : env.cache < (session.withPass env pass).caches.size := by
      simpa [withPass] using hbound
    have hlookup : (session.withPass env pass).lookup env node = some ty := by
      rw [lookup, pass_withPass hbound]
      exact tree.lookup_of_synth hdepth hrun
    refine ⟨hlookup, run_eq_ok_iff.mpr ⟨_, Tree.synth_of_lookup _ hlookup, ?_⟩⟩
    exact (withPass_countHit hbound').symm

/-- A variable that is defined by itself. -/
def loopModel : Tree :=
  .ofConstructs [.reference "loop" (.resolved 1),
    .var ⟨"loop", Span.unknown⟩ none (some 0)] [1]

theorem remembers_loopModel : ∃ start session session' ty ty',
    ({ tree := loopModel, options := {} } : Session).newEnvironment =
      (⟨0, Scope.empty⟩, start) ∧
    start.synth ⟨0, Scope.empty⟩ 1 = .ok (ty, session) ∧
    session.lookup ⟨0, Scope.empty⟩ 1 = some ty ∧
    session.counters.inferences ≤ 2 ∧
    session.check ⟨0, Scope.empty.extend [(0, .integer none)]⟩ 1
      (.integer none) = .ok (ty', session') ∧
    (session'.pass ⟨0, Scope.empty⟩).cache[1]? = some ty ∧
    session'.counters.inferences ≤ 2 := by
  let origin : Environment := ⟨0, Scope.empty⟩
  let other : Environment := origin.extend [(0, .integer none)]
  let start := ({ tree := loopModel, options := {} } : Session).newEnvironment.2
  have hstart :
      ({ tree := loopModel, options := {} } : Session).newEnvironment =
      (origin, start) :=
    rfl
  have hother : origin.DerivedFrom other := .extend .refl _
  have hboth :
      ((start.synth origin 1).bind fun out =>
        out.2.check other 1 (.integer none)).map
        (fun _ => ()) = .ok () := by decide +kernel
  cases hsynth : start.synth origin 1 with
  | error e =>
      rw [hsynth] at hboth
      cases hboth
  | ok out =>
      obtain ⟨ty, session⟩ := out
      have hfirst : start.Settles origin (.synth origin.scope 1) ty session :=
        .synth .refl hsynth
      obtain ⟨hsteps, hasked⟩ := remembers loopModel {} hstart .refl
      obtain ⟨hlookup, -⟩ := hasked (by decide) origin 1 ty session .refl hsynth
      cases hcheck : session.check other 1 (.integer none) with
      | error e =>
          rw [hsynth] at hboth
          change (session.check other 1 (.integer none)).map _ = _ at hboth
          rw [hcheck] at hboth
          cases hboth
      | ok out =>
          obtain ⟨ty', session'⟩ := out
          obtain ⟨hkept, -, hinferences, -⟩ :=
            (remembers loopModel {} hstart (.single ⟨_, _, hfirst⟩)).1 _ _ _
              (.check hother hcheck)
          exact ⟨start, session, session', ty, ty', hstart, hsynth, hlookup,
            (hsteps _ _ _ hfirst).2.2.1, hcheck, hkept 1 ty hlookup,
            hinferences⟩

end Session

end ConceptLang
