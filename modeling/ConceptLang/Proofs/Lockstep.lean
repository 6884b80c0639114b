import ConceptLang.Proofs.Gist
import ConceptLang.Proofs.Repetition
import ConceptLang.Proofs.Transcripts

/-!
# Rules in lockstep

Two rules for the same node, in scopes of their own, ask for the same premises
as long as they get concurring answers, and come to concurring conclusions
(`Tree.tracks_rule`). Answers concur if both are type errors or both are types
with the same gist (`Tree.Concurs`). A rule looks at no more than the gist of an
answer: it takes a type apart, or compares it with an expected one, and if that
is old the gist is enough for the comparison.

Where both answers are type errors nothing is said about what comes next.
Neither of the two rules can succeed then.
-/

namespace ConceptLang

theorem Ty.isError_eq_of_same {a b : Ty} (h : a.same b = true) :
    a.isError = b.isError := by
  rw [Bool.eq_iff_iff]
  exact ⟨isError_of_same h, isError_of_same (same_symm h)⟩

/-- Judgements that share what a pass remembers: they differ at most in their
scopes, and in expected types that are the same. -/
inductive Judgement.Twin : Judgement → Judgement → Prop where
  | synth (scope scope' : Scope) (node : NodeId) :
      Twin (.synth scope node) (.synth scope' node)
  | check (scope scope' : Scope) (node : NodeId) {expected expected' : Ty}
      (h : expected.same expected' = true) :
      Twin (.check scope node expected) (.check scope' node expected')

/-- Whether a type is the expected one can be told from its gist. -/
def Judgement.DecidedByGist (base : Nat) : Judgement → Prop
  | .synth _ _ => True
  | .check _ _ expected => expected.DecidedByGist base

namespace Judgement.Twin

variable {judgement judgement' judgement'' : Judgement}

theorem refl (judgement : Judgement) : judgement.Twin judgement := by
  cases judgement with
  | synth scope node => exact .synth scope scope node
  | check scope node expected =>
      exact .check scope scope node (Ty.same_refl expected)

theorem symm (h : judgement.Twin judgement') : judgement'.Twin judgement := by
  cases h with
  | synth => exact .synth _ _ _
  | check _ _ _ h => exact .check _ _ _ (Ty.same_symm h)

theorem trans (h : judgement.Twin judgement')
    (h' : judgement'.Twin judgement'') :
    judgement.Twin judgement'' := by
  cases h with
  | synth =>
      cases h' with
      | synth => exact .synth _ _ _
  | check _ _ _ h =>
      cases h' with
      | check _ _ _ h' => exact .check _ _ _ (Ty.same_trans h h')

theorem decidedByGist {base : Nat} (h : judgement.Twin judgement')
    (h' : judgement'.DecidedByGist base) : judgement.DecidedByGist base := by
  cases h with
  | synth => trivial
  | check _ _ _ h => exact Ty.DecidedByGist.of_same h' h

end Judgement.Twin

/-- Whether a construct stands for a type that is spelled out. -/
def Construct.spellsType (construct : Construct) : Bool :=
  construct.isTypeNode || Role.typedParam.admits construct

/-- Whether a construct is a predicate. -/
def Construct.isPredicate : Construct → Bool
  | .predicate _ _ _ => true
  | _ => false

namespace Tree

/-- The type is made of old ones, and it is old if the node spells a type
out. -/
def Neat (tree : Tree) (base : Nat) (node : NodeId) (ty : Ty) : Prop :=
  ty.Neat base ∧ (tree.holds (·.spellsType) node = true → ty.Old base)

/-- Two answers to a judgement that come to the same: both are type errors, or
both are types with the same gist. About the second one it also says what later
comparisons rely on. -/
def Concurs (tree : Tree) (base : Nat) : Judgement → Ty → Ty → Prop
  | .synth _ node, ty, ty' =>
      ty.verdict base = ty'.verdict base ∧ tree.Neat base node ty'
  | .check _ node expected, ty, ty' =>
      ty.isError = ty'.isError ∧ (ty'.isError = false →
        ty.same expected = true ∧ ty'.same expected = true ∧
          ¬ tree.holds (·.isPredicate) node = true)

section Concurs

variable {tree : Tree} {base : Nat} {scope : Scope} {node : NodeId}

theorem neat_of_old {ty : Ty} (h : ty.Old base) :
    tree.Neat base node ty := ⟨.old h, fun _ => h⟩

theorem Concurs.isError_eq {judgement : Judgement} {ty ty' : Ty}
    (h : tree.Concurs base judgement ty ty') : ty.isError = ty'.isError := by
  cases judgement with
  | synth scope node => exact Ty.isError_eq_of_verdict_eq h.1
  | check scope node expected => exact h.1

/-- Type errors concur. -/
theorem concurs_of_isError {ty ty' : Ty} (h : ty.isError = true)
    (h' : ty'.isError = true) (judgement : Judgement) :
    tree.Concurs base judgement ty ty' := by
  cases judgement with
  | synth scope node =>
      refine ⟨by rw [Ty.verdict_of_isError h, Ty.verdict_of_isError h'],
        neat_of_old ?_⟩
      cases ty' <;> first | exact .error _ | cases h'
  | check scope node expected =>
      exact ⟨h.trans h'.symm, fun hok => by simp [hok] at h'⟩

theorem concurs_fault (judgement : Judgement) {cause cause' : Fault} :
    tree.Concurs base judgement (.fault node cause) (.fault node cause') :=
  concurs_of_isError rfl rfl judgement

theorem concurs_of_gist_eq {ty ty' : Ty} (h : ty.gist base = ty'.gist base)
    (hold : ty'.Old base) :
    tree.Concurs base (.synth scope node) ty ty' :=
  ⟨Ty.verdict_eq_of_gist_eq h, neat_of_old hold⟩

/-- The two answers may be given to a twin. -/
theorem Concurs.of_twin {judgement judgement' : Judgement} {ty ty' : Ty}
    (h : tree.Concurs base judgement ty ty')
    (htwin : judgement.Twin judgement') :
    tree.Concurs base judgement' ty ty' := by
  cases htwin with
  | synth => exact h
  | check _ _ _ hsame =>
      refine ⟨h.1, fun hok => ?_⟩
      obtain ⟨hty, hty', hpredicate⟩ := h.2 hok
      exact ⟨Ty.same_trans hty hsame, Ty.same_trans hty' hsame, hpredicate⟩

end Concurs

/-- Types of a node that concur and are no type errors. -/
structure Matches (tree : Tree) (base : Nat) (node : NodeId) (ty ty' : Ty) :
    Prop where
  gist_eq : ty.gist base = ty'.gist base
  neat : tree.Neat base node ty'
  ok : ty'.isError = false

namespace Matches

variable {tree : Tree} {base : Nat} {scope : Scope} {node id : NodeId}
  {ty ty' : Ty}

theorem ok_left (h : tree.Matches base id ty ty') : ty.isError = false :=
  (Ty.isError_eq_of_gist_eq h.gist_eq).trans h.ok

/-- What matches for one node concurs for another one that does not spell a type
out. -/
theorem concurs (h : tree.Matches base id ty ty') {construct : Construct}
    (hconstruct : tree.construct node = .ok construct)
    (hspells : construct.spellsType = false) :
    tree.Concurs base (.synth scope node) ty ty' :=
  ⟨Ty.verdict_eq_of_gist_eq h.gist_eq, h.neat.1,
    fun hholds => absurd hholds (not_holds hconstruct hspells)⟩

end Matches

end Tree

namespace Rule

variable {α β : Type}

/-- With concurring answers that are no type errors, two rules ask for twins and
come to conclusions that agree. -/
def Tracks (tree : Tree) (base : Nat) (agree : α → α → Prop) :
    Rule α → Rule α → Prop
  | .conclude a, .conclude a' => agree a a'
  | .defect _, .defect _ => True
  | .premise judgement next, .premise judgement' next' =>
    (judgement.Twin judgement' ∧ judgement'.DecidedByGist base) ∧
      ∀ ty ty', tree.Concurs base judgement ty ty' → ty'.isError = false →
        (next ty).Tracks tree base agree (next' ty')
  | .stamp _ next, .stamp _ next' =>
    ∀ n n', base ≤ n → base ≤ n' → (next n).Tracks tree base agree (next' n')
  | _, _ => False

section Tracks

variable {tree : Tree} {base : Nat}

theorem Tracks.bind {agree : α → α → Prop} {agree' : β → β → Prop}
    {rule rule' : Rule α} {f f' : α → Rule β}
    (h : rule.Tracks tree base agree rule')
    (hf : ∀ a a', agree a a' → (f a).Tracks tree base agree' (f' a')) :
    (rule.bind f).Tracks tree base agree' (rule'.bind f') := by
  induction rule generalizing rule' with
  | conclude a =>
      cases rule' with
      | conclude a' => exact hf a a' h
      | _ => exact h.elim
  | defect e =>
      cases rule' with
      | defect e' => trivial
      | _ => exact h.elim
  | premise judgement next ih =>
      cases rule' with
      | premise judgement' next' =>
          exact ⟨h.1, fun ty ty' hconcurs hok =>
            ih ty (h.2 ty ty' hconcurs hok)⟩
      | _ => exact h.elim
  | stamp decl next ih =>
      cases rule' with
      | stamp decl' next' => exact fun n n' hn hn' => ih n (h n n' hn hn')
      | _ => exact h.elim

theorem Tracks.mono {agree agree' : α → α → Prop} {rule rule' : Rule α}
    (h : rule.Tracks tree base agree rule')
    (hagree : ∀ a a', agree a a' → agree' a a') :
    rule.Tracks tree base agree' rule' := by
  have hbind :
      (rule.bind .conclude).Tracks tree base agree' (rule'.bind .conclude) :=
    h.bind hagree
  rwa [bind_conclude, bind_conclude] at hbind

theorem Tracks.lift {agree : β → β → Prop} {x : Except TreeError α}
    {f f' : α → Rule β}
    (hf : ∀ a, x = .ok a → (f a).Tracks tree base agree (f' a)) :
    ((liftM x : Rule α) >>= f).Tracks tree base agree (liftM x >>= f') := by
  cases x with
  | error e => trivial
  | ok a => exact hf a rfl

theorem tracks_synth (scope scope' : Scope) (id : NodeId) :
    (synth scope id).Tracks tree base (tree.Matches base id)
      (synth scope' id) :=
  ⟨⟨.synth scope scope' id, trivial⟩, fun _ _ hconcurs hok =>
    ⟨Ty.gist_eq_of_verdict_eq hconcurs.1 hok, hconcurs.2, hok⟩⟩

theorem tracks_check (scope scope' : Scope) (id : NodeId)
    {expected expected' : Ty} (hsame : expected.same expected' = true)
    (hexpected : expected'.DecidedByGist base) :
    (check scope id expected).Tracks tree base
      (fun ty ty' => tree.Concurs base (.check scope id expected) ty ty' ∧
        ty'.isError = false)
      (check scope' id expected') :=
  ⟨⟨.check scope scope' id hsame, hexpected⟩, fun _ _ hconcurs hok =>
    ⟨hconcurs, hok⟩⟩

end Tracks

end Rule

namespace Tree

/-! ### Rules of synthesis -/

theorem spellsType_of_isTypeNode {tree : Tree} {id : NodeId}
    (h : tree.holds (·.isTypeNode) id = true) :
    tree.holds (·.spellsType) id = true := by
  obtain ⟨construct, hconstruct, hkind⟩ := (holds_iff tree _ id).mp h
  exact (holds_iff tree _ id).mpr ⟨construct,
    hconstruct, by simp [Construct.spellsType, hkind]⟩

section Synthesis

variable {tree : Tree} {base : Nat} (scope scope' : Scope) {node : NodeId}

theorem tracks_synthAll (slots : List NodeId)
    (h : ∀ id ∈ slots, tree.holds (·.isTypeNode) id = true) :
    (Rule.synthAll scope slots).Tracks tree base
      (fun outcome outcome' => ∃ types types', outcome = .ok types ∧
        outcome' = .ok types' ∧
        types.map (·.gist base) = types'.map (·.gist base) ∧
        ∀ ty ∈ types', ty.Old base)
      (Rule.synthAll scope' slots) := by
  induction slots with
  | nil => exact ⟨[], [], rfl, rfl, rfl, by simp⟩
  | cons id ids ih =>
      obtain ⟨hid, hids⟩ := List.forall_mem_cons.mp h
      refine (Rule.tracks_synth scope scope' id).bind fun ty ty' hty => ?_
      have hold : ty'.Old base := hty.neat.2 (spellsType_of_isTypeNode hid)
      split
      · exact absurd hty.ok_left (by simp [Ty.isError])
      · split
        · exact absurd hty.ok (by simp [Ty.isError])
        · refine (ih hids).bind ?_
          rintro _ _ ⟨types, types', rfl, rfl, hgist, hrest⟩
          refine ⟨_, _, rfl, rfl, ?_, List.forall_mem_cons.mpr ⟨hold, hrest⟩⟩
          rw [List.map_cons, List.map_cons, hty.gist_eq, hgist]

theorem tracks_checkAll (nodes : List NodeId) {types types' : List Ty}
    (hgist : types.map (·.gist base) = types'.map (·.gist base))
    (hold : ∀ ty ∈ types', ty.Old base) :
    (Rule.checkAll scope (nodes.zip types)).Tracks tree base
      (fun outcome outcome' => outcome = none ∧ outcome' = none)
      (Rule.checkAll scope' (nodes.zip types')) := by
  induction nodes generalizing types types' with
  | nil => exact ⟨rfl, rfl⟩
  | cons id ids ih =>
      cases types' with
      | nil =>
          rw [List.map_nil, List.map_eq_nil_iff] at hgist
          subst hgist
          exact ⟨rfl, rfl⟩
      | cons expected' types' =>
          cases types with
          | nil => cases hgist
          | cons expected types =>
              rw [List.map_cons, List.map_cons, List.cons.injEq] at hgist
              obtain ⟨hexpected, hrest⟩ := List.forall_mem_cons.mp hold
              refine (Rule.tracks_check scope scope' id
                (hexpected.same_of_gist_eq hgist.1)
                hexpected.decidedByGist).bind ?_
              rintro ty ty' ⟨hconcurs, hok⟩
              split
              · exact absurd (hconcurs.1.trans hok) (by simp [Ty.isError])
              · split
                · exact absurd hok (by simp [Ty.isError])
                · exact ih hgist.2 hrest

theorem tracks_synthParam (name : String) :
    (tree.synthParam scope node name).Tracks tree base
      (tree.Concurs base (.synth scope node))
      (tree.synthParam scope' node name) := by
  refine Rule.Tracks.lift fun parent _ => ?_
  cases parent with
  | none => exact concurs_fault _
  | some above =>
      refine (Rule.tracks_synth scope scope' above).bind fun ty ty' hty => ?_
      split
      · next params result =>
          obtain ⟨params', result', rfl, hparams, -⟩ :=
            Ty.exists_of_gist_eq_function hty.gist_eq.symm
          have htype := congrArg (paramType? · node) hparams
          simp only [Ty.paramType?_gistParams] at htype
          change tree.Concurs base _ ((paramType? params node).getD _)
            ((paramType? params' node).getD _)
          cases hknown : paramType? params' node with
          | none =>
              rw [hknown, Option.map_none, eq_comm, Option.map_eq_none_iff]
                at htype
              rw [htype]
              exact concurs_fault _
          | some known' =>
              rw [hknown, Option.map_some, eq_comm, Option.map_eq_some_iff]
                at htype
              obtain ⟨known, hknown', hgist⟩ := htype
              rw [hknown']
              refine concurs_of_gist_eq hgist ?_
              exact hty.neat.1.function.1 (node, known') (mem_of_lookup hknown)
      · next hfunction =>
          split
          · obtain ⟨params, result, rfl, -⟩ :=
              Ty.exists_of_gist_eq_function hty.gist_eq
            exact absurd rfl (hfunction params result)
          · exact concurs_fault _

theorem tracks_synthRelation {name : Ident} {relatum : NodeId}
    (hconstruct : tree.construct node = .ok (.relation name relatum))
    (h : tree.holds (·.isTypeNode) relatum = true) :
    (tree.synthRelation scope node name.name relatum).Tracks tree base
      (tree.Concurs base (.synth scope node))
      (tree.synthRelation scope' node name.name relatum) := by
  refine Rule.Tracks.lift fun owner _ => ?_
  cases owner with
  | none => exact concurs_fault _
  | some owner =>
      refine (Rule.tracks_synth scope scope' relatum).bind fun ty ty' hty => ?_
      split
      · exact absurd hty.ok_left (by simp [Ty.isError])
      · split
        · exact absurd hty.ok (by simp [Ty.isError])
        · intro n n' hn hn'
          -- Both stamps are new, so the gist takes them for the same.
          refine ⟨Ty.verdict_eq_of_gist_eq ?_,
            .relation _ _ _ _ (hty.neat.2 (spellsType_of_isTypeNode h)),
            fun hholds => absurd hholds (not_holds hconstruct rfl)⟩
          rw [Ty.gist, Ty.gist, hty.gist_eq, Nat.min_eq_right hn,
            Nat.min_eq_right hn']

theorem tracks_synthFunction (name : String) (params : List NodeId)
    {slots : List NodeId}
    (h : ∀ id ∈ slots, tree.holds (·.isTypeNode) id = true) :
    (synthFunction scope node name params slots).Tracks tree base
      (tree.Concurs base (.synth scope node))
      (synthFunction scope' node name params slots) := by
  rw [synthFunction, synthFunction]
  split
  · exact concurs_fault _
  · refine (tracks_synthAll scope scope' slots h).bind ?_
    rintro _ _ ⟨types, types', rfl, rfl, hgist, hold⟩
    refine concurs_of_gist_eq ?_ (.function (fun param hparam => ?_) ?_)
    · have hzip : ∀ types : List Ty, Ty.gistParams base (params.zip types) =
          params.zip (types.map (·.gist base)) := fun types => by
        rw [Ty.gistParams_eq_map, List.zip_map_right]
        rfl
      have hlast : ∀ types : List Ty, (types.getLast?.getD .unit).gist base =
          (types.map (·.gist base)).getLast?.getD .unit := fun types => by
        rw [List.getLast?_map]
        cases types.getLast? <;> simp [Ty.gist]
      rw [Ty.gist, Ty.gist, hzip, hzip, hlast, hlast, hgist]
    · exact hold param.2 (List.of_mem_zip hparam).2
    · cases hlast : types'.getLast? with
      | none => exact .unit
      | some last => exact hold last (List.mem_of_getLast? hlast)

theorem tracks_synthCall {callee : NodeId} {args : List NodeId} :
    (synthCall scope node callee args).Tracks tree base
      (tree.Concurs base (.synth scope node))
      (synthCall scope' node callee args) := by
  refine (Rule.tracks_synth scope scope' callee).bind fun ty ty' hty => ?_
  split
  · next params result =>
      obtain ⟨params', result', rfl, hparams, hresult⟩ :=
        Ty.exists_of_gist_eq_function hty.gist_eq.symm
      obtain ⟨hparamsOld, hresultOld⟩ := hty.neat.1.function
      have hlength : params'.length = params.length := by
        rw [← Ty.length_gistParams, hparams, Ty.length_gistParams]
      dsimp only
      rw [hlength]
      split
      · exact concurs_fault _
      · have hgist : (params.map (·.2)).map (·.gist base) =
            (params'.map (·.2)).map (·.gist base) := by
          have htypes := congrArg (List.map Prod.snd) hparams
          rw [Ty.gistParams_eq_map, Ty.gistParams_eq_map] at htypes
          simpa [Function.comp_def] using htypes.symm
        have hold : ∀ ty ∈ params'.map (·.2), ty.Old base := by
          rintro _ hmem
          obtain ⟨param, hparam, rfl⟩ := List.mem_map.mp hmem
          exact hparamsOld param hparam
        refine (tracks_checkAll scope scope' args hgist hold).bind ?_
        rintro _ _ ⟨rfl, rfl⟩
        exact concurs_of_gist_eq hresult.symm hresultOld
  · next hfunction =>
      split
      · obtain ⟨params, result, rfl, -⟩ :=
          Ty.exists_of_gist_eq_function hty.gist_eq
        exact absurd rfl (hfunction params result)
      · exact concurs_fault _

theorem tracks_predicateParams (params : List NodeId)
    (h : ∀ id ∈ params, tree.holds (Role.admits .typedParam) id = true) :
    (tree.predicateParams scope params).Tracks tree base
      (fun outcome outcome' => ∃ bindings bindings', outcome = .ok bindings ∧
        outcome' = .ok bindings' ∧
        Ty.gistParams base bindings = Ty.gistParams base bindings' ∧
        ∀ binding ∈ bindings', binding.2.Old base)
      (tree.predicateParams scope' params) := by
  induction params with
  | nil => exact ⟨[], [], rfl, rfl, rfl, by simp⟩
  | cons id ids ih =>
      obtain ⟨hid, hids⟩ := List.forall_mem_cons.mp h
      obtain ⟨construct, hconstruct, hkind⟩ := (holds_iff tree _ id).mp hid
      have hspells : tree.holds (·.spellsType) id = true :=
        (holds_iff tree _ id).mpr ⟨construct,
          hconstruct, by simp [Construct.spellsType, hkind]⟩
      refine Rule.Tracks.lift fun construct' hconstruct' => ?_
      obtain rfl := Except.ok.inj (hconstruct.symm.trans hconstruct')
      cases construct with
      | typedParam formal typeNode =>
          refine (Rule.tracks_synth scope scope' id).bind fun ty ty' hty => ?_
          split
          · exact absurd hty.ok_left (by simp [Ty.isError])
          · split
            · exact absurd hty.ok (by simp [Ty.isError])
            · refine (ih hids).bind ?_
              rintro _ _ ⟨bindings, bindings', rfl, rfl, hgist, hold⟩
              refine ⟨_, _, rfl, rfl, ?_,
                List.forall_mem_cons.mpr ⟨hty.neat.2 hspells, hold⟩⟩
              rw [Ty.gistParams, Ty.gistParams, hty.gist_eq, hgist]
      | _ => cases hkind

/-- A predicate is checked, but no check of a predicate succeeds. -/
theorem tracks_synthPredicate {name : Ident} {params : List NodeId}
    {body : Option NodeId}
    (hconstruct : tree.construct node = .ok (.predicate name params body))
    (h : ∀ id ∈ params, tree.holds (Role.admits .typedParam) id = true) :
    (tree.synthPredicate scope node params).Tracks tree base
      (tree.Concurs base (.synth scope node))
      (tree.synthPredicate scope' node params) := by
  refine (tracks_predicateParams scope scope' params h).bind ?_
  rintro _ _ ⟨bindings, bindings', rfl, rfl, hgist, hold⟩
  have hpredicate : (Ty.predicate bindings').Old base := .predicate hold
  refine (Rule.tracks_check scope scope' node (hpredicate.same_of_gist_eq ?_)
    hpredicate.decidedByGist).mono ?_
  · rw [Ty.gist, Ty.gist, hgist]
  · rintro ty ty' ⟨hconcurs, hok⟩
    have hholds : tree.holds (·.isPredicate) node = true :=
      (holds_iff tree _ node).mpr ⟨_, hconstruct, rfl⟩
    exact absurd hholds (hconcurs.2 hok).2.2

theorem tracks_synthBinary (op : Operator) :
    (synthBinary scope node op).Tracks tree base
      (tree.Concurs base (.synth scope node))
      (synthBinary scope' node op) := by
  have hcheck : ∀ {expected : Ty}, expected.Old base →
      (∀ ty : Ty, ty.same expected = true →
        ty.gist base = expected ∧ ty.Old base) →
      (Rule.check scope node expected).Tracks tree base
        (tree.Concurs base (.synth scope node))
        (Rule.check scope' node expected) := by
    intro expected hold hgist
    refine (Rule.tracks_check scope scope' node (Ty.same_refl expected)
      hold.decidedByGist).mono ?_
    rintro ty ty' ⟨hconcurs, hok⟩
    obtain ⟨hty, hty', -⟩ := hconcurs.2 hok
    exact concurs_of_gist_eq ((hgist ty hty).1.trans (hgist ty' hty').1.symm)
      (hgist ty' hty').2
  have hboolean : ∀ ty : Ty, ty.same (.boolean none) = true →
      ty.gist base = .boolean none ∧ ty.Old base := fun ty hty => by
    cases ty with
    | boolean literal => exact ⟨by rw [Ty.gist], .boolean literal⟩
    | _ => cases hty
  have hinteger : ∀ ty : Ty, ty.same (.integer none) = true →
      ty.gist base = .integer none ∧ ty.Old base := fun ty hty => by
    cases ty with
    | integer literal => exact ⟨by rw [Ty.gist], .integer literal⟩
    | _ => cases hty
  cases op with
  | mod => exact concurs_fault _
  | or | and | eq | ne | lt | gt | le | ge =>
      exact hcheck (.boolean none) hboolean
  | add | sub | mul | div => exact hcheck (.integer none) hinteger

theorem concurs_joinThrough {id : NodeId} (field : String) (foundOn : NodeId)
    {ty ty' : Ty} (h : tree.Matches base id ty ty') :
    tree.Concurs base (.synth scope node) (joinThrough node field foundOn ty)
      (joinThrough node field foundOn ty') := by
  rw [joinThrough.eq_def, joinThrough.eq_def]
  split
  · obtain ⟨stamp', name', owner', relatum', rfl, howner, hrelatum⟩ :=
      Ty.exists_of_gist_eq_relation h.gist_eq.symm
    dsimp only
    rw [howner]
    split
    · exact concurs_of_gist_eq hrelatum.symm h.neat.1.relatum
    · exact concurs_fault _
  · next hrelation =>
      split
      · obtain ⟨stamp, name, owner, relatum, rfl, -⟩ :=
          Ty.exists_of_gist_eq_relation h.gist_eq
        exact absurd rfl (hrelation _ _ _ _ _)
      · exact concurs_fault _

theorem tracks_synthJoin (left field : NodeId) :
    (tree.synthJoin scope node left field).Tracks tree base
      (tree.Concurs base (.synth scope node))
      (tree.synthJoin scope' node left field) := by
  refine (Rule.tracks_synth scope scope' left).bind fun ty ty' hty => ?_
  split
  · next c =>
      obtain ⟨c', rfl, hdecl⟩ := Ty.exists_of_gist_eq_concept hty.gist_eq.symm
      refine Rule.Tracks.lift fun construct _ => ?_
      split
      · rw [hdecl]
        refine Rule.Tracks.lift fun found _ => ?_
        cases found with
        | none => exact concurs_fault _
        | some pair =>
            refine (Rule.tracks_synth scope scope' pair.2).bind
              fun ty ty' hty => ?_
            exact concurs_joinThrough scope _ pair.1 hty
      · exact concurs_fault _
  · next hconcept =>
      split
      · obtain ⟨c, rfl, -⟩ := Ty.exists_of_gist_eq_concept hty.gist_eq
        exact absurd rfl (hconcept c)
      · exact concurs_fault _

theorem old_keywordType (keyword : String) :
    (keywordType node keyword).Old base := by
  rw [keywordType]
  split
  · exact .string none
  · split
    · exact .integer none
    · split
      · exact .boolean none
      · exact .error _

theorem old_conceptType {ref : NodeId} {ty : Ty}
    (h : tree.conceptType node ref = .ok ty) :
    ty.Old base := by
  rw [conceptType] at h
  obtain ⟨construct, -, h⟩ := bind_eq_ok_iff.mp h
  obtain ⟨target, -, h⟩ := bind_eq_ok_iff.mp h
  cases target with
  | none =>
      cases h
      exact .error _
  | some decl =>
      obtain ⟨declared, -, h⟩ := bind_eq_ok_iff.mp h
      cases declared <;> cases h <;> first | exact .concept _ | exact .error _

theorem tracks_synthRule (wf : tree.WellFormed) :
    (tree.synthRule scope node).Tracks tree base
      (tree.Concurs base (.synth scope node))
      (tree.synthRule scope' node) := by
  refine Rule.Tracks.lift fun construct hconstruct => ?_
  -- The type of another node, for a node that does not spell a type out.
  have hother : construct.spellsType = false →
    ∀ id, (Rule.synth scope id).Tracks tree base
      (tree.Concurs base (.synth scope node)) (Rule.synth scope' id) :=
        fun hspells id =>
    (Rule.tracks_synth scope scope' id).mono fun _ _ h =>
      h.concurs hconstruct hspells
  cases construct with
  | reference text link =>
      cases link with
      | unresolved note => exact concurs_fault _
      | resolved target => exact hother rfl target
  | join left field => exact tracks_synthJoin scope scope' left field
  | stringLit value => exact concurs_of_gist_eq rfl (.string _)
  | boolLit value => exact concurs_of_gist_eq rfl (.boolean _)
  | intLit value => exact concurs_of_gist_eq rfl (.integer _)
  | var name typeNode value =>
      cases typeNode with
      | some typeNode => exact hother rfl typeNode
      | none =>
          cases value with
          | none => exact concurs_fault _
          | some value => exact hother rfl value
  | param name => exact tracks_synthParam scope scope' name.name
  | typedParam formal typeNode =>
      have htypeNode : tree.holds (·.isTypeNode) typeNode = true :=
        wf.holds_part .typeNode hconstruct (by simp [Construct.parts])
      refine (Rule.tracks_synth scope scope' typeNode).mono fun ty ty' h => ?_
      exact concurs_of_gist_eq h.gist_eq
        (h.neat.2 (spellsType_of_isTypeNode htypeNode))
  | keywordType keyword =>
      exact concurs_of_gist_eq rfl (old_keywordType keyword)
  | conceptType ref =>
      change (Rule.ofExcept (tree.conceptType node ref)).Tracks tree base _
        (Rule.ofExcept (tree.conceptType node ref))
      cases htype : tree.conceptType node ref with
      | error e => trivial
      | ok ty => exact concurs_of_gist_eq rfl (old_conceptType htype)
  | concept name parents relations => exact concurs_of_gist_eq rfl (.concept _)
  | relation name relatum =>
      exact tracks_synthRelation scope scope' hconstruct
        (wf.holds_part .typeNode hconstruct (by simp [Construct.parts]))
  | binary op lhs rhs => exact tracks_synthBinary scope scope' op
  | function name params slots body =>
      exact tracks_synthFunction scope scope' name.name params fun id hid =>
        wf.holds_part .typeNode hconstruct (by simp [Construct.parts, hid])
  | call callee args => exact tracks_synthCall scope scope'
  | predicate name params body =>
      exact tracks_synthPredicate scope scope' hconstruct fun id hid =>
        wf.holds_part .typedParam hconstruct (by simp [Construct.parts, hid])
  | conditional condition thenBranch elseBranch => exact concurs_fault _

end Synthesis

/-! ### Rules of checking -/

section Checking

variable {tree : Tree} {base : Nat} (scope scope' : Scope) {node : NodeId}
  {construct : Construct} (hconstruct : tree.construct node = .ok construct)
  (hpredicate : construct.isPredicate = false) {expected expected' : Ty}
  (hsame : expected.same expected' = true)
  (hexpected : expected'.DecidedByGist base)

include hconstruct hpredicate hsame in
/-- What both checks expect concurs. -/
theorem concurs_expected :
    tree.Concurs base (.check scope node expected) expected expected' := by
  exact ⟨Ty.isError_eq_of_same hsame,
    fun _ => ⟨Ty.same_refl expected, Ty.same_symm hsame,
      not_holds hconstruct hpredicate⟩⟩

include hconstruct hpredicate hsame hexpected

theorem tracks_checkBinary (op : Operator) (lhs rhs : NodeId) :
    (checkBinary scope node op lhs rhs expected).Tracks tree base
      (tree.Concurs base (.check scope node expected))
      (checkBinary scope' node op lhs rhs expected') := by
  have hrecursion : ∀ {ty : Ty}, ty.isError = false →
      ty.isRecursion = false := fun h => by
    cases hty : Ty.isRecursion _ with
    | false => rfl
    | true => rw [Ty.isError_of_isRecursion hty] at h; cases h
  refine (Rule.tracks_check scope scope' lhs hsame hexpected).bind ?_
  rintro left left' ⟨hleft, hleftOk⟩
  obtain ⟨hleftSame, hleftSame', -⟩ := hleft.2 hleftOk
  rw [hrecursion hleftOk, hrecursion (hleft.1.trans hleftOk)]
  refine (Rule.tracks_check scope scope' rhs hsame hexpected).bind ?_
  rintro right right' ⟨hright, hrightOk⟩
  obtain ⟨hrightSame, hrightSame', -⟩ := hright.2 hrightOk
  rw [hrecursion hrightOk, hrecursion (hright.1.trans hrightOk), hleftSame,
    hrightSame, Ty.same_trans hleftSame' hsame, Ty.same_trans hrightSame' hsame]
  exact concurs_expected scope hconstruct hpredicate hsame

theorem tracks_checkFunction (name : String) (body : NodeId) :
    (checkFunction scope node name body expected).Tracks tree base
      (tree.Concurs base (.check scope node expected))
      (checkFunction scope' node name body expected') := by
  have hexpects :
      tree.Concurs base (.check scope node expected) expected expected' :=
    concurs_expected scope hconstruct hpredicate hsame
  cases expected with
  | function params result =>
      cases expected' with
      | function params' result' =>
          have hresult : result.same result' = true := by
            simp only [Ty.same, Bool.and_eq_true] at hsame
            exact hsame.2
          refine (Rule.tracks_check (scope.extend params)
            (scope'.extend params') body hresult hexpected.result).bind ?_
          rintro ty ty' ⟨hconcurs, hok⟩
          split
          · exact absurd (hconcurs.1.trans hok) (by simp [Ty.isError])
          · split
            · exact absurd hok (by simp [Ty.isError])
            · exact hexpects
      | _ => cases hsame
  | _ =>
      cases expected' with
      | function params' result' => cases hsame
      | _ => exact concurs_fault _

theorem tracks_checkConditional (condition thenBranch elseBranch : NodeId) :
    (checkConditional scope node condition thenBranch elseBranch
      expected).Tracks tree base
      (tree.Concurs base (.check scope node expected))
      (checkConditional scope' node condition thenBranch elseBranch
        expected') := by
  have hcompare : ∀ {id ty ty'}, tree.Matches base id ty ty' →
      ty.same expected = ty'.same expected' := fun h => by
    rw [Ty.same_congr_right hsame, hexpected _ _ h.gist_eq]
  refine (Rule.tracks_synth scope scope' condition).bind
    fun conditionTy conditionTy' hcondition => ?_
  refine (Rule.tracks_synth scope scope' thenBranch).bind
    fun thenTy thenTy' hthen => ?_
  refine (Rule.tracks_synth scope scope' elseBranch).bind
    fun elseTy elseTy' helse => ?_
  have hboolean : conditionTy.isBoolean = conditionTy'.isBoolean := by
    rw [← Ty.isBoolean_gist conditionTy, hcondition.gist_eq, Ty.isBoolean_gist]
  rw [hboolean, hcompare hthen, hcompare helse]
  split
  · exact concurs_fault _
  · split
    · exact concurs_fault _
    · split
      · exact concurs_fault _
      · exact concurs_expected scope hconstruct hpredicate hsame

theorem tracks_checkBySynthesis :
    (checkBySynthesis scope node expected).Tracks tree base
      (tree.Concurs base (.check scope node expected))
      (checkBySynthesis scope' node expected') := by
  refine (Rule.tracks_synth scope scope' node).bind
    fun actual actual' hactual => ?_
  rw [Ty.same_congr_right hsame, hexpected _ _ hactual.gist_eq]
  split
  · exact concurs_expected scope hconstruct hpredicate hsame
  · exact concurs_fault _

omit hconstruct hpredicate in
theorem tracks_checkRule :
    (tree.checkRule scope node expected).Tracks tree base
      (tree.Concurs base (.check scope node expected))
      (tree.checkRule scope' node expected') := by
  refine Rule.Tracks.lift fun construct hconstruct => ?_
  cases construct with
  | binary op lhs rhs =>
      exact tracks_checkBinary scope scope' hconstruct rfl hsame hexpected op
        lhs rhs
  | function name params slots body =>
      exact tracks_checkFunction scope scope' hconstruct rfl hsame hexpected
        name.name body
  | predicate name params body => exact concurs_fault _
  | conditional condition thenBranch elseBranch =>
      exact tracks_checkConditional scope scope' hconstruct rfl hsame hexpected
        condition thenBranch elseBranch
  | _ =>
      exact tracks_checkBySynthesis scope scope' hconstruct rfl hsame hexpected

end Checking

/-- The rules of twins go in lockstep. -/
theorem tracks_rule {tree : Tree} (wf : tree.WellFormed) {base : Nat}
    {judgement judgement' : Judgement} (htwin : judgement.Twin judgement')
    (hdecided : judgement'.DecidedByGist base) :
    (tree.rule judgement).Tracks tree base (tree.Concurs base judgement)
      (tree.rule judgement') := by
  cases htwin with
  | synth scope scope' node => exact tracks_synthRule scope scope' wf
  | check scope scope' node hsame =>
      exact tracks_checkRule scope scope' hsame hdecided

end Tree

end ConceptLang
