import ConceptLang.Proofs.Sameness
import ConceptLang.Typing.Rule

/-!
# The gist of a type

Passes that settle the same judgement need not come to the same type. They stamp
relation types anew, and what one of them recalls the other may work out, with
another literal. The gist of a type leaves out what may differ in this way:
literals, names, and all stamps from `base` on, which are those given out since
some moment.

A type is *old* if it was made before that moment: its stamps are below `base`.
Whether a type is the same as an old one depends on its gist only.
-/

namespace ConceptLang

namespace Ty

mutual

/-- The type without literals and names, and with one stamp for all new ones. -/
def gist (base : Nat) : Ty → Ty
  | .boolean _ => .boolean none
  | .string _ => .string none
  | .integer _ => .integer none
  | .unit => .unit
  | .function params result =>
      .function (gistParams base params) (gist base result)
  | .predicate params => .predicate (gistParams base params)
  | .concept c => .concept { c with name := "" }
  | .relation stamp decl _ owner relatum =>
    .relation (min stamp base) decl "" { owner with name := "" }
      (gist base relatum)
  | .error e => .error e

/-- The gists of the types of a parameter list. -/
def gistParams (base : Nat) : List (NodeId × Ty) → List (NodeId × Ty)
  | [] => []
  | (param, ty) :: params => (param, gist base ty) :: gistParams base params

end

/-- What a type says about success: nothing if it is a type error, and else its
gist. -/
def verdict (base : Nat) (ty : Ty) : Option Ty :=
  if ty.isError then none else some (ty.gist base)

/-- All relation types that the type mentions have stamps below `base`. -/
inductive Old (base : Nat) : Ty → Prop where
  | boolean (literal : Option NodeId) : Old base (.boolean literal)
  | string (literal : Option NodeId) : Old base (.string literal)
  | integer (literal : Option NodeId) : Old base (.integer literal)
  | unit : Old base .unit
  | function {params : List (NodeId × Ty)} {result : Ty}
      (hparams : ∀ param ∈ params, Old base param.2)
      (hresult : Old base result) :
      Old base (.function params result)
  | predicate {params : List (NodeId × Ty)}
      (hparams : ∀ param ∈ params, Old base param.2) :
      Old base (.predicate params)
  | concept (concept : Concept) : Old base (.concept concept)
  | relation {stamp : Nat} (h : stamp < base) (decl : NodeId) (name : String)
      (owner : Concept) {relatum : Ty} (hrelatum : Old base relatum) :
      Old base (.relation stamp decl name owner relatum)
  | error (e : TypeError) : Old base (.error e)

section Gist

variable {base : Nat}

@[simp] theorem isError_gist (ty : Ty) :
    (ty.gist base).isError = ty.isError := by
  cases ty <;> simp [gist, isError]

@[simp] theorem isBoolean_gist (ty : Ty) :
    (ty.gist base).isBoolean = ty.isBoolean := by
  cases ty <;> simp [gist, isBoolean]

theorem gistParams_eq_map (params : List (NodeId × Ty)) :
    gistParams base params = params.map fun param =>
      (param.1, param.2.gist base) := by
  induction params with
  | nil => rfl
  | cons param params ih => rw [gistParams, List.map_cons, ih]

theorem length_gistParams (params : List (NodeId × Ty)) :
    (gistParams base params).length = params.length := by
  rw [gistParams_eq_map, List.length_map]

theorem paramType?_gistParams (params : List (NodeId × Ty)) (param : NodeId) :
    paramType? (gistParams base params) param = (paramType? params param).map
      (·.gist base) := by
  rw [paramType?, paramType?]
  induction params with
  | nil => rfl
  | cons first params ih =>
      rw [gistParams, List.lookup_cons, List.lookup_cons, ih]
      cases param == first.1 <;> rfl

/-! ### Types with the same gist -/

theorem exists_of_gist_eq_function {ty result : Ty}
    {params : List (NodeId × Ty)}
    (h : ty.gist base = (function params result).gist base) :
    ∃ params' result', ty = .function params' result' ∧
      gistParams base params' = gistParams base params ∧
      result'.gist base = result.gist base := by
  cases ty with
  | function params' result' =>
      rw [gist, gist, function.injEq] at h
      exact ⟨params', result', rfl, h⟩
  | _ => simp [gist] at h

theorem exists_of_gist_eq_concept {ty : Ty} {c : Concept}
    (h : ty.gist base = (concept c).gist base) :
    ∃ c', ty = .concept c' ∧ c'.decl = c.decl := by
  cases ty with
  | concept c' =>
      rw [gist, gist, concept.injEq, Concept.mk.injEq] at h
      exact ⟨c', rfl, h.1⟩
  | _ => simp [gist] at h

theorem exists_of_gist_eq_relation {ty relatum : Ty} {stamp : Nat}
    {decl : NodeId} {name : String} {owner : Concept}
    (h : ty.gist base = (relation stamp decl name owner relatum).gist base) :
    ∃ stamp' name' owner' relatum',
      ty = .relation stamp' decl name' owner' relatum' ∧
      owner'.decl = owner.decl ∧ relatum'.gist base = relatum.gist base := by
  cases ty with
  | relation stamp' decl' name' owner' relatum' =>
      rw [gist, gist, relation.injEq, Concept.mk.injEq] at h
      obtain ⟨-, rfl, -, ⟨hdecl, -⟩, hrelatum⟩ := h
      exact ⟨stamp', name', owner', relatum', rfl, hdecl, hrelatum⟩
  | _ => simp [gist] at h

/-- Types with the same gist are type errors together. -/
theorem isError_eq_of_gist_eq {ty ty' : Ty} (h : ty.gist base = ty'.gist base) :
    ty.isError = ty'.isError := by
  rw [← isError_gist ty, h, isError_gist]

theorem verdict_eq_of_gist_eq {ty ty' : Ty} (h : ty.gist base = ty'.gist base) :
    ty.verdict base = ty'.verdict base := by
  rw [verdict, verdict, h, isError_eq_of_gist_eq h]

theorem verdict_of_isError {ty : Ty} (h : ty.isError = true) :
    ty.verdict base = none := by
  rw [verdict, if_pos h]

/-- Types with the same verdict are type errors together. -/
theorem isError_eq_of_verdict_eq {ty ty' : Ty}
    (h : ty.verdict base = ty'.verdict base) :
    ty.isError = ty'.isError := by
  rw [verdict, verdict] at h
  split at h <;> split at h <;> simp_all

theorem gist_eq_of_verdict_eq {ty ty' : Ty}
    (h : ty.verdict base = ty'.verdict base) (hty : ty'.isError = false) :
    ty.gist base = ty'.gist base := by
  have hty' : ty.isError = false := (isError_eq_of_verdict_eq h).trans hty
  rw [verdict, verdict, hty, hty'] at h
  exact Option.some.inj h

/-! ### Sameness with old types -/

mutual

/-- Whether a type is the same as an old one can be told from its gist. -/
theorem same_gist :
    ∀ (ty : Ty) {old : Ty}, old.Old base → (ty.gist base).same old = ty.same old
  | .boolean _, _, h | .string _, _, h | .integer _, _, h | .unit, _, h
  | .concept _, _, h
  | .error _, _, h => by cases h <;> rfl
  | .function params result, _, h => by
      cases h with
      | function hparams hresult =>
          simp only [gist, same, sameParams_gistParams params hparams,
            same_gist result hresult]
      | _ => rfl
  | .predicate params, _, h => by
      cases h with
      | predicate hparams =>
          simp only [gist, same, sameParams_gistParams params hparams]
      | _ => rfl
  | .relation stamp _ _ _ _, _, h => by
      cases h with
      | @relation stamp' hlt =>
          -- All new stamps are taken for `base`, and none of them is an old
          -- one.
          simp only [gist, same]
          rw [Bool.eq_iff_iff, beq_iff_eq, beq_iff_eq]
          omega
      | _ => rfl

theorem sameParams_gistParams :
    ∀ (params : List (NodeId × Ty)) {olds : List (NodeId × Ty)},
    (∀ old ∈ olds, old.2.Old base) →
      sameParams (gistParams base params) olds = sameParams params olds
  | [], olds, _ => by cases olds <;> rfl
  | (_, ty) :: params, olds, h => by
      cases olds with
      | nil => rfl
      | cons old olds =>
          obtain ⟨hhead, htail⟩ := List.forall_mem_cons.mp h
          simp only [gistParams, sameParams, same_gist ty hhead,
            sameParams_gistParams params htail]

end

/-- Whether a type is the same as `expected` can be told from its gist. -/
def DecidedByGist (base : Nat) (expected : Ty) : Prop :=
  ∀ ty ty' : Ty, ty.gist base = ty'.gist base →
    ty.same expected = ty'.same expected

theorem Old.decidedByGist {expected : Ty} (h : expected.Old base) :
    expected.DecidedByGist base := by
  intro ty ty' hgist
  rw [← same_gist ty h, hgist, same_gist ty' h]

theorem DecidedByGist.of_same {expected expected' : Ty}
    (h : expected.DecidedByGist base) (hsame : expected'.same expected = true) :
    expected'.DecidedByGist base := by
  intro ty ty' hgist
  rw [same_congr_right hsame, same_congr_right hsame, h ty ty' hgist]

theorem DecidedByGist.result {params : List (NodeId × Ty)} {result : Ty}
    (h : (function params result).DecidedByGist base) :
    result.DecidedByGist base := by
  intro ty ty' hgist
  have hparams : sameParams params params = true :=
    (sameParams_iff params params).mpr rfl
  have hfunction :=
    h (.function params ty) (.function params ty') (by rw [gist, gist, hgist])
  simpa only [same, hparams, Bool.true_and] using hfunction

/-- A type is the same as an old one with the same gist. -/
theorem Old.same_of_gist_eq {ty old : Ty} (hold : old.Old base)
    (h : ty.gist base = old.gist base) : ty.same old = true :=
  (hold.decidedByGist ty old h).trans (same_refl old)

end Gist

/-- A type that was made of old ones: an old type, or a relation between old
ones that may be new. -/
inductive Neat (base : Nat) : Ty → Prop where
  | old {ty : Ty} (h : ty.Old base) : Neat base ty
  | relation (stamp : Nat) (decl : NodeId) (name : String) (owner : Concept)
      {relatum : Ty} (h : relatum.Old base) :
      Neat base (.relation stamp decl name owner relatum)

theorem Neat.function {base : Nat} {params : List (NodeId × Ty)} {result : Ty}
    (h : (Ty.function params result).Neat base) :
    (∀ param ∈ params, param.2.Old base) ∧ result.Old base := by
  cases h with
  | old h =>
      cases h with
      | function hparams hresult => exact ⟨hparams, hresult⟩

theorem Neat.relatum {base stamp : Nat} {decl : NodeId} {name : String}
    {owner : Concept} {relatum : Ty}
    (h : (Ty.relation stamp decl name owner relatum).Neat base) :
    relatum.Old base := by
  cases h with
  | old h =>
      cases h with
      | relation _ _ _ _ hrelatum => exact hrelatum
  | relation _ _ _ _ h => exact h

end Ty

/-- All types that the scope binds are old. -/
def Scope.Old (base : Nat) (scope : Scope) : Prop :=
  ∀ node ty, scope.find? node = some ty → ty.Old base

end ConceptLang
