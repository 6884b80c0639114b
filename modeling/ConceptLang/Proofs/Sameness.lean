import ConceptLang.Ty.Basic

/-!
# Sameness of types

Two types are the same if nothing but literals, parameter nodes, names of
concepts, the sort of a problem and all of a relation but its stamp tells them
apart. `Ty.bare` leaves these out, so to be the same is to be equal without
them, and is an equivalence.
-/

namespace ConceptLang

namespace Ty

mutual

/-- The type without what does not matter for `Ty.same`. -/
def bare : Ty → Ty
  | .boolean _ => .boolean none
  | .string _ => .string none
  | .integer _ => .integer none
  | .unit => .unit
  | .function params result => .function (bareParams params) result.bare
  | .predicate params => .predicate (bareParams params)
  | .concept c => .concept { c with name := "" }
  | .relation stamp _ _ _ _ => .relation stamp 0 "" ⟨0, ""⟩ .unit
  | .error e => .error { e with kind := .mismatch }

/-- The types of a parameter list without what does not matter for `Ty.same`. -/
def bareParams : List (NodeId × Ty) → List (NodeId × Ty)
  | [] => []
  | (_, ty) :: params => (0, ty.bare) :: bareParams params

end

mutual

/-- Types are the same if they are equal without what does not matter. -/
theorem same_iff : ∀ a b : Ty, a.same b = true ↔ a.bare = b.bare
  | .boolean _, b => by cases b <;> simp [same, bare]
  | .string _, b => by cases b <;> simp [same, bare]
  | .integer _, b => by cases b <;> simp [same, bare]
  | .unit, b => by cases b <;> simp [same, bare]
  | .function params result, b => by
      cases b <;> simp [same, bare, sameParams_iff params, same_iff result]
  | .predicate params, b =>
      by cases b <;> simp [same, bare, sameParams_iff params]
  | .concept _, b => by cases b <;> simp [same, bare]
  | .relation _ _ _ _ _, b => by cases b <;> simp [same, bare]
  | .error _, b => by cases b <;> simp [same, bare, TypeError.same]

theorem sameParams_iff : ∀ params params' : List (NodeId × Ty),
    sameParams params params' = true ↔ bareParams params = bareParams params'
  | [], params' => by cases params' <;> simp [sameParams, bareParams]
  | (_, ty) :: params, params' => by
      cases params' <;> simp [sameParams, bareParams, same_iff ty,
        sameParams_iff params]

end

@[simp] theorem same_refl (a : Ty) : a.same a = true := (same_iff a a).mpr rfl

theorem same_symm {a b : Ty} (h : a.same b = true) : b.same a = true :=
  (same_iff b a).mpr ((same_iff a b).mp h).symm

theorem same_trans {a b c : Ty} (h : a.same b = true) (h' : b.same c = true) :
    a.same c = true :=
  (same_iff a c).mpr (((same_iff a b).mp h).trans ((same_iff b c).mp h'))

/-- Types that are the same are the same as the same types. -/
theorem same_congr_right {a b : Ty} (h : a.same b = true) (c : Ty) :
    c.same a = c.same b := by
  rw [Bool.eq_iff_iff]
  exact ⟨fun hc => same_trans hc h, fun hc => same_trans hc (same_symm h)⟩

end Ty

end ConceptLang
