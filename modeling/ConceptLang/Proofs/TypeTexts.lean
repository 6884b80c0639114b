import ConceptLang.Proofs.Sameness

/-!
# Types that are the same read the same

To be the same type is decided without a look at names, but names are what is
shown of a concept or a relation. So types that are the same are shown alike if
names are no accident: a concept has the name that goes with its declaration,
and a relation says what goes with its stamp. A `Naming` fixes both, and
`Ty.text_eq_of_same` is about the types that follow one.

What else `Ty.same` passes over is not shown: literals, parameter nodes, and the
sort of a problem. All the same a check can make a difference between types that
are the same, through the parameter nodes that they bind and through errors that
are taken for errors of recursion. The `Ty.reading` of a type keeps these, and
leaves out what makes no difference at all.
-/

namespace ConceptLang

/-- What concepts are called, and what relation types say besides their
stamps. -/
structure Naming where
  concept : NodeId → String
  relation : Nat → NodeId × String × Concept × Ty

namespace Ty

/-- The names in the type are those of `naming`. All that a relation type says
goes with its stamp, so there is no need to look further into it. -/
inductive Follows (naming : Naming) : Ty → Prop where
  | boolean (literal : Option NodeId) : Follows naming (.boolean literal)
  | string (literal : Option NodeId) : Follows naming (.string literal)
  | integer (literal : Option NodeId) : Follows naming (.integer literal)
  | unit : Follows naming .unit
  | function {params : List (NodeId × Ty)} {result : Ty}
      (hparams : ∀ param ∈ params, Follows naming param.2)
      (hresult : Follows naming result) :
      Follows naming (.function params result)
  | predicate {params : List (NodeId × Ty)}
      (hparams : ∀ param ∈ params, Follows naming param.2) :
      Follows naming (.predicate params)
  | concept {concept : Concept}
      (h : concept.name = naming.concept concept.decl) :
      Follows naming (.concept concept)
  | relation {stamp : Nat} {decl : NodeId} {name : String} {owner : Concept}
      {relatum : Ty}
      (h : (decl, name, owner, relatum) = naming.relation stamp) :
      Follows naming (.relation stamp decl name owner relatum)
  | error (e : TypeError) : Follows naming (.error e)

section Follows

variable {naming : Naming}

/-- A relation type that follows a naming is known by its stamp. -/
theorem Follows.eq_of_same_relation {stamp stamp' : Nat} {decl decl' : NodeId}
    {name name' : String} {owner owner' : Concept} {relatum relatum' : Ty}
    (h : (Ty.relation stamp decl name owner relatum).Follows naming)
    (h' : (Ty.relation stamp' decl' name' owner' relatum').Follows naming)
    (hsame : (Ty.relation stamp decl name owner relatum).same
      (Ty.relation stamp' decl' name' owner' relatum') = true) :
    Ty.relation stamp decl name owner relatum =
      Ty.relation stamp' decl' name' owner' relatum' := by
  obtain rfl : stamp = stamp' := by simpa [same] using hsame
  cases h with
  | relation h =>
      cases h' with
      | relation h' =>
          cases h.trans h'.symm
          rfl

mutual

/-- Types that are the same and follow one naming are shown alike. -/
theorem text_eq_of_same :
    ∀ {a b : Ty}, a.Follows naming → b.Follows naming → a.same b = true →
    a.text = b.text
  | .boolean _, b, _, _, hsame | .string _, b, _, _, hsame
  | .integer _, b, _, _, hsame
  | .unit, b, _, _, hsame => by cases b <;> first | rfl | cases hsame
  | .function params result, b, h, h', hsame => by
      cases b with
      | function params' result' =>
          rw [same, Bool.and_eq_true] at hsame
          cases h with
          | function hparams hresult =>
              cases h' with
              | function hparams' hresult' =>
                  rw [text, text,
                    paramTexts_eq_of_same hparams hparams' hsame.1,
                    text_eq_of_same hresult hresult' hsame.2]
      | _ => cases hsame
  | .predicate params, b, h, h', hsame => by
      cases b with
      | predicate params' =>
          rw [same] at hsame
          cases h with
          | predicate hparams =>
              cases h' with
              | predicate hparams' =>
                  rw [text, text, paramTexts_eq_of_same hparams hparams' hsame]
      | _ => cases hsame
  | .concept c, b, h, h', hsame => by
      cases b with
      | concept d =>
          cases h with
          | concept h =>
              cases h' with
              | concept h' =>
                  have hdecl : c.decl = d.decl := by simpa [same] using hsame
                  rw [text, text, h, h', hdecl]
      | _ => cases hsame
  | .relation _ _ _ _ _, b, h, h', hsame => by
      cases b with
      | relation => rw [h.eq_of_same_relation h' hsame]
      | _ => cases hsame
  | .error e, b, _, _, hsame => by
      cases b with
      | error f =>
          have hmessage : e.message = f.message := by
            rw [same, TypeError.same, Bool.and_eq_true] at hsame
            exact eq_of_beq hsame.2
          rw [text, text, hmessage]
      | _ => cases hsame

theorem paramTexts_eq_of_same : ∀ {params params' : List (NodeId × Ty)},
    (∀ param ∈ params, param.2.Follows naming) →
    (∀ param ∈ params', param.2.Follows naming) →
    sameParams params params' = true → paramTexts params = paramTexts params'
  | [], params', _, _, hsame => by cases params' <;> first | rfl | cases hsame
  | (_, ty) :: params, params', h, h', hsame => by
      cases params' with
      | nil => cases hsame
      | cons param' params' =>
          obtain ⟨hty, hparams⟩ := List.forall_mem_cons.mp h
          obtain ⟨hty', hparams'⟩ := List.forall_mem_cons.mp h'
          rw [sameParams, Bool.and_eq_true] at hsame
          rw [paramTexts, paramTexts, text_eq_of_same hty hty' hsame.1,
            paramTexts_eq_of_same hparams hparams' hsame.2]

end

end Follows

/-! ### Readings -/

mutual

/-- The type without its literals. Of the sort of an error only recursion is
kept. -/
def reading : Ty → Ty
  | .boolean _ => .boolean none
  | .string _ => .string none
  | .integer _ => .integer none
  | .unit => .unit
  | .function params result => .function (readingParams params) result.reading
  | .predicate params => .predicate (readingParams params)
  | .concept c => .concept c
  | .relation stamp decl name owner relatum =>
      .relation stamp decl name owner relatum.reading
  | .error e =>
      .error { e with kind := if e.kind = .recursion then .recursion else
        .mismatch }

/-- The readings of the types of a parameter list. -/
def readingParams : List (NodeId × Ty) → List (NodeId × Ty)
  | [] => []
  | (param, ty) :: params => (param, ty.reading) :: readingParams params

end

theorem readingParams_eq_map (params : List (NodeId × Ty)) :
    readingParams params = params.map fun param =>
      (param.1, param.2.reading) := by
  induction params with
  | nil => rfl
  | cons param params ih => rw [readingParams, List.map_cons, ih]

theorem readingParams_zip (params : List NodeId) (types : List Ty) :
    readingParams (params.zip types) = params.zip (types.map reading) := by
  rw [readingParams_eq_map, List.zip_map_right]
  rfl

theorem reading_getD {known known' : Option Ty}
    (h : known.map reading = known'.map reading) (ty : Ty) :
    (known.getD ty).reading = (known'.getD ty).reading := by
  rw [← Option.getD_map reading, h, Option.getD_map]

theorem lookup_readingParams (params : List (NodeId × Ty)) (node : NodeId) :
    (readingParams params).lookup node = (params.lookup node).map reading := by
  induction params with
  | nil => rfl
  | cons param params ih =>
      rw [readingParams, List.lookup_cons, List.lookup_cons, ih]
      cases node == param.1 <;> rfl

mutual

/-- A type is shown as its reading is. -/
theorem text_reading : ∀ a : Ty, a.reading.text = a.text
  | .boolean _ | .string _ | .integer _ | .unit | .concept _ | .error _ => rfl
  | .function params result => by
      rw [reading, text, text, paramTexts_readingParams params,
        text_reading result]
  | .predicate params =>
      by rw [reading, text, text, paramTexts_readingParams params]
  | .relation _ _ _ _ relatum =>
      by rw [reading, text, text, text_reading relatum]

theorem paramTexts_readingParams : ∀ params : List (NodeId × Ty),
    paramTexts (readingParams params) = paramTexts params
  | [] => rfl
  | (_, ty) :: params => by
      rw [readingParams, paramTexts, paramTexts, text_reading ty,
        paramTexts_readingParams params]

end

mutual

/-- What matters for `Ty.same` can be told from the reading. -/
theorem bare_reading : ∀ a : Ty, a.reading.bare = a.bare
  | .boolean _ | .string _ | .integer _ | .unit | .concept _
  | .relation _ _ _ _ _ => rfl
  | .error _ => by rw [reading, bare, bare]
  | .function params result => by
      rw [reading, bare, bare, bareParams_readingParams params,
        bare_reading result]
  | .predicate params =>
      by rw [reading, bare, bare, bareParams_readingParams params]

theorem bareParams_readingParams : ∀ params : List (NodeId × Ty),
    bareParams (readingParams params) = bareParams params
  | [] => rfl
  | (_, ty) :: params => by
      rw [readingParams, bareParams, bareParams, bare_reading ty,
        bareParams_readingParams params]

end

@[simp] theorem isBoolean_reading (a : Ty) :
    a.reading.isBoolean = a.isBoolean := by
  cases a <;> simp [reading, isBoolean]

@[simp] theorem isRecursion_reading (a : Ty) :
    a.reading.isRecursion = a.isRecursion := by
  cases a with
  | error e =>
      rw [reading, isRecursion, isRecursion]
      cases e.kind <;> rfl
  | _ => simp [reading, isRecursion]

section Readings

variable {a a' b b' : Ty}

theorem text_eq_of_reading_eq (h : a.reading = b.reading) :
    a.text = b.text := by
  rw [← text_reading a, h, text_reading]

theorem isBoolean_eq_of_reading_eq (h : a.reading = b.reading) :
    a.isBoolean = b.isBoolean := by
  rw [← isBoolean_reading a, h, isBoolean_reading]

/-- Comparisons do not tell types with the same reading apart. -/
theorem same_of_reading_eq (h : a.reading = b.reading) : a.same b = true := by
  rw [same_iff, ← bare_reading a, h, bare_reading]

theorem exists_of_reading_eq_error {e : TypeError}
    (h : (error e).reading = b.reading) :
    ∃ f, b = .error f := by
  cases b with
  | error f => exact ⟨f, rfl⟩
  | _ => simp [reading] at h

theorem exists_of_reading_eq_function {params : List (NodeId × Ty)}
    {result : Ty} (h : (function params result).reading = b.reading) :
    ∃ params' result', b = .function params' result' ∧
      readingParams params = readingParams params' ∧
      result.reading = result'.reading := by
  cases b with
  | function params' result' =>
      rw [reading, reading, function.injEq] at h
      exact ⟨params', result', rfl, h⟩
  | _ => simp [reading] at h

theorem eq_of_reading_eq_concept {c : Concept}
    (h : (concept c).reading = b.reading) :
    b = .concept c := by
  cases b with
  | concept d =>
      rw [reading, reading] at h
      exact h.symm
  | _ => simp [reading] at h

theorem exists_of_reading_eq_relation {stamp : Nat} {decl : NodeId}
    {name : String} {owner : Concept} {relatum : Ty}
    (h : (relation stamp decl name owner relatum).reading = b.reading) :
    ∃ relatum', b = .relation stamp decl name owner relatum' ∧
      relatum.reading = relatum'.reading := by
  cases b with
  | relation stamp' decl' name' owner' relatum' =>
      rw [reading, reading, relation.injEq] at h
      obtain ⟨rfl, rfl, rfl, rfl, hrelatum⟩ := h
      exact ⟨relatum', rfl, hrelatum⟩
  | _ => simp [reading] at h

/-- The types are the same, they are shown alike, and both are errors of
recursion or none is. -/
structure ReadsAs (a b : Ty) : Prop where
  same : a.same b = true
  text_eq : a.text = b.text
  isRecursion_eq : a.isRecursion = b.isRecursion

theorem ReadsAs.of_reading_eq (h : a.reading = b.reading) : a.ReadsAs b := by
  refine ⟨same_of_reading_eq h, text_eq_of_reading_eq h, ?_⟩
  rw [← isRecursion_reading a, h, isRecursion_reading]

theorem ReadsAs.symm (h : a.ReadsAs b) : b.ReadsAs a :=
  ⟨same_symm h.same, h.text_eq.symm, h.isRecursion_eq.symm⟩

/-- Errors that read alike have the same reading. -/
theorem ReadsAs.reading_eq_of_error {e : TypeError} (h : (error e).ReadsAs b) :
    (error e).reading = b.reading := by
  cases b with
  | error f =>
      have hsame := h.same
      have hrecursion : (e.kind == .recursion) = (f.kind == .recursion) :=
        h.isRecursion_eq
      rw [Ty.same, TypeError.same, Bool.and_eq_true, beq_iff_eq, beq_iff_eq]
        at hsame
      simp only [reading, hsame.1, hsame.2, ← beq_iff_eq (a := e.kind),
        hrecursion]
      simp
  | _ => cases h.same

end Readings

/-! ### Types that serve alike -/

mutual

/-- Whether two types that are the same serve a check alike: they bind the same
parameter nodes, and their errors are errors of recursion in the same places. -/
def sameUse : Ty → Ty → Bool
  | .function ps a, .function qs b => sameUseParams ps qs && sameUse a b
  | .predicate ps, .predicate qs => sameUseParams ps qs
  | .error e, .error f => (e.kind == .recursion) == (f.kind == .recursion)
  | _, _ => true

/-- Whether two parameter lists that are the same serve a check alike. -/
def sameUseParams : List (NodeId × Ty) → List (NodeId × Ty) → Bool
  | (p, a) :: ps, (q, b) :: qs => p == q && sameUse a b && sameUseParams ps qs
  | _, _ => true

end

section SameUse

variable {naming : Naming}

mutual

/-- Types that are the same, follow one naming and serve a check alike have the
same reading. -/
theorem reading_eq_of_same : ∀ {a b : Ty}, a.Follows naming → b.Follows naming →
    a.same b = true → a.sameUse b = true → a.reading = b.reading
  | .boolean _, b, _, _, hsame, _ | .string _, b, _, _, hsame, _
  | .integer _, b, _, _, hsame, _
  | .unit, b, _, _, hsame, _ => by cases b <;> first | rfl | cases hsame
  | .function params result, b, h, h', hsame, huse => by
      cases b with
      | function params' result' =>
          rw [same, Bool.and_eq_true] at hsame
          rw [sameUse, Bool.and_eq_true] at huse
          cases h with
          | function hparams hresult =>
              cases h' with
              | function hparams' hresult' =>
                  rw [reading, reading,
                    readingParams_eq_of_same hparams hparams' hsame.1 huse.1,
                    reading_eq_of_same hresult hresult' hsame.2 huse.2]
      | _ => cases hsame
  | .predicate params, b, h, h', hsame, huse => by
      cases b with
      | predicate params' =>
          rw [same] at hsame
          rw [sameUse] at huse
          cases h with
          | predicate hparams =>
              cases h' with
              | predicate hparams' =>
                  rw [reading, reading,
                    readingParams_eq_of_same hparams hparams' hsame huse]
      | _ => cases hsame
  | .concept c, b, h, h', hsame, _ => by
      cases b with
      | concept d =>
          cases h with
          | concept h =>
              cases h' with
              | concept h' =>
                  have hdecl : c.decl = d.decl := by simpa [same] using hsame
                  obtain ⟨decl, name⟩ := c
                  obtain ⟨decl', name'⟩ := d
                  cases hdecl
                  rw [show name = name' from h.trans h'.symm]
      | _ => cases hsame
  | .relation _ _ _ _ _, b, h, h', hsame, _ => by
      cases b with
      | relation => rw [h.eq_of_same_relation h' hsame]
      | _ => cases hsame
  | .error e, b, h, h', hsame, huse => by
      cases b with
      | error f =>
          have hrecursion :
              (e.kind == .recursion) = (f.kind == .recursion) := by
            rw [sameUse] at huse
            exact eq_of_beq huse
          exact ReadsAs.reading_eq_of_error ⟨hsame, text_eq_of_same h h' hsame,
            hrecursion⟩
      | _ => cases hsame

theorem readingParams_eq_of_same : ∀ {params params' : List (NodeId × Ty)},
    (∀ param ∈ params, param.2.Follows naming) →
    (∀ param ∈ params', param.2.Follows naming) →
    sameParams params params' = true → sameUseParams params params' = true →
    readingParams params = readingParams params'
  | [], params', _, _, hsame, _ =>
      by cases params' <;> first | rfl | cases hsame
  | (_, ty) :: params, params', h, h', hsame, huse => by
      cases params' with
      | nil => cases hsame
      | cons param' params' =>
          obtain ⟨hty, hparams⟩ := List.forall_mem_cons.mp h
          obtain ⟨hty', hparams'⟩ := List.forall_mem_cons.mp h'
          rw [sameParams, Bool.and_eq_true] at hsame
          rw [sameUseParams, Bool.and_eq_true, Bool.and_eq_true, beq_iff_eq]
            at huse
          rw [readingParams, readingParams, huse.1.1,
            reading_eq_of_same hty hty' hsame.1 huse.1.2,
            readingParams_eq_of_same hparams hparams' hsame.2 huse.2]

end

end SameUse

end Ty

end ConceptLang
