import ConceptLang.Proofs.Reviews
import ConceptLang.Proofs.Soundness

/-!
# Accepted declarations

A check of a well-formed model has a result, and each declaration that it
accepts is shown with a type that can be derived (`Tree.checkModel_sound`).
There is only one such type, up to the stamps of relations. So a limit, a cycle
or something remembered can make a type into a type error, but never into
another type. And a declaration that needs its own type is not accepted.
-/

namespace ConceptLang

namespace Tree

section Unique

variable {tree : Tree} (wf : tree.WellFormed) {scope : Scope}
  (hscope : tree.Fits scope)

include wf hscope

/-- A node has at most one type, up to the stamps of relations. -/
theorem HasType.like {node : NodeId} {ty ty' : Ty}
    (h : tree.HasType scope node ty) (h' : tree.HasType scope node ty') :
    ty.Like ty' := by
  match h with
  | .bound hbound =>
      rw [(hscope node ty hbound).eq_of_hasType wf hscope h']
      exact .refl _
  | .reference h htarget =>
      exact htarget.like (h'.typedBy_of_fits wf hscope h nofun)
  | .stringLit h | .boolLit h | .intLit h | .concept h =>
      rw [show ty' = _ from h'.typedBy_of_fits wf hscope h nofun]
      exact .refl _
  | .varTyped h hty | .varValue h hty | .typedParam h hty =>
      exact hty.like (h'.typedBy_of_fits wf hscope h nofun)
  | .param h hfree hparent habove hparam =>
      obtain ⟨above, params, result, hparent', habove', hparam'⟩ :=
        h'.typedBy hfree h
      obtain rfl : _ = above := by simpa using hparent.symm.trans hparent'
      cases habove.like habove' with
      | refl =>
          rw [Option.some.inj (hparam.symm.trans hparam')]
          exact .refl _
  | .annotated h =>
      rw [h.unique (.of_hasType wf hscope h' h.isTypeNode)]
      exact .refl _
  | .relation stamp h howner hrelatum =>
      obtain ⟨stamp', owner, related, howner', hrelatum', rfl⟩ :=
        h'.typedBy_of_fits wf hscope h nofun
      obtain rfl : _ = owner := by simpa using howner.symm.trans howner'
      have htype := wf.holds_part .typeNode h (List.mem_singleton.mpr rfl)
      rw [(Denotes.of_hasType wf hscope hrelatum htype).unique
        (.of_hasType wf hscope hrelatum' htype)]
      exact .relation _ _ _ _ _ _
  | .function h hlength hsignature hresult =>
      obtain ⟨params, result, heq, hformals⟩ :=
        Signature.of_hasType wf hscope h
          (.function h hlength hsignature hresult)
      obtain ⟨params', result', rfl, hformals'⟩ :=
        Signature.of_hasType wf hscope h h'
      obtain ⟨rfl, rfl⟩ := hformals.unique hformals'
      rw [heq]
      exact .refl _
  | .call h hcallee hlength hargs =>
      obtain ⟨params, hcallee'⟩ := h'.typedBy_of_fits wf hscope h nofun
      cases hcallee.like hcallee' with
      | refl => exact .refl _
  | .binary h hop hcheck =>
      have hop' : Operator.resultType? _ = some ty' :=
        h'.typedBy_of_fits wf hscope h nofun
      rw [Option.some.inj (hop.symm.trans hop')]
      exact .refl _
  | .join h hleft hfield hfound hrelation howner =>
      obtain ⟨concept, text, link, foundOn, relation, stamp, decl, name, owner,
        hleft', hfield', hfound', hrelation'⟩ :=
          h'.typedBy_of_fits wf hscope h nofun
      obtain ⟨rfl, rfl⟩ : _ = text ∧ _ = link := by
        simpa using hfield.symm.trans hfield'
      cases hleft.like hleft' with
      | refl =>
          obtain ⟨rfl, rfl⟩ : _ = foundOn ∧ _ = relation := by
            simpa using hfound.symm.trans hfound'
          cases hrelation.like hrelation' with
          | refl => exact .refl _
          | relation => exact .refl _

end Unique

/-! ### The rules of declarations -/

/-- The judgements that a check of declarations makes. None of them is about a
node inside of the value of a variable without annotation. -/
def Starts (tree : Tree) (judgement : Judgement) : Prop :=
  tree.Asks judgement ∧ ∀ var, ¬ tree.Within var judgement.slot.node

section Declarations

variable {tree : Tree} (wf : tree.WellFormed) {decl : NodeId}

theorem Checks.body {scope : Scope} {params : List (NodeId × Ty)} {result : Ty}
    {name : Ident} {formals signature : List NodeId} {body : NodeId}
    (h : tree.Checks scope decl (.function params result))
    (hdecl : tree.construct decl =
      .ok (.function name formals signature body)) :
    tree.Checks (scope.extend params) body result := by
  cases h with
  | function h hbody =>
      obtain ⟨-, -, -, rfl⟩ : _ ∧ _ ∧ _ ∧ _ := by simpa using hdecl.symm.trans h
      exact hbody
  | binary h | conditional h => simpa using hdecl.symm.trans h
  | compared h hcompared =>
      obtain rfl := Except.ok.inj (hdecl.symm.trans h)
      cases hcompared

/-- A declaration with a type does not need that type first. -/
theorem DeclHasType.not_needs_self {ty : Ty} (h : tree.DeclHasType decl ty) :
    ¬ Relation.TransGen tree.Needs decl decl := by
  have hneedless : ∀ construct, tree.construct decl = .ok construct →
    construct.needs = [] → ¬ Relation.TransGen tree.Needs decl decl := by
    intro construct hconstruct hneeds hself
    obtain ⟨other, ⟨construct', hconstruct', hmem⟩, -⟩ :=
      Relation.TransGen.head'_iff.mp hself
    obtain rfl := Except.ok.inj (hconstruct.symm.trans hconstruct')
    simp [hneeds] at hmem
  cases h with
  | function h => exact hneedless _ h rfl
  | var h => exact hneedless _ h rfl
  | other h _ _ hty =>
      exact not_needs_self_of_acc
        (hty.acc fun node ty hbound => by cases hbound)

include wf

theorem starts_synth {node : NodeId} {construct : Construct}
    (h : tree.construct node = .ok construct)
    (hexpr : construct.isExpression = false) :
    tree.Starts (.synth Scope.empty node) :=
  ⟨.synth tree.fits_empty (lt_size_of_construct h),
    fun _ hwithin => not_holds h hexpr (wf.isExpression_of_within hwithin)⟩

/-- The value of a variable with an annotation is entered only from outside. -/
theorem not_within_value {name : Ident} {typeNode value var : NodeId}
    (h : tree.construct decl = .ok (.var name (some typeNode) (some value))) :
    ¬ tree.Within var value := by
  have hpart : tree.IsPart value decl :=
    (isPart_iff_construct tree _ _).mpr ⟨_, h, by simp [Construct.children]⟩
  intro hwithin
  cases hwithin with
  | value h' =>
      have hpart' : tree.IsPart value var :=
        (isPart_iff_construct tree _ _).mpr
          ⟨_, h', by simp [Construct.children]⟩
      obtain rfl := wf.isPart_unique hpart hpart'
      simpa using h.symm.trans h'
  | part hwithin hpart' =>
      obtain rfl := wf.isPart_unique hpart hpart'
      exact not_holds h rfl (wf.isExpression_of_within hwithin)

theorem starts_relation {relation : NodeId} (h : tree.Declares decl relation) :
    tree.Starts (.synth Scope.empty relation) := by
  obtain ⟨name, parents, relations, hdecl, hmem⟩ := h
  obtain ⟨construct, hconstruct, hadmits⟩ := wf.role hdecl
    (show (Role.relation, relation) ∈ Construct.parts _ by
      simp [Construct.parts, hmem])
  refine starts_synth wf hconstruct ?_
  cases construct <;> first | rfl | cases hadmits

/-- The rule of a top-level declaration accepts it only with a type that can be
derived. -/
theorem meets_declRule (hdecl : decl ∈ tree.roots) :
    (tree.declRule decl).Meets tree.Starts tree.Answers
      (fun ty => ty.isError = true ∨ tree.DeclHasType decl ty) := by
  obtain ⟨construct, hconstruct, htop⟩ := wf.root_isTopLevel hdecl
  have hexpr : construct.isExpression = false := by
    cases construct <;> first | rfl | cases htop
  have hother :
      (∀ name params signature body,
        construct ≠ .function name params signature body) →
        (∀ name typeNode value,
          construct ≠ .var name (some typeNode) (some value)) →
        (Rule.synth Scope.empty decl).Meets tree.Starts tree.Answers
          (fun ty => ty.isError = true ∨ tree.DeclHasType decl ty) := by
    intro hfunction hvar
    refine (Rule.meets_synth _ decl (starts_synth wf hconstruct hexpr)).mono
      (fun _ h => h) fun ty hty => hty.imp_right fun hsound => ?_
    exact .other hconstruct hfunction hvar (hsound.hasType _ tree.fits_empty)
  refine Rule.Meets.lift hconstruct ?_
  cases construct with
  | function name params signature body =>
      refine (Rule.meets_synth _ decl (starts_synth wf hconstruct rfl)).bind
        fun ty hty => ?_
      rcases hty with herror | hsound
      · cases ty <;> first | exact Or.inl rfl | cases herror
      · have htype := hsound.hasType _ tree.fits_empty
        obtain ⟨formals, result, rfl, hsignature⟩ :=
          Signature.of_hasType wf tree.fits_empty hconstruct htype
        refine (Rule.meets_check _ decl _
          ⟨.check tree.fits_empty (.function hsignature), fun _ hwithin =>
            not_holds hconstruct rfl (wf.isExpression_of_within hwithin)⟩).mono
          (fun _ h => h) fun ty hty => hty.imp_right ?_
        rintro ⟨rfl, hchecks⟩
        exact .function hconstruct htype
          ((hchecks _ tree.fits_empty).body hconstruct)
  | var name typeNode value =>
      cases typeNode with
      | none => exact hother (by simp) (by simp)
      | some typeNode =>
          cases value with
          | none => exact hother (by simp) (by simp)
          | some value =>
              have htypeNode := wf.holds_part .typeNode hconstruct
                (show (Role.typeNode, typeNode) ∈ Construct.parts _ by
                  simp [Construct.parts])
              obtain ⟨child, hchild, hkind⟩ := (holds_iff tree _ _).mp htypeNode
              have hexpr : child.isExpression = false := by
                cases child <;> first | rfl | cases hkind
              refine (Rule.meets_synth _ typeNode
                (starts_synth wf hchild hexpr)).bind fun ty hty => ?_
              split
              · next herror => exact Or.inl herror
              · next herror =>
                  have hsound := hty.resolve_left herror
                  have hground := (denotes_of_answer wf htypeNode hsound).ground
                  refine (Rule.meets_check _ value ty ⟨.check tree.fits_empty
                    (.expression (wf.isExpression_of_value hconstruct) hground),
                    fun _ => not_within_value wf hconstruct⟩).mono
                    (fun _ h => h)
                    fun ty' hty' => hty'.imp_right ?_
                  rintro ⟨rfl, hchecks⟩
                  exact .var hconstruct (hsound.hasType _ tree.fits_empty)
                    (hchecks _ tree.fits_empty)
  | _ => exact hother (by simp) (by simp)

/-- A declaration is accepted with at most one type, up to the stamps of
relations. -/
theorem DeclHasType.like {ty ty' : Ty} (h : tree.DeclHasType decl ty)
    (h' : tree.DeclHasType decl ty') : ty.Like ty' := by
  cases h with
  | function h hsignature =>
      cases h' with
      | function _ hsignature' =>
          exact hsignature.like wf tree.fits_empty hsignature'
      | var h' => simpa using h.symm.trans h'
      | other h' hfunction =>
          exact absurd (Except.ok.inj (h'.symm.trans h)) (hfunction _ _ _ _)
  | var h htype =>
      cases h' with
      | function h' => simpa using h.symm.trans h'
      | var h' htype' =>
          obtain ⟨-, rfl, -⟩ : _ ∧ _ ∧ _ := by simpa using h.symm.trans h'
          exact htype.like wf tree.fits_empty htype'
      | other h' _ hvar =>
          exact absurd (Except.ok.inj (h'.symm.trans h)) (hvar _ _ _)
  | other h hfunction hvar hty =>
      cases h' with
      | function h' =>
          exact absurd (Except.ok.inj (h.symm.trans h')) (hfunction _ _ _ _)
      | var h' => exact absurd (Except.ok.inj (h.symm.trans h')) (hvar _ _ _)
      | other _ _ _ hty' => exact hty.like wf tree.fits_empty hty'

end Declarations

/-- The judgements of a check keep to what is sound. -/
theorem judges_sound {tree : Tree} (wf : tree.WellFormed) (options : Options) :
    tree.Judges options (sound wf).Keeps tree.Starts tree.Answers :=
  (sound wf).judges options fun _ h => h.1

/-- A check of a well-formed model has a result. Every declaration that it
accepts is shown with a type that has a derivation, and with the only one; and
no declaration is accepted that needs its own type. -/
theorem checkModel_sound (tree : Tree) (wf : tree.WellFormed)
    (options : Options) :
    ∃ result, tree.checkModel options = .ok result ∧
      List.Forall₂ (fun decl summary =>
        (summary.ok = true → ∃ ty, tree.DeclHasType decl ty ∧
          summary.type = ty.text ∧
          ∀ other, tree.DeclHasType decl other → other.text = ty.text) ∧
        (Relation.TransGen tree.Needs decl decl → summary.ok = false))
        tree.roots result.declarations := by
  obtain ⟨result, hresult, hforall⟩ :=
    (judges_sound wf options).checkModel wf.root_lt_size
    (fun decl hdecl => meets_declRule wf hdecl)
    (fun decl _ relation hrelation => starts_relation wf hrelation)
  refine ⟨result, hresult, hforall.imp ?_⟩
  rintro decl _ ⟨ty, ⟨construct, hconstruct, rfl⟩, hty⟩
  have hderives : (!ty.isError) = true → tree.DeclHasType decl ty := fun hok =>
    hty.resolve_left (by simpa using hok)
  refine ⟨fun hok => ⟨ty, hderives hok, rfl, fun other hother => ?_⟩,
    fun hself => ?_⟩
  · exact (hother.like wf (hderives hok)).text_eq
  · by_contra hok
    exact (hderives (by simpa using hok)).not_needs_self hself

/-- A model with a concept that has a field, two variables, a function and a
variable that is defined by itself. -/
def smallModel : Tree :=
  let named (name : String) : Ident := ⟨name, Span.unknown⟩
  ofConstructs [
    .keywordType "Integer", .relation (named "size") 0,
    .concept (named "Box") [] [1],
    .reference "Box" (.resolved 2), .conceptType 3,
    .var (named "box") (some 4) none,
    .reference "box" (.resolved 5), .reference "size" (.resolved 1), .join 6 7,
    .intLit 1,
    .binary .add 8 9, .var (named "larger") none (some 10),
    .param (named "n"), .keywordType "Integer", .keywordType "Integer",
    .reference "n" (.resolved 12), .reference "larger" (.resolved 11),
    .binary .mul 15 16,
    .function (named "scale") [12] [13, 14] 17,
    .reference "loop" (.resolved 20), .var (named "loop") none (some 19)]
    [2, 5, 11, 18, 20]

theorem smallModel_wellFormed : smallModel.WellFormed where
  grown := grown_ofConstructs _ _
  before := by decide +kernel
  links := by decide +kernel
  once := by decide +kernel
  roles := by decide +kernel
  roots := by decide +kernel
  targets := by decide +kernel

theorem checkModel_sound_smallModel :
    smallModel.WellFormed ∧ ∃ result, smallModel.checkModel {} = .ok result ∧
      List.Forall₂ (fun decl summary =>
        (summary.ok = true → ∃ ty, smallModel.DeclHasType decl ty ∧
          summary.type = ty.text ∧
          ∀ other, smallModel.DeclHasType decl other → other.text = ty.text) ∧
        (Relation.TransGen smallModel.Needs decl decl → summary.ok = false))
        [2, 5, 11, 18, 20] result.declarations :=
  ⟨smallModel_wellFormed, checkModel_sound smallModel smallModel_wellFormed {}⟩

end Tree

end ConceptLang
