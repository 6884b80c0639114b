import ConceptLang.Proofs.CallChains
import ConceptLang.Proofs.Discipline
import ConceptLang.Proofs.Signatures

/-!
# Soundness of passes

A pass remembers types that were found in the middle of other work, perhaps in
another scope, perhaps after a type error that only arose from a limit. The
invariant that makes this harmless is that every answer is a type error or
derivable, in every scope that fits the tree. It is a discipline (`Tree.sound`):
every rule keeps to it.

The rules are gone through once (`Tree.meets_rule`). Beside the invariant this
also shows which judgements are made at all: expressions are checked only
against types that an annotation can name, and a function only against its
signature.
-/

namespace ConceptLang

/-- The scope that a judgement is made in. -/
def Judgement.scope : Judgement → Scope
  | .synth scope _ => scope
  | .check scope _ _ => scope

namespace Tree

/-- A type that a node can be found to have. -/
inductive Tidy (tree : Tree) : Ty → Prop where
  | string (literal : Option NodeId) : Tidy tree (.string literal)
  | integer (literal : Option NodeId) : Tidy tree (.integer literal)
  | boolean (literal : Option NodeId) : Tidy tree (.boolean literal)
  | concept {decl : NodeId} {name : Ident} {parents relations : List NodeId}
      (h : tree.construct decl = .ok (.concept name parents relations)) :
      Tidy tree (.concept ⟨decl, name.name⟩)
  | function {params : List (NodeId × Ty)} {result : Ty}
      (hparams : ∀ param ∈ params, tree.Ground param.2)
      (hresult : tree.Ground result) : Tidy tree (.function params result)
  | relation {stamp : Nat} {decl : NodeId} {name : String} {owner : Concept}
      {relatum : Ty} (h : tree.Ground relatum) :
      Tidy tree (.relation stamp decl name owner relatum)

theorem Ground.tidy {tree : Tree} {ty : Ty} (h : tree.Ground ty) :
    tree.Tidy ty := by
  cases h with
  | string => exact .string none
  | integer => exact .integer none
  | boolean => exact .boolean none
  | concept h => exact .concept h

/-- The node has the type in every scope that fits. -/
structure Sound (tree : Tree) (node : NodeId) (ty : Ty) : Prop where
  hasType : ∀ scope, tree.Fits scope → tree.HasType scope node ty
  tidy : tree.Tidy ty

/-- The node may be checked against the type. -/
inductive Expects (tree : Tree) (node : NodeId) : Ty → Prop where
  | expression {ty : Ty} (h : tree.holds (·.isExpression) node = true)
      (hty : tree.Ground ty) : Expects tree node ty
  | function {params : List (NodeId × Ty)} {result : Ty}
      (h : tree.Signature node params result) :
      Expects tree node (.function params result)
  | predicate {name : Ident} {params : List NodeId} {body : Option NodeId}
      {ty : Ty} (h : tree.construct node = .ok (.predicate name params body)) :
      Expects tree node ty

/-- The judgements that the rules make. -/
inductive Asks (tree : Tree) : Judgement → Prop where
  | synth {scope : Scope} {node : NodeId} (hscope : tree.Fits scope)
      (h : node < tree.size) : Asks tree (.synth scope node)
  | check {scope : Scope} {node : NodeId} {expected : Ty}
      (hscope : tree.Fits scope) (h : tree.Expects node expected) :
      Asks tree (.check scope node expected)

/-- The answers that the rules give: a type error, or what can be derived. -/
def Answers (tree : Tree) : Judgement → Ty → Prop
  | .synth _ node, ty => ty.isError = true ∨ tree.Sound node ty
  | .check _ node expected, ty => ty.isError = true ∨
      ty = expected ∧ ∀ scope, tree.Fits scope → tree.Checks scope node expected

/-- A judgement that the rules make on the way to settle `slot` in a scope. Only
functions extend the scope. -/
structure Premise (tree : Tree) (scope : Scope) (slot : Slot)
    (judgement : Judgement) : Prop where
  asks : tree.Asks judgement
  calls : tree.Calls slot judgement.slot
  scope_eq : judgement.scope = scope ∨
    ∃ function, slot = .check function ∧
      tree.holds (·.isFunction) function = true

theorem Expects.lt_size {tree : Tree} {node : NodeId} {ty : Ty}
    (h : tree.Expects node ty) :
    node < tree.size := by
  cases h with
  | expression h _ =>
      obtain ⟨construct, hconstruct, -⟩ := (holds_iff tree _ _).mp h
      exact lt_size_of_construct hconstruct
  | function h =>
      obtain ⟨h, -, -, -⟩ := h
      exact lt_size_of_construct h
  | predicate h => exact lt_size_of_construct h

/-! ### Rules of synthesis -/

section Synthesis

variable {tree : Tree} (wf : tree.WellFormed) {scope : Scope}
  (hscope : tree.Fits scope) {node : NodeId}

theorem meets_checkAll {slot : Slot} (nodes : List NodeId) (types : List Ty)
    (hlength : nodes.length = types.length)
    (hask : ∀ id ∈ nodes, ∀ ty ∈ types,
      tree.Premise scope slot (.check scope id ty)) :
    (Rule.checkAll scope (nodes.zip types)).Meets (tree.Premise scope slot)
      tree.Answers (fun outcome => outcome = none →
        ∀ scope, tree.Fits scope → tree.ChecksAll scope nodes types) := by
  induction nodes generalizing types with
  | nil =>
      cases types with
      | nil => exact fun _ _ _ => .nil
      | cons ty types => cases hlength
  | cons id ids ih =>
      cases types with
      | nil => cases hlength
      | cons expected types =>
          have hrest := ih types (Nat.succ.inj hlength)
            fun other hother ty hty =>
            hask other (by simp [hother]) ty (by simp [hty])
          refine (Rule.meets_check scope id expected
            (hask id (by simp) expected (by simp))).bind fun ty hty => ?_
          cases ty with
          | error e => rintro ⟨⟩
          | _ =>
              obtain ⟨-, hchecks⟩ := hty.resolve_left (by simp [Ty.isError])
              exact hrest.mono (fun _ h => h)
                fun outcome houtcome hnone scope hfits =>
                .cons (hchecks scope hfits) (houtcome hnone scope hfits)

theorem meets_predicateParams {slot : Slot} (params : List NodeId)
    (h : ∀ id ∈ params, tree.holds (Role.admits .typedParam) id = true)
    (hask : ∀ id ∈ params, tree.Premise scope slot (.synth scope id)) :
    (tree.predicateParams scope params).Meets (tree.Premise scope slot)
      tree.Answers (fun _ => True) := by
  induction params with
  | nil => trivial
  | cons id ids ih =>
      obtain ⟨construct, hconstruct, hadmits⟩ :=
        (holds_iff tree _ _).mp (h id (by simp))
      refine Rule.Meets.lift hconstruct ?_
      cases construct with
      | typedParam formal typeNode =>
          refine (Rule.meets_synth scope id (hask id (by simp))).bind
            fun ty hty => ?_
          have hrest := ih (fun other hother => h other (by simp [hother]))
            (fun other hother => hask other (by simp [hother]))
          cases ty with
          | error e => trivial
          | _ =>
              refine hrest.bind fun outcome _ => ?_
              cases outcome <;> trivial
      | _ => cases hadmits

/-- There is no rule for the bodies of predicates. -/
theorem not_checks_predicate {scope : Scope} {name : Ident}
    {params : List NodeId} {body : Option NodeId} {ty : Ty}
    (h : tree.construct node = .ok (.predicate name params body)) :
    ¬ tree.Checks scope node ty := by
  intro hchecks
  cases hchecks with
  | binary h' | function h' | conditional h' => simpa using h.symm.trans h'
  | compared h' hcompared =>
      obtain rfl := Except.ok.inj (h.symm.trans h')
      cases hcompared

theorem meets_keywordType {keyword : String}
    (h : tree.construct node = .ok (.keywordType keyword)) :
    tree.Answers (.synth scope node) (keywordType node keyword) := by
  have hsound : ∀ ty, tree.Denotes node ty → tree.Sound node ty := fun ty hty =>
    ⟨fun _ _ => .annotated hty, hty.ground.tidy⟩
  rw [keywordType]
  split
  · next heq => exact Or.inr (hsound _ (.string (heq ▸ h)))
  · split
    · next heq => exact Or.inr (hsound _ (.integer (heq ▸ h)))
    · split
      · next heq => exact Or.inr (hsound _ (.boolean (heq ▸ h)))
      · exact Or.inl rfl

include wf

theorem denotes_of_answer {typeNode : NodeId} {ty : Ty}
    (h : tree.holds (·.isTypeNode) typeNode = true)
    (hty : tree.Sound typeNode ty) :
    tree.Denotes typeNode ty :=
  .of_hasType wf tree.fits_empty (hty.hasType _ tree.fits_empty) h

/-- A parameter is a part of no expression. -/
theorem isExpression_above_param {above : NodeId} {name : Ident}
    {construct : Construct} (h : tree.construct node = .ok (.param name))
    (hparent : tree.parent node = .ok (some above))
    (habove : tree.construct above = .ok construct) :
    construct.isExpression = false := by
  obtain ⟨construct', hconstruct', hpart⟩ :=
    (isPart_iff_construct tree _ _).mp (wf.complete.parent_spec hparent).2
  obtain rfl := Except.ok.inj (habove.symm.trans hconstruct')
  by_contra hexpr
  exact not_holds h rfl
    (wf.isExpression_of_part habove (by simpa using hexpr) hpart)

/-- If the type of the node around a parameter is that of a function, then the
node is one. -/
theorem signature_above_param {above : NodeId} {name : Ident}
    {params : List (NodeId × Ty)} {result : Ty}
    (h : tree.construct node = .ok (.param name))
    (hparent : tree.parent node = .ok (some above))
    (hsound : tree.Sound above (.function params result)) :
    tree.Signature above params result := by
  have hfunction := hsound.hasType _ tree.fits_empty
  obtain ⟨construct, hconstruct, hpart⟩ :=
    (isPart_iff_construct tree _ _).mp (wf.complete.parent_spec hparent).2
  obtain ⟨role, hrole⟩ := (Construct.mem_children_iff construct node).mp hpart
  obtain ⟨child, hchild, hadmits⟩ := wf.role hconstruct hrole
  obtain rfl := Except.ok.inj (h.symm.trans hchild)
  obtain rfl : role = .param := by
    cases role <;> first | rfl | cases hadmits
  cases construct with
  | function name' params' slots body =>
      obtain ⟨formals, result', heq, hsignature⟩ :=
        Signature.of_hasType wf tree.fits_empty hconstruct hfunction
      cases heq
      exact hsignature
  | typedParam formal typeNode =>
      have := (Denotes.of_hasType_typedParam wf tree.fits_empty hconstruct
        hfunction).ground
      cases this
  | _ => simp [Construct.parts] at hrole

/-- The types of annotations are types that they name. -/
theorem meets_synthAll {slot : Slot} (slots : List NodeId)
    (h : ∀ id ∈ slots, tree.holds (·.isTypeNode) id = true)
    (hask : ∀ id ∈ slots, tree.Premise scope slot (.synth scope id)) :
    (Rule.synthAll scope slots).Meets (tree.Premise scope slot) tree.Answers
      (fun outcome => ∀ types, outcome = .ok types →
        List.Forall₂ tree.Denotes slots types) := by
  induction slots with
  | nil =>
      rintro types ⟨⟩
      exact .nil
  | cons id ids ih =>
      have hrest := ih (fun other hother => h other (by simp [hother]))
        (fun other hother => hask other (by simp [hother]))
      refine (Rule.meets_synth scope id (hask id (by simp))).bind ?_
      intro ty hty
      cases ty with
      | error e =>
          rintro types ⟨⟩
      | _ =>
          have hsound := hty.resolve_left (by simp [Ty.isError])
          refine hrest.bind fun outcome houtcome => ?_
          cases outcome with
          | error e => rintro types ⟨⟩
          | ok types =>
              rintro _ ⟨⟩
              exact .cons (denotes_of_answer wf (h id (by simp)) hsound)
                (houtcome types rfl)

theorem meets_conceptType {ref : NodeId}
    (h : tree.construct node = .ok (.conceptType ref)) :
    (liftM (tree.conceptType node ref) : Rule Ty).Meets
      (tree.Premise scope (.synth node)) tree.Answers
      (tree.Answers (.synth scope node)) := by
  obtain ⟨child, href, hadmits⟩ := wf.role h
    (show (Role.name, ref) ∈ Construct.parts _ by simp [Construct.parts])
  have href' := target_eq_of_construct href
  rw [conceptType, href]
  simp only [bind, Except.bind, href']
  cases child with
  | reference text link =>
      cases link with
      | unresolved note => exact Or.inl rfl
      | resolved decl =>
          obtain ⟨construct, hdecl, -⟩ := wf.target_isDecl href
          simp only [Construct.link?, Option.bind, Link.target?, hdecl]
          cases construct with
          | concept name parents relations =>
              have hdenotes : tree.Denotes node (.concept ⟨decl, name.name⟩) :=
                .concept h href' hdecl
              exact Or.inr ⟨fun _ _ => .annotated hdenotes,
                hdenotes.ground.tidy⟩
          | _ => exact Or.inl rfl
  | _ => cases hadmits

include hscope

/-- Asking for the type of a part of an expression. A join asks only about its
left side. -/
theorem premise_synth_part (slot : Slot) {part : NodeId} {construct : Construct}
    (h : tree.construct slot.node = .ok construct)
    (hexpr : construct.isExpression = true) (hpart : part ∈ construct.children)
    (hjoin : ∀ left field, construct = .join left field → part = left) :
    tree.Premise scope slot (.synth scope part) :=
  ⟨.synth hscope (wf.complete.part_lt_size h hpart),
    .part h hexpr hpart fun left field hconstruct =>
      congrArg Slot.synth (hjoin left field hconstruct), .inl rfl⟩

/-- Checking a part of an expression that is no join. -/
theorem premise_check_part (slot : Slot) {part : NodeId} {construct : Construct}
    {ty : Ty} (h : tree.construct slot.node = .ok construct)
    (hexpr : construct.isExpression = true) (hpart : part ∈ construct.children)
    (hjoin : construct.isJoin = false) (hty : tree.Ground ty) :
    tree.Premise scope slot (.check scope part ty) :=
  ⟨.check hscope (.expression (wf.isExpression_of_part h hexpr hpart) hty),
    .part h hexpr hpart (by rintro left field rfl; cases hjoin), .inl rfl⟩

omit wf in
/-- Asking for the type of anything but an expression. -/
theorem premise_jump {target : NodeId} {construct : Construct}
    (h : tree.construct target = .ok construct)
    (hexpr : construct.isExpression = false) :
    tree.Premise scope (.synth node) (.synth scope target) :=
  ⟨.synth hscope (lt_size_of_construct h), .jump h hexpr, .inl rfl⟩

omit wf in
theorem premise_typeNode {typeNode : NodeId}
    (h : tree.holds (·.isTypeNode) typeNode = true) :
    tree.Premise scope (.synth node) (.synth scope typeNode) := by
  obtain ⟨construct, hconstruct, htype⟩ := (holds_iff tree _ _).mp h
  refine premise_jump hscope hconstruct ?_
  cases construct <;> first | rfl | cases htype

theorem meets_synthParam {name : Ident}
    (h : tree.construct node = .ok (.param name)) :
    (tree.synthParam scope node name.name).Meets
      (tree.Premise scope (.synth node)) tree.Answers
      (tree.Answers (.synth scope node)) := by
  obtain ⟨parent, hparent⟩ := exists_parent (lt_size_of_construct h)
  refine Rule.Meets.lift hparent ?_
  cases parent with
  | none => exact Or.inl rfl
  | some above =>
      obtain ⟨construct, hconstruct⟩ :=
        exists_construct (wf.complete.parent_lt_size hparent)
      have hexpr := isExpression_above_param wf h hparent hconstruct
      refine (Rule.meets_synth scope above
        (premise_jump hscope hconstruct hexpr)).bind ?_
      intro ty hty
      cases ty with
      | function params result =>
          have hsound := hty.resolve_left (by simp [Ty.isError])
          have hsignature := signature_above_param wf h hparent hsound
          cases hparam : paramType? params node with
          | none => exact Or.inl (by simp [hparam]; rfl)
          | some ty =>
              have hbound : tree.Bound node ty :=
                ⟨above, params, result, hsignature, mem_of_lookup hparam⟩
              refine Or.inr ?_
              simp only [hparam, Option.getD_some]
              exact ⟨fun _ hfits => hbound.hasType wf hfits, hbound.ground.tidy⟩
      | _ => exact Or.inl rfl

theorem meets_synthRelation {name : Ident} {relatum : NodeId}
    (h : tree.construct node = .ok (.relation name relatum)) :
    (tree.synthRelation scope node name.name relatum).Meets
      (tree.Premise scope (.synth node)) tree.Answers
      (tree.Answers (.synth scope node)) := by
  obtain ⟨owner, howner⟩ := wf.complete.exists_owner? (lt_size_of_construct h)
  have htype : tree.holds (·.isTypeNode) relatum = true :=
    wf.holds_part .typeNode h (by simp [Construct.parts])
  refine Rule.Meets.lift howner ?_
  cases owner with
  | none => exact Or.inl rfl
  | some owner =>
      refine (Rule.meets_synth scope relatum
        (premise_typeNode hscope htype)).bind ?_
      intro ty hty
      cases ty with
      | error e => exact Or.inl rfl
      | _ =>
          have hsound := hty.resolve_left (by simp [Ty.isError])
          intro stamp
          exact Or.inr ⟨fun scope hfits =>
              .relation stamp h howner (hsound.hasType scope hfits),
            .relation (denotes_of_answer wf htype hsound).ground⟩

theorem meets_synthFunction {name : Ident} {params slots : List NodeId}
    {body : NodeId}
    (h : tree.construct node = .ok (.function name params slots body)) :
    (synthFunction scope node name.name params slots).Meets
      (tree.Premise scope (.synth node)) tree.Answers
      (tree.Answers (.synth scope node)) := by
  have htype : ∀ id ∈ slots, tree.holds (·.isTypeNode) id = true :=
    fun id hid =>
    wf.holds_part .typeNode h (by simp [Construct.parts, hid])
  rw [synthFunction]
  split
  · exact Or.inl rfl
  · next hlength =>
      have hlength : slots.length = params.length + 1 := by simpa using hlength
      refine (meets_synthAll wf slots htype fun id hid =>
        premise_typeNode hscope (htype id hid)).bind fun outcome houtcome => ?_
      cases outcome with
      | error e => exact Or.inl rfl
      | ok types =>
          have hdenotes := houtcome types rfl
          cases hresult : types.getLast? with
          | none =>
              rw [List.getLast?_eq_none_iff] at hresult
              subst hresult
              cases hdenotes
              cases hlength
          | some result =>
              have hsignature : tree.Signature node (params.zip types) result :=
                .intro h hlength hdenotes hresult
              refine Or.inr ?_
              simp only [hresult, Option.getD_some]
              exact ⟨fun scope _ => hsignature.hasType scope,
                .function hsignature.ground.1 hsignature.ground.2⟩

theorem meets_synthCall {callee : NodeId} {args : List NodeId}
    (h : tree.construct node = .ok (.call callee args)) :
    (synthCall scope node callee args).Meets (tree.Premise scope (.synth node))
      tree.Answers (tree.Answers (.synth scope node)) := by
  refine (Rule.meets_synth scope callee
    (premise_synth_part wf hscope (.synth node) h rfl
      (by simp [Construct.children]) (by simp))).bind fun ty hty => ?_
  cases ty with
  | function params result =>
      have hsound := hty.resolve_left (by simp [Ty.isError])
      obtain ⟨hparams, hresult⟩ : (∀ param ∈ params, tree.Ground param.2) ∧
          tree.Ground result := by
        cases hsound.tidy with
        | function hparams hresult => exact ⟨hparams, hresult⟩
      dsimp only
      split
      · exact Or.inl rfl
      · next hlength =>
          have hlength : args.length = params.length := by simpa using hlength
          refine (meets_checkAll args (params.map (·.2))
            (by simpa using hlength) fun id hid ty hty => ?_).bind
            fun outcome houtcome => ?_
          · obtain ⟨param, hparam, rfl⟩ := List.mem_map.mp hty
            exact premise_check_part wf hscope (.synth node) h rfl
              (by simp [Construct.children, hid]) rfl (hparams param hparam)
          · cases outcome with
            | some e => exact Or.inl rfl
            | none => exact Or.inr ⟨fun scope hfits =>
                .call h (hsound.hasType scope hfits) hlength
                  (houtcome rfl scope hfits),
                hresult.tidy⟩
  | _ => exact Or.inl rfl

theorem meets_synthPredicate {name : Ident} {params : List NodeId}
    {body : Option NodeId}
    (h : tree.construct node = .ok (.predicate name params body)) :
    (tree.synthPredicate scope node params).Meets
      (tree.Premise scope (.synth node)) tree.Answers
      (tree.Answers (.synth scope node)) := by
  have hrole : ∀ id ∈ params, tree.holds (Role.admits .typedParam) id = true :=
    fun id hid =>
    wf.holds_part .typedParam h (by simp [Construct.parts, hid])
  refine (meets_predicateParams params hrole fun id hid => ?_).bind
    fun outcome _ => ?_
  · obtain ⟨construct, hconstruct, hadmits⟩ :=
      (holds_iff tree _ _).mp (hrole id hid)
    refine premise_jump hscope hconstruct ?_
    cases construct <;> first | rfl | cases hadmits
  · cases outcome with
    | error e => exact Or.inl rfl
    | ok bindings =>
        refine (Rule.meets_check scope node (.predicate bindings)
          ⟨.check hscope (.predicate h), .selfCheck h rfl, .inl rfl⟩).mono
          (fun _ h => h) fun ty hty => Or.inl ?_
        rcases hty with hty | ⟨-, hchecks⟩
        · exact hty
        · exact absurd (hchecks scope hscope) (not_checks_predicate h)

omit wf in
theorem meets_synthBinary {op : Operator} {lhs rhs : NodeId}
    (h : tree.construct node = .ok (.binary op lhs rhs)) :
    (synthBinary scope node op).Meets (tree.Premise scope (.synth node))
      tree.Answers (tree.Answers (.synth scope node)) := by
  have hcheck : ∀ ty, op.resultType? = some ty → tree.Ground ty →
      (Rule.check scope node ty).Meets (tree.Premise scope (.synth node))
        tree.Answers (tree.Answers (.synth scope node)) := by
    intro expected hop hground
    have hexpr : tree.holds (·.isExpression) node = true :=
      (holds_iff tree _ _).mpr ⟨_, h, rfl⟩
    refine (Rule.meets_check scope node expected
      ⟨.check hscope (.expression hexpr hground), .selfCheck h rfl,
        .inl rfl⟩).mono (fun _ h => h) ?_
    rintro ty (hty | ⟨rfl, hchecks⟩)
    · exact Or.inl hty
    · exact Or.inr ⟨fun scope hfits => .binary h hop (hchecks scope hfits),
        hground.tidy⟩
  cases op with
  | mod => exact Or.inl rfl
  | or | and | eq | ne | lt | gt | le | ge => exact hcheck _ rfl .boolean
  | add | sub | mul | div => exact hcheck _ rfl .integer

theorem meets_synthJoin {left field : NodeId}
    (h : tree.construct node = .ok (.join left field)) :
    (tree.synthJoin scope node left field).Meets
      (tree.Premise scope (.synth node)) tree.Answers
      (tree.Answers (.synth scope node)) := by
  refine (Rule.meets_synth scope left
    (premise_synth_part wf hscope (.synth node) h rfl
      (by simp [Construct.children]) (by simp))).bind fun ty hty => ?_
  cases ty with
  | concept concept =>
      have hleft := hty.resolve_left (by simp [Ty.isError])
      have hdecl : concept.decl < tree.size := by
        cases hleft.tidy with
        | concept h => exact lt_size_of_construct h
      obtain ⟨child, hfield, hadmits⟩ := wf.role h
        (show (Role.name, field) ∈ Construct.parts _ by simp [Construct.parts])
      refine Rule.Meets.lift hfield ?_
      cases child with
      | reference text link =>
          obtain ⟨found, hfound, hdeclares⟩ :=
            wf.complete.yields_findRelation hdecl text
          refine Rule.Meets.lift hfound ?_
          cases found with
          | none => exact Or.inl rfl
          | some pair =>
              obtain ⟨foundOn, relation⟩ := pair
              obtain ⟨name, parents, relations, howner, hmem⟩ :=
                hdeclares foundOn relation rfl
              obtain ⟨construct, hconstruct, hadmits⟩ := wf.role howner
                (show (Role.relation, relation) ∈ Construct.parts _ by
                  simp [Construct.parts, hmem])
              have hexpr : construct.isExpression = false := by
                cases construct <;> first | rfl | cases hadmits
              refine (Rule.meets_synth scope relation
                (premise_jump hscope hconstruct hexpr)).bind fun ty hty => ?_
              cases ty with
              | relation stamp decl name owner relatum =>
                  have hrelation := hty.resolve_left (by simp [Ty.isError])
                  have hground : tree.Ground relatum := by
                    cases hrelation.tidy with
                    | relation h => exact h
                  simp only [joinThrough, Rule.pure_eq, Rule.Meets]
                  split
                  · next heq =>
                      exact Or.inr ⟨fun scope hfits =>
                        .join h (hleft.hasType scope hfits) hfield hfound
                          (hrelation.hasType scope hfits) heq, hground.tidy⟩
                  · exact Or.inl rfl
              | _ => exact Or.inl rfl
      | _ => cases hadmits
  | _ => exact Or.inl rfl

/-- The rules of synthesis find derivable types. -/
theorem meets_synthRule (h : node < tree.size) :
    (tree.synthRule scope node).Meets (tree.Premise scope (.synth node))
      tree.Answers (tree.Answers (.synth scope node)) := by
  obtain ⟨construct, hconstruct⟩ := exists_construct h
  refine Rule.Meets.lift hconstruct ?_
  cases construct with
  | reference text link =>
      cases link with
      | unresolved note => exact Or.inl rfl
      | resolved target =>
          obtain ⟨decl, hdecl, hkind⟩ := wf.target_isDecl hconstruct
          have hexpr : decl.isExpression = false := by
            cases decl <;> first | rfl | cases hkind
          refine (Rule.meets_synth scope target
            (premise_jump hscope hdecl hexpr)).mono
            (fun _ h => h) fun ty hty => hty.imp_right fun hsound => ?_
          exact ⟨fun scope hfits =>
            .reference hconstruct (hsound.hasType scope hfits), hsound.tidy⟩
  | join left field => exact meets_synthJoin wf hscope hconstruct
  | stringLit value =>
      exact Or.inr ⟨fun _ _ => .stringLit hconstruct, .string _⟩
  | boolLit value => exact Or.inr ⟨fun _ _ => .boolLit hconstruct, .boolean _⟩
  | intLit value => exact Or.inr ⟨fun _ _ => .intLit hconstruct, .integer _⟩
  | var name typeNode value =>
      cases typeNode with
      | some typeNode =>
          have htype : tree.holds (·.isTypeNode) typeNode = true :=
            wf.holds_part .typeNode hconstruct (by simp [Construct.parts])
          refine (Rule.meets_synth scope typeNode
            (premise_typeNode hscope htype)).mono
            (fun _ h => h) fun ty hty => hty.imp_right fun hsound => ?_
          exact ⟨fun scope hfits =>
            .varTyped hconstruct (hsound.hasType scope hfits), hsound.tidy⟩
      | none =>
          cases value with
          | none => exact Or.inl rfl
          | some value =>
              have hvalue : value < tree.size :=
                wf.complete.part_lt_size hconstruct
                  (by simp [Construct.children])
              refine (Rule.meets_synth scope value ⟨.synth hscope hvalue,
                .value hconstruct, .inl rfl⟩).mono
                (fun _ h => h) fun ty hty => hty.imp_right fun hsound => ?_
              exact ⟨fun scope hfits =>
                .varValue hconstruct (hsound.hasType scope hfits),
                hsound.tidy⟩
  | param name => exact meets_synthParam wf hscope hconstruct
  | typedParam formal typeNode =>
      have htype : tree.holds (·.isTypeNode) typeNode = true :=
        wf.holds_part .typeNode hconstruct (by simp [Construct.parts])
      refine (Rule.meets_synth scope typeNode
        (premise_typeNode hscope htype)).mono
        (fun _ h => h) fun ty hty => hty.imp_right fun hsound => ?_
      exact ⟨fun scope hfits =>
        .typedParam hconstruct (hsound.hasType scope hfits), hsound.tidy⟩
  | keywordType keyword => exact meets_keywordType hconstruct
  | conceptType ref => exact meets_conceptType wf hconstruct
  | concept name parents relations =>
      exact Or.inr ⟨fun _ _ => .concept hconstruct, .concept hconstruct⟩
  | relation name relatum => exact meets_synthRelation wf hscope hconstruct
  | binary op lhs rhs => exact meets_synthBinary hscope hconstruct
  | function name params signature body =>
      exact meets_synthFunction wf hscope hconstruct
  | call callee args => exact meets_synthCall wf hscope hconstruct
  | predicate name params body =>
      exact meets_synthPredicate wf hscope hconstruct
  | conditional condition thenBranch elseBranch => exact Or.inl rfl

end Synthesis

/-! ### Rules of checking -/

section Checking

variable {tree : Tree} (wf : tree.WellFormed) {scope : Scope}
  (hscope : tree.Fits scope) {node : NodeId} {expected : Ty}

/-- Anything but a function or a predicate is an expression, checked against a
type that an annotation can name. -/
theorem Expects.ground {construct : Construct} (h : tree.Expects node expected)
    (hconstruct : tree.construct node = .ok construct)
    (hbinder : construct.isBinder = false) :
    construct.isExpression = true ∧ tree.Ground expected := by
  cases h with
  | expression h hty =>
      obtain ⟨construct', hconstruct', hexpr⟩ := (holds_iff tree _ _).mp h
      obtain rfl := Except.ok.inj (hconstruct.symm.trans hconstruct')
      exact ⟨hexpr, hty⟩
  | function h =>
      obtain ⟨h, -, -, -⟩ := h
      obtain rfl := Except.ok.inj (hconstruct.symm.trans h)
      cases hbinder
  | predicate h =>
      obtain rfl := Except.ok.inj (hconstruct.symm.trans h)
      cases hbinder

theorem Ground.isError_eq_of_same {ty : Ty} (h : tree.Ground expected)
    (hsame : ty.same expected = true) : ty.isError = false := by
  cases ty with
  | error e => cases h <;> cases hsame
  | _ => rfl

include wf hscope

theorem meets_checkBinary {op : Operator} {lhs rhs : NodeId}
    (h : tree.construct node = .ok (.binary op lhs rhs))
    (hground : tree.Ground expected) :
    (checkBinary scope node op lhs rhs expected).Meets
      (tree.Premise scope (.check node)) tree.Answers
      (tree.Answers (.check scope node expected)) := by
  have hlhs : lhs ∈ Construct.children (.binary op lhs rhs) := by
    simp [Construct.children]
  have hrhs : rhs ∈ Construct.children (.binary op lhs rhs) := by
    simp [Construct.children]
  refine (Rule.meets_check scope lhs expected
    (premise_check_part wf hscope (.check node) h rfl hlhs rfl hground)).bind
    fun left hleft => ?_
  split
  · next hrecursion =>
      cases left <;> first | exact Or.inl rfl | cases hrecursion
  · refine (Rule.meets_check scope rhs expected
      (premise_check_part wf hscope (.check node) h rfl hrhs rfl hground)).bind
      fun right hright => ?_
    split
    · next hrecursion =>
        cases right <;> first | exact Or.inl rfl | cases hrecursion
    · split
      · next hsame =>
          obtain ⟨hleftSame, hrightSame⟩ := Bool.and_eq_true_iff.mp hsame
          obtain ⟨-, hleft⟩ := hleft.resolve_left
            (by simp [hground.isError_eq_of_same hleftSame])
          obtain ⟨-, hright⟩ := hright.resolve_left
            (by simp [hground.isError_eq_of_same hrightSame])
          exact Or.inr ⟨rfl, fun scope hfits =>
            .binary h (hleft scope hfits) (hright scope hfits)⟩
      · refine (Rule.meets_synth scope lhs
          (premise_synth_part wf hscope (.check node) h rfl hlhs
            (by simp))).bind fun left _ => ?_
        refine (Rule.meets_synth scope rhs
          (premise_synth_part wf hscope (.check node) h rfl hrhs
            (by simp))).bind fun right _ => ?_
        exact Or.inl rfl

theorem meets_checkFunction {name : Ident} {formals slots : List NodeId}
    {body : NodeId} {params : List (NodeId × Ty)} {result : Ty}
    (h : tree.construct node = .ok (.function name formals slots body))
    (hsignature : tree.Signature node params result) :
    (checkFunction scope node name.name body (.function params result)).Meets
      (tree.Premise scope (.check node)) tree.Answers
      (tree.Answers (.check scope node (.function params result))) := by
  have hbody : tree.holds (·.isExpression) body = true :=
    wf.isExpression_of_body h
  refine (Rule.meets_check (scope.extend params) body result
    ⟨.check (hscope.extend hsignature) (.expression hbody hsignature.ground.2),
      .body h, .inr ⟨node, rfl, (holds_iff tree _ _).mpr ⟨_, h, rfl⟩⟩⟩).bind
    fun ty hty => ?_
  cases ty with
  | error e => exact Or.inl rfl
  | _ =>
      obtain ⟨-, hchecks⟩ := hty.resolve_left (by simp [Ty.isError])
      exact Or.inr ⟨rfl, fun scope hfits =>
        .function h (hchecks _ (hfits.extend hsignature))⟩

theorem meets_checkConditional {condition thenBranch elseBranch : NodeId}
    (h : tree.construct node =
      .ok (.conditional condition thenBranch elseBranch))
    (hground : tree.Ground expected) :
    (checkConditional scope node condition thenBranch elseBranch expected).Meets
      (tree.Premise scope (.check node)) tree.Answers
      (tree.Answers (.check scope node expected)) := by
  have hask : ∀ part ∈
    Construct.children (.conditional condition thenBranch elseBranch),
      tree.Premise scope (.check node) (.synth scope part) :=
    fun part hpart =>
      premise_synth_part wf hscope (.check node) h rfl hpart (by simp)
  refine (Rule.meets_synth scope condition
    (hask _ (by simp [Construct.children]))).bind
    fun conditionTy hcondition => ?_
  refine (Rule.meets_synth scope thenBranch
    (hask _ (by simp [Construct.children]))).bind fun thenTy hthen => ?_
  refine (Rule.meets_synth scope elseBranch
    (hask _ (by simp [Construct.children]))).bind fun elseTy helse => ?_
  split
  · exact Or.inl rfl
  · next hboolean =>
      split
      · exact Or.inl rfl
      · next hthenSame =>
          split
          · exact Or.inl rfl
          · next helseSame =>
              rw [Bool.not_eq_true, Bool.not_eq_false'] at hthenSame helseSame
              have hthen :=
                hthen.resolve_left
                  (by simp [hground.isError_eq_of_same hthenSame])
              have helse :=
                helse.resolve_left
                  (by simp [hground.isError_eq_of_same helseSame])
              cases conditionTy with
              | boolean literal =>
                  have hcondition :=
                    hcondition.resolve_left (by simp [Ty.isError])
                  exact Or.inr ⟨rfl, fun scope hfits => .conditional h
                    (hcondition.hasType scope hfits) (hthen.hasType scope hfits)
                    hthenSame
                    (helse.hasType scope hfits) helseSame⟩
              | _ => exact absurd rfl hboolean

omit wf in
theorem meets_checkBySynthesis {construct : Construct}
    (h : tree.construct node = .ok construct)
    (hcompared : construct.isCompared = true) (hground : tree.Ground expected) :
    (checkBySynthesis scope node expected).Meets
      (tree.Premise scope (.check node)) tree.Answers
      (tree.Answers (.check scope node expected)) := by
  refine (Rule.meets_synth scope node ⟨.synth hscope (lt_size_of_construct h),
    .compare h hcompared, .inl rfl⟩).bind fun actual hactual => ?_
  split
  · next hsame =>
      have hactual :=
        hactual.resolve_left (by simp [hground.isError_eq_of_same hsame])
      exact Or.inr ⟨rfl, fun scope hfits =>
        .compared h hcompared (hactual.hasType scope hfits) hsame⟩
  · exact Or.inl rfl

/-- The rules of checking accept only what is derivable. -/
theorem meets_checkRule (h : tree.Expects node expected) :
    (tree.checkRule scope node expected).Meets
      (tree.Premise scope (.check node)) tree.Answers
      (tree.Answers (.check scope node expected)) := by
  obtain ⟨construct, hconstruct⟩ := exists_construct h.lt_size
  refine Rule.Meets.lift hconstruct ?_
  cases construct with
  | binary op lhs rhs =>
      exact meets_checkBinary wf hscope hconstruct (h.ground hconstruct rfl).2
  | function name params slots body =>
      cases h with
      | function h => exact meets_checkFunction wf hscope hconstruct h
      | expression h _ => exact absurd h (not_holds hconstruct rfl)
      | predicate h => simpa using hconstruct.symm.trans h
  | predicate name params body => exact Or.inl rfl
  | conditional condition thenBranch elseBranch =>
      exact meets_checkConditional wf hscope hconstruct
        (h.ground hconstruct rfl).2
  | _ =>
      exact meets_checkBySynthesis hscope hconstruct rfl
        (h.ground hconstruct rfl).2

end Checking

/-- Every rule asks only for what may be asked for, and gives a sound answer if
it gets sound ones. -/
theorem meets_rule {tree : Tree} (wf : tree.WellFormed) {judgement : Judgement}
    (h : tree.Asks judgement) :
    (tree.rule judgement).Meets (tree.Premise judgement.scope judgement.slot)
      tree.Answers (tree.Answers judgement) := by
  cases h with
  | synth hscope h => exact meets_synthRule wf hscope h
  | check hscope h => exact meets_checkRule wf hscope h

/-- What a node is expected to be is determined by what it is, unless it is a
predicate. -/
theorem Expects.eq_of_same {tree : Tree} {node : NodeId} {a b : Ty}
    (ha : tree.Expects node a) (hb : tree.Expects node b)
    (hsame : a.same b = true)
    (hpredicate : ∀ name params body, tree.construct node ≠
      .ok (.predicate name params body)) :
    a = b := by
  cases ha with
  | predicate hnode => exact absurd hnode (hpredicate _ _ _)
  | expression hexpr hground =>
      obtain ⟨construct, hconstruct, hkind⟩ := (holds_iff tree _ _).mp hexpr
      have hbinder : construct.isBinder = false := by
        cases construct <;> first | rfl | cases hkind
      exact hground.eq_of_same (hb.ground hconstruct hbinder).2 hsame
  | function hsignature =>
      have hsignature' := hsignature
      obtain ⟨hnode, -, -, -⟩ := hsignature'
      cases hb with
      | expression hexpr _ => exact absurd hexpr (not_holds hnode rfl)
      | predicate hnode' => exact absurd hnode' (hpredicate _ _ _)
      | function hsignature' =>
          obtain ⟨rfl, rfl⟩ := hsignature.unique hsignature'
          rfl

/-- Sound answers are a discipline: whatever a pass remembers is a type error or
derivable. -/
def sound {tree : Tree} (wf : tree.WellFormed) : tree.Discipline where
  ask := tree.Asks
  answer := tree.Answers
  inside _ h := by
    cases h with
    | synth _ h => exact h
    | check _ h => exact h.lt_size
  bound scope node ty h hbound := by
    cases h with
    | synth hscope _ =>
        have hty := hscope node ty hbound
        exact Or.inr ⟨fun _ hfits => hty.hasType wf hfits, hty.ground.tidy⟩
  scopes _ _ _ _ _ _ h := h
  checks scope scope' node expected expected' ty h h' hsame hanswer := by
    cases h with
    | check hscope hexpects =>
        cases h' with
        | check _ hexpects' =>
            rcases hanswer with herror | ⟨rfl, hchecks⟩
            · exact Or.inl herror
            · obtain rfl := hexpects.eq_of_same hexpects' hsame
                fun _ _ _ hnode =>
                not_checks_predicate hnode (hchecks scope hscope)
              exact Or.inr ⟨rfl, hchecks⟩
  rule _ h := (meets_rule wf h).mono (fun _ h => h.asks) fun _ h => h
  fault judgement cause _ := by
    cases judgement <;> exact Or.inl rfl

end Tree

end ConceptLang
