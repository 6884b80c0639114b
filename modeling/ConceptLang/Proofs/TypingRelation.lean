import Mathlib.Logic.Relation
import ConceptLang.Proofs.WellFormed
import ConceptLang.Typing.Checking

/-!
# The typing relation

`Tree.HasType` and `Tree.Checks` are the typing rules as an inductive relation.
`HasType scope n ty` says that the node `n` has the type `ty`, and
`Checks scope n ty` that it can be used where `ty` is expected. A derivation is
finite. It knows nothing of caches, limits or nodes being worked out, and it has
no type errors: a node with a type problem has no type.

The scope holds the types of bound parameters. Only the body of a function is
looked at in a larger scope, in which the parameters of the function are bound.
A relation type may carry any stamp.

A node *needs* the nodes without whose types it can have none. No node that
needs itself, directly or not, has a type (`Tree.HasType.acc`).
-/

namespace ConceptLang

/-- The type of an operator's result, and of its operands. -/
def Operator.resultType? : Operator → Option Ty
  | .or | .and | .eq | .ne | .lt | .gt | .le | .ge => some (.boolean none)
  | .add | .sub | .mul | .div => some (.integer none)
  | .mod => none

/-- Whether checking a construct is a matter of comparing types. -/
def Construct.isCompared : Construct → Bool
  | .binary _ _ _ | .function _ _ _ _ | .predicate _ _ _ | .conditional _ _ _ =>
      false
  | _ => true

namespace Tree

/-- A construct whose check is a comparison is checked by the rule for that. -/
theorem rule_check_of_isCompared {tree : Tree} {node : NodeId}
    {construct : Construct} (h : tree.construct node = .ok construct)
    (hcompared : construct.isCompared = true) (scope : Scope) (expected : Ty) :
    tree.rule (.check scope node expected) =
      checkBySynthesis scope node expected := by
  rw [rule, checkRule, h]
  cases construct with
  | binary | function | predicate | conditional => cases hcompared
  | _ => rfl

/-- The node is an annotation and names the type. -/
inductive Denotes (tree : Tree) : NodeId → Ty → Prop where
  | string {node : NodeId}
      (h : tree.construct node = .ok (.keywordType "String")) :
      Denotes tree node (.string none)
  | integer {node : NodeId}
      (h : tree.construct node = .ok (.keywordType "Integer")) :
      Denotes tree node (.integer none)
  | boolean {node : NodeId}
      (h : tree.construct node = .ok (.keywordType "Boolean")) :
      Denotes tree node (.boolean none)
  | concept {node ref decl : NodeId} {name : Ident}
      {parents relations : List NodeId}
      (h : tree.construct node = .ok (.conceptType ref))
      (href : tree.target ref = .ok (some decl))
      (hdecl : tree.construct decl = .ok (.concept name parents relations)) :
      Denotes tree node (.concept ⟨decl, name.name⟩)

mutual

/-- The node has the type. -/
inductive HasType (tree : Tree) : Scope → NodeId → Ty → Prop where
  | bound {scope : Scope} {node : NodeId} {ty : Ty}
      (hbound : scope.find? node = some ty) : HasType tree scope node ty
  | reference {scope : Scope} {node target : NodeId} {text : String} {ty : Ty}
      (h : tree.construct node = .ok (.reference text (.resolved target)))
      (htarget : HasType tree scope target ty) : HasType tree scope node ty
  | stringLit {scope : Scope} {node : NodeId} {value : String}
      (h : tree.construct node = .ok (.stringLit value)) :
      HasType tree scope node (.string (some node))
  | boolLit {scope : Scope} {node : NodeId} {value : Bool}
      (h : tree.construct node = .ok (.boolLit value)) :
      HasType tree scope node (.boolean (some node))
  | intLit {scope : Scope} {node : NodeId} {value : Int}
      (h : tree.construct node = .ok (.intLit value)) :
      HasType tree scope node (.integer (some node))
  | varTyped {scope : Scope} {node typeNode : NodeId} {name : Ident}
      {value : Option NodeId} {ty : Ty}
      (h : tree.construct node = .ok (.var name (some typeNode) value))
      (htype : HasType tree scope typeNode ty) : HasType tree scope node ty
  | varValue {scope : Scope} {node value : NodeId} {name : Ident} {ty : Ty}
      (h : tree.construct node = .ok (.var name none (some value)))
      (hvalue : HasType tree scope value ty) : HasType tree scope node ty
  /-- A parameter that is not bound has the type that its function gives it. -/
  | param {scope : Scope} {node above : NodeId} {name : Ident}
      {params : List (NodeId × Ty)} {result ty : Ty}
      (h : tree.construct node = .ok (.param name))
      (hfree : scope.find? node = none)
      (hparent : tree.parent node = .ok (some above))
      (habove : HasType tree scope above (.function params result))
      (hparam : paramType? params node = some ty) : HasType tree scope node ty
  | typedParam {scope : Scope} {node formal typeNode : NodeId} {ty : Ty}
      (h : tree.construct node = .ok (.typedParam formal typeNode))
      (htype : HasType tree scope typeNode ty) : HasType tree scope node ty
  | annotated {scope : Scope} {node : NodeId} {ty : Ty}
      (h : tree.Denotes node ty) : HasType tree scope node ty
  | concept {scope : Scope} {node : NodeId} {name : Ident}
      {parents relations : List NodeId}
      (h : tree.construct node = .ok (.concept name parents relations)) :
      HasType tree scope node (.concept ⟨node, name.name⟩)
  | relation {scope : Scope} {node relatum : NodeId} {name : Ident}
      {owner : Concept} {ty : Ty} (stamp : Nat)
      (h : tree.construct node = .ok (.relation name relatum))
      (howner : tree.owner? node = .ok (some owner))
      (hrelatum : HasType tree scope relatum ty) :
      HasType tree scope node (.relation stamp node name.name owner ty)
  /-- A function has the type that its signature spells out; its body does not
  matter. -/
  | function {scope : Scope} {node body : NodeId} {name : Ident}
      {params signature : List NodeId} {types : List Ty} {result : Ty}
      (h : tree.construct node = .ok (.function name params signature body))
      (hlength : signature.length = params.length + 1)
      (hsignature : HasTypes tree scope signature types)
      (hresult : types.getLast? = some result) :
      HasType tree scope node (.function (params.zip types) result)
  | call {scope : Scope} {node callee : NodeId} {args : List NodeId}
      {params : List (NodeId × Ty)} {result : Ty}
      (h : tree.construct node = .ok (.call callee args))
      (hcallee : HasType tree scope callee (.function params result))
      (hlength : args.length = params.length)
      (hargs : ChecksAll tree scope args (params.map (·.2))) :
      HasType tree scope node result
  | binary {scope : Scope} {node lhs rhs : NodeId} {op : Operator} {ty : Ty}
      (h : tree.construct node = .ok (.binary op lhs rhs))
      (hop : op.resultType? = some ty) (hcheck : Checks tree scope node ty) :
      HasType tree scope node ty
  /-- A join has the type that the relation relates to, if the relation belongs
  to the concept it was found on. -/
  | join {scope : Scope} {node left field foundOn relation decl : NodeId}
      {text name : String} {link : Link} {concept owner : Concept} {stamp : Nat}
      {ty : Ty} (h : tree.construct node = .ok (.join left field))
      (hleft : HasType tree scope left (.concept concept))
      (hfield : tree.construct field = .ok (.reference text link))
      (hfound : tree.findRelation concept.decl text =
        .ok (some (foundOn, relation)))
      (hrelation :
        HasType tree scope relation (.relation stamp decl name owner ty))
      (howner : owner.decl = foundOn) : HasType tree scope node ty

/-- The nodes have the types, one by one. -/
inductive HasTypes (tree : Tree) : Scope → List NodeId → List Ty → Prop where
  | nil {scope : Scope} : HasTypes tree scope [] []
  | cons {scope : Scope} {node : NodeId} {nodes : List NodeId} {ty : Ty}
      {types : List Ty} (hhead : HasType tree scope node ty)
      (htail : HasTypes tree scope nodes types) :
      HasTypes tree scope (node :: nodes) (ty :: types)

/-- The node can be used where the type is expected. -/
inductive Checks (tree : Tree) : Scope → NodeId → Ty → Prop where
  | binary {scope : Scope} {node lhs rhs : NodeId} {op : Operator} {ty : Ty}
      (h : tree.construct node = .ok (.binary op lhs rhs))
      (hlhs : Checks tree scope lhs ty) (hrhs : Checks tree scope rhs ty) :
      Checks tree scope node ty
  /-- The body of a function is checked with the parameters bound to their
  types. -/
  | function {scope : Scope} {node body : NodeId} {name : Ident}
      {formals signature : List NodeId} {params : List (NodeId × Ty)}
      {result : Ty}
      (h : tree.construct node = .ok (.function name formals signature body))
      (hbody : Checks tree (scope.extend params) body result) :
      Checks tree scope node (.function params result)
  | conditional {scope : Scope} {node condition thenBranch elseBranch : NodeId}
      {literal : Option NodeId} {ty thenTy elseTy : Ty}
      (h : tree.construct node =
        .ok (.conditional condition thenBranch elseBranch))
      (hcondition : HasType tree scope condition (.boolean literal))
      (hthen : HasType tree scope thenBranch thenTy)
      (hthenSame : thenTy.same ty = true)
      (helse : HasType tree scope elseBranch elseTy)
      (helseSame : elseTy.same ty = true) : Checks tree scope node ty
  | compared {scope : Scope} {node : NodeId} {construct : Construct}
      {ty actual : Ty} (h : tree.construct node = .ok construct)
      (hcompared : construct.isCompared = true)
      (hactual : HasType tree scope node actual)
      (hsame : actual.same ty = true) :
      Checks tree scope node ty

/-- The nodes can be used where the types are expected, one by one. -/
inductive ChecksAll (tree : Tree) : Scope → List NodeId → List Ty → Prop where
  | nil {scope : Scope} : ChecksAll tree scope [] []
  | cons {scope : Scope} {node : NodeId} {nodes : List NodeId} {ty : Ty}
      {types : List Ty} (hhead : Checks tree scope node ty)
      (htail : ChecksAll tree scope nodes types) :
      ChecksAll tree scope (node :: nodes) (ty :: types)

end

/-- How a node that is not bound can have come to its type, by what it says. -/
def TypedBy (tree : Tree) (scope : Scope) (node : NodeId) (ty : Ty) :
    Construct → Prop
  | .reference _ (.resolved target) => tree.HasType scope target ty
  | .stringLit _ => ty = .string (some node)
  | .boolLit _ => ty = .boolean (some node)
  | .intLit _ => ty = .integer (some node)
  | .var _ (some typeNode) _ => tree.HasType scope typeNode ty
  | .var _ none (some value) => tree.HasType scope value ty
  | .param _ => ∃ above params result, tree.parent node = .ok (some above) ∧
      tree.HasType scope above (.function params result) ∧
      paramType? params node = some ty
  | .typedParam _ typeNode => tree.HasType scope typeNode ty
  | .keywordType _ | .conceptType _ => tree.Denotes node ty
  | .concept name _ _ => ty = .concept ⟨node, name.name⟩
  | .relation name relatum =>
      ∃ stamp owner related, tree.owner? node = .ok (some owner) ∧
        tree.HasType scope relatum related ∧
        ty = .relation stamp node name.name owner related
  | .function _ params signature _ =>
      ∃ types result, signature.length = params.length + 1 ∧
        tree.HasTypes scope signature types ∧ types.getLast? = some result ∧
        ty = .function (params.zip types) result
  | .call callee _ => ∃ params, tree.HasType scope callee (.function params ty)
  | .binary op _ _ => op.resultType? = some ty
  | .join left field =>
      ∃ concept text link foundOn relation stamp decl name owner,
        tree.HasType scope left (.concept concept) ∧
        tree.construct field = .ok (.reference text link) ∧
        tree.findRelation concept.decl text = .ok (some (foundOn, relation)) ∧
        tree.HasType scope relation (.relation stamp decl name owner ty)
  | _ => False

theorem HasType.typedBy {tree : Tree} {scope : Scope} {node : NodeId} {ty : Ty}
    {construct : Construct} (h : tree.HasType scope node ty)
    (hfree : scope.find? node = none)
    (hconstruct : tree.construct node = .ok construct) :
    tree.TypedBy scope node ty construct := by
  cases h with
  | bound hbound =>
      rw [hfree] at hbound
      contradiction
  | reference h htarget =>
      obtain rfl := Except.ok.inj (hconstruct.symm.trans h)
      exact htarget
  | stringLit h | boolLit h | intLit h | concept h =>
      obtain rfl := Except.ok.inj (hconstruct.symm.trans h)
      rfl
  | varTyped h hty | varValue h hty | typedParam h hty | binary h hty =>
      obtain rfl := Except.ok.inj (hconstruct.symm.trans h)
      exact hty
  | param h _ hparent habove hparam =>
      obtain rfl := Except.ok.inj (hconstruct.symm.trans h)
      exact ⟨_, _, _, hparent, habove, hparam⟩
  | annotated h =>
      have hdenotes := h
      cases h with
      | string h | integer h | boolean h | concept h =>
          obtain rfl := Except.ok.inj (hconstruct.symm.trans h)
          exact hdenotes
  | relation stamp h howner hrelatum =>
      obtain rfl := Except.ok.inj (hconstruct.symm.trans h)
      exact ⟨stamp, _, _, howner, hrelatum, rfl⟩
  | function h hlength hsignature hresult =>
      obtain rfl := Except.ok.inj (hconstruct.symm.trans h)
      exact ⟨_, _, hlength, hsignature, hresult, rfl⟩
  | call h hcallee =>
      obtain rfl := Except.ok.inj (hconstruct.symm.trans h)
      exact ⟨_, hcallee⟩
  | join h hleft hfield hfound hrelation =>
      obtain rfl := Except.ok.inj (hconstruct.symm.trans h)
      exact ⟨_, _, _, _, _, _, _, _, _, hleft, hfield, hfound, hrelation⟩

/-- The type that a top-level declaration is accepted with. -/
inductive DeclHasType (tree : Tree) (decl : NodeId) : Ty → Prop where
  /-- A function has the type of its signature if its body has the result
  type. -/
  | function {name : Ident} {formals signature : List NodeId} {body : NodeId}
      {params : List (NodeId × Ty)} {result : Ty}
      (h : tree.construct decl = .ok (.function name formals signature body))
      (hsignature : tree.HasType Scope.empty decl (.function params result))
      (hbody : tree.Checks (Scope.empty.extend params) body result) :
      DeclHasType tree decl (.function params result)
  /-- A variable with an annotation and a value has the type of the annotation
  if its value does. -/
  | var {name : Ident} {typeNode value : NodeId} {ty : Ty}
      (h : tree.construct decl = .ok (.var name (some typeNode) (some value)))
      (htype : tree.HasType Scope.empty typeNode ty)
      (hvalue : tree.Checks Scope.empty value ty) : DeclHasType tree decl ty
  /-- Any other declaration has the type that is found for it. -/
  | other {construct : Construct} {ty : Ty}
      (h : tree.construct decl = .ok construct)
      (hfunction : ∀ name params signature body, construct ≠
        .function name params signature body)
      (hvar : ∀ name typeNode value, construct ≠ .var name (some typeNode)
        (some value))
      (hty : tree.HasType Scope.empty decl ty) : DeclHasType tree decl ty

end Tree

/-- The nodes without whose types a construct has none, apart from annotations
and declarations that always have one. -/
def Construct.needs : Construct → List NodeId
  | .reference _ (.resolved target) => [target]
  | .var _ none (some value) => [value]
  | .join left _ => [left]
  | .binary _ lhs rhs => [lhs, rhs]
  | .call callee args => callee :: args
  | .conditional condition thenBranch elseBranch =>
      [condition, thenBranch, elseBranch]
  | _ => []

namespace Tree

/-- The node `id` has a type only if `other` has one. -/
def Needs (tree : Tree) (id other : NodeId) : Prop :=
  ∃ construct, tree.construct id = .ok construct ∧ other ∈ construct.needs

theorem acc_of_construct {tree : Tree} {node : NodeId} {construct : Construct}
    (h : tree.construct node = .ok construct)
    (hneeds : ∀ other ∈ construct.needs,
      Acc (fun m n => tree.Needs n m) other) :
    Acc (fun m n => tree.Needs n m) node := by
  refine .intro node fun other ⟨construct', h', hmem⟩ => ?_
  obtain rfl := Except.ok.inj (h.symm.trans h')
  exact hneeds other hmem

theorem not_needs_self_of_acc {tree : Tree} {node : NodeId}
    (h : Acc (fun m n => tree.Needs n m) node) :
    ¬ Relation.TransGen tree.Needs node node := by
  induction h with
  | intro node _ ih =>
      intro hself
      obtain ⟨other, hneeds, hback⟩ := Relation.TransGen.head'_iff.mp hself
      exact ih other hneeds (Relation.TransGen.tail' hback hneeds)

/-- A scope that binds nothing but nodes without needs. -/
def BindsNeedless (tree : Tree) (scope : Scope) : Prop :=
  ∀ node ty, scope.find? node = some ty → ∀ other, ¬ tree.Needs node other

mutual

/-- A node with a type needs nothing without end, and in particular not
itself. -/
theorem HasType.acc {tree : Tree} {scope : Scope} {node : NodeId} {ty : Ty}
    (hscope : tree.BindsNeedless scope) :
    tree.HasType scope node ty → Acc (fun m n => tree.Needs n m) node
  | .bound h =>
      .intro node fun other hneeds => absurd hneeds (hscope node ty h other)
  | .reference h htarget =>
      acc_of_construct h (by simpa [Construct.needs] using htarget.acc hscope)
  | .stringLit h | .boolLit h | .intLit h | .varTyped h _ | .param h _ _ _ _
  | .typedParam h _
  | .annotated (.string h) | .annotated (.integer h) | .annotated (.boolean h)
  | .annotated (.concept h _ _) | .concept h | .relation _ h _ _
  | .function h _ _ _ =>
    acc_of_construct h (by simp [Construct.needs])
  | .varValue h hvalue =>
      acc_of_construct h (by simpa [Construct.needs] using hvalue.acc hscope)
  | .call h hcallee hlength hargs => acc_of_construct h (by
      simp only [Construct.needs, List.forall_mem_cons]
      exact ⟨hcallee.acc hscope, hargs.acc hscope⟩)
  | .binary _ _ hcheck => hcheck.acc hscope
  | .join h hleft _ _ _ _ =>
      acc_of_construct h (by simpa [Construct.needs] using hleft.acc hscope)

theorem Checks.acc {tree : Tree} {scope : Scope} {node : NodeId} {ty : Ty}
    (hscope : tree.BindsNeedless scope) :
    tree.Checks scope node ty → Acc (fun m n => tree.Needs n m) node
  | .binary h hlhs hrhs => acc_of_construct h (by
      simp only [Construct.needs, List.forall_mem_cons, List.not_mem_nil,
        false_implies, implies_true, and_true]
      exact ⟨hlhs.acc hscope, hrhs.acc hscope⟩)
  | .function h _ => acc_of_construct h (by simp [Construct.needs])
  | .conditional h hcondition hthen _ helse _ => acc_of_construct h (by
      simp only [Construct.needs, List.forall_mem_cons, List.not_mem_nil,
        false_implies, implies_true, and_true]
      exact ⟨hcondition.acc hscope, hthen.acc hscope, helse.acc hscope⟩)
  | .compared _ _ hactual _ => hactual.acc hscope

theorem ChecksAll.acc {tree : Tree} {scope : Scope} {nodes : List NodeId}
    {types : List Ty} (hscope : tree.BindsNeedless scope) :
    tree.ChecksAll scope nodes types →
    ∀ node ∈ nodes, Acc (fun m n => tree.Needs n m) node
  | .nil => by simp
  | .cons hhead htail => by
      simp only [List.forall_mem_cons]
      exact ⟨hhead.acc hscope, htail.acc hscope⟩

end

end Tree

end ConceptLang
