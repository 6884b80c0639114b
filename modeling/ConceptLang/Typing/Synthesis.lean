import ConceptLang.Tree.Ancestry
import ConceptLang.Typing.Rule

/-!
# Rules of synthesis

One rule for each construct says which type a node has. A reference has the type
of its target, a variable that of its annotation or else of its value, a call
the result type of its callee, a join the relatum of the relation that its field
means on its left side. Operators and predicates turn to the rules of checking.
A conditional has no type of its own.

A rule that needs the types of several nodes asks for them from left to right
and stops at the first type error, which is then the answer.
-/

namespace ConceptLang

namespace Rule

/-- The types of `nodes`, or the first type error among them. -/
def synthAll (scope : Scope) : List NodeId → Rule (Except TypeError (List Ty))
  | [] => return .ok []
  | node :: nodes => do
    match ← synth scope node with
    | .error e => return .error e
    | ty =>
      match ← synthAll scope nodes with
      | .error e => return .error e
      | .ok types => return .ok (ty :: types)

/-- The first type error met when each node is checked against the type beside
it. -/
def checkAll (scope : Scope) : List (NodeId × Ty) → Rule (Option TypeError)
  | [] => return none
  | (node, expected) :: rest => do
    match ← check scope node expected with
    | .error e => return some e
    | _ => checkAll scope rest

end Rule

namespace Tree

/-- The type that a keyword names. -/
def keywordType (node : NodeId) (keyword : String) : Ty :=
  if keyword = "String" then .string none
  else if keyword = "Integer" then .integer none
  else if keyword = "Boolean" then .boolean none
  else .fault node (.unknownKeyword keyword)

/-- The type that an annotation names through the reference `ref`: the concept
it is linked to. -/
def conceptType (tree : Tree) (node ref : NodeId) : Except TreeError Ty := do
  let text := match ← tree.construct ref with
    | .reference text _ => text
    | _ => "?"
  match ← tree.target ref with
  | none => return .fault node (.annotationUnlinked text)
  | some decl =>
    match ← tree.construct decl with
    | .concept name _ _ => return .concept ⟨decl, name.name⟩
    | other => return .fault node (.annotationOther text other.label)

/-- The concept that the node `id` is a part of. -/
def owner? (tree : Tree) (id : NodeId) : Except TreeError (Option Concept) := do
  match ← tree.parent id with
  | none => return none
  | some above =>
    match ← tree.construct above with
    | .concept name _ _ => return some ⟨above, name.name⟩
    | _ => return none

/-- A parameter has the type that the function around it gives it. -/
def synthParam (tree : Tree) (scope : Scope) (node : NodeId) (name : String) :
    Rule Ty := do
  match ← tree.parent node with
  | none => return .fault node (.bareParam name)
  | some above =>
    match ← Rule.synth scope above with
    | .function params _ =>
        return (paramType? params node).getD (.fault node (.bareParam name))
    | _ => return .fault node (.bareParam name)

/-- A relation has a new relation type, from the concept around it to the type
of its annotation. -/
def synthRelation (tree : Tree) (scope : Scope) (node : NodeId) (name : String)
    (relatum : NodeId) :
    Rule Ty := do
  match ← tree.owner? node with
  | none => return .fault node (.strayRelation name)
  | some owner =>
    match ← Rule.synth scope relatum with
    | .error e => return .error e
    | ty => return .relation (← Rule.freshStamp node) node name owner ty

/-- A function has the type that its signature spells out. -/
def synthFunction (scope : Scope) (node : NodeId) (name : String)
    (params signature : List NodeId) :
    Rule Ty := do
  if signature.length ≠ params.length + 1 then
    return .fault node
      (.signatureLength name params.length (signature.length - 1))
  else
    match ← Rule.synthAll scope signature with
    | .error e => return .error e
    | .ok types =>
        return .function (params.zip types) (types.getLast?.getD .unit)

/-- A call has the result type of the function it calls, if its arguments have
the types of the parameters. -/
def synthCall (scope : Scope) (node callee : NodeId) (args : List NodeId) :
    Rule Ty := do
  match ← Rule.synth scope callee with
  | .function params result =>
    if args.length ≠ params.length then
      return .fault node (.argumentCount params.length args.length)
    else
      match ← Rule.checkAll scope (args.zip (params.map (·.2))) with
      | some e => return .error e
      | none => return result
  | ty => return .fault node (.notCallable ty)

/-- The parameters of a predicate with the types of their annotations, or the
first type error among them. A parameter without an annotation is an error
too. -/
def predicateParams (tree : Tree) (scope : Scope) :
    List NodeId → Rule (Except TypeError (List (NodeId × Ty)))
  | [] => return .ok []
  | typed :: rest => do
    match ← tree.construct typed with
    | .typedParam formal _ =>
      match ← Rule.synth scope typed with
      | .error e => return .error e
      | ty =>
        match ← tree.predicateParams scope rest with
        | .error e => return .error e
        | .ok params => return .ok ((formal, ty) :: params)
    | other =>
        return .error
          ((Fault.barePredicateParam (other.name?.getD "?")).toError typed)

/-- A predicate is checked against the type that its parameters spell out. -/
def synthPredicate (tree : Tree) (scope : Scope) (node : NodeId)
    (params : List NodeId) :
    Rule Ty := do
  match ← tree.predicateParams scope params with
  | .error e => return .error e
  | .ok bindings => Rule.check scope node (.predicate bindings)

/-- The connectives and comparisons are checked against the type of truth
values, the arithmetic operators against that of integers; for the remainder
there is no rule. -/
def synthBinary (scope : Scope) (node : NodeId) : Operator → Rule Ty
  | .or | .and | .eq | .ne | .lt | .gt | .le | .ge =>
      Rule.check scope node (.boolean none)
  | .add | .sub | .mul | .div => Rule.check scope node (.integer none)
  | .mod => return .fault node (.operatorNotInferable .mod)

/-- The type of a join through a relation that was found on the concept
`foundOn`: what the relation relates to. -/
def joinThrough (node : NodeId) (field : String) (foundOn : NodeId) : Ty → Ty
  | .relation _ _ name owner relatum =>
    if owner.decl = foundOn then relatum else
      .fault node (.joinOwner name owner.name)
  | ty => .fault node (.joinRelation field ty)

/-- A join has the type that its field relates to on the concept on its left. -/
def synthJoin (tree : Tree) (scope : Scope) (node left field : NodeId) :
    Rule Ty := do
  match ← Rule.synth scope left with
  | .concept concept =>
    match ← tree.construct field with
    | .reference text _ =>
      match ← tree.findRelation concept.decl text with
      | none => return .fault node (.joinTarget text concept.name)
      | some (foundOn, relation) =>
        return joinThrough node text foundOn (← Rule.synth scope relation)
    | other => return .fault node (.joinField other.label)
  | ty => return .fault node (.joinOperand ty)

/-- The rule of synthesis for a node. -/
def synthRule (tree : Tree) (scope : Scope) (node : NodeId) : Rule Ty := do
  match ← tree.construct node with
  | .reference _ (.resolved target) => Rule.synth scope target
  | .reference text (.unresolved note) =>
      return .fault node (.unresolved text note)
  | .join left field => tree.synthJoin scope node left field
  | .stringLit _ => return .string (some node)
  | .boolLit _ => return .boolean (some node)
  | .intLit _ => return .integer (some node)
  | .var _ (some typeNode) _ => Rule.synth scope typeNode
  | .var _ none (some value) => Rule.synth scope value
  | .var name none none => return .fault node (.bareVar name.name)
  | .param name => tree.synthParam scope node name.name
  | .typedParam _ typeNode => Rule.synth scope typeNode
  | .keywordType keyword => return keywordType node keyword
  | .conceptType ref => tree.conceptType node ref
  | .concept name _ _ => return .concept ⟨node, name.name⟩
  | .relation name relatum => tree.synthRelation scope node name.name relatum
  | .binary op _ _ => synthBinary scope node op
  | .function name params signature _ =>
      synthFunction scope node name.name params signature
  | .call callee args => synthCall scope node callee args
  | .predicate _ params _ => tree.synthPredicate scope node params
  | .conditional _ _ _ =>
    return .fault node (.notInferable (Construct.conditional 0 0 0).label)

end Tree

end ConceptLang
