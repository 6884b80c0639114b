import ConceptLang.Tree.Walk
import ConceptLang.Typing.Pass

/-!
# Candidates of a name

Where a reference stands decides what it may name. A parent or an annotation
names a concept, a callee a function or a predicate, the field of a join a
relation of its left side, and any other reference a parameter in scope or a
top-level declaration. Only for the field of a join do types matter; for all
other references the candidates are their lexical scope.
-/

namespace ConceptLang

/-- What a reference may name. -/
inductive RefContext where
  /-- A relation of the left side of this join. -/
  | joinField (join : NodeId)
  /-- A concept. -/
  | concept
  /-- A function or a predicate. -/
  | callee
  /-- A parameter in scope, or else a top-level declaration. -/
  | value
deriving DecidableEq, Repr, Inhabited

/-- What a part `ref` of the node `above` may name. -/
def RefContext.ofPart (above ref : NodeId) : Construct → RefContext
  | .join _ field => if field = ref then .joinField above else .value
  | .concept _ parents _ => if parents.contains ref then .concept else .value
  | .conceptType _ => .concept
  | .call called _ => if called = ref then .callee else .value
  | _ => .value

namespace Tree

/-- What the reference `ref` may name, by where it stands. -/
def contextOf (tree : Tree) (ref : NodeId) : Except TreeError RefContext := do
  match ← tree.parent ref with
  | none => return .value
  | some above => return RefContext.ofPart above ref (← tree.construct above)

/-- The nodes among `ids` whose constructs are of the kind `keep`. -/
def select (tree : Tree) (keep : Construct → Bool) :
    List NodeId → Except TreeError (List NodeId)
  | [] => .ok []
  | id :: ids => do
    let construct ← tree.construct id
    let rest ← tree.select keep ids
    return if keep construct then id :: rest else rest

/-- The top-level declarations of the kind `keep`, with their names. -/
def topLevel (tree : Tree) (keep : Construct → Bool) :
    Except TreeError (List (String × NodeId)) := do
  tree.named (← tree.select keep tree.roots)

/-- The parameter that a parameter of a predicate declares. -/
def untyped (tree : Tree) (param : NodeId) : Except TreeError NodeId := do
  match ← tree.construct param with
  | .typedParam formal _ => return formal
  | _ => return param

/-- The parameters that a function or predicate declares. -/
def formals (tree : Tree) (binder : NodeId) :
    Except TreeError (List NodeId) := do
  match ← tree.construct binder with
  | .function _ params _ _ => return params
  | .predicate _ params _ => params.mapM tree.untyped
  | _ => return []

/-- The parameters of the function or predicate around the node `id`, with their
names. -/
def paramsInScope (tree : Tree) (id : NodeId) :
    Except TreeError (List (String × NodeId)) := do
  match ← tree.container id with
  | none => return []
  | some binder => tree.named (← tree.formals binder)

/-- What the reference `ref` may name in a context that does not depend on
types, the most preferred first. -/
def lexicalScope (tree : Tree) (ref : NodeId) :
    RefContext → Except TreeError (List (String × NodeId))
  | .joinField _ => return []
  | .concept => tree.topLevel (·.isConcept)
  | .callee => tree.topLevel (·.isBinder)
  | .value => do
    let params ← tree.paramsInScope ref
    let decls ← tree.topLevel fun construct =>
      construct.isConcept || construct.isBinder || construct.isVar
    return params ++ decls

/-- The relations visible on a concept, with their names. -/
def relationCandidates (tree : Tree) (concept : NodeId) :
    Except TreeError (List (String × NodeId)) := do
  let relations ← tree.visibleRelations concept
  tree.named (relations.map (·.2))

/-- The relations that the field of a join may name: those visible on the
concept on its left. -/
def joinCandidates (tree : Tree) (options : Options) (scope : Scope)
    (join : NodeId) :
    PassM (List (String × NodeId)) := do
  match ← tree.construct join with
  | .join left _ =>
    match ← tree.synth options scope left with
    | .concept concept => tree.relationCandidates concept.decl
    | _ => return []
  | _ => return []

/-- What the reference `ref` may name, the most preferred first. -/
def candidates (tree : Tree) (options : Options) (scope : Scope)
    (ref : NodeId) :
    PassM (List (String × NodeId)) := do
  match ← tree.contextOf ref with
  | .joinField join => tree.joinCandidates options scope join
  | context => tree.lexicalScope ref context

/-- The declaration that the reference `ref` names. -/
def resolve (tree : Tree) (options : Options) (scope : Scope) (ref : NodeId) :
    PassM (Option NodeId) := do
  match ← tree.construct ref with
  | .reference text _ =>
      return (← tree.candidates options scope ref).lookup text
  | _ => return none

end Tree

end ConceptLang
