import ConceptLang.Tree.Basic

/-!
# Drafting a tree

A draft is a tree under construction, from the leaves up, for models that have
no source text. Every node, and before it the name it declares, is given a line
of its own, so that all of them can be told apart by their spans. Names are as
wide as their UTF-8 form; everything else has width one.

A `Draft.Step` makes one node, and the references and parameters that belong to
it before it. Concepts, functions, predicates and variables become top-level
declarations. References start without a target; `Draft.link` gives them one.
-/

namespace ConceptLang

/-- A tree under construction and the number of lines used so far. -/
structure Draft where
  tree : Tree
  line : Nat
deriving DecidableEq, Repr, Inhabited

namespace Draft

/-- The draft without nodes. -/
def empty : Draft := ⟨Tree.empty, 0⟩

/-- A computation that adds to a draft. -/
abbrev Drafting := StateM Draft

/-- Takes the next line for something of the given width; nothing is narrower
than one column. -/
def takeLine (width : Nat) : Drafting Span := do
  let line := (← get).line + 1
  modify fun draft => { draft with line }
  return ⟨line, 1, line, max 1 width⟩

/-- Puts a declared name on a line of its own. -/
def takeName (name : String) : Drafting Ident :=
  return ⟨name, ← takeLine name.utf8ByteSize⟩

/-- Adds a node on a line of its own. -/
def place (construct : Construct) : Drafting NodeId := do
  let span ← takeLine ((construct.name?.map (·.utf8ByteSize)).getD 1)
  let id := (← get).tree.size
  modify fun draft => { draft with tree := draft.tree.add construct span }
  return id

/-- Adds a node that is a top-level declaration. -/
def declare (construct : Construct) : Drafting NodeId := do
  let id ← place construct
  modify fun draft => { draft with tree := draft.tree.addRoot id }
  return id

/-- An occurrence of a name, not linked yet. -/
def reference (text : String) : Drafting NodeId :=
  place (.reference text .pending)

/-- A parameter. -/
def param (name : String) : Drafting NodeId := do
  let name ← takeName name
  place (.param name)

/-- The field `field` of `left`. -/
def join (left : NodeId) (field : String) : Drafting NodeId := do
  let field ← reference field
  place (.join left field)

/-- What one step of a draft adds. -/
inductive Step where
  | reference (text : String)
  | keywordType (keyword : String)
  /-- An annotation that names a concept, and its reference. -/
  | conceptType (name : String)
  | relation (name : String) (relatum : NodeId)
  /-- A concept that extends others by name. -/
  | concept (name : String) (parents : List String) (relations : List NodeId)
  /-- A function over new parameters. -/
  | function (name : String) (params : List String) (signature : List NodeId)
      (body : NodeId)
  | param (name : String)
  /-- A new parameter with an annotation. -/
  | typedParam (name : String) (typeNode : NodeId)
  | predicate (name : String) (params : List NodeId) (body : Option NodeId)
  | var (name : String) (typeNode value : Option NodeId)
  | stringLit (value : String)
  | boolLit (value : Bool)
  | intLit (value : Int)
  | binary (op : Operator) (lhs rhs : NodeId)
  /-- A call of a function by name. -/
  | call (callee : String) (args : List NodeId)
  | join (left : NodeId) (field : String)
  /-- A chain of joins `root.field₁.field₂…`, nested to the left. -/
  | path (root : String) (fields : List String)
  | conditional (condition thenBranch elseBranch : NodeId)
deriving DecidableEq, Repr, Inhabited

/-- Makes the nodes of one step and gives the identity of the last one. -/
def Step.perform : Step → Drafting NodeId
  | .reference text => Draft.reference text
  | .keywordType keyword => place (.keywordType keyword)
  | .conceptType name => do
    let ref ← Draft.reference name
    place (.conceptType ref)
  | .relation name relatum => do
    let name ← takeName name
    place (.relation name relatum)
  | .concept name parents relations => do
    let parents ← parents.mapM Draft.reference
    let name ← takeName name
    declare (.concept name parents relations)
  | .function name params signature body => do
    let params ← params.mapM Draft.param
    let name ← takeName name
    declare (.function name params signature body)
  | .param name => Draft.param name
  | .typedParam name typeNode => do
    let formal ← Draft.param name
    place (.typedParam formal typeNode)
  | .predicate name params body => do
    let name ← takeName name
    declare (.predicate name params body)
  | .var name typeNode value => do
    let name ← takeName name
    declare (.var name typeNode value)
  | .stringLit value => place (.stringLit value)
  | .boolLit value => place (.boolLit value)
  | .intLit value => place (.intLit value)
  | .binary op lhs rhs => place (.binary op lhs rhs)
  | .call callee args => do
    let callee ← Draft.reference callee
    place (.call callee args)
  | .join left field => Draft.join left field
  | .path root fields => do
    let start ← Draft.reference root
    fields.foldlM Draft.join start
  | .conditional condition thenBranch elseBranch =>
    place (.conditional condition thenBranch elseBranch)

/-- Links a reference to a declaration directly, whatever their names. -/
def link (draft : Draft) (ref target : NodeId) : Except TreeError Draft := do
  return { draft with tree := ← draft.tree.setLink ref (.resolved target) }

end Draft

end ConceptLang
