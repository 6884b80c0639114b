import ConceptLang.Span

/-!
# Constructs of the modelling language

A model is built from nodes, and what a node says is its *construct*: a
declaration (a concept, one of its relations, a function, a predicate, a
variable, a parameter), a type annotation or an expression. Constructs do not
contain each other; they name their parts by the identities of the nodes that
hold them. `Construct.children` lists these parts in source order.
-/

namespace ConceptLang

/-- The identity of a node in its tree: its position in the order of
creation. -/
abbrev NodeId := Nat

/-- A node identity is shown with a leading number sign. -/
def NodeId.text (id : NodeId) : String :=
  "#" ++ toString id

/-- A declared name and where it stands. -/
structure Ident where
  name : String
  span : Span
deriving DecidableEq, Repr, Inhabited

/-- Whether a name occurrence is linked to a declaration. A linker that gave up
leaves a note. -/
inductive Link where
  | resolved (target : NodeId)
  | unresolved (note : Option String)
deriving DecidableEq, Repr, Inhabited

namespace Link

/-- The link of a name that nobody has looked up yet. -/
def pending : Link := .unresolved none

/-- The declaration that a link leads to. -/
def target? : Link → Option NodeId
  | .resolved target => some target
  | .unresolved _ => none

/-- Whether a link leads to a declaration. -/
def isResolved : Link → Bool
  | .resolved _ => true
  | .unresolved _ => false

end Link

/-- The binary operators, from the loosest to the tightest. -/
inductive Operator where
  | or | and
  | eq | ne | lt | gt | le | ge
  | add | sub | mul | div | mod
deriving DecidableEq, Repr, Inhabited

namespace Operator

/-- All operators, in the order of their declaration. -/
def all : List Operator :=
  [.or, .and, .eq, .ne, .lt, .gt, .le, .ge, .add, .sub, .mul, .div, .mod]

/-- How an operator is written. -/
def symbol : Operator → String
  | .or => "or"
  | .and => "and"
  | .eq => "=="
  | .ne => "!="
  | .lt => "<"
  | .gt => ">"
  | .le => "<="
  | .ge => ">="
  | .add => "+"
  | .sub => "-"
  | .mul => "*"
  | .div => "/"
  | .mod => "%"

/-- The operator written as `symbol`. -/
def ofSymbol? (symbol : String) : Option Operator :=
  all.find? (·.symbol == symbol)

end Operator

/-- What a node says. Parts are named by node identities. -/
inductive Construct where
  /-- A concept with references to the concepts it extends, and its own
  relations. -/
  | concept (name : Ident) (parents relations : List NodeId)
  /-- A field of a concept, with the annotation of what it relates to. -/
  | relation (name : Ident) (relatum : NodeId)
  /-- A function. The signature is one annotation for each parameter and a last
  one for the result.
  -/
  | function (name : Ident) (params signature : List NodeId) (body : NodeId)
  /-- A predicate over typed parameters, perhaps without a body. -/
  | predicate (name : Ident) (params : List NodeId) (body : Option NodeId)
  /-- A formal parameter. -/
  | param (name : Ident)
  /-- A formal parameter together with its annotation. -/
  | typedParam (formal typeNode : NodeId)
  /-- A variable, perhaps with an annotation, perhaps with a value. -/
  | var (name : Ident) (typeNode value : Option NodeId)
  /-- A type annotation that is a keyword. -/
  | keywordType (keyword : String)
  /-- A type annotation that names a concept through a reference. -/
  | conceptType (ref : NodeId)
  /-- An occurrence of a name. -/
  | reference (text : String) (link : Link)
  /-- The field `field`, a reference, of what `left` denotes. -/
  | join (left field : NodeId)
  | stringLit (value : String)
  | boolLit (value : Bool)
  | intLit (value : Int)
  | binary (op : Operator) (lhs rhs : NodeId)
  /-- A call; the callee is a reference. -/
  | call (callee : NodeId) (args : List NodeId)
  | conditional (condition thenBranch elseBranch : NodeId)
deriving DecidableEq, Repr, Inhabited

namespace Construct

/-- The parts of a construct, in source order. -/
def children : Construct → List NodeId
  | .concept _ parents relations => parents ++ relations
  | .relation _ relatum => [relatum]
  | .function _ params signature body => params ++ signature ++ [body]
  | .predicate _ params body => params ++ body.toList
  | .typedParam formal typeNode => [formal, typeNode]
  | .var _ typeNode value => typeNode.toList ++ value.toList
  | .conceptType ref => [ref]
  | .join left field => [left, field]
  | .binary _ lhs rhs => [lhs, rhs]
  | .call callee args => callee :: args
  | .conditional condition thenBranch elseBranch =>
      [condition, thenBranch, elseBranch]
  | .param _ | .keywordType _ | .reference _ _ | .stringLit _ | .boolLit _
  | .intLit _ => []

/-- The name that a construct declares. -/
def ident? : Construct → Option Ident
  | .concept name _ _ | .relation name _ | .function name _ _ _
  | .predicate name _ _
  | .param name | .var name _ _ => some name
  | _ => none

/-- The text of the name that a construct declares. -/
def name? (construct : Construct) : Option String :=
  construct.ident?.map (·.name)

/-- How messages call a construct. -/
def label : Construct → String
  | .concept _ _ _ => "concept"
  | .relation _ _ => "relation"
  | .function _ _ _ _ => "function"
  | .predicate _ _ _ => "predicate"
  | .param _ => "parameter"
  | .typedParam _ _ => "typed parameter"
  | .var _ _ _ => "variable"
  | .keywordType _ | .conceptType _ => "annotation"
  | .reference _ _ => "reference"
  | .join _ _ => "join"
  | .stringLit _ => "string literal"
  | .boolLit _ => "boolean literal"
  | .intLit _ => "integer literal"
  | .binary _ _ _ => "binary expression"
  | .call _ _ => "call"
  | .conditional _ _ _ => "conditional"

/-- Whether a construct declares a concept. -/
def isConcept : Construct → Bool
  | .concept _ _ _ => true
  | _ => false

/-- Whether a construct binds parameters: a function or a predicate. -/
def isBinder : Construct → Bool
  | .function _ _ _ _ | .predicate _ _ _ => true
  | _ => false

/-- Whether a construct declares a variable. -/
def isVar : Construct → Bool
  | .var _ _ _ => true
  | _ => false

/-- Whether a construct is an occurrence of a name. -/
def isReference : Construct → Bool
  | .reference _ _ => true
  | _ => false

/-- The link of a name occurrence. -/
def link? : Construct → Option Link
  | .reference _ link => some link
  | _ => none

end Construct

end ConceptLang
