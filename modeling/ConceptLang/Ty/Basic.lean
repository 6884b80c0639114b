import ConceptLang.Tree.Construct

/-!
# Types of nodes

Every node can be given a type. A type problem is a type too, so it can stand
wherever a type is expected and the work goes on around it. Types remember the
nodes they came from.

`Ty.same` is the only comparison of types, and there is no subtyping. It looks
at what a type means: literals, parameter nodes and the names of concepts do not
matter. Concepts are the same if they are the same declaration. A relation
carries a stamp, given anew each time a relation type is made, and relations are
the same only if their stamps are. Type errors are the same if they say the same
about the same node.
-/

namespace ConceptLang

/-- The sorts of type problem. -/
inductive ErrorKind where
  /-- A name was never linked. -/
  | unresolved
  /-- An annotation names no type. -/
  | unknownType
  /-- Parameters, arguments or annotations differ in number. -/
  | arity
  /-- The field of a join is declared on no ancestor of its left side. -/
  | joinTarget
  /-- The left side of a join is not a concept. -/
  | joinOperand
  /-- A relation stands outside a concept. -/
  | relationContainer
  /-- A type differs from the expected one. -/
  | mismatch
  /-- What is called is not a function. -/
  | notCallable
  /-- No rule gives the node a type. -/
  | notInferable
  /-- The rule that would apply does not exist yet. -/
  | notImplemented
  /-- A type depends on itself, or on too many others in a row. -/
  | recursion
  /-- Two parts of the checker disagree. -/
  | internal
deriving DecidableEq, Repr, Inhabited

/-- A type problem at a node. -/
structure TypeError where
  node : NodeId
  kind : ErrorKind
  message : String
deriving DecidableEq, Repr, Inhabited

/-- A concept as a type: its declaration and its name. -/
structure Concept where
  decl : NodeId
  name : String
deriving DecidableEq, Repr, Inhabited

/-- The type of a node. A basic type keeps the literal that it is the type
of. -/
inductive Ty where
  | boolean (literal : Option NodeId)
  | string (literal : Option NodeId)
  | integer (literal : Option NodeId)
  | unit
  /-- Parameter nodes with their types, and the type of the result. -/
  | function (params : List (NodeId × Ty)) (result : Ty)
  /-- Parameter nodes with their types; the result is a truth value. -/
  | predicate (params : List (NodeId × Ty))
  | concept (concept : Concept)
  /-- A field of the concept `owner`; `stamp` tells relation types apart. -/
  | relation (stamp : Nat) (decl : NodeId) (name : String) (owner : Concept)
      (relatum : Ty)
  | error (error : TypeError)
deriving Repr, Inhabited

/-- Two type errors are the same if they say the same about the same node. -/
def TypeError.same (e f : TypeError) : Bool :=
  e.node == f.node && e.message == f.message

/-- The declared type of the parameter `param` in a parameter list. -/
def paramType? (params : List (NodeId × Ty)) (param : NodeId) : Option Ty :=
  params.lookup param

namespace Ty

mutual

/-- Whether two types are the same type. -/
def same : Ty → Ty → Bool
  | .boolean _, .boolean _ => true
  | .string _, .string _ => true
  | .integer _, .integer _ => true
  | .unit, .unit => true
  | .function ps a, .function qs b => sameParams ps qs && same a b
  | .predicate ps, .predicate qs => sameParams ps qs
  | .concept c, .concept d => c.decl == d.decl
  | .relation s _ _ _ _, .relation t _ _ _ _ => s == t
  | .error e, .error f => e.same f
  | _, _ => false

/-- Whether two parameter lists have the same types in the same order. -/
def sameParams : List (NodeId × Ty) → List (NodeId × Ty) → Bool
  | [], [] => true
  | (_, a) :: ps, (_, b) :: qs => same a b && sameParams ps qs
  | _, _ => false

end

/-- The problem that a type stands for. -/
def error? : Ty → Option TypeError
  | .error e => some e
  | _ => none

/-- Whether a type stands for a problem. -/
def isError : Ty → Bool
  | .error _ => true
  | _ => false

/-- Whether a type is that of truth values. -/
def isBoolean : Ty → Bool
  | .boolean _ => true
  | _ => false

/-- Whether a type is that of a function. -/
def isFunction : Ty → Bool
  | .function _ _ => true
  | _ => false

/-- Whether a type stands for a problem of recursion. -/
def isRecursion : Ty → Bool
  | .error e => e.kind == .recursion
  | _ => false

mutual

/-- How a type is shown. -/
def text : Ty → String
  | .boolean _ => "Boolean"
  | .string _ => "String"
  | .integer _ => "Integer"
  | .unit => "Unit"
  | .function params result =>
      "(" ++ ", ".intercalate (paramTexts params) ++ ") => " ++ text result
  | .predicate params => "pred(" ++ ", ".intercalate (paramTexts params) ++ ")"
  | .concept c => c.name
  | .relation _ _ name owner relatum =>
      name ++ ": " ++ owner.name ++ " -> " ++ text relatum
  | .error e => "Error(" ++ e.message ++ ")"

/-- How the types of a parameter list are shown. -/
def paramTexts : List (NodeId × Ty) → List String
  | [] => []
  | (_, ty) :: params => text ty :: paramTexts params

end

end Ty

end ConceptLang
