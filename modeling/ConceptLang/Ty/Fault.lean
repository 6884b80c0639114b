import ConceptLang.Ty.Basic

/-!
# Causes of type problems

`Fault` lists everything that a typing rule can find wrong with a node.
`Fault.kind` sorts the causes and `Fault.message` puts them into words.
`Ty.fault` makes the type of a node at which the cause arose.
-/

namespace ConceptLang

/-- What is wrong with a node, with what its message mentions. -/
inductive Fault where
  /-- The name `text` is not linked; a linker may have left a note. -/
  | unresolved (text : String) (note : Option String)
  /-- The type of the node, which is a `label`, depends on itself. -/
  | cyclic (label : String)
  /-- More than `limit` judgements depend on each other. -/
  | tooDeep (limit : Nat)
  /-- The variable `name` has neither annotation nor value. -/
  | bareVar (name : String)
  /-- The parameter `name` gets no type from the node around it. -/
  | bareParam (name : String)
  /-- The parameter `name` of a predicate has no annotation. -/
  | barePredicateParam (name : String)
  /-- The keyword is not a type. -/
  | unknownKeyword (keyword : String)
  /-- The annotation `text` names a `label` instead of a concept. -/
  | annotationOther (text label : String)
  /-- The annotation `text` names nothing. -/
  | annotationUnlinked (text : String)
  /-- The relation `name` is not part of a concept. -/
  | strayRelation (name : String)
  /-- The function `name` has a wrong number of annotations. -/
  | signatureLength (name : String) (params annotations : Nat)
  /-- What is called has this type instead of a function type. -/
  | notCallable (found : Ty)
  /-- A call has a wrong number of arguments. -/
  | argumentCount (expected found : Nat)
  /-- There is no rule that finds the type of a `label`. -/
  | notInferable (label : String)
  /-- There is no rule that finds the type of this operator's result. -/
  | operatorNotInferable (op : Operator)
  /-- The operands do not have the expected type. -/
  | operands (op : Operator) (left right expected : Ty)
  /-- The function `name` is expected to have this type, which is not a function
  type. -/
  | functionExpected (name : String) (found : Ty)
  /-- The condition of a conditional is not a truth value. -/
  | condition (found : Ty)
  /-- The first branch of a conditional does not have the expected type. -/
  | thenBranch (found expected : Ty)
  /-- The second branch of a conditional does not have the expected type. -/
  | elseBranch (found expected : Ty)
  /-- A node does not have the expected type. -/
  | mismatch (expected found : Ty)
  /-- The bodies of predicates are not looked at. -/
  | predicateBody
  /-- The left side of a join has this type instead of a concept. -/
  | joinOperand (found : Ty)
  /-- The field of a join is a `label` instead of a name. -/
  | joinField (label : String)
  /-- No relation `field` is visible on the concept `concept`. -/
  | joinTarget (field concept : String)
  /-- The relation `field` has a type that is not a relation type. -/
  | joinRelation (field : String) (found : Ty)
  /-- The relation `name` was found on another concept than the one that owns
  it. -/
  | joinOwner (name owner : String)
deriving Repr, Inhabited

namespace Fault

/-- The sort of a cause. -/
def kind : Fault → ErrorKind
  | .unresolved _ _ => .unresolved
  | .cyclic _ | .tooDeep _ => .recursion
  | .bareVar _ | .bareParam _ | .barePredicateParam _ | .notInferable _
  | .operatorNotInferable _ => .notInferable
  | .unknownKeyword _ | .annotationOther _ _ | .annotationUnlinked _ =>
      .unknownType
  | .strayRelation _ => .relationContainer
  | .signatureLength _ _ _ | .argumentCount _ _ => .arity
  | .notCallable _ => .notCallable
  | .operands _ _ _ _ | .functionExpected _ _ | .condition _ | .thenBranch _ _
  | .elseBranch _ _
  | .mismatch _ _ => .mismatch
  | .predicateBody => .notImplemented
  | .joinOperand _ => .joinOperand
  | .joinTarget _ _ => .joinTarget
  | .joinField _ | .joinRelation _ _ | .joinOwner _ _ => .internal

/-- A word between single quotation marks. -/
def quoted (word : String) : String :=
  "'" ++ word ++ "'"

/-- The wording of a cause. -/
def message : Fault → String
  | .unresolved text none => "unresolved reference " ++ quoted text
  | .unresolved text (some note) =>
      "unresolved reference " ++ quoted text ++ ": " ++ note
  | .cyclic label =>
      "cyclic reference: type of " ++ label ++ " depends on itself"
  | .tooDeep limit => "recursion limit of " ++ toString limit ++ " exceeded"
  | .bareVar name =>
      "variable " ++ quoted name ++ " has neither a type annotation nor a value"
  | .bareParam name =>
    "parameter " ++ quoted name ++
      " is not a parameter of a function or lacks a type annotation"
  | .barePredicateParam name =>
      "predicate parameter " ++ quoted name ++ " lacks a type annotation"
  | .unknownKeyword keyword =>
      "annotation " ++ quoted keyword ++ " not recognized"
  | .annotationOther text label =>
    "annotation " ++ quoted text ++ " not recognized: it names a " ++ label ++
      ", not a concept"
  | .annotationUnlinked text =>
      "annotation " ++ quoted text ++ " not found (linking issue)"
  | .strayRelation name =>
      "relation " ++ quoted name ++ " must have a concept as parent"
  | .signatureLength name params annotations =>
    "parameter count mismatch: function " ++ quoted name ++ " has " ++
      toString params ++ " parameters but " ++ toString annotations ++
        " parameter types"
  | .notCallable found => "expected a function type, found " ++ found.text
  | .argumentCount expected found =>
    "expected " ++ toString expected ++ " arguments, found " ++ toString found
  | .notInferable label => "type cannot be inferred for " ++ label
  | .operatorNotInferable op =>
      "type of operator " ++ quoted op.symbol ++ " cannot be inferred"
  | .operands op left right expected =>
    "operands of " ++ quoted op.symbol ++ " have types " ++ left.text ++
      " and " ++ right.text ++ ", expected " ++ expected.text
  | .functionExpected name found =>
    "function " ++ quoted name ++
      " must be annotated with a function type, found " ++ found.text
  | .condition found =>
    "conditional does not conform: condition has type " ++ found.text ++
      ", expected Boolean"
  | .thenBranch found expected =>
    "conditional does not conform: then branch has type " ++ found.text ++
      ", expected " ++ expected.text
  | .elseBranch found expected =>
    "conditional does not conform: else branch has type " ++ found.text ++
      ", expected " ++ expected.text
  | .mismatch expected found =>
    "type error: expected " ++ expected.text ++ ", found " ++ found.text
  | .predicateBody => "predicate body checking is not yet implemented"
  | .joinOperand found =>
      "left side of a join must be a concept, not " ++ found.text
  | .joinField label => "right side of a join must be a name, not a " ++ label
  | .joinTarget field concept =>
      "relatum " ++ quoted field ++ " not found in " ++ concept
  | .joinRelation field found =>
    "expected " ++ quoted field ++ " to have a relation type, found " ++
      found.text
  | .joinOwner name owner =>
    "join should have worked: " ++ quoted name ++ " is owned by " ++ owner

/-- The problem that arises when a node has a fault. -/
def toError (fault : Fault) (node : NodeId) : TypeError :=
  ⟨node, fault.kind, fault.message⟩

end Fault

/-- The type of a node with a fault. -/
def Ty.fault (node : NodeId) (fault : Fault) : Ty :=
  .error (fault.toError node)

end ConceptLang
