import ConceptLang.Typing.Synthesis

/-!
# Rules of checking

These rules say whether a node has an expected type. The answer is the expected
type if it has, and a type error if not. Operators, functions and conditionals
have rules of their own; for any other construct the type found by synthesis is
compared with the expected one.
-/

namespace ConceptLang

namespace Tree

/-- Both operands of an operator must have the type expected of the whole. -/
def checkBinary (scope : Scope) (node : NodeId) (op : Operator)
    (lhs rhs : NodeId) (expected : Ty) :
    Rule Ty := do
  let left ← Rule.check scope lhs expected
  if left.isRecursion then
    return left
  else
    let right ← Rule.check scope rhs expected
    if right.isRecursion then
      return right
    else if left.same expected && right.same expected then
      return expected
    else
      let left ← Rule.synth scope lhs
      let right ← Rule.synth scope rhs
      return .fault node (.operands op left right expected)

/-- A function has a function type if its body has the result type when its
parameters have the types that the function type gives them. -/
def checkFunction (scope : Scope) (node : NodeId) (name : String)
    (body : NodeId) (expected : Ty) :
    Rule Ty := do
  match expected with
  | .function params result =>
    match ← Rule.check (scope.extend params) body result with
    | .error e => return .error e
    | _ => return expected
  | _ => return .fault node (.functionExpected name expected)

/-- A conditional has a type if both its branches have it and its condition is a
truth value. -/
def checkConditional (scope : Scope)
    (node condition thenBranch elseBranch : NodeId) (expected : Ty) :
    Rule Ty := do
  let conditionTy ← Rule.synth scope condition
  let thenTy ← Rule.synth scope thenBranch
  let elseTy ← Rule.synth scope elseBranch
  if !conditionTy.isBoolean then
    return .fault node (.condition conditionTy)
  else if !thenTy.same expected then
    return .fault node (.thenBranch thenTy expected)
  else if !elseTy.same expected then
    return .fault node (.elseBranch elseTy expected)
  else
    return expected

/-- The type found by synthesis must be the expected one. -/
def checkBySynthesis (scope : Scope) (node : NodeId) (expected : Ty) :
    Rule Ty := do
  let actual ← Rule.synth scope node
  if actual.same expected then
    return expected
  else
    return .fault node (.mismatch expected actual)

/-- The rule of checking for a node. -/
def checkRule (tree : Tree) (scope : Scope) (node : NodeId) (expected : Ty) :
    Rule Ty := do
  match ← tree.construct node with
  | .binary op lhs rhs => checkBinary scope node op lhs rhs expected
  | .function name _ _ body => checkFunction scope node name.name body expected
  | .predicate _ _ _ => return .fault node .predicateBody
  | .conditional condition thenBranch elseBranch =>
    checkConditional scope node condition thenBranch elseBranch expected
  | _ => checkBySynthesis scope node expected

/-- The rule that settles a judgement. -/
def rule (tree : Tree) : Judgement → Rule Ty
  | .synth scope node => tree.synthRule scope node
  | .check scope node expected => tree.checkRule scope node expected

end Tree

end ConceptLang
