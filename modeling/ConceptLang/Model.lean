import ConceptLang.Linking.Basic
import ConceptLang.Report.Writer

/-!
# Checking a model

`Tree.checkModel` gives every top-level declaration a type, all in one pass, and
reports the type errors it comes to know. Where a declaration states a type,
what it declares is checked against it.

`Tree.linkAndCheck` links the tree first and also reports every reference that
stayed open, whether or not a declaration depends on it. A field of a join is
left out if the join is known to have failed for lack of it.
-/

namespace ConceptLang

/-- The diagnostic about a type problem. Only a missing rule is not an error. -/
def TypeError.diagnostic (tree : Tree) (error : TypeError) : Diagnostic :=
  let span := ((tree.get? error.node).map (·.span)).getD Span.unknown
  let severity := if error.kind = .notImplemented then Severity.warning else
    Severity.error
  .ofCode severity error.kind.code error.message error.node span

/-- A check under way: what its pass remembers, and what it has found. -/
structure Review where
  pass : Pass := {}
  log : Log
  declarations : List DeclSummary := []
  /-- The nodes and messages reported so far. -/
  reported : List (NodeId × String) := []

/-- A computation that carries on a check. -/
abbrev ReviewM := StateT Review (Except TreeError)

namespace Review

/-- Reports a type if it is an error, but the same message about the same node
only once. -/
def report (tree : Tree) (ty : Ty) (review : Review) : Review :=
  match ty with
  | .error e =>
    if review.reported.contains (e.node, e.message) then review
    else
      { review with
        log := review.log.push (e.diagnostic tree)
        reported := (e.node, e.message) :: review.reported }
  | _ => review

/-- Makes a computation of the pass. -/
def inPass {α : Type} (action : PassM α) : ReviewM α := do
  let review ← get
  let outcome : Except TreeError (α × Pass) := action.run review.pass
  let (result, pass) ← outcome
  set { review with pass }
  return result

/-- The result of a finished check. -/
def result (review : Review) : CheckResult :=
  .of review.declarations review.log

end Review

namespace Tree

/-- The type of a top-level declaration: checked if it states one, else
synthesised. Problems of the relations of a concept are reported on the way. -/
def declType (tree : Tree) (options : Options) (decl : NodeId) :
    ReviewM Ty := do
  let synth (node : NodeId) : ReviewM Ty :=
    Review.inPass (tree.synth options Scope.empty node)
  let check (node : NodeId) (expected : Ty) : ReviewM Ty :=
    Review.inPass (tree.check options Scope.empty node expected)
  match ← tree.construct decl with
  | .concept _ _ relations =>
    let ty ← synth decl
    relations.forM fun relation => do
      let ty ← synth relation
      modify (Review.report tree ty)
    return ty
  | .function _ _ _ _ =>
    let ty ← synth decl
    if ty.isFunction then check decl ty else return ty
  | .var _ (some typeNode) (some value) =>
    let ty ← synth typeNode
    if ty.isError then return ty else check value ty
  | _ => synth decl

/-- Checks a top-level declaration, reports its problems and sums it up. -/
def checkDecl (tree : Tree) (options : Options) (decl : NodeId) :
    ReviewM Unit := do
  let construct ← tree.construct decl
  let ty ← tree.declType options decl
  let name := construct.name?.getD "<anonymous>"
  let summary : DeclSummary :=
    ⟨decl, name, construct.label, ty.text, !ty.isError⟩
  modify fun review =>
    let review := review.report tree ty
    { review with declarations := review.declarations ++ [summary] }

/-- Whether a field reference is covered by what is known of its join: that it
failed because its left side is no concept, or has no such relation. -/
def coveredByJoin (tree : Tree) (pass : Pass) (ref : NodeId) :
    Except TreeError Bool := do
  match ← tree.contextOf ref with
  | .joinField join =>
    match pass.lookup Scope.empty join with
    | some (.error e) => return e.kind == .joinTarget || e.kind == .joinOperand
    | _ => return false
  | _ => return false

/-- Reports a reference that stayed open, unless its join is known to have
failed for lack of it. What was reported then need not be about the join. -/
def reportOpen (tree : Tree) (options : Options) (ref : NodeId) :
    ReviewM Unit := do
  if ← tree.coveredByJoin (← get).pass ref then
    return ()
  else
    let ty ← Review.inPass (tree.synth options Scope.empty ref)
    modify (Review.report tree ty)

/-- The check of the top-level declarations, and then of the references `refs`
that stayed open. -/
def review (tree : Tree) (options : Options) (refs : List NodeId) :
    Except TreeError CheckResult := do
  let action : ReviewM Unit := do
    tree.roots.forM (tree.checkDecl options)
    refs.forM (tree.reportOpen options)
  let (_, review) ← action.run { log := Log.withLimit options.maxDiagnostics }
  return review.result

/-- Checks every top-level declaration of a tree whose references are linked. -/
def checkModel (tree : Tree) (options : Options) :
    Except TreeError CheckResult :=
  tree.review options []

/-- Links a tree and checks it. -/
def linkAndCheck (tree : Tree) (options : Options) :
    Except TreeError (Tree × CheckResult) := do
  let (linked, report) ← tree.link options
  return (linked, ← linked.review options report.unresolved)

end Tree

end ConceptLang
