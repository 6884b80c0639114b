import Std.Data.TreeMap
import ConceptLang.Options
import ConceptLang.Typing.Checking

/-!
# Passes that remember

A pass settles judgements by the typing rules and remembers what it has settled.
A synthesised type is kept for its node and never worked out again; it is kept
without the scope in which it arose. The outcome of a check is kept for its node
and the expected type. Both hold for type errors too.

A pass also keeps watch over the recursion. A node whose type is asked for while
it is being worked out gets a type error, and so does a judgement with more than
`Options.maxDepth` unfinished judgements before it. Neither of these two errors
is kept for the node at which it arises.

`Tree.settlePlainly` is the same use of the rules without memory and without
watch. It says nothing if the rules need more than a given number of judgements
in a row.
-/

namespace ConceptLang

/-- The synthesised types of nodes. -/
abbrev Cache := Std.TreeMap NodeId Ty

/-- The outcomes of checks: for each node the expected types with their
outcomes, the oldest first. -/
abbrev Memo := Std.TreeMap NodeId (List (Ty × Ty))

/-- How often a pass found a type in its memory, and how often it had to work
one out. -/
structure Counters where
  cacheHits : Nat := 0
  inferences : Nat := 0
deriving DecidableEq, Repr, Inhabited

/-- What a pass remembers. -/
structure Pass where
  cache : Cache := ∅
  memo : Memo := ∅
  counters : Counters := {}
  /-- The number of stamps given out; also the next stamp. -/
  stamps : Nat := 0

/-- A computation that uses and extends what a pass remembers. -/
abbrev PassM := StateT Pass (Except TreeError)

namespace Pass

/-- The type known for a node: that of a bound parameter, or a synthesised
one. -/
def lookup (pass : Pass) (scope : Scope) (node : NodeId) : Option Ty :=
  (scope.find? node).or pass.cache[node]?

/-- The outcome known for a check. Of several expected types that are the same,
the oldest counts. -/
def recalled? (pass : Pass) (node : NodeId) (expected : Ty) : Option Ty :=
  (((pass.memo[node]?).getD []).find? (·.1.same expected)).map (·.2)

/-- Notes that a type was found in memory. -/
def countHit (pass : Pass) : Pass :=
  { pass with counters.cacheHits := pass.counters.cacheHits + 1 }

/-- Keeps a type for a node. -/
def store (pass : Pass) (node : NodeId) (ty : Ty) : Pass :=
  { pass with cache := pass.cache.insert node ty }

/-- Keeps a synthesised type for its node. -/
def recordType (pass : Pass) (node : NodeId) (ty : Ty) : Pass :=
  { pass.store node ty with
    counters.inferences := pass.counters.inferences + 1 }

/-- Keeps the outcome of a check. -/
def recordCheck (pass : Pass) (node : NodeId) (expected outcome : Ty) : Pass :=
  { pass with
    memo := pass.memo.insert node
      (((pass.memo[node]?).getD []) ++ [(expected, outcome)]) }

/-- Keeps the answer to a judgement. -/
def record (pass : Pass) : Judgement → Ty → Pass
  | .synth _ node, ty => pass.recordType node ty
  | .check _ node expected, ty => pass.recordCheck node expected ty

/-- Gives out a stamp. -/
def mint : PassM Nat :=
  modifyGet fun pass => (pass.stamps, { pass with stamps := pass.stamps + 1 })

end Pass

/-- The nodes whose types are being worked out while a judgement is. -/
def Judgement.enter (busy : List NodeId) : Judgement → List NodeId
  | .synth _ node => node :: busy
  | .check _ _ _ => busy

namespace Tree

/-- The answer to a judgement that needs no rule: a remembered one, or the error
that a type being worked out depends on itself. -/
def settled? (tree : Tree) (busy : List NodeId) : Judgement → PassM (Option Ty)
  | .synth scope node => do
    match (← get).lookup scope node with
    | some ty =>
      modify (·.countHit)
      return some ty
    | none =>
      if busy.contains node then
        return some (.fault node (.cyclic (← tree.construct node).label))
      else
        return none
  | .check _ node expected => return (← get).recalled? node expected

/-- Settles a judgement. There is room for `room` more unfinished judgements, of
`limit` in all, and `busy` are the nodes whose types are being worked out. -/
def settle (tree : Tree) (limit room : Nat) (busy : List NodeId)
    (judgement : Judgement) :
    PassM Ty := do
  match ← tree.settled? busy judgement with
  | some ty => return ty
  | none =>
    match room with
    | 0 => return .fault judgement.node (.tooDeep limit)
    | room + 1 =>
      let ty ← (tree.rule judgement).run (fun _ => Pass.mint)
        (tree.settle limit room (judgement.enter busy))
      modify (·.record judgement ty)
      return ty

/-- Settles a judgement that no other one depends on. -/
def judge (tree : Tree) (options : Options) (judgement : Judgement) :
    PassM Ty :=
  tree.settle options.maxDepth options.maxDepth [] judgement

/-- The type of a node. -/
def synth (tree : Tree) (options : Options) (scope : Scope) (node : NodeId) :
    PassM Ty :=
  tree.judge options (.synth scope node)

/-- Whether a node has the expected type: that type, or a type error. -/
def check (tree : Tree) (options : Options) (scope : Scope) (node : NodeId)
    (expected : Ty) :
    PassM Ty :=
  tree.judge options (.check scope node expected)

/-- Settles a judgement by the rules alone, with at most `steps` judgements in a
row. A relation type is stamped with its declaration. -/
def settlePlainly (tree : Tree) (steps : Nat) (judgement : Judgement) :
    ExceptT TreeError Option Ty :=
  match steps with
  | 0 => (none : Option (Except TreeError Ty))
  | steps + 1 =>
    match judgement.bound? with
    | some ty => pure ty
    | none => (tree.rule judgement).run pure (tree.settlePlainly steps)

end Tree

end ConceptLang
