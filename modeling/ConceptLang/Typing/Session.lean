import ConceptLang.Typing.Pass

/-!
# Sessions

A session asks one judgement after the other about a tree. It has several
caches, each shared by all environments that were derived from one fresh
environment; the outcomes of checks, the counters and the stamps belong to the
session as a whole.
-/

namespace ConceptLang

/-- A place to make judgements in: the number of a cache, and a scope. -/
structure Environment where
  cache : Nat
  scope : Scope
deriving Repr, Inhabited

/-- The environment with further bindings and the same cache. -/
def Environment.extend (env : Environment) (bindings : List (NodeId × Ty)) :
    Environment :=
  { env with scope := env.scope.extend bindings }

/-- A tree, and all that has been settled about it so far. -/
structure Session where
  tree : Tree
  options : Options
  caches : Array Cache := #[]
  memo : Memo := ∅
  counters : Counters := {}
  stamps : Nat := 0

namespace Session

/-- The pass that an environment shows of a session. -/
def pass (session : Session) (env : Environment) : Pass :=
  ⟨session.caches.getD env.cache ∅, session.memo, session.counters,
    session.stamps⟩

/-- The session after a pass in an environment. -/
def withPass (session : Session) (env : Environment) (pass : Pass) : Session :=
  { session with
    caches := session.caches.setIfInBounds env.cache pass.cache
    memo := pass.memo
    counters := pass.counters
    stamps := pass.stamps }

/-- Makes a computation in an environment. -/
def run {α : Type} (session : Session) (env : Environment) (action : PassM α) :
    Except TreeError (α × Session) := do
  let (result, pass) ← action.run (session.pass env)
  return (result, session.withPass env pass)

/-- A new environment with a cache of its own. -/
def newEnvironment (session : Session) : Environment × Session :=
  (⟨session.caches.size, Scope.empty⟩,
    { session with caches := session.caches.push ∅ })

/-- The type of a node. -/
def synth (session : Session) (env : Environment) (node : NodeId) :
    Except TreeError (Ty × Session) :=
  session.run env (session.tree.synth session.options env.scope node)

/-- Whether a node has the expected type. -/
def check (session : Session) (env : Environment) (node : NodeId)
    (expected : Ty) :
    Except TreeError (Ty × Session) :=
  session.run env (session.tree.check session.options env.scope node expected)

/-- The type known for a node. -/
def lookup (session : Session) (env : Environment) (node : NodeId) :
    Option Ty :=
  (session.pass env).lookup env.scope node

/-- Puts a type into the cache of an environment. -/
def set (session : Session) (env : Environment) (node : NodeId) (ty : Ty) :
    Session :=
  session.withPass env ((session.pass env).store node ty)

/-- Forgets the outcomes of checks and the counts, and goes on with other
options. What the environments know stays. -/
def reset (session : Session) (options : Options) : Session :=
  { session with options, memo := ∅, counters := {} }

end Session

end ConceptLang
