import ConceptLang.Tree.Basic
import ConceptLang.Ty.Fault

/-!
# Judgements and rules

There are two judgements about a node: `synth` asks for its type, and `check`
asks whether it has an expected type. Both are made in a scope, which holds the
types of bound parameters.

A typing rule settles a judgement with the help of others, its premises. The
type `Rule` describes a rule as it works: it has a conclusion, or it waits for
the type that settles a premise, or it waits for a stamp for a new relation
type, or it has met a defect of the tree. A rule does not say how its premises
are settled. `Rule.run` leaves that to its argument, so the same rules serve for
a pass that remembers what it has settled and for one that does not.
-/

namespace ConceptLang

/-- The types of bound parameters, the innermost binding first. -/
structure Scope where
  bindings : List (NodeId × Ty)
deriving Repr, Inhabited

namespace Scope

/-- The scope without bindings. -/
def empty : Scope := ⟨[]⟩

/-- The type that `node` is bound to. -/
def find? (scope : Scope) (node : NodeId) : Option Ty :=
  scope.bindings.lookup node

/-- The scope with further bindings. They hide earlier ones of the same node,
and among them the last one counts. -/
def extend (scope : Scope) (bindings : List (NodeId × Ty)) : Scope :=
  ⟨bindings.reverse ++ scope.bindings⟩

@[simp] theorem find?_empty (node : NodeId) : empty.find? node = none := rfl

/-- A node that is bound anew has the last of its new types, and any other node
keeps its own. -/
theorem find?_extend (scope : Scope) (bindings : List (NodeId × Ty))
    (node : NodeId) :
    (scope.extend bindings).find? node =
      (bindings.reverse.lookup node).or (scope.find? node) := by
  simp only [find?, extend]
  induction bindings.reverse with
  | nil => rfl
  | cons binding rest ih =>
      rw [List.cons_append, List.lookup_cons, List.lookup_cons, ih]
      cases node == binding.1 <;> rfl

end Scope

/-- What can be asked about a node. -/
inductive Judgement where
  /-- Which type does the node have? -/
  | synth (scope : Scope) (node : NodeId)
  /-- Does the node have this type? The answer is the type, or a type error. -/
  | check (scope : Scope) (node : NodeId) (expected : Ty)
deriving Repr, Inhabited

namespace Judgement

/-- The node that a judgement is about. -/
def node : Judgement → NodeId
  | .synth _ node => node
  | .check _ node _ => node

/-- The answer to a judgement that the scope alone gives. -/
def bound? : Judgement → Option Ty
  | .synth scope node => scope.find? node
  | .check _ _ _ => none

end Judgement

/-- A typing rule at work. -/
inductive Rule (α : Type) where
  | conclude (result : α)
  | defect (error : TreeError)
  | premise (judgement : Judgement) (next : Ty → Rule α)
  | stamp (decl : NodeId) (next : Nat → Rule α)

namespace Rule

/-- Goes on with `f` where the rule has its conclusion. -/
def bind {α β : Type} : Rule α → (α → Rule β) → Rule β
  | .conclude result, f => f result
  | .defect error, _ => .defect error
  | .premise judgement next, f => .premise judgement fun ty => (next ty).bind f
  | .stamp decl next, f => .stamp decl fun n => (next n).bind f

instance : Monad Rule where
  pure := .conclude
  bind := .bind

theorem bind_conclude {α : Type} (rule : Rule α) :
    rule.bind .conclude = rule := by
  induction rule with
  | conclude result => rfl
  | defect error => rfl
  | premise judgement next ih => simp only [bind, ih]
  | stamp decl next ih => simp only [bind, ih]

theorem bind_assoc {α β γ : Type} (rule : Rule α) (f : α → Rule β)
    (g : β → Rule γ) :
    (rule.bind f).bind g = rule.bind fun a => (f a).bind g := by
  induction rule with
  | conclude result => rfl
  | defect error => rfl
  | premise judgement next ih => simp only [bind, ih]
  | stamp decl next ih => simp only [bind, ih]

/-- A look at the tree as a rule. -/
def ofExcept {α : Type} : Except TreeError α → Rule α
  | .ok a => .conclude a
  | .error error => .defect error

instance : MonadLift (Except TreeError) Rule where
  monadLift := ofExcept

/-- Asks for the type of a node. -/
def synth (scope : Scope) (node : NodeId) : Rule Ty :=
  .premise (.synth scope node) .conclude

/-- Asks whether a node has a type. -/
def check (scope : Scope) (node : NodeId) (expected : Ty) : Rule Ty :=
  .premise (.check scope node expected) .conclude

/-- Asks for the stamp of a new type of the relation `decl`. -/
def freshStamp (decl : NodeId) : Rule Nat :=
  .stamp decl .conclude

/-- Runs a rule, where `settle` settles its premises and `mint` gives out
stamps. -/
def run {m : Type → Type} [Monad m] [MonadExceptOf TreeError m] {α : Type}
    (mint : NodeId → m Nat) (settle : Judgement → m Ty) : Rule α → m α
  | .conclude result => pure result
  | .defect error => throw error
  | .premise judgement next => do (next (← settle judgement)).run mint settle
  | .stamp decl next => do (next (← mint decl)).run mint settle

/-- A rule that goes on runs its first part, and then what that part leads
to. -/
theorem run_bind {m : Type → Type} [Monad m] [LawfulMonad m]
    [MonadExceptOf TreeError m] {α β : Type} (mint : NodeId → m Nat)
    (settle : Judgement → m Ty) (rule : Rule α) (f : α → Rule β)
    (hthrow : ∀ (error : TreeError) (k : α → m β),
      (throw error : m α) >>= k = throw error) :
    (rule.bind f).run mint settle =
      rule.run mint settle >>= fun a => (f a).run mint settle := by
  induction rule with
  | conclude result => simp only [bind, run, pure_bind]
  | defect error => simp only [bind, run, hthrow]
  | premise judgement next ih =>
      simp only [bind, run, LawfulMonad.bind_assoc, ih]
  | stamp decl next ih => simp only [bind, run, LawfulMonad.bind_assoc, ih]

end Rule

end ConceptLang
