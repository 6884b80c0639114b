import ConceptLang.Linking.Candidates

/-!
# Linking

Linking gives every reference below the top-level declarations its target, by
name. What the field of a join may name depends on types, and types depend on
the links made before, so linking goes over the open references again and again
until a round links none of them. Every look-up starts a pass that remembers
nothing, since a type found before a link was made may be wrong after it.

References that stay open get a note, and are reported.
-/

namespace ConceptLang

/-- The outcome of linking. -/
structure LinkReport where
  /-- How many references were linked. -/
  resolved : Nat
  /-- The references that stayed open, in tree order. -/
  unresolved : List NodeId
  /-- How many rounds it took. -/
  rounds : Nat
deriving DecidableEq, Repr, Inhabited

/-- Whether no reference stayed open. -/
def LinkReport.isComplete (report : LinkReport) : Bool :=
  report.unresolved.isEmpty

/-- The note on a reference that names nothing. -/
def unresolvedNote (text : String) : String :=
  "could not resolve reference to '" ++ text ++ "'"

/-- Whether a construct is a reference without a target. -/
def Construct.isOpen (construct : Construct) : Bool :=
  construct.link?.any fun link => !link.isResolved

namespace Tree

/-- The declaration that the reference `ref` names, found by a pass of its
own. -/
def resolveAfresh (tree : Tree) (options : Options) (ref : NodeId) :
    Except TreeError (Option NodeId) :=
  (tree.resolve options Scope.empty ref).run' {}

/-- One round over the open references: the tree with those linked that can be,
and the others. -/
def linkRound (options : Options) (tree : Tree) :
    List NodeId → Except TreeError (Tree × List NodeId)
  | [] => .ok (tree, [])
  | ref :: refs => do
    match ← tree.resolveAfresh options ref with
    | some target =>
        linkRound options (← tree.setLink ref (.resolved target)) refs
    | none =>
      let (tree, others) ← linkRound options tree refs
      return (tree, ref :: others)

/-- Rounds over the open references until one of them links nothing or nothing
is open. Also tells the number of rounds, after `rounds` earlier ones. -/
def linkRounds (options : Options) (tree : Tree) (refs : List NodeId)
    (rounds : Nat) :
    Except TreeError (Tree × List NodeId × Nat) :=
  if refs.isEmpty then
    .ok (tree, refs, rounds)
  else
    match linkRound options tree refs with
    | .error e => .error e
    | .ok (tree, others) =>
      if others.length < refs.length then
        linkRounds options tree others (rounds + 1)
      else
        .ok (tree, others, rounds + 1)
termination_by refs.length

/-- Leaves a note on each of the open references. -/
def noteUnresolved (tree : Tree) : List NodeId → Except TreeError Tree
  | [] => .ok tree
  | ref :: refs => do
    match ← tree.construct ref with
    | .reference text _ =>
      noteUnresolved
        (← tree.setLink ref (.unresolved (some (unresolvedNote text)))) refs
    | _ => noteUnresolved tree refs

/-- Links every open reference below the top-level declarations. -/
def link (tree : Tree) (options : Options) :
    Except TreeError (Tree × LinkReport) := do
  let opened ← tree.select (·.isOpen) (← tree.references)
  let (linked, others, rounds) ← linkRounds options tree opened 0
  let noted ← linked.noteUnresolved others
  return (noted, ⟨opened.length - others.length, others, rounds⟩)

end Tree

end ConceptLang
