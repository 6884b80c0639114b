import ConceptLang.Tree.Construct

/-!
# Trees of nodes

A tree holds every node of one model in the order of creation, and the list of
its top-level declarations. Nodes are only ever added. Adding a node makes it
the parent of those of its children that are already there, so a node's parent
is the last node that adopted it. The one change after creation is to the link
of a reference.

Nothing is checked when a node is added: a construct may name nodes that come
later, do not exist, or are the node itself. Looking up a node that does not
exist is an error (`TreeError.unknownNode`), and every operation that needs the
node passes it on.
-/

namespace ConceptLang

/-- Why an operation on a tree has no answer. -/
inductive TreeError where
  /-- There is no node with this identity. -/
  | unknownNode (id : NodeId)
  /-- Only a reference can be linked. -/
  | notAReference (id : NodeId)
  /-- A walk along the tree comes back to where it was, so it never ends. -/
  | endless (id : NodeId)
deriving DecidableEq, Repr, Inhabited

/-- The wording of a tree error. -/
def TreeError.message : TreeError → String
  | .unknownNode id => "unknown node " ++ NodeId.text id
  | .notAReference id => "node " ++ NodeId.text id ++ " is not a reference"
  | .endless id => "node " ++ NodeId.text id ++ " is nested without end"

/-- A node: what it says, which node it is a part of, and where it stands. -/
structure Node where
  construct : Construct
  parent : Option NodeId
  span : Span
deriving DecidableEq, Repr, Inhabited

/-- All nodes of one model, and which of them are its top-level declarations. -/
structure Tree where
  nodes : Array Node
  roots : List NodeId
deriving DecidableEq, Repr, Inhabited

namespace Tree

/-- The tree without nodes. -/
def empty : Tree := ⟨#[], []⟩

/-- How many nodes a tree has; also the identity of the next one. -/
def size (tree : Tree) : Nat := tree.nodes.size

/-- The node with a given identity. -/
def get? (tree : Tree) (id : NodeId) : Option Node := tree.nodes[id]?

/-- The node with a given identity, which has to exist. -/
def node (tree : Tree) (id : NodeId) : Except TreeError Node :=
  match tree.get? id with
  | some node => .ok node
  | none => .error (.unknownNode id)

theorem node_eq_ok_iff (tree : Tree) (id : NodeId) (node : Node) :
    tree.node id = .ok node ↔ tree.get? id = some node := by
  rw [Tree.node]
  cases tree.get? id <;> simp

/-- What the node `id` says. -/
def construct (tree : Tree) (id : NodeId) : Except TreeError Construct :=
  (tree.node id).map (·.construct)

/-- The node that `id` is a part of. -/
def parent (tree : Tree) (id : NodeId) : Except TreeError (Option NodeId) :=
  (tree.node id).map (·.parent)

/-- The parts of the node `id`. -/
def children (tree : Tree) (id : NodeId) : Except TreeError (List NodeId) :=
  (tree.construct id).map (·.children)

/-- The name that the node `id` declares. -/
def nameOf (tree : Tree) (id : NodeId) : Except TreeError (Option String) :=
  (tree.construct id).map (·.name?)

/-- The declaration that the node `id` is linked to, if it is a linked
reference. -/
def target (tree : Tree) (id : NodeId) : Except TreeError (Option NodeId) :=
  (tree.construct id).map (fun construct => construct.link?.bind (·.target?))

/-- Makes `parent` the parent of `child`, if there is such a node. -/
def adopt (parent : NodeId) (nodes : Array Node) (child : NodeId) :
    Array Node :=
  nodes.modify child (fun node => { node with parent := some parent })

/-- Adds a node, which becomes the parent of its children. The new node has the
identity `tree.size`. -/
def add (tree : Tree) (construct : Construct) (span : Span) : Tree :=
  { tree with
    nodes := (construct.children.foldl (adopt tree.size) tree.nodes).push
      ⟨construct, none, span⟩ }

@[simp] theorem size_adopt (parent child : NodeId) (nodes : Array Node) :
    (adopt parent nodes child).size = nodes.size := by
  simp [adopt]

theorem size_foldl_adopt (parent : NodeId) (children : List NodeId)
    (nodes : Array Node) :
    (children.foldl (adopt parent) nodes).size = nodes.size := by
  induction children generalizing nodes with
  | nil => rfl
  | cons child children ih => rw [List.foldl_cons, ih, size_adopt]

@[simp] theorem size_add (tree : Tree) (construct : Construct) (span : Span) :
    (tree.add construct span).size = tree.size + 1 := by
  simp only [size, add, Array.size_push, size_foldl_adopt]

/-- A new node is found under the identity that was free before it. -/
theorem get?_add_size (tree : Tree) (construct : Construct) (span : Span) :
    (tree.add construct span).get? tree.size =
      some ⟨construct, none, span⟩ := by
  simp only [get?, add, Array.getElem?_push, size_foldl_adopt, size, if_true]

/-- Makes `id` the last of the top-level declarations. -/
def addRoot (tree : Tree) (id : NodeId) : Tree :=
  { tree with roots := tree.roots ++ [id] }

/-- Replaces the construct of the node `id`, if there is such a node. -/
def putConstruct (tree : Tree) (id : NodeId) (construct : Construct) : Tree :=
  { tree with nodes :=
    tree.nodes.modify id (fun node => { node with construct }) }

@[simp] theorem size_putConstruct (tree : Tree) (id : NodeId)
    (construct : Construct) :
    (tree.putConstruct id construct).size = tree.size := by
  simp [size, putConstruct]

/-- Sets the link of a reference. The target of a resolved link has to be a node
of the tree; this is looked at first. -/
def setLink (tree : Tree) (id : NodeId) (link : Link) :
    Except TreeError Tree := do
  if let some target := link.target? then
    discard (tree.node target)
  match ← tree.construct id with
  | .reference text _ => return tree.putConstruct id (.reference text link)
  | _ => throw (.notAReference id)

/-- The references of a tree in the order of creation, each with what it is
linked to. -/
def links (tree : Tree) : List (NodeId × Option NodeId) :=
  (List.range tree.size).filterMap fun id =>
    match (tree.get? id).bind (·.construct.link?) with
    | some link => some (id, link.target?)
    | none => none

end Tree

end ConceptLang
