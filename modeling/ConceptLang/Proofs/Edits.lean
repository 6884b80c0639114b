import ConceptLang.Proofs.Relinking
import ConceptLang.Tree.Draft

/-!
# Sequences of edits

A tree is changed in three ways only: a node is added, a node is made a
top-level declaration, or the link of a reference is set (`Tree.Edit`). An edit
that is refused changes nothing. The trees that sequences of edits make from the
empty tree are the grown trees, and no edit changes what a node says but for its
link.

Drafting is editing: each call on a draft amounts to a sequence of edits of its
tree (`Draft.exists_edits_run`).
-/

namespace ConceptLang

namespace Tree

/-- One change of a tree. -/
inductive Edit where
  | add (construct : Construct) (span : Span)
  | addRoot (id : NodeId)
  | setLink (id : NodeId) (link : Link)
deriving DecidableEq, Repr, Inhabited

/-- The tree after an edit. A link that cannot be set leaves it as it is. -/
def edit (tree : Tree) : Edit → Tree
  | .add construct span => tree.add construct span
  | .addRoot id => tree.addRoot id
  | .setLink id link =>
    match tree.setLink id link with
    | .ok linked => linked
    | .error _ => tree

/-- The tree after a sequence of edits. -/
def edited (tree : Tree) (edits : List Edit) : Tree :=
  edits.foldl edit tree

section Edits

variable {tree : Tree}

@[simp] theorem edited_nil (tree : Tree) : tree.edited [] = tree := rfl

@[simp] theorem edited_cons (tree : Tree) (edit : Edit) (edits : List Edit) :
    tree.edited (edit :: edits) = (tree.edit edit).edited edits := rfl

theorem edited_append (tree : Tree) (edits edits' : List Edit) :
    tree.edited (edits ++ edits') = (tree.edited edits).edited edits' :=
  List.foldl_append

theorem Grown.edit (h : tree.Grown) (edit : Edit) : (tree.edit edit).Grown := by
  cases edit with
  | add construct span => exact .add construct span h
  | addRoot id => exact .addRoot id h
  | setLink id link =>
      rw [Tree.edit]
      cases hset : tree.setLink id link with
      | ok linked => exact .setLink id link h hset
      | error e => exact h

theorem Grown.edited (h : tree.Grown) (edits : List Edit) :
    (tree.edited edits).Grown := by
  induction edits generalizing tree with
  | nil => exact h
  | cons edit edits ih => exact ih (h.edit edit)

/-- The grown trees are those that edits make. -/
theorem grown_iff_edited (tree : Tree) :
    tree.Grown ↔ ∃ edits, empty.edited edits = tree := by
  constructor
  · intro h
    induction h with
    | empty => exact ⟨[], rfl⟩
    | add construct span _ ih =>
        obtain ⟨edits, rfl⟩ := ih
        exact ⟨edits ++ [.add construct span], edited_append _ _ _⟩
    | addRoot id _ ih =>
        obtain ⟨edits, rfl⟩ := ih
        exact ⟨edits ++ [.addRoot id], edited_append _ _ _⟩
    | setLink id link _ hset ih =>
        obtain ⟨edits, rfl⟩ := ih
        refine ⟨edits ++ [.setLink id link], (edited_append _ _ _).trans ?_⟩
        rw [edited_cons, Tree.edit, hset, edited_nil]
  · rintro ⟨edits, rfl⟩
    exact Grown.empty.edited edits

/-- An edit keeps what a node says, but perhaps for its link. -/
theorem construct_edit {id : NodeId} {construct : Construct}
    (h : tree.construct id = .ok construct) (edit : Edit) :
    ∃ construct', (tree.edit edit).construct id = .ok construct' ∧
      construct'.unlinked = construct.unlinked := by
  cases edit with
  | add added span =>
      obtain ⟨node, hnode, rfl⟩ := (construct_eq_ok_iff tree id construct).mp h
      have hget := get?_add_of_lt tree added span id (lt_size_of_get? hnode)
      rw [hnode, Option.map_some] at hget
      refine ⟨node.construct, (construct_eq_ok_iff _ id _).mpr ⟨_, hget, ?_⟩,
        rfl⟩
      split <;> rfl
  | addRoot root => exact ⟨construct, h, rfl⟩
  | setLink ref link =>
      rw [Tree.edit]
      cases hset : tree.setLink ref link with
      | error e => exact ⟨construct, h, rfl⟩
      | ok linked =>
          obtain ⟨text, old, href, rfl⟩ := setLink_eq_ok hset
          rcases (sameShape_putConstruct href link).construct id with
            heq | ⟨text, link, link', heq, heq'⟩
          · exact ⟨construct, heq ▸ h, rfl⟩
          · obtain rfl := Except.ok.inj (h.symm.trans heq)
            exact ⟨_, heq', rfl⟩

theorem construct_edited {id : NodeId} {construct : Construct}
    (h : tree.construct id = .ok construct) (edits : List Edit) :
    ∃ construct', (tree.edited edits).construct id = .ok construct' ∧
      construct'.unlinked = construct.unlinked := by
  induction edits generalizing tree construct with
  | nil => exact ⟨construct, h, rfl⟩
  | cons edit edits ih =>
      obtain ⟨middle, hmiddle, heq⟩ := construct_edit h edit
      obtain ⟨last, hlast, heq'⟩ := ih hmiddle
      exact ⟨last, hlast, heq'.trans heq⟩

end Edits

end Tree

/-! ### Drafting -/

namespace Draft

/-- What can be asked of a draft: to make the nodes of a step, or to link a
reference. -/
inductive Call where
  | step (step : Step)
  | link (ref target : NodeId)
deriving DecidableEq, Repr, Inhabited

/-- The draft after a call. A link that cannot be set leaves it as it is. -/
def call (draft : Draft) : Call → Draft
  | .step step => (step.perform draft).2
  | .link ref target =>
    match draft.link ref target with
    | .ok linked => linked
    | .error _ => draft

/-- The draft after a sequence of calls. -/
def run (draft : Draft) (calls : List Call) : Draft :=
  calls.foldl call draft

/-- What the computation does to the tree of a draft amounts to a sequence of
edits. -/
def Edits {α : Type} (action : Drafting α) : Prop :=
  ∀ draft, ∃ edits, (action draft).2.tree = draft.tree.edited edits

section Edits

variable {α β : Type}

theorem Edits.pure (a : α) : Edits (pure a : Drafting α) := fun _ => ⟨[], rfl⟩

theorem Edits.bind {action : Drafting α} {next : α → Drafting β}
    (h : Edits action) (hnext : ∀ a, Edits (next a)) :
    Edits (action >>= next) := by
  intro draft
  obtain ⟨edits, hedits⟩ := h draft
  obtain ⟨edits', hedits'⟩ := hnext (action draft).1 (action draft).2
  refine ⟨edits ++ edits', ?_⟩
  rw [Tree.edited_append, ← hedits, ← hedits']
  rfl

theorem Edits.mapM {action : α → Drafting β} (h : ∀ a, Edits (action a))
    (as : List α) :
    Edits (as.mapM action) := by
  induction as with
  | nil => exact .pure _
  | cons a as ih =>
      rw [List.mapM_cons]
      exact (h a).bind fun b => ih.bind fun bs => .pure _

theorem Edits.foldlM {action : β → α → Drafting β}
    (h : ∀ b a, Edits (action b a)) (as : List α) (start : β) :
    Edits (as.foldlM action start) := by
  induction as generalizing start with
  | nil => exact .pure _
  | cons a as ih =>
      rw [List.foldlM_cons]
      exact (h start a).bind ih

theorem edits_takeLine (width : Nat) :
    Edits (takeLine width) := fun _ => ⟨[], rfl⟩

theorem edits_takeName (name : String) : Edits (takeName name) :=
  (edits_takeLine _).bind fun _ => .pure _

theorem edits_place (construct : Construct) : Edits (place construct) :=
  (edits_takeLine _).bind fun span _ => ⟨[.add construct span], rfl⟩

theorem edits_declare (construct : Construct) : Edits (declare construct) :=
  (edits_place construct).bind fun id _ => ⟨[.addRoot id], rfl⟩

theorem edits_reference (text : String) : Edits (Draft.reference text) :=
  edits_place _

theorem edits_param (name : String) : Edits (Draft.param name) :=
  (edits_takeName name).bind fun _ => edits_place _

theorem edits_join (left : NodeId) (field : String) :
    Edits (Draft.join left field) :=
  (edits_reference field).bind fun _ => edits_place _

/-- Each step is a sequence of edits. -/
theorem edits_perform (step : Step) : Edits step.perform := by
  cases step with
  | reference text => exact edits_reference text
  | conceptType name => exact (edits_reference name).bind fun _ => edits_place _
  | relation name relatum =>
      exact (edits_takeName name).bind fun _ => edits_place _
  | concept name parents relations =>
      exact (Edits.mapM edits_reference parents).bind fun _ =>
        (edits_takeName name).bind fun _ => edits_declare _
  | function name params signature body =>
      exact (Edits.mapM edits_param params).bind fun _ =>
        (edits_takeName name).bind fun _ => edits_declare _
  | param name => exact edits_param name
  | typedParam name typeNode =>
      exact (edits_param name).bind fun _ => edits_place _
  | predicate name params body =>
      exact (edits_takeName name).bind fun _ => edits_declare _
  | var name typeNode value =>
      exact (edits_takeName name).bind fun _ => edits_declare _
  | call callee args =>
      exact (edits_reference callee).bind fun _ => edits_place _
  | join left field => exact edits_join left field
  | path root fields =>
      exact (edits_reference root).bind fun start =>
        Edits.foldlM edits_join fields start
  | keywordType | stringLit | boolLit | intLit | binary | conditional =>
      exact edits_place _

theorem exists_edits_call (draft : Draft) (call : Call) :
    ∃ edits, (draft.call call).tree = draft.tree.edited edits := by
  cases call with
  | step step => exact edits_perform step draft
  | link ref target =>
      refine ⟨[.setLink ref (.resolved target)], ?_⟩
      rw [Draft.call, Draft.link, Tree.edited_cons, Tree.edited_nil, Tree.edit]
      cases draft.tree.setLink ref (.resolved target) <;> rfl

/-- A sequence of calls is a sequence of edits. -/
theorem exists_edits_run (draft : Draft) (calls : List Call) :
    ∃ edits, (draft.run calls).tree = draft.tree.edited edits := by
  induction calls generalizing draft with
  | nil => exact ⟨[], rfl⟩
  | cons call calls ih =>
      obtain ⟨edits, hedits⟩ := exists_edits_call draft call
      obtain ⟨edits', hedits'⟩ := ih (draft.call call)
      refine ⟨edits ++ edits', ?_⟩
      rw [Tree.edited_append, ← hedits, ← hedits']
      rfl

end Edits

end Draft

end ConceptLang
