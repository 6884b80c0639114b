import Mathlib.Data.List.Induction
import ConceptLang.Proofs.LinkRuns
import ConceptLang.Proofs.ParentChains

/-!
# Drafts are proper trees

A call on a draft is given the parts of what it makes by their identities, and
nothing keeps it from being given the same part twice or a node that does not
exist. But if all parts are nodes that earlier calls have answered with, and
none is given twice, then the draft is a tree in the strict sense: parts come
before the node they belong to, and to be the parent of a node is to name it as
a part (`Draft.run_proper`).

One invariant carries this through all calls (`Draft.Proper`). It keeps an
account of the nodes that are *loose*: they have been made and are not a part of
anything yet. A computation uses some loose nodes up and leaves others behind
(`Draft.Keeps`). What is hidden inside a step, such as the parameters of a
function, is left behind by one computation and used up by the next.
-/

namespace ConceptLang

/-! ### Outlines -/

/-- What of a node stays as it is made: its parts, the name that it declares,
and its span. -/
structure Outline where
  parts : List NodeId
  name? : Option Ident
  span : Span

/-- The lines of the declared name and of the node. -/
def Outline.lines (outline : Outline) : List Nat :=
  (outline.name?.map (·.span.line)).toList ++ [outline.span.line]

/-- The node stands on one line, and its name on the line before. -/
structure Outline.Placed (outline : Outline) : Prop where
  flat : outline.span.endLine = outline.span.line
  name : ∀ name, outline.name? = some name →
    name.span.endLine = name.span.line ∧ name.span.line + 1 = outline.span.line

theorem Outline.Placed.pairwise_lines {outline : Outline} (h : outline.Placed) :
    outline.lines.Pairwise (· < ·) := by
  obtain ⟨parts, name?, span⟩ := outline
  cases name? with
  | none => simp [Outline.lines]
  | some name =>
      have hname := (h.name name rfl).2
      simp only [Outline.lines, Option.map_some, Option.toList_some,
        List.cons_append, List.nil_append, List.pairwise_pair]
      exact hname ▸ Nat.lt_succ_self _

/-- The outline of a node that says `construct`. -/
def Construct.outline (construct : Construct) (span : Span) : Outline :=
  ⟨construct.children, construct.ident?, span⟩

namespace Tree

/-- The outlines of all nodes, in the order of creation. -/
def outlines (tree : Tree) : List Outline :=
  tree.nodes.toList.map fun node => node.construct.outline node.span

/-- The lines of all declared names and nodes, in the order of creation. -/
def lines (tree : Tree) : List Nat :=
  tree.outlines.flatMap Outline.lines

section Outlines

variable {tree : Tree}

@[simp] theorem length_outlines (tree : Tree) :
    tree.outlines.length = tree.size := by
  simp [outlines, size]

theorem getElem?_outlines (tree : Tree) (id : NodeId) :
    tree.outlines[id]? = (tree.get? id).map fun node =>
      node.construct.outline node.span := by
  simp [outlines, get?]

theorem getElem?_outlines_of_get? {id : NodeId} {node : Node}
    (h : tree.get? id = some node) :
    tree.outlines[id]? = some (node.construct.outline node.span) := by
  rw [getElem?_outlines, h, Option.map_some]

/-- What holds of the outlines pairwise holds of those of two nodes, in the
order of creation. -/
theorem outlines_of_lt {rel : Outline → Outline → Prop}
    (h : tree.outlines.Pairwise rel) {id id' : NodeId} {node node' : Node}
    (hnode : tree.get? id = some node) (hnode' : tree.get? id' = some node')
    (hlt : id < id') :
    rel (node.construct.outline node.span)
      (node'.construct.outline node'.span) := by
  obtain ⟨hid, heq⟩ :=
    List.getElem?_eq_some_iff.mp (getElem?_outlines_of_get? hnode)
  obtain ⟨hid', heq'⟩ :=
    List.getElem?_eq_some_iff.mp (getElem?_outlines_of_get? hnode')
  have hrel := List.pairwise_iff_getElem.mp h id id' hid hid' hlt
  rwa [heq, heq'] at hrel

theorem outlines_add (tree : Tree) (construct : Construct) (span : Span) :
    (tree.add construct span).outlines =
      tree.outlines ++ [construct.outline span] := by
  have hadopted :
      (construct.children.foldl (adopt tree.size) tree.nodes).toList.map
        (fun node => node.construct.outline node.span) = tree.outlines := by
    refine List.ext_getElem? fun id => ?_
    rw [getElem?_outlines, List.getElem?_map, Array.getElem?_toList,
      get?_foldl_adopt, Option.map_map, get?]
    congr 1
    funext node
    simp only [Function.comp_apply]
    split <;> rfl
  rw [outlines, add, Array.toList_push, List.map_append, hadopted]
  rfl

theorem outlines_setLink {linked : Tree} {ref : NodeId} {link : Link}
    (h : tree.setLink ref link = .ok linked) :
    linked.outlines = tree.outlines := by
  obtain ⟨text, old, href, rfl⟩ := setLink_eq_ok h
  obtain ⟨node, hnode, hconstruct⟩ := (construct_eq_ok_iff tree ref _).mp href
  refine List.ext_getElem? fun id => ?_
  rw [getElem?_outlines, getElem?_outlines, get?_putConstruct, Option.map_map]
  by_cases hid : id = ref
  · subst hid
    simp [hnode, hconstruct, Construct.outline, Construct.children,
      Construct.ident?]
  · simp [hid, Function.comp_def]

/-- A node that was not there before says what was added. -/
theorem construct_add {construct : Construct} {span : Span} {id : NodeId}
    {found : Construct}
    (h : (tree.add construct span).construct id = .ok found) :
    tree.construct id = .ok found ∨ id = tree.size ∧ found = construct := by
  obtain ⟨node, hnode, rfl⟩ := (construct_eq_ok_iff _ id found).mp h
  have hlt := lt_size_of_get? hnode
  rw [size_add] at hlt
  rcases Nat.lt_succ_iff_lt_or_eq.mp hlt with hlt | rfl
  · rw [get?_add_of_lt tree construct span id hlt] at hnode
    obtain ⟨old, hold, rfl⟩ := Option.map_eq_some_iff.mp hnode
    refine Or.inl ((construct_of_get? hold).trans ?_)
    split <;> rfl
  · rw [get?_add_size] at hnode
    cases hnode
    exact Or.inr ⟨rfl, rfl⟩

end Outlines

end Tree

namespace Draft

/-! ### What is kept by all calls -/

/-- The nodes that a step is given as parts. -/
def Step.passed : Step → List NodeId
  | .relation _ relatum => [relatum]
  | .concept _ _ relations => relations
  | .function _ _ signature body => signature ++ [body]
  | .typedParam _ typeNode => [typeNode]
  | .predicate _ params body => params ++ body.toList
  | .var _ typeNode value => typeNode.toList ++ value.toList
  | .binary _ lhs rhs => [lhs, rhs]
  | .call _ args => args
  | .join left _ => [left]
  | .conditional condition thenBranch elseBranch =>
      [condition, thenBranch, elseBranch]
  | .reference _ | .keywordType _ | .conceptType _ | .param _ | .stringLit _
  | .boolLit _
  | .intLit _ | .path _ _ => []

/-- Whether a step makes a top-level declaration. -/
def Step.isDeclaration : Step → Bool
  | .concept _ _ _ | .function _ _ _ _ | .predicate _ _ _ | .var _ _ _ => true
  | _ => false

/-- The nodes that a call is given as parts. -/
def Call.passed : Call → List NodeId
  | .step made => made.passed
  | .link _ _ => []

/-- The nodes that calls answer with, of those steps that are wanted. -/
def answers (wanted : Step → Bool) (draft : Draft) : List Call → List NodeId
  | [] => []
  | .step step :: calls =>
    (if wanted step then [(step.perform draft).1] else []) ++
      answers wanted (draft.call (.step step)) calls
  | .link ref target :: calls =>
      answers wanted (draft.call (.link ref target)) calls

/-- What holds of a draft after some calls. The nodes that are no part of
another one and can be passed as one are `loose`, and `roots` are the top-level
declarations. -/
structure Proper (draft : Draft) (calls : List Call)
    (roots loose : List NodeId) : Prop where
  before : ∀ (id : NodeId) (outline : Outline),
    draft.tree.outlines[id]? = some outline →
    ∀ part ∈ outline.parts, part < id
  once : (draft.tree.outlines.flatMap (·.parts) ++ loose).Nodup
  inside : ∀ id ∈ loose, id < draft.tree.size
  placed : ∀ outline ∈ draft.tree.outlines, outline.Placed
  increasing : draft.tree.lines.Pairwise (· < ·)
  used : ∀ line ∈ draft.tree.lines, line ≤ draft.line
  roots_eq : draft.tree.roots = roots
  linked : ∀ ref text target,
    draft.tree.construct ref = .ok (.reference text (.resolved target)) →
    .link ref target ∈ calls ∧ target < draft.tree.size

namespace Proper

variable {draft : Draft} {calls : List Call} {roots loose : List NodeId}

theorem empty : Draft.empty.Proper [] [] [] := by
  constructor
  all_goals simp [Draft.empty, Tree.empty, Tree.outlines, Tree.lines,
    Tree.construct, Tree.node, Tree.get?, Except.map]

theorem perm (h : draft.Proper calls roots loose) {loose' : List NodeId}
    (hperm : loose.Perm loose') : draft.Proper calls roots loose' :=
  { h with
    once := ((List.perm_append_left_iff _).mpr hperm).nodup_iff.mp h.once
    inside := fun id hid => h.inside id (hperm.mem_iff.mpr hid) }

theorem addRoot (h : draft.Proper calls roots loose) (id : NodeId) :
    Proper ⟨draft.tree.addRoot id, draft.line⟩ calls (roots ++ [id]) loose :=
  { h with roots_eq := congrArg (· ++ [id]) h.roots_eq }

/-- All that is a part or loose is a node of the tree. -/
theorem lt_size (h : draft.Proper calls roots loose) :
    ∀ part ∈ draft.tree.outlines.flatMap (·.parts) ++ loose,
      part < draft.tree.size := by
  intro part hpart
  rcases List.mem_append.mp hpart with hpart | hpart
  · obtain ⟨outline, houtline, hpart⟩ := List.mem_flatMap.mp hpart
    obtain ⟨id, hid, rfl⟩ := List.mem_iff_getElem.mp houtline
    have hlt := h.before id _ (List.getElem?_eq_getElem hid) part hpart
    rw [Tree.length_outlines] at hid
    exact Nat.lt_trans hlt hid
  · exact h.inside part hpart

/-- A node is added that takes the next lines. Its parts were loose before, and
now it is. -/
theorem add {construct : Construct}
    (h : draft.Proper calls roots (construct.children ++ loose))
    (hpending : ∀ text target, construct ≠ .reference text (.resolved target))
    {span : Span} (hplaced : (construct.outline span).Placed)
    (hnext : ∀ line ∈ (construct.outline span).lines, draft.line < line ∧
      line ≤ span.line) :
    Proper ⟨draft.tree.add construct span, span.line⟩ calls roots
      (draft.tree.size :: loose) := by
  have hlines : (draft.tree.add construct span).lines =
      draft.tree.lines ++ (construct.outline span).lines := by
    rw [Tree.lines, Tree.outlines_add, List.flatMap_append,
      List.flatMap_singleton]
    rfl
  have hline : draft.line < span.line :=
    (hnext span.line (by simp [Outline.lines, Construct.outline])).1
  constructor
  case before =>
    intro id outline houtline part hpart
    rw [Tree.outlines_add, List.getElem?_append, Tree.length_outlines]
      at houtline
    split at houtline
    · exact h.before id outline houtline part hpart
    · next hid =>
        have hnew := List.mem_singleton.mp (List.mem_of_getElem? houtline)
        subst hnew
        have hlt := h.inside part (List.mem_append_left _ hpart)
        exact Nat.lt_of_lt_of_le hlt (Nat.le_of_not_lt hid)
  case once =>
    have hfresh : draft.tree.size ∉
        draft.tree.outlines.flatMap (·.parts) ++
          (construct.children ++ loose) :=
      fun hmem => Nat.lt_irrefl _ (h.lt_size _ hmem)
    rw [Tree.outlines_add, List.flatMap_append, List.flatMap_singleton]
    refine List.perm_middle.nodup_iff.mpr (List.nodup_cons.mpr ?_)
    rw [List.append_assoc]
    exact ⟨hfresh, h.once⟩
  case inside =>
    rw [Tree.size_add]
    refine List.forall_mem_cons.mpr ⟨Nat.lt_succ_self _, fun id hid => ?_⟩
    exact Nat.lt_succ_of_lt (h.inside id (List.mem_append_right _ hid))
  case placed =>
    intro outline houtline
    rw [Tree.outlines_add] at houtline
    rcases List.mem_append.mp houtline with hold | hnew
    · exact h.placed outline hold
    · rwa [List.mem_singleton.mp hnew]
  case increasing =>
    rw [hlines, List.pairwise_append]
    refine ⟨h.increasing, hplaced.pairwise_lines, fun line hold next hnew => ?_⟩
    exact Nat.lt_of_le_of_lt (h.used line hold) (hnext next hnew).1
  case used =>
    intro line hmem
    rw [hlines] at hmem
    rcases List.mem_append.mp hmem with hold | hnew
    · exact Nat.le_of_lt (Nat.lt_of_le_of_lt (h.used line hold) hline)
    · exact (hnext line hnew).2
  case roots_eq => exact h.roots_eq
  case linked =>
    intro ref text target href
    rw [Tree.size_add]
    rcases Tree.construct_add href with hold | ⟨-, hnew⟩
    · obtain ⟨hcall, hlt⟩ := h.linked ref text target hold
      exact ⟨hcall, Nat.lt_succ_of_lt hlt⟩
    · exact absurd hnew.symm (hpending text target)

theorem mono (h : draft.Proper calls roots loose) (call : Call) :
    draft.Proper (calls ++ [call]) roots loose :=
  { h with
    linked := fun ref text target href =>
      (h.linked ref text target href).imp_left (List.mem_append_left _) }

/-- A link is set, if that is possible. -/
theorem link (h : draft.Proper calls roots loose) (ref target : NodeId) :
    (draft.call (.link ref target)).Proper (calls ++ [.link ref target]) roots
      loose := by
  have hmono := h.mono (.link ref target)
  rw [call, Draft.link]
  cases hset : draft.tree.setLink ref (.resolved target) with
  | error e => exact hmono
  | ok linked =>
      have houtlines := Tree.outlines_setLink hset
      have hshape := Tree.sameShape_of_setLink hset
      have hlines : linked.lines = draft.tree.lines := by
        rw [Tree.lines, houtlines, Tree.lines]
      change Proper ⟨linked, draft.line⟩ _ _ _
      constructor
      case before => exact houtlines ▸ h.before
      case once => exact houtlines ▸ h.once
      case inside => exact hshape.size ▸ h.inside
      case placed => exact houtlines ▸ h.placed
      case increasing => exact hlines ▸ h.increasing
      case used => exact hlines ▸ h.used
      case roots_eq => exact hshape.roots ▸ h.roots_eq
      case linked =>
        intro other text found hother
        rw [← hshape.size]
        by_cases heq : other = ref
        · subst heq
          obtain ⟨text', old, -, hself⟩ := Tree.construct_setLink_self hset
          cases hself.symm.trans hother
          exact ⟨by simp, Tree.lt_size_of_setLink hset⟩
        · rw [Tree.construct_setLink_of_ne hset heq] at hother
          exact hmono.linked other text found hother

/-! ### What a proper draft looks like -/

section Reading

variable (h : draft.Proper calls roots loose)

include h

theorem part_lt {id above : NodeId} (hpart : draft.tree.IsPart id above) :
    id < above := by
  obtain ⟨node, hnode, hpart⟩ := hpart
  exact h.before above _ (Tree.getElem?_outlines_of_get? hnode) id hpart

/-- No node is a part twice, be it of one node or of two. -/
theorem pairwise_parts :
    (∀ outline ∈ draft.tree.outlines, outline.parts.Nodup) ∧
      draft.tree.outlines.Pairwise fun outline outline' =>
        ∀ part ∈ outline.parts, ∀ part' ∈ outline'.parts, part ≠ part' :=
  List.pairwise_flatMap.mp h.once.of_append_left

theorem isPart_unique {id above above' : NodeId}
    (hpart : draft.tree.IsPart id above)
    (hpart' : draft.tree.IsPart id above') : above = above' := by
  obtain ⟨node, hnode, hmem⟩ := hpart
  obtain ⟨node', hnode', hmem'⟩ := hpart'
  rcases Nat.lt_trichotomy above above' with hlt | heq | hlt
  · exact absurd rfl
      (Tree.outlines_of_lt h.pairwise_parts.2 hnode hnode' hlt id hmem id hmem')
  · exact heq
  · exact absurd rfl
      (Tree.outlines_of_lt h.pairwise_parts.2 hnode' hnode hlt id hmem' id hmem)

/-- There is only one node that can be the parent. -/
theorem parent_iff_isPart (grown : draft.tree.Grown) {id above : NodeId} :
    draft.tree.parent id = .ok (some above) ↔ draft.tree.IsPart id above := by
  constructor
  · exact fun hparent => (grown.parent_spec hparent).2
  · intro hpart
    have hlt := h.part_lt hpart
    have habove : above < draft.tree.size :=
      Tree.lt_size_of_get? hpart.choose_spec.1
    obtain ⟨parent, hparent⟩ := Tree.exists_parent (Nat.lt_trans hlt habove)
    rw [hparent,
      ((grown.parent_iff hparent).1 above).mpr ⟨⟨hlt, hpart⟩,
        fun whole hwhole => ?_⟩]
    exact (h.isPart_unique hwhole.2 hpart).le

theorem line_lt {id id' : NodeId} {node node' : Node}
    (hnode : draft.tree.get? id = some node)
    (hnode' : draft.tree.get? id' = some node') (hlt : id < id') :
    node.span.line < node'.span.line := by
  have hlines := (List.pairwise_flatMap.mp h.increasing).2
  exact Tree.outlines_of_lt hlines hnode hnode' hlt _
    (by simp [Outline.lines, Construct.outline]) _
    (by simp [Outline.lines, Construct.outline])

end Reading

end Proper

/-! ### Steps -/

/-- On a proper draft the computation uses the loose nodes `used` up, leaves
those of `made` behind, and adds those of `top` to the top-level
declarations. -/
def Keeps {α : Type} (used : List NodeId) (made top : α → List NodeId)
    (action : Drafting α) :
    Prop :=
  ∀ ⦃draft calls roots loose⦄, draft.Proper calls roots (used ++ loose) →
    (action draft).2.Proper calls (roots ++ top (action draft).1)
      (made (action draft).1 ++ loose)

section Keeps

variable {α β : Type} {used others : List NodeId} {made top : α → List NodeId}
  {made' top' : β → List NodeId}

theorem Keeps.perm {action : Drafting α} (h : Keeps used made top action)
    (hperm : used.Perm others) : Keeps others made top action :=
  fun _ _ _ _ hproper => h (hproper.perm (hperm.symm.append_right _))

theorem Keeps.bind {action : Drafting α} {next : α → Drafting β}
    (h : Keeps used made (fun _ => []) action)
    (hnext : ∀ a, Keeps (made a ++ others) made' top' (next a)) :
    Keeps (used ++ others) made' top' (action >>= next) := by
  intro draft calls roots loose hproper
  rw [List.append_assoc] at hproper
  have hmiddle := h hproper
  rw [List.append_nil, ← List.append_assoc] at hmiddle
  exact hnext _ hmiddle

theorem keeps_pure {a : α} (hperm : used.Perm (made a)) :
    Keeps used made (fun _ => []) (pure a : Drafting α) := by
  intro draft calls roots loose hproper
  rw [List.append_nil]
  exact hproper.perm (hperm.append_right _)

/-- Nodes that are made one by one are left behind together. -/
theorem Keeps.mapM {action : α → Drafting NodeId}
    (h : ∀ a, Keeps [] (fun id => [id]) (fun _ => []) (action a))
    (as : List α) :
    Keeps [] id (fun _ => []) (as.mapM action) := by
  induction as with
  | nil => exact keeps_pure (.refl _)
  | cons a as ih =>
      rw [List.mapM_cons]
      refine (h a).bind fun first => ih.bind fun rest => keeps_pure ?_
      exact List.perm_append_singleton first rest

theorem keeps_place (construct : Construct) (hname : construct.ident? = none)
    (hpending : ∀ text target, construct ≠ .reference text (.resolved target)) :
    Keeps construct.children (fun id => [id]) (fun _ => [])
      (place construct) := by
  intro draft calls roots loose hproper
  rw [List.append_nil]
  refine hproper.add hpending ⟨rfl, fun name h => ?_⟩ fun line hline => ?_
  · cases hname.symm.trans h
  · rw [Outline.lines, Construct.outline, hname] at hline
    obtain rfl := List.mem_singleton.mp hline
    exact ⟨Nat.lt_succ_self _, Nat.le_refl _⟩

/-- A declared name takes the line before its node. -/
theorem keeps_named (construct : Ident → Construct)
    (hname : ∀ name, (construct name).ident? = some name)
    (hparts : ∀ name, (construct name).children = used) (text : String) :
    Keeps used (fun id => [id]) (fun _ => [])
      (takeName text >>= fun name => place (construct name)) := by
  intro draft calls roots loose hproper
  rw [List.append_nil]
  let name : Ident := ⟨text, ((takeLine text.utf8ByteSize) draft).1⟩
  rw [← hparts name] at hproper
  refine hproper.add (fun text' target heq => ?_) ⟨rfl, fun found h => ?_⟩
    fun line hline => ?_
  · cases (congrArg Construct.ident? heq).symm.trans (hname name)
  · cases (hname name).symm.trans h
    exact ⟨rfl, rfl⟩
  · rw [Outline.lines, Construct.outline, hname] at hline
    rcases List.mem_pair.mp hline with rfl | rfl
    · exact ⟨Nat.lt_succ_self _, Nat.le_succ _⟩
    · exact ⟨Nat.lt_succ_of_lt (Nat.lt_succ_self _), Nat.le_refl _⟩

/-- A declaration is named, and added to the top-level ones. -/
theorem keeps_declared (construct : Ident → Construct)
    (hname : ∀ name, (construct name).ident? = some name)
    (hparts : ∀ name, (construct name).children = used) (text : String) :
    Keeps used (fun id => [id]) (fun id => [id])
      (takeName text >>= fun name => declare (construct name)) := by
  intro draft calls roots loose hproper
  have hnamed := keeps_named construct hname hparts text hproper
  rw [List.append_nil] at hnamed
  exact hnamed.addRoot _

theorem keeps_reference (text : String) :
    Keeps [] (fun id => [id]) (fun _ => []) (Draft.reference text) :=
  keeps_place (.reference text .pending) rfl (by simp [Link.pending])

theorem keeps_param (name : String) :
    Keeps [] (fun id => [id]) (fun _ => []) (Draft.param name) :=
  keeps_named .param (fun _ => rfl) (fun _ => rfl) name

theorem keeps_join (left : NodeId) (field : String) :
    Keeps [left] (fun id => [id]) (fun _ => []) (Draft.join left field) := by
  refine (keeps_reference field).bind fun ref => ?_
  exact (keeps_place (.join left ref) rfl (by simp)).perm
    (List.Perm.swap ref left [])

/-- The joins of a path use each other up, so only the last one is left
behind. -/
theorem keeps_path (fields : List String) (start : NodeId) :
    Keeps [start] (fun id => [id]) (fun _ => [])
      (fields.foldlM Draft.join start) := by
  induction fields generalizing start with
  | nil => exact keeps_pure (.refl _)
  | cons field fields ih =>
      rw [List.foldlM_cons, ← List.append_nil [start]]
      exact (keeps_join start field).bind ih

/-- Every step uses up the parts that it is given. -/
theorem keeps_perform (step : Step) :
    Keeps step.passed (fun id => [id]) (fun id => if step.isDeclaration then
      [id] else []) step.perform := by
  cases step with
  | reference text => exact keeps_reference text
  | param name => exact keeps_param name
  | join left field => exact keeps_join left field
  | keywordType keyword =>
      exact keeps_place (.keywordType keyword) rfl (by simp)
  | stringLit value => exact keeps_place (.stringLit value) rfl (by simp)
  | boolLit value => exact keeps_place (.boolLit value) rfl (by simp)
  | intLit value => exact keeps_place (.intLit value) rfl (by simp)
  | binary op lhs rhs => exact keeps_place (.binary op lhs rhs) rfl (by simp)
  | conditional condition thenBranch elseBranch =>
      exact keeps_place (.conditional condition thenBranch elseBranch) rfl
        (by simp)
  | conceptType name =>
      exact (keeps_reference name).bind fun ref =>
        keeps_place (.conceptType ref) rfl (by simp)
  | call callee args =>
      exact (keeps_reference callee).bind fun ref =>
        keeps_place (.call ref args) rfl (by simp)
  | typedParam name typeNode =>
      exact (keeps_param name).bind fun formal =>
        keeps_place (.typedParam formal typeNode) rfl (by simp)
  | path root fields =>
      exact (keeps_reference root).bind fun start => keeps_path fields start
  | relation name relatum =>
      exact keeps_named (.relation · relatum) (fun _ => rfl) (fun _ => rfl) name
  | predicate name params body =>
      exact keeps_declared (.predicate · params body) (fun _ => rfl)
        (fun _ => rfl) name
  | var name typeNode value =>
      exact keeps_declared (.var · typeNode value) (fun _ => rfl) (fun _ => rfl)
        name
  | concept name parents relations =>
      exact (Keeps.mapM keeps_reference parents).bind fun refs =>
        keeps_declared (.concept · refs relations) (fun _ => rfl) (fun _ => rfl)
          name
  | function name params signature body =>
      exact (Keeps.mapM keeps_param params).bind fun formals =>
        keeps_declared (.function · formals signature body) (fun _ => rfl)
          (fun _ => List.append_assoc _ _ _) name

end Keeps

/-! ### Sequences of calls -/

/-- All parts that are passed are nodes that earlier calls have answered with,
and no node is passed twice. -/
structure Orderly (calls : List Call) : Prop where
  earlier : ∀ before call after, calls = before ++ call :: after →
    ∀ id ∈ call.passed, id ∈ empty.answers (fun _ => true) before
  once : (calls.flatMap Call.passed).Nodup

theorem answers_append (wanted : Step → Bool) (draft : Draft)
    (calls calls' : List Call) :
    draft.answers wanted (calls ++ calls') =
      draft.answers wanted calls ++
        (draft.run calls).answers wanted calls' := by
  induction calls generalizing draft with
  | nil => rfl
  | cons call calls ih =>
      cases call with
      | step step =>
          rw [List.cons_append, answers, answers, ih, List.append_assoc]
          rfl
      | link ref target => exact ih _

theorem Orderly.of_append {calls : List Call} {call : Call}
    (h : Orderly (calls ++ [call])) :
    Orderly calls := by
  refine ⟨fun before next after hcalls =>
    h.earlier before next (after ++ [call]) ?_, ?_⟩
  · rw [hcalls, List.append_assoc, List.cons_append]
  · have honce := h.once
    rw [List.flatMap_append] at honce
    exact honce.of_append_left

/-- After orderly calls the draft is proper, and a node that was answered is
loose unless it has been passed as a part. The induction is on the calls, from
the last one. -/
theorem Orderly.exists_proper {calls : List Call} (h : Orderly calls) :
    ∃ loose, (empty.run calls).Proper calls
      (empty.answers Step.isDeclaration calls) loose ∧
      ∀ id ∈ empty.answers (fun _ => true) calls, id ∈ loose ∨
        id ∈ calls.flatMap Call.passed := by
  induction calls using List.reverseRecOn with
  | nil => exact ⟨[], .empty, by simp [answers]⟩
  | append_singleton calls call ih =>
      obtain ⟨loose, hproper, hanswers⟩ := ih h.of_append
      have hrun : empty.run (calls ++ [call]) = (empty.run calls).call call :=
        List.foldl_concat ..
      rw [hrun, answers_append, answers_append, List.flatMap_append]
      cases call with
      | link ref target =>
          simp only [answers, List.append_nil]
          refine ⟨loose, hproper.link ref target, fun id hid => ?_⟩
          exact (hanswers id hid).imp_right (List.mem_append_left _)
      | step step =>
          have honce := h.once
          rw [List.flatMap_append, List.flatMap_singleton] at honce
          have hpassed : step.passed ⊆ loose := by
            intro id hid
            have hanswered := h.earlier calls (.step step) [] rfl id hid
            refine (hanswers id hanswered).resolve_right fun hbefore => ?_
            exact List.disjoint_of_nodup_append honce hbefore hid
          obtain ⟨parts, hparts, hsublist⟩ :=
            honce.of_append_right.subperm hpassed
          obtain ⟨rest, hrest⟩ := hsublist.exists_perm_append
          have hloose : loose.Perm (step.passed ++ rest) :=
            hrest.trans (hparts.append_right rest)
          refine ⟨(step.perform (empty.run calls)).1 :: rest, ?_,
            fun id hid => ?_⟩
          · have hkept := keeps_perform step (hproper.perm hloose)
            simp only [answers, List.append_nil]
            exact hkept.mono _
          · rw [answers, answers, if_pos rfl, List.append_nil] at hid
            rcases List.mem_append.mp hid with hid | hid
            · rcases hanswers id hid with hid | hid
              · rcases List.mem_append.mp (hloose.mem_iff.mp hid) with hid | hid
                · exact Or.inr
                    (List.mem_append_right _ (by simpa [Call.passed] using hid))
                · exact Or.inl (List.mem_cons_of_mem _ hid)
              · exact Or.inr (List.mem_append_left _ hid)
            · exact Or.inl (by simp [List.mem_singleton.mp hid])

/-- A draft that is made by orderly calls is a tree in the strict sense, with
the declarations in the order of the calls. Every node and every declared name
has a line of its own, in the order of creation, and a reference is linked only
where a call has done so, to a node of the tree. -/
theorem run_proper {calls : List Call} (h : Orderly calls) {tree : Tree}
    (htree : (empty.run calls).tree = tree) :
    (∀ id above, tree.IsPart id above → id < above) ∧
    (∀ id above, tree.parent id = .ok (some above) ↔ tree.IsPart id above) ∧
    (∀ id above above', tree.IsPart id above → tree.IsPart id above' →
      above = above') ∧
    tree.roots = empty.answers Step.isDeclaration calls ∧
    (∀ id id' node node', tree.get? id = some node →
      tree.get? id' = some node' → id < id' →
      node.span.line < node'.span.line) ∧
    tree.lines.Nodup ∧
    (∀ id node, tree.get? id = some node →
      node.construct.children.Nodup ∧ node.span.endLine = node.span.line ∧
        ∀ name, node.construct.ident? = some name →
          name.span.endLine = name.span.line ∧
          name.span.line + 1 = node.span.line) ∧
    ∀ ref text target,
      tree.construct ref = .ok (.reference text (.resolved target)) →
      .link ref target ∈ calls ∧ target < tree.size := by
  obtain ⟨loose, hproper, -⟩ := h.exists_proper
  obtain ⟨edits, hedits⟩ := exists_edits_run empty calls
  subst htree
  have grown : (empty.run calls).tree.Grown :=
    (Tree.grown_iff_edited _).mpr ⟨edits, hedits.symm⟩
  refine ⟨fun _ _ => hproper.part_lt,
    fun _ _ => hproper.parent_iff_isPart grown,
    fun _ _ _ => hproper.isPart_unique, hproper.roots_eq, fun _ _ _ _ =>
      hproper.line_lt,
    hproper.increasing.imp Nat.ne_of_lt, fun id node hnode => ?_,
    hproper.linked⟩
  have hmem := List.mem_of_getElem? (Tree.getElem?_outlines_of_get? hnode)
  have hplaced := hproper.placed _ hmem
  exact ⟨hproper.pairwise_parts.1 _ hmem, hplaced.flat, hplaced.name⟩

/-- Calls with hidden references and parameters, a variable that is passed as
the body of a predicate though it is a top-level declaration, two links and two
that are refused. -/
def orderlyCalls : List Call :=
  [.step (.keywordType "Integer"), .step (.relation "size" 0),
    .step (.concept "Box" [] [1]), .step (.concept "Crate" ["Box"] []),
    .link 3 2, .step (.conceptType "Crate"),
    .step (.keywordType "Boolean"), .step (.path "x" ["size", "size"]),
    .step (.function "f" ["x"] [6, 7] 12), .link 8 13, .link 1 2, .link 9 77,
    .step (.keywordType "String"), .step (.typedParam "p" 15),
    .step (.var "v" none none),
    .step (.predicate "q" [17] (some 18))]

theorem orderlyCalls_orderly : Orderly orderlyCalls := by
  have hearlier : ∀ i : Fin orderlyCalls.length,
      ∀ id ∈ (orderlyCalls.get i).passed,
      id ∈ empty.answers (fun _ => true) (orderlyCalls.take i) := by
        decide +kernel
  refine ⟨fun before call after hcalls id hid => ?_, by decide +kernel⟩
  have hlength : before.length < orderlyCalls.length := by simp [hcalls]
  have hmem := hearlier ⟨before.length, hlength⟩ id
  simp only [hcalls, List.get_eq_getElem,
    List.getElem_append_right (Nat.le_refl _), Nat.sub_self,
    List.getElem_cons_zero, List.take_left] at hmem
  exact hmem hid

theorem run_proper_orderlyCalls :
    Orderly orderlyCalls ∧
    (empty.run orderlyCalls).tree.roots = [2, 4, 14, 18, 19] ∧
    (empty.run orderlyCalls).tree.parent 18 = .ok (some 19) ∧
    (empty.run orderlyCalls).tree.lines.Nodup ∧
    (empty.run orderlyCalls).tree.lines.length = 28 ∧
    .link 8 13 ∈ orderlyCalls := by
  obtain ⟨-, hparent, -, hroots, -, hlines, -, hlinked⟩ :=
    run_proper orderlyCalls_orderly rfl
  have hpart : (empty.run orderlyCalls).tree.IsPart 18 19 := by
    have hchildren : ((empty.run orderlyCalls).tree.get? 19).any
        (fun node => node.construct.children == [17, 18]) = true := by
          decide +kernel
    obtain ⟨node, hnode, heq⟩ := (Option.any_eq_true _ _).mp hchildren
    exact ⟨node, hnode, by simp [eq_of_beq heq]⟩
  have hresolved : (empty.run orderlyCalls).tree.construct 8 =
      .ok (.reference "x" (.resolved 13)) := by decide +kernel
  exact ⟨orderlyCalls_orderly, hroots.trans (by decide +kernel),
    (hparent 18 19).mpr hpart, hlines, by decide +kernel,
    (hlinked 8 "x" 13 hresolved).1⟩

end Draft

end ConceptLang
