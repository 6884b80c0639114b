import Mathlib.Data.List.Forall2
import ConceptLang.Proofs.Walks
import ConceptLang.Proofs.TypingRelation

/-!
# Signatures and fitting scopes

The type of an annotation can be read off the tree, and with it the signature of
a function and the types that it gives its parameters. In a well-formed tree
each of these is unique: a parameter is a part of one function, and once.

A scope *fits* a tree if it binds nothing but parameters, and these to the types
that their functions give them. Such scopes differ only in which parameters they
bind, so what a parameter's type is does not depend on the scope
(`Tree.Bound.hasType`).
-/

namespace ConceptLang

theorem lookup_of_mem {entries : List (NodeId × Ty)}
    (hnodup : (entries.map (·.1)).Nodup) {node : NodeId} {ty : Ty}
    (h : (node, ty) ∈ entries) : entries.lookup node = some ty := by
  obtain ⟨before, after, rfl⟩ := List.append_of_mem h
  refine List.lookup_eq_some_iff.mpr ⟨before, after, rfl,
    fun entry hentry => ?_⟩
  rw [List.map_append, List.map_cons] at hnodup
  have hne := (List.nodup_append.mp hnodup).2.2 entry.1
    (List.mem_map_of_mem hentry) node (by simp)
  simpa using fun heq : node = entry.1 => hne heq.symm

namespace Tree

/-- A type that an annotation can name. -/
inductive Ground (tree : Tree) : Ty → Prop where
  | string : Ground tree (.string none)
  | integer : Ground tree (.integer none)
  | boolean : Ground tree (.boolean none)
  | concept {decl : NodeId} {name : Ident} {parents relations : List NodeId}
      (h : tree.construct decl = .ok (.concept name parents relations)) :
      Ground tree (.concept ⟨decl, name.name⟩)

theorem Ground.eq_of_same {tree : Tree} {a b : Ty} (ha : tree.Ground a)
    (hb : tree.Ground b) (h : a.same b = true) : a = b := by
  cases ha <;> cases hb <;> first | rfl | cases h | skip
  rename_i ha _ _ _ _ hb
  obtain rfl : _ = _ := by simpa [Ty.same] using h
  obtain ⟨rfl, rfl, rfl⟩ : _ ∧ _ ∧ _ := by simpa using ha.symm.trans hb
  rfl

theorem Denotes.ground {tree : Tree} {node : NodeId} {ty : Ty}
    (h : tree.Denotes node ty) :
    tree.Ground ty := by
  cases h with
  | string => exact .string
  | integer => exact .integer
  | boolean => exact .boolean
  | concept _ _ hdecl => exact .concept hdecl

theorem Denotes.isTypeNode {tree : Tree} {node : NodeId} {ty : Ty}
    (h : tree.Denotes node ty) :
    tree.holds (·.isTypeNode) node = true := by
  cases h with
  | string h | integer h | boolean h =>
      exact (holds_iff tree _ _).mpr ⟨_, h, rfl⟩
  | concept h => exact (holds_iff tree _ _).mpr ⟨_, h, rfl⟩

/-- An annotation names at most one type. -/
theorem Denotes.unique {tree : Tree} {node : NodeId} {a b : Ty}
    (ha : tree.Denotes node a) (hb : tree.Denotes node b) : a = b := by
  cases ha with
  | concept h href hdecl =>
      cases hb with
      | concept h' href' hdecl' =>
          obtain rfl : _ = _ := by simpa using h.symm.trans h'
          obtain rfl : _ = _ := by simpa using href.symm.trans href'
          obtain ⟨rfl, -⟩ : _ ∧ _ := by simpa using hdecl.symm.trans hdecl'
          rfl
      | string h' | integer h' | boolean h' => simpa using h.symm.trans h'
  | string h | integer h | boolean h =>
      cases hb with
      | concept h' => simpa using h.symm.trans h'
      | string h' | integer h' | boolean h' =>
          first | rfl | simpa using h.symm.trans h'

theorem Denotes.ground_list {tree : Tree} {nodes : List NodeId}
    {types : List Ty} (h : List.Forall₂ tree.Denotes nodes types) :
    ∀ ty ∈ types, tree.Ground ty := by
  induction h with
  | nil => simp
  | cons hhead _ ih => simpa using ⟨hhead.ground, ih⟩

theorem HasTypes.of_denotes {tree : Tree} {scope : Scope} {nodes : List NodeId}
    {types : List Ty} (h : List.Forall₂ tree.Denotes nodes types) :
    tree.HasTypes scope nodes types := by
  induction h with
  | nil => exact .nil
  | cons hhead _ ih => exact .cons (.annotated hhead) ih

/-- The parameters of the function `node` with their types, and the type of its
result. -/
inductive Signature (tree : Tree) (node : NodeId) :
    List (NodeId × Ty) → Ty → Prop where
  | intro {name : Ident} {params slots : List NodeId} {body : NodeId}
      {types : List Ty} {result : Ty}
      (h : tree.construct node = .ok (.function name params slots body))
      (hlength : slots.length = params.length + 1)
      (hslots : List.Forall₂ tree.Denotes slots types)
      (hresult : types.getLast? = some result) :
      Signature tree node (params.zip types) result

namespace Signature

variable {tree : Tree} {node : NodeId} {params : List (NodeId × Ty)}
  {result : Ty}

theorem unique (h : tree.Signature node params result)
    {params' : List (NodeId × Ty)} {result' : Ty}
    (h' : tree.Signature node params' result') :
    params = params' ∧ result = result' := by
  obtain ⟨h, -, hslots, hresult⟩ := h
  obtain ⟨h', -, hslots', hresult'⟩ := h'
  obtain ⟨rfl, rfl, rfl, rfl⟩ : _ ∧ _ ∧ _ ∧ _ := by simpa using h.symm.trans h'
  have hunique : Relator.RightUnique tree.Denotes := fun _ _ _ => Denotes.unique
  obtain rfl := hunique.forall₂ hslots hslots'
  exact ⟨rfl, Option.some.inj (hresult.symm.trans hresult')⟩

theorem ground (h : tree.Signature node params result) :
    (∀ param ∈ params, tree.Ground param.2) ∧ tree.Ground result := by
  obtain ⟨-, -, hslots, hresult⟩ := h
  have hall := Denotes.ground_list hslots
  exact ⟨fun param hparam => hall _ (List.of_mem_zip hparam).2,
    hall _ (List.mem_of_getLast? hresult)⟩

theorem hasType (h : tree.Signature node params result) (scope : Scope) :
    tree.HasType scope node (.function params result) := by
  obtain ⟨h, hlength, hslots, hresult⟩ := h
  exact .function h hlength (.of_denotes hslots) hresult

section WellFormed

variable (h : tree.Signature node params result) (wf : tree.WellFormed)

include h wf

theorem nodup_params : (params.map (·.1)).Nodup := by
  obtain ⟨h, hlength, hslots, -⟩ := h
  have hnodup := wf.nodup_children h
  rw [Construct.children, List.append_assoc] at hnodup
  rw [List.map_fst_zip]
  · exact (List.nodup_append.mp hnodup).1
  · rw [← hslots.length_eq, hlength]
    exact Nat.le_succ _

theorem isPart {param : NodeId × Ty} (hparam : param ∈ params) :
    tree.IsPart param.1 node ∧
    ∃ name, tree.construct param.1 = .ok (.param name) := by
  obtain ⟨h, -, -, -⟩ := h
  have hmem := (List.of_mem_zip hparam).1
  refine ⟨(isPart_iff_construct tree _ _).mpr
    ⟨_, h, by simp [Construct.children, hmem]⟩, ?_⟩
  obtain ⟨child, hchild, hadmits⟩ := wf.role h
    (show (Role.param, param.1) ∈ Construct.parts _ by
      simp [Construct.parts, hmem])
  cases child <;> first | exact ⟨_, hchild⟩ | cases hadmits

end WellFormed

end Signature

/-- A function gives its parameter `param` the type `ty`. -/
def Bound (tree : Tree) (param : NodeId) (ty : Ty) : Prop :=
  ∃ function params result, tree.Signature function params result ∧
    (param, ty) ∈ params

/-- The scope binds nothing but parameters, and these to the types that they are
given. -/
def Fits (tree : Tree) (scope : Scope) : Prop :=
  ∀ node ty, scope.find? node = some ty → tree.Bound node ty

theorem fits_empty (tree : Tree) : tree.Fits Scope.empty := by
  intro node ty h
  cases h

theorem Fits.extend {tree : Tree} {scope : Scope} (h : tree.Fits scope)
    {node : NodeId} {params : List (NodeId × Ty)} {result : Ty}
    (hsignature : tree.Signature node params result) :
    tree.Fits (scope.extend params) := by
  intro param ty hparam
  rw [Scope.find?_extend, Option.or_eq_some_iff] at hparam
  rcases hparam with hparam | ⟨-, hparam⟩
  · exact ⟨node, params, result, hsignature,
      List.mem_reverse.mp (mem_of_lookup hparam)⟩
  · exact h param ty hparam

namespace Bound

variable {tree : Tree} {param : NodeId} {ty : Ty} (h : tree.Bound param ty)
  (wf : tree.WellFormed)

include h

theorem ground : tree.Ground ty := by
  obtain ⟨function, params, result, hsignature, hmem⟩ := h
  exact hsignature.ground.1 _ hmem

include wf

theorem construct : ∃ name, tree.construct param = .ok (.param name) := by
  obtain ⟨function, params, result, hsignature, hmem⟩ := h
  exact (hsignature.isPart wf hmem).2

theorem unique {ty' : Ty} (h' : tree.Bound param ty') : ty = ty' := by
  obtain ⟨function, params, result, hsignature, hmem⟩ := h
  obtain ⟨function', params', result', hsignature', hmem'⟩ := h'
  obtain rfl :=
    wf.isPart_unique (hsignature.isPart wf hmem).1
      (hsignature'.isPart wf hmem').1
  obtain ⟨rfl, -⟩ := hsignature.unique hsignature'
  have hnodup := hsignature.nodup_params wf
  exact Option.some.inj
    ((lookup_of_mem hnodup hmem).symm.trans (lookup_of_mem hnodup hmem'))

theorem parent :
    ∃ function params result, tree.parent param = .ok (some function) ∧
    tree.Signature function params result ∧
    paramType? params param = some ty := by
  obtain ⟨function, params, result, hsignature, hmem⟩ := h
  obtain ⟨construct, hconstruct, hpart⟩ :=
    (isPart_iff_construct tree _ _).mp (hsignature.isPart wf hmem).1
  exact ⟨function, params, result, wf.parent_of_part hconstruct hpart,
    hsignature, lookup_of_mem (hsignature.nodup_params wf) hmem⟩

/-- A parameter has its type in every scope that fits, bound or not. -/
theorem hasType {scope : Scope} (hscope : tree.Fits scope) :
    tree.HasType scope param ty := by
  cases hfind : scope.find? param with
  | some ty' =>
      rw [h.unique wf (hscope param ty' hfind)]
      exact .bound hfind
  | none =>
      obtain ⟨name, hname⟩ := h.construct wf
      obtain ⟨function, params, result, hparent, hsignature, hparam⟩ :=
        h.parent wf
      exact .param hname hfind hparent (hsignature.hasType scope) hparam

end Bound

/-! ### What the typing relation says about annotations and functions -/

section Inversion

variable {tree : Tree} (wf : tree.WellFormed) {scope : Scope}
  (hscope : tree.Fits scope)

include wf hscope

/-- A bound node is a parameter. -/
theorem Fits.find?_eq_none {node : NodeId} {construct : Construct}
    (h : tree.construct node = .ok construct)
    (hparam : ∀ name, construct ≠ .param name) :
    scope.find? node = none := by
  cases hfind : scope.find? node with
  | none => rfl
  | some ty =>
      obtain ⟨name, hname⟩ := (hscope node ty hfind).construct wf
      exact absurd (Except.ok.inj (h.symm.trans hname)) (hparam name)

theorem HasType.typedBy_of_fits {node : NodeId} {ty : Ty}
    {construct : Construct} (h : tree.HasType scope node ty)
    (hconstruct : tree.construct node = .ok construct)
    (hparam : ∀ name, construct ≠ .param name) :
    tree.TypedBy scope node ty construct :=
  h.typedBy (hscope.find?_eq_none wf hconstruct hparam) hconstruct

theorem Denotes.of_hasType {node : NodeId} {ty : Ty}
    (h : tree.HasType scope node ty)
    (hnode : tree.holds (·.isTypeNode) node = true) : tree.Denotes node ty := by
  obtain ⟨construct, hconstruct, htype⟩ := (holds_iff tree _ _).mp hnode
  cases construct with
  | keywordType keyword => exact h.typedBy_of_fits wf hscope hconstruct nofun
  | conceptType ref => exact h.typedBy_of_fits wf hscope hconstruct nofun
  | _ => cases htype

theorem Denotes.of_hasType_typedParam {node formal typeNode : NodeId} {ty : Ty}
    (hnode : tree.construct node = .ok (.typedParam formal typeNode))
    (h : tree.HasType scope node ty) : tree.Denotes typeNode ty := by
  have htype : tree.HasType scope typeNode ty :=
    h.typedBy_of_fits wf hscope hnode nofun
  exact .of_hasType wf hscope htype
    (wf.holds_part .typeNode hnode (by simp [Construct.parts]))

theorem Denotes.of_hasTypes {nodes : List NodeId} {types : List Ty}
    (h : tree.HasTypes scope nodes types)
    (hnodes : ∀ node ∈ nodes, tree.holds (·.isTypeNode) node = true) :
    List.Forall₂ tree.Denotes nodes types := by
  induction nodes generalizing types with
  | nil =>
      cases h
      exact .nil
  | cons node nodes ih =>
      cases h with
      | cons hhead htail =>
          exact .cons (.of_hasType wf hscope hhead (hnodes node (by simp)))
            (ih htail fun other hother => hnodes other (by simp [hother]))

/-- A function has no type but that of its signature. -/
theorem Signature.of_hasType {node body : NodeId} {name : Ident}
    {params slots : List NodeId} {ty : Ty}
    (hnode : tree.construct node = .ok (.function name params slots body))
    (h : tree.HasType scope node ty) :
    ∃ formals result, ty = .function formals result ∧
      tree.Signature node formals result := by
  obtain ⟨types, result, hlength, htypes, hresult, rfl⟩ :=
    h.typedBy_of_fits wf hscope hnode nofun
  refine ⟨_, _, rfl,
    .intro hnode hlength (Denotes.of_hasTypes wf hscope htypes ?_) hresult⟩
  intro slot hslot
  exact wf.holds_part .typeNode hnode (by simp [Construct.parts, hslot])

/-- A parameter that a function gives a type has no other type. -/
theorem Bound.eq_of_hasType {param : NodeId} {ty ty' : Ty}
    (hbound : tree.Bound param ty) (h : tree.HasType scope param ty') :
    ty' = ty := by
  obtain ⟨name, hname⟩ := hbound.construct wf
  cases h with
  | bound h => exact (hscope param ty' h).unique wf hbound
  | param _ _ hparent habove hparam =>
      obtain ⟨function, params, result, hparent', hsignature, hparam'⟩ :=
        hbound.parent wf
      obtain rfl : _ = function := by simpa using hparent.symm.trans hparent'
      have hsignature' := hsignature
      obtain ⟨hfunction, -, -, -⟩ := hsignature'
      obtain ⟨_, _, heq, hsame⟩ :=
        Signature.of_hasType wf hscope hfunction habove
      obtain ⟨rfl, rfl⟩ := hsignature.unique hsame
      cases heq
      exact Option.some.inj (hparam.symm.trans hparam')
  | annotated h => exact absurd h.isTypeNode (not_holds hname rfl)
  | reference h | stringLit h | boolLit h | intLit h | varTyped h | varValue h
  | typedParam h
  | concept h | relation stamp h | function h | call h | binary h | join h =>
      simpa using hname.symm.trans h

end Inversion

end Tree

end ConceptLang
