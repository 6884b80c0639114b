import Mathlib.Data.List.Induction
import ConceptLang.Proofs.Discovery
import ConceptLang.Proofs.Totality

/-!
# Ways to look up a relation

The relations visible on a concept are asked for in several ways: by the list of
them, by the list of their names, by one name, and by a join that looks for what
its field may name. All of them go over the same list in the same order
(`Tree.RelationTable`). A name means the first relation of that name, and since
a concept comes before its other ancestors, its own relation hides an inherited
one. The names are listed in the order in which they first occur.

For joins it does not matter what has been settled before and what is bound:
once the left side is a concept, the field is resolved on that concept
(`Tree.lookups_agree`).
-/

namespace ConceptLang

/-- Without repetitions, the values come in the order of their first occurrence.
The induction is on the list from its end, since what is added there never
occurs before the values already listed. -/
theorem pairwise_eraseDups_filterMap {α β : Type} [BEq β] [LawfulBEq β]
    (f : α → Option β) (as : List α) :
    (as.filterMap f).eraseDups.Pairwise fun b c =>
      as.findIdx (f · == some b) < as.findIdx (f · == some c) := by
  induction as using List.reverseRecOn with
  | nil => simp
  | append_singleton as a ih =>
      have hbound : ∀ b ∈ as.filterMap f,
          as.findIdx (f · == some b) < as.length := by
        intro b hb
        obtain ⟨a, ha, hfa⟩ := List.mem_filterMap.mp hb
        exact List.findIdx_lt_length_of_exists ⟨a, ha, by simp [hfa]⟩
      have hold : ∀ b ∈ as.filterMap f,
          (as ++ [a]).findIdx (f · == some b) = as.findIdx (f · == some b) := by
        intro b hb
        rw [List.findIdx_append, if_pos (hbound b hb)]
      have hlisted : (as.filterMap f).eraseDups.Pairwise fun b c =>
          (as ++ [a]).findIdx (f · == some b) <
            (as ++ [a]).findIdx (f · == some c) := by
        refine ih.imp_of_mem fun hb hc hlt => ?_
        rwa [hold _ (List.mem_eraseDups.mp hb),
          hold _ (List.mem_eraseDups.mp hc)]
      rw [List.filterMap_append, List.eraseDups_append, List.pairwise_append]
      refine ⟨hlisted, ?_, fun b hb c hc => ?_⟩
      · cases hfa : f a with
        | none => simp [hfa, List.removeAll]
        | some c =>
            rw [List.filterMap_cons_some hfa, List.filterMap_nil,
              List.removeAll, List.filter_cons, List.filter_nil]
            split <;> simp [List.eraseDups_cons]
      · have hb := List.mem_eraseDups.mp hb
        have hc : f a = some c ∧ c ∉ as.filterMap f := by
          simpa [List.removeAll] using List.mem_eraseDups.mp hc
        rw [hold b hb, List.findIdx_append, if_neg]
        · exact Nat.lt_of_lt_of_le (hbound b hb) (Nat.le_add_left _ _)
        · rw [List.findIdx_lt_length]
          rintro ⟨other, hother, heq⟩
          exact hc.2 (List.mem_filterMap.mpr ⟨other,
            hother, by simpa using heq⟩)

namespace Tree

/-- The name that the node `id` declares. -/
def declaredName? (tree : Tree) (id : NodeId) : Option String :=
  (tree.get? id).bind (·.construct.name?)

/-- The relations of the list that have a name, with their names. -/
def namedRelations (tree : Tree) (pairs : List (NodeId × NodeId)) :
    List (String × NodeId) :=
  pairs.filterMap fun pair => (tree.declaredName? pair.2).map fun name =>
    (name, pair.2)

/-- The answers to all questions about the relations visible on the concept
`id`, where `pairs` are these relations and `names` their names. -/
structure RelationTable (tree : Tree) (id : NodeId)
    (pairs : List (NodeId × NodeId)) (names : List String) : Prop where
  pairs_eq : tree.visibleRelations id = .ok pairs
  names_eq : tree.relationNames id = .ok names
  /-- A name means the first relation of that name. -/
  find_eq : ∀ name, tree.findRelation id name =
    .ok (pairs.find? fun pair => tree.declaredName? pair.2 == some name)
  /-- A name is listed if it means a relation. -/
  mem_iff_found : ∀ name, name ∈ names ↔
    ∃ pair, tree.findRelation id name = .ok (some pair)
  /-- A name is listed if there is a relation of that name. -/
  mem_iff_visible : ∀ name, name ∈ names ↔
    ∃ pair ∈ pairs, tree.declaredName? pair.2 = some name
  nodup : names.Nodup
  /-- Names are listed in the order of their first occurrence. -/
  inOrder : names.Pairwise fun a b =>
    pairs.findIdx (tree.declaredName? ·.2 == some a) <
      pairs.findIdx (tree.declaredName? ·.2 == some b)
  /-- What the concept itself declares hides what it inherits. -/
  own : ∀ name relation, tree.Declares id relation →
    tree.declaredName? relation = some name →
    ∃ first, tree.findRelation id name = .ok (some (id, first)) ∧
      tree.Declares id first

section Lookup

variable {tree : Tree}

theorem nameOf_eq {id : NodeId} (h : id < tree.size) :
    tree.nameOf id = .ok (tree.declaredName? id) := by
  obtain ⟨node, hnode⟩ := exists_get? h
  rw [nameOf, construct_of_get? hnode, declaredName?, hnode]
  rfl

theorem findNamed_eq (name : String) (pairs : List (NodeId × NodeId))
    (h : ∀ pair ∈ pairs, pair.2 < tree.size) :
    tree.findNamed name pairs =
      .ok (pairs.find? fun pair => tree.declaredName? pair.2 == some name) := by
  induction pairs with
  | nil => rfl
  | cons pair pairs ih =>
      rw [findNamed, nameOf_eq (h pair (by simp)), List.find?_cons,
        ih fun other hother => h other (by simp [hother])]
      by_cases hname : tree.declaredName? pair.2 = some name
      · simp [bind, Except.bind, pure, Except.pure, hname]
      · have hbeq : (tree.declaredName? pair.2 == some name) = false := by
          simpa using hname
        simp [bind, Except.bind, hname, hbeq]

theorem named_eq (pairs : List (NodeId × NodeId))
    (h : ∀ pair ∈ pairs, pair.2 < tree.size) :
    tree.named (pairs.map (·.2)) = .ok (tree.namedRelations pairs) := by
  induction pairs with
  | nil => rfl
  | cons pair pairs ih =>
      rw [List.map_cons, named, nameOf_eq (h pair (by simp)), namedRelations,
        List.filterMap_cons, ih fun other hother => h other (by simp [hother])]
      cases tree.declaredName? pair.2 <;> rfl

theorem map_fst_namedRelations (pairs : List (NodeId × NodeId)) :
    (tree.namedRelations pairs).map (·.1) =
      pairs.filterMap (tree.declaredName? ·.2) := by
  rw [namedRelations, List.map_filterMap]
  simp [Function.comp_def]

/-- The relations of the concept itself come first. -/
theorem exists_visibleRelations_eq_append {id : NodeId}
    {pairs : List (NodeId × NodeId)}
    (h : tree.visibleRelations id = .ok pairs) :
    ∃ own rest, tree.declaredRelations id = .ok own ∧
      pairs = own.map (id, ·) ++ rest := by
  rw [visibleRelations] at h
  obtain ⟨owners, howners, h⟩ := bind_eq_ok_iff.mp h
  obtain ⟨others, rfl, -⟩ := ancestors_eq_ok howners
  obtain ⟨groups, hgroups, ⟨⟩⟩ := bind_eq_ok_iff.mp h
  rw [List.mapM_cons] at hgroups
  obtain ⟨group, hgroup, hgroups⟩ := bind_eq_ok_iff.mp hgroups
  obtain ⟨rest, -, ⟨⟩⟩ := bind_eq_ok_iff.mp hgroups
  obtain ⟨own, hown, ⟨⟩⟩ := bind_eq_ok_iff.mp hgroup
  exact ⟨own, rest.flatten, hown, List.flatten_cons⟩

namespace Complete

variable (complete : tree.Complete)

include complete

theorem lt_size_of_visibleRelations {id : NodeId}
    {pairs : List (NodeId × NodeId)}
    (h : tree.visibleRelations id = .ok pairs) :
    ∀ pair ∈ pairs, pair.2 < tree.size := by
  have howners := h
  rw [visibleRelations] at howners
  obtain ⟨owners, howners, -⟩ := bind_eq_ok_iff.mp howners
  obtain ⟨-, -, hid⟩ := ancestors_eq_ok howners
  obtain ⟨pairs', hpairs, hdeclares⟩ := complete.yields_visibleRelations hid
  obtain rfl := Except.ok.inj (h.symm.trans hpairs)
  exact fun pair hpair => complete.declares_lt_size (hdeclares pair hpair)

/-! ### One list for all -/

/-- A name means the first visible relation of that name. -/
theorem findRelation_eq (id : NodeId) (name : String) :
    tree.findRelation id name = (tree.visibleRelations id).map fun pairs =>
      pairs.find? fun pair => tree.declaredName? pair.2 == some name := by
  rw [findRelation]
  cases hpairs : tree.visibleRelations id with
  | error e => rfl
  | ok pairs =>
      exact findNamed_eq name pairs
        (complete.lt_size_of_visibleRelations hpairs)

/-- The candidates on a concept are the visible relations that have a name. -/
theorem relationCandidates_eq (id : NodeId) :
    tree.relationCandidates id =
      (tree.visibleRelations id).map tree.namedRelations := by
  rw [relationCandidates]
  cases hpairs : tree.visibleRelations id with
  | error e => rfl
  | ok pairs =>
      exact named_eq pairs (complete.lt_size_of_visibleRelations hpairs)

/-- The names are those of the visible relations, each at its first place. -/
theorem relationNames_eq (id : NodeId) :
    tree.relationNames id = (tree.visibleRelations id).map fun pairs =>
      (pairs.filterMap (tree.declaredName? ·.2)).eraseDups := by
  rw [relationNames]
  cases hpairs : tree.visibleRelations id with
  | error e => rfl
  | ok pairs =>
      simp only [bind, Except.bind,
        named_eq pairs (complete.lt_size_of_visibleRelations hpairs),
        ← map_fst_namedRelations]
      rfl

/-- A name that the concept itself declares means one of its own relations. -/
theorem exists_findRelation_own {id : NodeId} (hid : id < tree.size)
    {name : String} {relation : NodeId} (hdeclares : tree.Declares id relation)
    (hname : tree.declaredName? relation = some name) :
    ∃ first, tree.findRelation id name = .ok (some (id, first)) ∧
      tree.Declares id first := by
  obtain ⟨pairs, hpairs, -⟩ := complete.yields_visibleRelations hid
  obtain ⟨own, rest, hown, rfl⟩ := exists_visibleRelations_eq_append hpairs
  have hmem := (mem_declaredRelations_iff hown relation).mpr hdeclares
  have hsome : ((own.map (id, ·)).find? fun pair =>
      tree.declaredName? pair.2 == some name).isSome = true :=
    List.find?_isSome.mpr ⟨(id, relation),
      List.mem_map_of_mem hmem, by simp [hname]⟩
  obtain ⟨pair, hfirst⟩ := Option.isSome_iff_exists.mp hsome
  obtain ⟨first, hmem, rfl⟩ :=
    List.mem_map.mp (List.mem_of_find?_eq_some hfirst)
  refine ⟨first, ?_, (mem_declaredRelations_iff hown first).mp hmem⟩
  rw [complete.findRelation_eq, hpairs, Except.map, List.find?_append, hfirst]
  rfl

theorem exists_relationTable {id : NodeId} (hid : id < tree.size) :
    ∃ pairs names, tree.RelationTable id pairs names := by
  obtain ⟨pairs, hpairs, -⟩ := complete.yields_visibleRelations hid
  have hnames := complete.relationNames_eq id
  have hfind := complete.findRelation_eq id
  simp only [hpairs, Except.map] at hnames hfind
  have hmem : ∀ name,
    name ∈ (pairs.filterMap (tree.declaredName? ·.2)).eraseDups ↔
      ∃ pair ∈ pairs, tree.declaredName? pair.2 = some name := by
    intro name
    rw [List.mem_eraseDups, List.mem_filterMap]
  have hinOrder :=
    pairwise_eraseDups_filterMap (fun pair => tree.declaredName? pair.2) pairs
  refine ⟨pairs, _, hpairs, hnames, hfind, fun name => ?_, hmem, ?_, hinOrder,
    ?_⟩
  · rw [hmem, hfind]
    simp [Except.ok.injEq, ← Option.isSome_iff_exists, List.find?_isSome]
  · refine hinOrder.imp fun hlt heq => ?_
    subst heq
    exact Nat.lt_irrefl _ hlt
  · exact fun name relation => complete.exists_findRelation_own hid

/-! ### Joins -/

variable {options : Options} {scope : Scope} {pass pass' : Pass}
  {join left field : NodeId} {concept : Concept}
  (hjoin : tree.construct join = .ok (.join left field))
  (hrun : (tree.synth options scope left).run pass =
    .ok (.concept concept, pass'))

include hjoin hrun

theorem run_joinCandidates :
    (tree.joinCandidates options scope join).run pass =
      (tree.visibleRelations concept.decl).map fun pairs =>
        (tree.namedRelations pairs, pass') := by
  rw [run_joinCandidates_concept hjoin hrun, complete.relationCandidates_eq]
  cases tree.visibleRelations concept.decl <;> rfl

theorem run_resolve_field {text : String} {link : Link}
    (hfield : tree.construct field = .ok (.reference text link))
    (hparent : tree.parent field = .ok (some join)) :
    (tree.resolve options scope field).run pass =
      (tree.findRelation concept.decl text).map fun found =>
        (found.map (·.2), pass') := by
  have hcandidates := complete.run_joinCandidates hjoin hrun
  rw [← run_candidates_of_joinField (contextOf_of_parent hparent hjoin)]
    at hcandidates
  rw [resolve, hfield, run_bind_of_ok (run_look _ _), complete.findRelation_eq]
  cases hpairs : tree.visibleRelations concept.decl with
  | error e =>
      rw [hpairs] at hcandidates
      exact (StateT.run_bind ..).trans (by rw [hcandidates]; rfl)
  | ok pairs =>
      rw [hpairs] at hcandidates
      have hlt := complete.lt_size_of_visibleRelations hpairs
      have hlookup :=
        lookup_named (findNamed_eq text pairs hlt) (named_eq pairs hlt)
      refine (run_bind_of_ok hcandidates _).trans ?_
      rw [hlookup]
      rfl

end Complete

end Lookup

/-- All ways to look up relations agree. For every node of a complete tree the
questions about its visible relations have answers that fit together. And for a
join whose left side is a concept, from whatever a pass remembers and in
whatever scope, the candidates of its field are the visible relations of the
concept that have a name, in their order, and the field is resolved to the
relation that its name means on the concept, or to nothing if it means none. -/
theorem lookups_agree (tree : Tree) (complete : tree.Complete) :
    (∀ id < tree.size, ∃ pairs names, tree.RelationTable id pairs names) ∧
    ∀ options scope pass pass' join left field concept,
      tree.construct join = .ok (.join left field) →
      (tree.synth options scope left).run pass = .ok (.concept concept, pass') →
      (tree.joinCandidates options scope join).run pass =
          (tree.visibleRelations concept.decl).map
            (fun pairs => (tree.namedRelations pairs, pass')) ∧
        ∀ text link, tree.construct field = .ok (.reference text link) →
          tree.parent field = .ok (some join) →
          (tree.resolve options scope field).run pass =
            (tree.findRelation concept.decl text).map fun found =>
              (found.map (·.2), pass') := by
  refine ⟨fun id hid => complete.exists_relationTable hid, ?_⟩
  intro options scope pass pass' join left field concept hjoin hrun
  exact ⟨complete.run_joinCandidates hjoin hrun, fun text link hfield hparent =>
    complete.run_resolve_field hjoin hrun hfield hparent⟩

/-- A model with repeated names. `Base` declares `size` and `note`; `Item`
extends it and declares `note` twice, after a part that has no name. The last
join uses `note` on a variable of type `Item`.
-/
def repeatedNames : Tree :=
  let named (name : String) : Ident := ⟨name, Span.unknown⟩
  ofConstructs [
    .keywordType "Integer", .relation (named "size") 0,
    .relation (named "note") 0,
    .concept (named "Base") [] [1, 2],
    .reference "Base" (.resolved 3), .keywordType "String", .intLit 7,
    .relation (named "note") 5,
    .relation (named "note") 0, .concept (named "Item") [4] [6, 7, 8],
    .reference "Item" (.resolved 9), .conceptType 10,
    .var (named "x") (some 11) none,
    .reference "x" (.resolved 12), .reference "note" .pending, .join 13 14,
    .var (named "y") none (some 15)]
    [3, 9, 12, 16]

theorem repeatedNames_complete : repeatedNames.Complete where
  grown := grown_ofConstructs _ _
  parts := by decide +kernel
  links := by decide +kernel

/-- On `Item` the name `note` means its own first relation of that name. In a
scope that binds the left side of the join to `Base`, the field is resolved on
`Base`. -/
theorem lookups_agree_repeatedNames :
    repeatedNames.Complete ∧
      (∃ pairs, repeatedNames.RelationTable 9 pairs ["note", "size"]) ∧
      repeatedNames.findRelation 9 "note" = .ok (some (9, 7)) ∧
      (repeatedNames.resolve {}
        (Scope.empty.extend [(13, .concept ⟨3, "Base"⟩)]) 14).run {} =
        .ok (some 2, Pass.countHit {}) := by
  obtain ⟨htables, hjoins⟩ := lookups_agree repeatedNames repeatedNames_complete
  obtain ⟨pairs, names, htable⟩ := htables 9 (by decide)
  have hnames : repeatedNames.relationNames 9 = .ok ["note", "size"] := by
    decide +kernel
  obtain rfl := Except.ok.inj (hnames.symm.trans htable.names_eq)
  have hbound :
      (repeatedNames.synth {} (Scope.empty.extend [(13, .concept ⟨3, "Base"⟩)])
        13).run {} = .ok (.concept ⟨3, "Base"⟩, Pass.countHit {}) :=
    repeatedNames.settle_of_settled (repeatedNames.settled?_synth_of_lookup rfl)
  have hresolve :=
    (hjoins _ _ _ _ 15 13 14 _ (by decide) hbound).2 "note" .pending (by decide)
    (by decide)
  have hfound : repeatedNames.findRelation 3 "note" = .ok (some (3, 2)) := by
    decide +kernel
  rw [hfound] at hresolve
  exact ⟨repeatedNames_complete, ⟨pairs, htable⟩, by decide +kernel, hresolve⟩

end Tree

end ConceptLang
