import ConceptLang.Proofs.CanonicalTypes
import ConceptLang.Proofs.Refusals
import ConceptLang.Proofs.ScopeIsolation

/-!
# The type of a join

A join has the type that its field relates to on the concept on its left. Which
relation the field means is said by `Tree.FirstNamed`: of all relations of that
name which the ancestors of the concept declare, it is the first one, in the
order of the ancestors and then in the order of declaration. This holds for any
inheritance, also if it has diamonds or cycles.

The rule of joins finds the relation from its concept, while the rule of
relations finds the concept from the relation, as its parent. In a well-formed
tree the two ways lead to the same concept
(`Tree.WellFormed.owner?_of_declares`), so a join never fails for want of an
owner.

The left side of a join is looked at while the join is being worked out and with
less room. If nothing that happens on the way is a recursion error, then this
makes no difference (`Tree.settleNoting_of_calm`).
-/

namespace ConceptLang

namespace Tree

/-! ### The first relation of a name -/

/-- The concept `owner` declares a relation of the name. -/
def DeclaresNamed (tree : Tree) (name : String) (owner : NodeId) : Prop :=
  ∃ relation, tree.Declares owner relation ∧
    tree.nameOf relation = .ok (some name)

/-- Of the relations of the name that the given concepts declare, `relation` of
`owner` is the first: no concept before `owner` declares one, and `owner` itself
declares none before it. -/
inductive FirstNamed (tree : Tree) (name : String) :
    List NodeId → NodeId → NodeId → Prop where
  | mk {before after earlier later parents : List NodeId}
      {owner relation : NodeId} {ident : Ident}
      (howner : tree.construct owner =
        .ok (.concept ident parents (earlier ++ relation :: later)))
      (hname : tree.nameOf relation = .ok (some name))
      (hbefore : ∀ other ∈ before, ¬ tree.DeclaresNamed name other)
      (hearlier : ∀ other ∈ earlier, tree.nameOf other ≠ .ok (some name)) :
      FirstNamed tree name (before ++ owner :: after) owner relation

section FirstNamed

variable {tree : Tree} {name : String}

theorem FirstNamed.declares {owners : List NodeId} {owner relation : NodeId}
    (h : tree.FirstNamed name owners owner relation) :
    tree.Declares owner relation := by
  obtain ⟨howner, -, -, -⟩ := h
  exact ⟨_, _, _, howner, by simp⟩

theorem FirstNamed.cons {owners : List NodeId} {first owner relation : NodeId}
    (h : tree.FirstNamed name owners owner relation)
    (hfirst : ¬ tree.DeclaresNamed name first) :
    tree.FirstNamed name (first :: owners) owner relation := by
  obtain @⟨before, after, _, _, _, _, _, _, howner, hname, hbefore, hearlier⟩ :=
    h
  rw [← List.cons_append]
  exact .mk howner hname (List.forall_mem_cons.mpr ⟨hfirst, hbefore⟩) hearlier

/-- A search goes through the relations of one concept first, and then on to the
others. -/
theorem findNamed_group {owner : NodeId} {rest : List (NodeId × NodeId)}
    {found : Option (NodeId × NodeId)} (relations : List NodeId)
    (h : tree.findNamed name (relations.map (owner, ·) ++ rest) = .ok found) :
    (∃ earlier relation later, relations = earlier ++ relation :: later ∧
      tree.nameOf relation = .ok (some name) ∧
      (∀ other ∈ earlier, tree.nameOf other ≠ .ok (some name)) ∧
      found = some (owner, relation)) ∨
    (∀ relation ∈ relations, tree.nameOf relation ≠ .ok (some name)) ∧
      tree.findNamed name rest = .ok found := by
  induction relations with
  | nil => exact Or.inr ⟨by simp, h⟩
  | cons relation relations ih =>
      rw [List.map_cons, List.cons_append, findNamed] at h
      obtain ⟨declared, hdeclared, h⟩ := bind_eq_ok_iff.mp h
      split at h
      · next heq =>
          cases h
          exact Or.inl ⟨[], relation, relations, rfl, by rw [hdeclared, heq],
            by simp, rfl⟩
      · next hne =>
          have hrelation : tree.nameOf relation ≠ .ok (some name) := fun heq =>
            hne (Except.ok.inj (hdeclared.symm.trans heq))
          rcases ih h with
            ⟨earlier, other, later, rfl, hname, hearlier, hfound⟩ |
              ⟨hnone, hrest⟩
          · exact Or.inl ⟨relation :: earlier, other, later, rfl, hname,
              List.forall_mem_cons.mpr ⟨hrelation, hearlier⟩, hfound⟩
          · exact Or.inr ⟨List.forall_mem_cons.mpr ⟨hrelation, hnone⟩, hrest⟩

/-- The relations that are listed for a node are those of its construct, in
their order. -/
theorem construct_of_declaredRelations {owner : NodeId}
    {relations : List NodeId} (h : tree.declaredRelations owner = .ok relations)
    (hne : relations ≠ []) :
    ∃ ident parents,
      tree.construct owner = .ok (.concept ident parents relations) := by
  rw [declaredRelations] at h
  obtain ⟨construct, hconstruct, h⟩ := bind_eq_ok_iff.mp h
  cases construct with
  | concept ident parents declared =>
      cases h
      exact ⟨ident, parents, hconstruct⟩
  | _ => exact absurd (Except.ok.inj h).symm hne

/-- What a search through the relations of some concepts finds. -/
theorem findNamed_groups {owners : List NodeId}
    {groups : List (List (NodeId × NodeId))} {found : Option (NodeId × NodeId)}
    (hgroups : owners.mapM (fun owner => do
      return (← tree.declaredRelations owner).map fun relation =>
        (owner, relation)) = .ok groups)
    (h : tree.findNamed name groups.flatten = .ok found) :
    (found = none ∧ ∀ owner ∈ owners, ¬ tree.DeclaresNamed name owner) ∨
      ∃ owner relation, found = some (owner, relation) ∧
        tree.FirstNamed name owners owner relation := by
  induction owners generalizing groups with
  | nil =>
      cases hgroups
      cases h
      exact Or.inl ⟨rfl, by simp⟩
  | cons owner owners ih =>
      rw [List.mapM_cons] at hgroups
      obtain ⟨group, hgroup, hgroups⟩ := bind_eq_ok_iff.mp hgroups
      obtain ⟨others, hothers, ⟨⟩⟩ := bind_eq_ok_iff.mp hgroups
      obtain ⟨relations, hrelations, ⟨⟩⟩ := bind_eq_ok_iff.mp hgroup
      rw [List.flatten_cons] at h
      rcases findNamed_group relations h with
        ⟨earlier, relation, later, rfl, hname, hearlier, rfl⟩ | ⟨hnone, hrest⟩
      · obtain ⟨ident, parents, hconstruct⟩ :=
          construct_of_declaredRelations hrelations (by simp)
        refine Or.inr ⟨owner, relation, rfl, ?_⟩
        rw [← List.nil_append (owner :: owners)]
        exact .mk hconstruct hname (by simp) hearlier
      · have howner : ¬ tree.DeclaresNamed name owner := by
          rintro ⟨relation, hdeclares, hname⟩
          exact hnone relation
            ((mem_declaredRelations_iff hrelations relation).mpr hdeclares)
            hname
        rcases ih hothers hrest with
          ⟨rfl, hothers⟩ | ⟨other, relation, rfl, hfirst⟩
        · exact Or.inl ⟨rfl, List.forall_mem_cons.mpr ⟨howner, hothers⟩⟩
        · exact Or.inr ⟨other, relation, rfl, hfirst.cons howner⟩

/-- A field means the first relation of its name that the ancestors declare, if
there is one. -/
theorem findRelation_spec {id : NodeId} {found : Option (NodeId × NodeId)}
    (h : tree.findRelation id name = .ok found) :
    ∃ owners, tree.ancestors id = .ok owners ∧
      ((found = none ∧ ∀ owner ∈ owners, ¬ tree.DeclaresNamed name owner) ∨
        ∃ owner relation, found = some (owner, relation) ∧
          tree.FirstNamed name owners owner relation) := by
  rw [findRelation, visibleRelations] at h
  obtain ⟨pairs, hpairs, h⟩ := bind_eq_ok_iff.mp h
  obtain ⟨owners, howners, hpairs⟩ := bind_eq_ok_iff.mp hpairs
  obtain ⟨groups, hgroups, ⟨⟩⟩ := bind_eq_ok_iff.mp hpairs
  exact ⟨owners, howners, findNamed_groups hgroups h⟩

end FirstNamed

/-- A relation is owned by the concept that declares it. -/
theorem WellFormed.owner?_of_declares {tree : Tree} (wf : tree.WellFormed)
    {owner relation : NodeId} (h : tree.Declares owner relation) :
    ∃ name, tree.owner? relation = .ok (some ⟨owner, name⟩) := by
  obtain ⟨ident, parents, relations, hconstruct, hmem⟩ := h
  have hparent : tree.parent relation = .ok (some owner) :=
    wf.parent_of_part hconstruct (by simp [Construct.children, hmem])
  refine ⟨ident.name, ?_⟩
  rw [owner?, hparent]
  simp only [bind, Except.bind, hconstruct]
  rfl

end Tree

/-! ### Runs without recursion errors -/

/-- A run without recursion errors can be made with another way to settle
premises, if premises without recursion errors are settled alike. -/
theorem Rule.run_of_calm {α : Type} {settle settle' : Judgement → DiaryM Ty}
    (hsettle : ∀ judgement diary ty diary',
      (settle judgement).run diary = .ok (ty, diary') →
      diary.Grows diary' ∧
      ((∀ call ∈ diary'.calls, call.answer.isRecursion = false) →
        (settle' judgement).run diary = .ok (ty, diary')))
    {rule : Rule α} {diary diary' : Diary} {a : α}
    (hrun : (rule.run (fun _ => Diary.inPass Pass.mint) settle).run diary =
      .ok (a, diary'))
    (hcalm : ∀ call ∈ diary'.calls, call.answer.isRecursion = false) :
    (rule.run (fun _ => Diary.inPass Pass.mint) settle').run diary =
      .ok (a, diary') := by
  induction rule generalizing diary with
  | conclude result => exact hrun
  | defect error => cases hrun
  | premise judgement next ih =>
      obtain ⟨ty, middle, hfirst, hnext⟩ := run_premise_eq_ok_iff.mp hrun
      have hrest : middle.Grows diary' :=
        (always_true _).run_relates .refl .trans .stamped
        (fun premise before found after _ hpremise =>
          (hsettle _ _ _ _ hpremise).1) hnext
      have hmiddle := (hsettle _ _ _ _ hfirst).2 fun call hcall =>
        hcalm call (hrest.calls hcall)
      exact run_premise_eq_ok_iff.mpr ⟨ty, middle, hmiddle, ih ty hnext⟩
  | stamp decl next ih =>
      rw [run_stamp_noting] at hrun ⊢
      exact ih _ hrun

namespace Tree

theorem Found.of_calm {tree : Tree} {busy busy' : List NodeId}
    {judgement : Judgement} {pass pass' : Pass} {known : Option Ty}
    (h : tree.Found busy pass judgement known pass')
    (hcalm : ∀ ty, known = some ty → ty.isRecursion = false)
    (hbusy : busy' ⊆ busy) :
    tree.Found busy' pass judgement known pass' := by
  cases h with
  | known h => exact .known h
  | cyclic => cases hcalm _ rfl
  | free h hfree => exact .free h fun hmem => hfree (hbusy hmem)
  | recalled h => exact .recalled h

/-- A run without recursion errors is the same with more room, and with fewer
types being worked out. The induction is on the room. -/
theorem settleNoting_of_calm (tree : Tree) {limit limit' room room' : Nat}
    {busy busy' : List NodeId} {judgement : Judgement} {diary diary' : Diary}
    {ty : Ty} (hroom : room ≤ room') (hbusy : busy' ⊆ busy)
    (hrun : (tree.settleNoting limit room busy judgement).run diary =
      .ok (ty, diary'))
    (hcalm : ∀ call ∈ diary'.calls, call.answer.isRecursion = false) :
    (tree.settleNoting limit' room' busy' judgement).run diary =
      .ok (ty, diary') := by
  induction room using Nat.strongRecOn
    generalizing room' busy busy' judgement diary ty diary' with
  | ind room ih =>
      cases tree.answered_of_settleNoting hrun with
      | found h =>
          refine tree.settleNoting_of_settled
            (tree.settled?_eq_ok_iff.mpr (h.of_calm ?_ hbusy))
          rintro _ ⟨⟩
          exact hcalm _ List.mem_cons_self
      | deep h hty =>
          have hrecursion := hcalm _ List.mem_cons_self
          rw [hty] at hrecursion
          cases hrecursion
      | @ruled less ty last h hrule =>
          obtain ⟨less', rfl⟩ : ∃ less', room' = less' + 1 :=
            ⟨room' - 1, by omega⟩
          have henter : judgement.enter busy' ⊆ judgement.enter busy := by
            cases judgement with
            | synth scope node => exact List.cons_subset_cons node hbusy
            | check => exact hbusy
          have hrule' := Rule.run_of_calm
            (fun premise before found after hpremise =>
              ⟨(tree.settleNoting_grows hpremise).1,
                ih less (Nat.lt_succ_self less) (Nat.le_of_succ_le_succ hroom)
                  henter hpremise⟩)
            hrule fun call hcall => hcalm call (List.mem_cons_of_mem _ hcall)
          rw [tree.settleNoting_succ
            (tree.settled?_eq_ok_iff.mpr (h.of_calm (by simp) hbusy)),
            hrule']
          rfl

/-! ### Relations and annotations -/

/-- An annotation names its type, or is wrong, whatever else is known. -/
theorem Closed.exists_rule_eq_conclude {tree : Tree} (closed : tree.Closed)
    {id : NodeId} (h : tree.holds (·.isTypeNode) id = true) :
    ∃ ty, ∀ scope, tree.rule (.synth scope id) = .conclude ty := by
  obtain ⟨construct, hconstruct, htype⟩ := (holds_iff tree _ id).mp h
  cases construct with
  | keywordType keyword =>
      refine ⟨keywordType id keyword, fun scope => ?_⟩
      rw [rule, synthRule, hconstruct]
      rfl
  | conceptType ref =>
      have href : ref < tree.size :=
        closed.complete.part_lt_size hconstruct (by simp [Construct.children])
      obtain ⟨ty, hty, -⟩ :=
        yields_conceptType closed.complete (lt_size_of_construct hconstruct)
          href
      refine ⟨ty, fun scope => ?_⟩
      rw [rule, synthRule, hconstruct]
      change Rule.ofExcept (tree.conceptType id ref) = _
      rw [hty]
      rfl
  | _ => cases htype

section Answers

variable {tree : Tree} {calls : List Call}
  (hground : ∀ call ∈ calls, tree.HasGround 0 calls call)
  (hscope : ∀ call ∈ calls, tree.Stays Scope.empty call.judgement)

include hground hscope

/-- In a transcript without bindings every type follows by a rule. -/
theorem follows_of_mem {node : NodeId} {scope : Scope} {ty : Ty}
    (h : ⟨.synth scope node, ty⟩ ∈ calls) :
    ∃ other, (tree.rule (.synth other node)).Follows 0 calls ty := by
  obtain rfl : scope = Scope.empty := hscope _ h
  rcases hground _ h with hbound | ⟨twin, htwin, hderived⟩
  · cases hbound
  · cases htwin with
    | synth other => exact ⟨other, hderived⟩

/-- A relation has the type of its annotation if that is a type error. Otherwise
it is a relation from the concept that declares it to that type. -/
theorem WellFormed.answer_of_relation (wf : tree.WellFormed)
    {owner relation relatum : NodeId} {ident : Ident}
    (hdeclares : tree.Declares owner relation)
    (hconstruct : tree.construct relation = .ok (.relation ident relatum))
    {ty relatumTy : Ty}
    (hrelatum : ∀ scope, tree.rule (.synth scope relatum) = .conclude relatumTy)
    {scope : Scope} (h : ⟨.synth scope relation, ty⟩ ∈ calls) :
    relatumTy.isError = true ∧ ty = relatumTy ∨ relatumTy.isError = false ∧
      ∃ stamp name,
        ty = .relation stamp relation ident.name ⟨owner, name⟩ relatumTy := by
  obtain ⟨name, howner⟩ := wf.owner?_of_declares hdeclares
  obtain ⟨other, hfollows⟩ := follows_of_mem hground hscope h
  rw [rule, synthRule, hconstruct] at hfollows
  change (tree.synthRelation other relation ident.name relatum).Follows 0 calls
    ty at hfollows
  rw [synthRelation, howner] at hfollows
  obtain ⟨found, hfound, hnext⟩ := hfollows
  obtain ⟨inner, hfound⟩ := follows_of_mem hground hscope hfound
  rw [hrelatum inner] at hfound
  obtain rfl : relatumTy = found := hfound
  cases relatumTy with
  | error e => exact Or.inl ⟨rfl, hnext.symm⟩
  | _ =>
      obtain ⟨stamp, -, rfl⟩ := hnext
      exact Or.inr ⟨rfl, stamp, name, rfl⟩

end Answers

end Tree

/-! ### Joins -/

theorem Fault.message_joinRelation_ne (field : String) (found : Ty)
    (name owner : String) :
    (Fault.joinRelation field found).message ≠
      (Fault.joinOwner name owner).message := by
  unfold Fault.message
  simp only [String.append_assoc]
  exact append_ne_append (by decide) (by decide)

namespace Tree

/-- On the concept, the field relates to the type: it is the type that a new
pass finds for the relatum of the first relation of that name which the
ancestors of the concept declare. -/
inductive RelatesTo (tree : Tree) (options : Options) (concept : Concept)
    (field : String) (ty : Ty) : Prop where
  | mk {owners : List NodeId} {owner relation relatum : NodeId} {name : Ident}
      {pass : Pass} (howners : tree.ancestors concept.decl = .ok owners)
      (hfirst : tree.FirstNamed field owners owner relation)
      (hrelation : tree.construct relation = .ok (.relation name relatum))
      (hrelatum : (tree.synth options Scope.empty relatum).run {} =
        .ok (ty, pass))

/-- How the type of the left side decides the type of a join whose field has the
name `field`. The left side must be a concept, one of its ancestors must declare
a relation of that name, and what the field relates to must not be a type
error. -/
inductive TypesJoin (tree : Tree) (options : Options) (join : NodeId)
    (field : String) :
    Ty → Ty → Prop where
  | operand {left : Ty} (h : ∀ concept, left ≠ .concept concept) :
      TypesJoin tree options join field left (.fault join (.joinOperand left))
  | target {concept : Concept} {owners : List NodeId}
      (howners : tree.ancestors concept.decl = .ok owners)
      (h : ∀ owner ∈ owners, ¬ tree.DeclaresNamed field owner) :
      TypesJoin tree options join field (.concept concept)
        (.fault join (.joinTarget field concept.name))
  | relatum {concept : Concept} {ty : Ty}
      (h : tree.RelatesTo options concept field ty) (hty : ty.isError = false) :
      TypesJoin tree options join field (.concept concept) ty
  | relation {concept : Concept} {ty : Ty}
      (h : tree.RelatesTo options concept field ty) (hty : ty.isError = true) :
      TypesJoin tree options join field (.concept concept)
        (.fault join (.joinRelation field ty))

/-- No join fails because a relation has another owner than the concept it was
found on. -/
theorem TypesJoin.ne_joinOwner {tree : Tree} {options : Options} {join : NodeId}
    {field : String} {left ty : Ty}
    (h : tree.TypesJoin options join field left ty) (name owner : String) :
    ty ≠ .fault join (.joinOwner name owner) := by
  intro heq
  cases h with
  | operand => cases congrArg (·.error?.map (·.kind)) heq
  | target => cases congrArg (·.error?.map (·.kind)) heq
  | relatum h hty =>
      rw [heq] at hty
      cases hty
  | relation =>
      exact Fault.message_joinRelation_ne _ _ _ _
        (Option.some.inj (congrArg (·.error?.map (·.message)) heq))

section Joins

variable {tree : Tree}

/-- A judgement that a new pass settles without a recursion error is settled by
its rule. -/
theorem exists_run_of_calm {limit room : Nat} {judgement : Judgement}
    {diary : Diary} {ty : Ty} (hbound : judgement.bound? = none)
    (hrun : (tree.settleNoting limit room [] judgement).run ⟨{}, []⟩ =
      .ok (ty, diary))
    (hcalm : ty.isRecursion = false) :
    ∃ less last, room = less + 1 ∧ last.calls ⊆ diary.calls ∧
      ((tree.rule judgement).run (fun _ => Diary.inPass Pass.mint)
        (tree.settleNoting limit less (judgement.enter []))).run ⟨{}, []⟩ =
        .ok (ty, last) := by
  cases tree.answered_of_settleNoting hrun with
  | found h =>
      have hfresh : Pass.Remembers (fun _ _ => False) {} := .fresh 0
      rcases hfresh.known (h.known?_eq hcalm).1 with heq | ⟨twin, -, hfalse⟩
      · rw [hbound] at heq
        cases heq
      · exact hfalse.elim
  | deep h hty =>
      rw [hty] at hcalm
      cases hcalm
  | @ruled less ty last h hrule =>
      exact ⟨less, last, rfl, List.subset_cons_self _ _, hrule⟩

/-- All the ways in which the rule of joins comes to its conclusion. -/
theorem run_synthJoin_cases {settle : Judgement → DiaryM Ty} {scope : Scope}
    {join left field : NodeId} {text : String} {link : Link}
    {diary last : Diary} {ty : Ty}
    (hfield : tree.construct field = .ok (.reference text link))
    (h : ((tree.synthJoin scope join left field).run
      (fun _ => Diary.inPass Pass.mint) settle).run diary = .ok (ty, last)) :
    ∃ leftTy middle, (settle (.synth scope left)).run diary =
      .ok (leftTy, middle) ∧
      (middle = last ∧ (∀ concept, leftTy ≠ .concept concept) ∧
          ty = .fault join (.joinOperand leftTy) ∨
        ∃ concept found, leftTy = .concept concept ∧
          tree.findRelation concept.decl text = .ok found ∧
          (middle = last ∧ found = none ∧
            ty = .fault join (.joinTarget text concept.name) ∨
            ∃ owner relation relationTy, found = some (owner, relation) ∧
              (settle (.synth scope relation)).run middle =
                .ok (relationTy, last) ∧
              ty = joinThrough join text owner relationTy)) := by
  obtain ⟨leftTy, middle, hleft, hnext⟩ := Rule.run_premise_eq_ok_iff.mp h
  refine ⟨leftTy, middle, hleft, ?_⟩
  cases leftTy with
  | concept concept =>
      refine Or.inr ⟨concept, ?_⟩
      dsimp only [Rule.bind] at hnext
      rw [hfield] at hnext
      change ((liftM (tree.findRelation concept.decl text) >>= _ : Rule Ty).run
        _ settle).run middle = _ at hnext
      cases hfound : tree.findRelation concept.decl text with
      | error e =>
          rw [hfound] at hnext
          cases hnext
      | ok found =>
          rw [hfound] at hnext
          refine ⟨found, rfl, rfl, ?_⟩
          cases found with
          | none =>
              cases hnext
              exact Or.inl ⟨rfl, rfl, rfl⟩
          | some pair =>
              obtain ⟨relationTy, after, hrelation, hend⟩ :=
                Rule.run_premise_eq_ok_iff.mp hnext
              cases hend
              exact Or.inr ⟨pair.1, pair.2, relationTy, rfl, hrelation, rfl⟩
  | _ =>
      cases hnext
      exact Or.inl ⟨rfl, by simp, rfl⟩

/-- An annotation has the same type in every pass. -/
theorem synth_of_rule_eq_conclude {options : Options}
    (hdepth : 1 ≤ options.maxDepth) {id : NodeId} {ty : Ty}
    (h : ∀ scope, tree.rule (.synth scope id) = .conclude ty) :
    (tree.synth options Scope.empty id).run {} =
      .ok (ty, Pass.recordType {} id ty) := by
  obtain ⟨room, hroom⟩ : ∃ room, options.maxDepth = room + 1 :=
    ⟨options.maxDepth - 1, by omega⟩
  have hsettled : (tree.settled? [] (.synth Scope.empty id)).run {} =
      .ok (none, {}) :=
    tree.settled?_synth_of_free (by simp [Pass.lookup]) List.not_mem_nil
  refine tree.judge_of_rule hroom hsettled ?_
  rw [h]
  rfl

/-- A join through a relation that was found has the type of its relatum. -/
theorem WellFormed.typesJoin_of_found (wf : tree.WellFormed) {options : Options}
    (hdepth : 1 ≤ options.maxDepth) {calls : List Call}
    (hground : ∀ call ∈ calls, tree.HasGround 0 calls call)
    (hscope : ∀ call ∈ calls, tree.Stays Scope.empty call.judgement)
    {concept : Concept} {owners : List NodeId} {join owner relation : NodeId}
    {field : String} {scope : Scope} {ty : Ty}
    (howners : tree.ancestors concept.decl = .ok owners)
    (hfirst : tree.FirstNamed field owners owner relation)
    (h : ⟨.synth scope relation, ty⟩ ∈ calls) :
    tree.TypesJoin options join field (.concept concept)
      (joinThrough join field owner ty) := by
  obtain ⟨ident, parents, relations, hconcept, hmem⟩ := hfirst.declares
  have hpart :
      (Role.relation, relation) ∈
      (Construct.concept ident parents relations).parts := by
    simp [Construct.parts, hmem]
  obtain ⟨construct, hrelation, hadmits⟩ := wf.role hconcept hpart
  cases construct with
  | relation name relatum =>
      have htype : tree.holds (·.isTypeNode) relatum = true :=
        wf.holds_part .typeNode hrelation (by simp [Construct.parts])
      obtain ⟨relatumTy, hrelatum⟩ := wf.exists_rule_eq_conclude htype
      have hrelates : tree.RelatesTo options concept field relatumTy :=
        .mk howners hfirst hrelation (synth_of_rule_eq_conclude hdepth hrelatum)
      rcases wf.answer_of_relation hground hscope hfirst.declares hrelation
        hrelatum h with
        ⟨herror, rfl⟩ | ⟨hok, stamp, owned, rfl⟩
      · cases ty with
        | error e => exact .relation hrelates rfl
        | _ => cases herror
      · rw [joinThrough, if_pos rfl]
        exact .relatum hrelates hok
  | _ => cases hadmits

end Joins

/-- The type of a join. If a new pass finds the type of a join in a well-formed
tree without meeting a recursion error, then it is decided by the type that a
new pass finds for the left side. -/
theorem synth_join_exact (tree : Tree) (wf : tree.WellFormed)
    (options : Options) {join left field : NodeId}
    (hjoin : tree.construct join = .ok (.join left field))
    (hcalm : ∀ call ∈ tree.transcript options (.synth Scope.empty join) {},
      call.answer.isRecursion = false) :
    ∃ ty leftTy pass leftPass text link,
      (tree.synth options Scope.empty join).run {} = .ok (ty, pass) ∧
      (tree.synth options Scope.empty left).run {} = .ok (leftTy, leftPass) ∧
      tree.construct field = .ok (.reference text link) ∧
      tree.TypesJoin options join text leftTy ty ∧
      ∀ name owner, ty ≠ .fault join (.joinOwner name owner) := by
  obtain ⟨ty, pass, hsynth, -⟩ :=
    wf.exists_synth options (lt_size_of_construct hjoin)
  have hnoting := settleNoting_of_judge hsynth
  have hground := tree.hasGround_of_settleNoting (Nat.le_refl 0) hnoting hcalm
  have hstays : tree.Stays Scope.empty (.synth Scope.empty join) := rfl
  have hscope := fun call hcall =>
    (hstays.of_settleNoting _ wf hnoting call hcall).resolve_left
      List.not_mem_nil
  obtain ⟨room, last, hroom, hlast, hrule⟩ := exists_run_of_calm rfl hnoting
    (hcalm _ (tree.settleNoting_grows hnoting).2)
  generalize tree.transcript options (.synth Scope.empty join) {} = calls at *
  have hpart : (Role.name, field) ∈ (Construct.join left field).parts := by
    simp [Construct.parts]
  obtain ⟨construct, hfield, hadmits⟩ := wf.role hjoin hpart
  obtain ⟨text, link, rfl⟩ : ∃ text link, construct = .reference text link := by
    cases construct with
    | reference text link => exact ⟨text, link, rfl⟩
    | _ => cases hadmits
  rw [rule, synthRule, hjoin] at hrule
  obtain ⟨leftTy, middle, hleft, hcases⟩ := run_synthJoin_cases hfield hrule
  have hmiddle : middle.calls ⊆ calls := by
    rcases hcases with
      ⟨rfl, -⟩ | ⟨concept, found, -, -, ⟨rfl, -⟩ | ⟨_, _, _, -, hrelation, -⟩⟩
    · exact hlast
    · exact hlast
    · exact fun call hcall =>
        hlast ((tree.settleNoting_grows hrelation).1.calls hcall)
  -- A new pass finds the same type for the left side, with more room and
  -- nothing under way.
  have hsynthLeft : (tree.synth options Scope.empty left).run {} =
      .ok (leftTy, middle.pass) :=
    (tree.mirrors_settleNoting options.maxDepth options.maxDepth [] _).run_eq
      (tree.settleNoting_of_calm (by omega) (List.nil_subset _) hleft
        fun call hcall =>
        hcalm call (hmiddle hcall))
  have htypes : tree.TypesJoin options join text leftTy ty := by
    rcases hcases with ⟨-, hnot, rfl⟩ | ⟨concept, found, rfl, hfound, hcases⟩
    · exact .operand hnot
    · obtain ⟨owners, howners, hspec⟩ := findRelation_spec hfound
      rcases hcases with
        ⟨-, rfl, rfl⟩ | ⟨owner, relation, relationTy, rfl, hrelation, rfl⟩
      · obtain ⟨-, hnone⟩ := hspec.resolve_right (by simp)
        exact .target howners hnone
      · obtain ⟨owner', relation', heq, hfirst⟩ := hspec.resolve_left (by simp)
        cases heq
        exact wf.typesJoin_of_found (by omega) hground hscope howners hfirst
          (hlast (tree.settleNoting_grows hrelation).2)
  exact ⟨ty, leftTy, pass, middle.pass, text, link, hsynth, hsynthLeft, hfield,
    htypes, htypes.ne_joinOwner⟩

/-- A model with a diamond of concepts that is also a cycle: `Bottom` extends
`Left` and `Right`, these extend `Base`, and `Base` extends `Bottom`. One parent
of `Left` does not exist. `Base` and `Right` declare a relation of the same
name, and the last join uses it on `Bottom`. -/
def diamondModel : Tree :=
  let named (name : String) : Ident := ⟨name, Span.unknown⟩
  ofConstructs [
    .keywordType "Integer", .relation (named "size") 0,
    .reference "Bottom" (.resolved 13),
    .concept (named "Base") [2] [1],
    .reference "Base" (.resolved 3), .reference "Ghost" .pending,
    .concept (named "Left") [4, 5] [],
    .keywordType "String", .relation (named "size") 7,
    .reference "Base" (.resolved 3),
    .concept (named "Right") [9] [8],
    .reference "Left" (.resolved 6), .reference "Right" (.resolved 10),
    .concept (named "Bottom") [11, 12] [],
    .reference "Bottom" (.resolved 13), .conceptType 14,
    .var (named "b") (some 15) none,
    .reference "b" (.resolved 16), .reference "size" (.resolved 1), .join 17 18,
    .var (named "n") none (some 19)]
    [3, 6, 10, 13, 16, 20]

theorem diamondModel_wellFormed : diamondModel.WellFormed where
  grown := grown_ofConstructs _ _
  before := by decide +kernel
  links := by decide +kernel
  once := by decide +kernel
  roles := by decide +kernel
  roots := by decide +kernel
  targets := by decide +kernel

/-- `Base` comes before `Right` among the ancestors, so the relation is that of
`Base`. -/
theorem synth_join_exact_diamondModel :
    diamondModel.ancestors 13 = .ok [13, 6, 3, 10] ∧
    ∃ ty leftTy pass leftPass,
      (diamondModel.synth {} Scope.empty 19).run {} = .ok (ty, pass) ∧
      (diamondModel.synth {} Scope.empty 17).run {} = .ok (leftTy, leftPass) ∧
      diamondModel.TypesJoin {} 19 "size" leftTy ty ∧ leftTy.text = "Bottom" ∧
      ty.text = "Integer" := by
  have hcalm : (diamondModel.transcript {} (.synth Scope.empty 19) {}).all
      (!·.answer.isRecursion) = true := by decide +kernel
  have htexts : (do
      let join ← (diamondModel.synth {} Scope.empty 19).run {}
      let left ← (diamondModel.synth {} Scope.empty 17).run {}
      return (join.1.text, left.1.text)) = .ok ("Integer", "Bottom") := by
        decide +kernel
  obtain ⟨ty, leftTy, pass, leftPass, text, link, hjoin, hleft, hfield, htypes,
      -⟩ :=
    synth_join_exact diamondModel diamondModel_wellFormed {}
      (show diamondModel.construct 19 = .ok (.join 17 18) from rfl)
      fun call hcall => by
        simpa using List.all_eq_true.mp hcalm call hcall
  rw [hjoin, hleft] at htexts
  obtain ⟨htext, hleftText⟩ := Prod.mk.inj (Except.ok.inj htexts)
  cases hfield
  exact ⟨by decide +kernel, ty, leftTy, pass, leftPass, hjoin, hleft, htypes,
    hleftText, htext⟩

end Tree

end ConceptLang
