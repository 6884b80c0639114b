import ConceptLang.Proofs.Discipline
import ConceptLang.Proofs.TypingRelation

/-!
# Chains of judgements

While a judgement is being worked out, it waits for one of its premises, that
premise for one of its own, and so on. This module bounds the length of such a
chain. What matters for that is only which node is asked about and how (`Slot`),
and which slot can wait for which (`Tree.Calls`).

In a well-formed tree no chain comes to the same slot twice. For synthesis the
pass itself sees to it, since a type that is being worked out is not worked out
again. For checking the reason is the shape of the tree. An expression can be
entered only from the whole that it is a part of. The outermost expression is
the body of a function or the value of a variable. Bodies and the values of
annotated variables are entered only by who checks the declaration, and any
other value only through the variable, whose type is then being worked out
already.

A chain may also start in the middle of a value, at the left side of a join,
where the linker needs a type. The left side of a join is never checked by its
join, so what is inside of it is entered only through its own type, which is
then being worked out (`Tree.Guarded`).

So a chain has at most two slots for each node (`Tree.Chain.length_lt`).
-/

namespace ConceptLang

/-- What a judgement asks, apart from the scope and the expected type. -/
inductive Slot where
  | synth (node : NodeId)
  | check (node : NodeId)
deriving DecidableEq, Repr, Inhabited

namespace Slot

/-- The node that a slot is about. -/
def node : Slot → NodeId
  | .synth node => node
  | .check node => node

/-- The slot does not ask for a type that is being worked out. -/
def Free (busy : List NodeId) (slot : Slot) : Prop :=
  ∀ node, slot = .synth node → node ∉ busy

/-- The nodes whose types are being worked out while the slot is. -/
def enter (busy : List NodeId) : Slot → List NodeId
  | .synth node => node :: busy
  | .check _ => busy

theorem mem_enter_of_mem {busy : List NodeId} {id : NodeId} (slot : Slot)
    (h : id ∈ busy) :
    id ∈ slot.enter busy := by
  cases slot with
  | synth node => exact List.mem_cons_of_mem _ h
  | check node => exact h

theorem mem_enter_iff {busy : List NodeId} {id : NodeId} (slot : Slot) :
    id ∈ slot.enter busy ↔ slot = .synth id ∨ id ∈ busy := by
  cases slot with
  | synth node => simp [enter, eq_comm]
  | check node => simp [enter]

end Slot

/-- The slot of a judgement. -/
def Judgement.slot : Judgement → Slot
  | .synth _ node => .synth node
  | .check _ node _ => .check node

theorem Judgement.node_slot (judgement : Judgement) :
    judgement.slot.node = judgement.node := by
  cases judgement <;> rfl

theorem Judgement.enter_slot (judgement : Judgement) (busy : List NodeId) :
    judgement.slot.enter busy = judgement.enter busy := by
  cases judgement <;> rfl

theorem Judgement.free_slot {busy : List NodeId} (judgement : Judgement)
    (h : ¬ judgement.Awaited busy) : judgement.slot.Free busy := by
  rintro node hnode
  cases judgement with
  | synth scope id =>
      cases hnode
      exact h
  | check => cases hnode

/-- Whether the type of a construct is found by checking it. -/
def Construct.isSelfChecked : Construct → Bool
  | .binary _ _ _ | .predicate _ _ _ => true
  | _ => false

/-- Whether a construct declares a function. -/
def Construct.isFunction : Construct → Bool
  | .function _ _ _ _ => true
  | _ => false

/-- Whether a construct is a join. -/
def Construct.isJoin : Construct → Bool
  | .join _ _ => true
  | _ => false

namespace Tree

/-- The second slot can be a premise of the first one. -/
inductive Calls (tree : Tree) : Slot → Slot → Prop where
  /-- An expression asks about its parts. A join asks only for the type of its
  left side. -/
  | part {slot next : Slot} {construct : Construct}
      (h : tree.construct slot.node = .ok construct)
      (hexpr : construct.isExpression = true)
      (hpart : next.node ∈ construct.children)
      (hjoin : ∀ left field, construct = .join left field →
        next = .synth left) :
      Calls tree slot next
  | selfCheck {node : NodeId} {construct : Construct}
      (h : tree.construct node = .ok construct)
      (hself : construct.isSelfChecked = true) :
      Calls tree (.synth node) (.check node)
  | compare {node : NodeId} {construct : Construct}
      (h : tree.construct node = .ok construct)
      (hcompared : construct.isCompared = true) :
      Calls tree (.check node) (.synth node)
  /-- A variable asks about its value only if it has no annotation. -/
  | value {node value : NodeId} {name : Ident}
      (h : tree.construct node = .ok (.var name none (some value))) :
      Calls tree (.synth node) (.synth value)
  | body {node body : NodeId} {name : Ident} {params signature : List NodeId}
      (h : tree.construct node = .ok (.function name params signature body)) :
      Calls tree (.check node) (.check body)
  /-- The type of anything but an expression may be asked for from anywhere. -/
  | jump {node target : NodeId} {construct : Construct}
      (h : tree.construct target = .ok construct)
      (hexpr : construct.isExpression = false) :
      Calls tree (.synth node) (.synth target)

/-- The node is inside of the value of `var`, a variable without annotation. -/
inductive Within (tree : Tree) (var : NodeId) : NodeId → Prop where
  | value {name : Ident} {value : NodeId}
      (h : tree.construct var = .ok (.var name none (some value))) :
      Within tree var value
  | part {node part : NodeId} (hwithin : Within tree var node)
      (hpart : tree.IsPart part node) : Within tree var part

/-- The node is the left side of a join. -/
def JoinLeft (tree : Tree) (left : NodeId) : Prop :=
  ∃ join field, tree.construct join = .ok (.join left field)

/-- The node is the field of a join. -/
def JoinField (tree : Tree) (field : NodeId) : Prop :=
  ∃ join left, tree.construct join = .ok (.join left field)

/-- The node is entered only while a type is being worked out: that of each
variable whose value it is inside of, or that of the left side of a join that it
is inside of. -/
inductive Guarded (tree : Tree) (busy : List NodeId) (node : NodeId) :
    Prop where
  | values (h : ∀ var, tree.Within var node → var ∈ busy)
  | left {left : NodeId} (hbusy : left ∈ busy) (hleft : tree.JoinLeft left)
      (hbelow : tree.Below node left)

/-- The first slot can come to the second one, by way of slots that are free. -/
def Leads (tree : Tree) (busy : List NodeId) : Slot → Slot → Prop :=
  Relation.ReflTransGen fun slot next => tree.Calls slot next ∧ next.Free busy

/-- The slot is about a guarded expression that `node` is or is inside of. -/
structure Covers (tree : Tree) (busy : List NodeId) (node : NodeId)
    (slot : Slot) : Prop where
  expression : tree.holds (·.isExpression) slot.node = true
  below : tree.Below node slot.node
  guarded : tree.Guarded busy slot.node

theorem Guarded.mono {tree : Tree} {busy busy' : List NodeId} {node : NodeId}
    (h : tree.Guarded busy node) (hbusy : busy ⊆ busy') :
    tree.Guarded busy' node := by
  cases h with
  | values h => exact .values fun var hvar => hbusy (h var hvar)
  | left hmem hleft hbelow => exact .left (hbusy hmem) hleft hbelow

end Tree

theorem Construct.isSelfChecked_spec {construct : Construct}
    (h : construct.isSelfChecked = true) :
    construct.isCompared = false ∧ construct.isFunction = false := by
  cases construct <;> first | exact ⟨rfl, rfl⟩ | cases h

/-- All parts of an expression are expressions. -/
theorem Construct.isExpression_of_part {construct child : Construct}
    {role : Role} {id : NodeId} (hexpr : construct.isExpression = true)
    (hpart : (role, id) ∈ construct.parts)
    (hadmits : role.admits child = true) : child.isExpression = true := by
  have hrole : role = .expression ∨ role = .name := by
    cases construct <;> simp_all [isExpression, parts] <;> grind
  rcases hrole with rfl | rfl
  · exact hadmits
  · cases child <;> simp_all [Role.admits, isExpression]

namespace Tree.WellFormed

variable {tree : Tree} (wf : tree.WellFormed)

include wf

theorem isExpression_of_part {id part : NodeId} {construct : Construct}
    (h : tree.construct id = .ok construct)
    (hexpr : construct.isExpression = true)
    (hpart : part ∈ construct.children) :
    tree.holds (·.isExpression) part = true := by
  obtain ⟨role, hrole⟩ := (Construct.mem_children_iff construct part).mp hpart
  obtain ⟨child, hchild, hadmits⟩ := wf.role h hrole
  exact (holds_iff tree _ part).mpr ⟨child, hchild,
    Construct.isExpression_of_part hexpr hrole hadmits⟩

theorem isExpression_of_value {id value : NodeId} {name : Ident}
    {typeNode : Option NodeId}
    (h : tree.construct id = .ok (.var name typeNode (some value))) :
    tree.holds (·.isExpression) value = true :=
  wf.holds_part .expression h (by simp [Construct.parts])

theorem isExpression_of_body {id body : NodeId} {name : Ident}
    {params signature : List NodeId}
    (h : tree.construct id = .ok (.function name params signature body)) :
    tree.holds (·.isExpression) body = true :=
  wf.holds_part .expression h (by simp [Construct.parts])

/-- What is inside of a value is an expression. -/
theorem isExpression_of_within {var node : NodeId} (h : tree.Within var node) :
    tree.holds (·.isExpression) node = true := by
  induction h with
  | value h => exact wf.isExpression_of_value h
  | part _ hpart ih =>
      obtain ⟨construct, hconstruct, hmem⟩ :=
        (isPart_iff_construct tree _ _).mp hpart
      obtain ⟨construct', hconstruct', hexpr⟩ := (holds_iff tree _ _).mp ih
      obtain rfl := Except.ok.inj (hconstruct.symm.trans hconstruct')
      exact wf.isExpression_of_part hconstruct hexpr hmem

/-- What is a part of an expression and inside of a value has the whole inside
of that value. -/
theorem within_of_part {var node part : NodeId} {construct : Construct}
    (h : tree.construct node = .ok construct) (hvar : construct.isVar = false)
    (hpart : part ∈ construct.children) (hwithin : tree.Within var part) :
    tree.Within var node := by
  have hisPart : tree.IsPart part node :=
    (isPart_iff_construct tree part node).mpr ⟨_, h, hpart⟩
  cases hwithin with
  | value hvalue =>
      have hother : tree.IsPart part var :=
        (isPart_iff_construct tree part var).mpr
          ⟨_, hvalue, by simp [Construct.children]⟩
      obtain rfl := wf.isPart_unique hisPart hother
      obtain rfl := Except.ok.inj (h.symm.trans hvalue)
      cases hvar
  | part hwithin hother =>
      obtain rfl := wf.isPart_unique hisPart hother
      exact hwithin

/-- What an expression has around it, up to the left side of a join, is inside
of that left side too. -/
theorem below_left_of_part {left node part : NodeId} {construct : Construct}
    (hleft : tree.JoinLeft left) (hbelow : tree.Below part left)
    (h : tree.construct node = .ok construct)
    (hpart : part ∈ construct.children) :
    tree.Below node left ∨ part = left ∧
    ∃ field, construct = .join left field := by
  have hisPart : tree.IsPart part node :=
    (isPart_iff_construct tree part node).mpr ⟨_, h, hpart⟩
  rcases Relation.ReflTransGen.cases_head hbelow with
    rfl | ⟨other, hother, hrest⟩
  · obtain ⟨join, field, hjoin⟩ := hleft
    have hjoinPart : tree.IsPart part join :=
      (isPart_iff_construct tree part join).mpr
        ⟨_, hjoin, by simp [Construct.children]⟩
    obtain rfl := wf.isPart_unique hisPart hjoinPart
    obtain rfl := Except.ok.inj (h.symm.trans hjoin)
    exact Or.inr ⟨rfl, field, rfl⟩
  · obtain rfl := wf.isPart_unique hisPart hother
    exact Or.inl hrest

theorem isExpression_of_joinLeft {left : NodeId} (h : tree.JoinLeft left) :
    tree.holds (·.isExpression) left = true := by
  obtain ⟨join, field, hjoin⟩ := h
  exact wf.isExpression_of_part hjoin rfl (by simp [Construct.children])

/-- What is inside of an expression is one. -/
theorem isExpression_of_below {node above : NodeId}
    (hbelow : tree.Below node above)
    (hexpr : tree.holds (·.isExpression) above = true) :
    tree.holds (·.isExpression) node = true := by
  induction hbelow using Relation.ReflTransGen.head_induction_on with
  | refl => exact hexpr
  | head hpart _ ih =>
      obtain ⟨construct, hconstruct, hmem⟩ :=
        (isPart_iff_construct tree _ _).mp hpart
      obtain ⟨construct', hconstruct', hexpr'⟩ := (holds_iff tree _ _).mp ih
      obtain rfl := Except.ok.inj (hconstruct.symm.trans hconstruct')
      exact wf.isExpression_of_part hconstruct hexpr' hmem

/-- The value of a variable is guarded by nothing but the variable. -/
theorem mem_of_guarded_value {busy : List NodeId} {var value : NodeId}
    {name : Ident} (h : tree.construct var = .ok (.var name none (some value)))
    (hguard : tree.Guarded busy value) : var ∈ busy := by
  cases hguard with
  | values hvalues => exact hvalues var (.value h)
  | left hbusy hleft hbelow =>
      rcases wf.below_left_of_part hleft hbelow h
        (by simp [Construct.children]) with
        hvar | ⟨-, field, hjoin⟩
      · have hexpr :=
          wf.isExpression_of_below hvar (wf.isExpression_of_joinLeft hleft)
        exact absurd hexpr (not_holds h rfl)
      · cases hjoin

/-- A free slot about a part of an expression is guarded only if the expression
is. -/
theorem guarded_of_part {busy : List NodeId} {next : Slot} {node : NodeId}
    {construct : Construct} (h : tree.construct node = .ok construct)
    (hpart : next.node ∈ construct.children)
    (hjoin : ∀ left field, construct = .join left field → next = .synth left)
    (hfree : next.Free busy) (hguard : tree.Guarded busy next.node) :
    tree.Guarded busy node := by
  cases hguard with
  | values hvalues =>
      refine .values fun var hwithin => hvalues var (.part hwithin ?_)
      exact (isPart_iff_construct tree _ _).mpr ⟨_, h, hpart⟩
  | left hbusy hleft hbelow =>
      rcases wf.below_left_of_part hleft hbelow h hpart with
        hnode | ⟨-, field, hconstruct⟩
      · exact .left hbusy hleft hnode
      · exact absurd hbusy (hfree _ (hjoin _ field hconstruct))

/-! ### Fields of joins -/

theorem not_joinField_of_construct {id : NodeId} {construct : Construct}
    (h : tree.construct id = .ok construct)
    (hkind : construct.isReference = false) :
    ¬ tree.JoinField id := by
  rintro ⟨join, left, hjoin⟩
  obtain ⟨child, hchild, hadmits⟩ := wf.role hjoin
    (show (Role.name, id) ∈ Construct.parts _ by simp [Construct.parts])
  obtain rfl := Except.ok.inj (h.symm.trans hchild)
  cases construct with
  | reference text link => cases hkind
  | _ => cases hadmits

/-- A part of anything but a join is not the field of one. -/
theorem not_joinField_of_part {id part : NodeId} {construct : Construct}
    (h : tree.construct id = .ok construct) (hpart : part ∈ construct.children)
    (hjoin : ∀ left field, construct = .join left field → part = left) :
    ¬ tree.JoinField part := by
  rintro ⟨join, left, hfield⟩
  have hisPart : tree.IsPart part id :=
    (isPart_iff_construct tree part id).mpr ⟨_, h, hpart⟩
  have hother : tree.IsPart part join :=
    (isPart_iff_construct tree part join).mpr
      ⟨_, hfield, by simp [Construct.children]⟩
  obtain rfl := wf.isPart_unique hisPart hother
  obtain rfl := Except.ok.inj (h.symm.trans hfield)
  have hnodup := wf.nodup_children h
  simp [Construct.children, hjoin left part rfl] at hnodup

/-- No slot asks about the field of a join, unless it is about that field
itself. -/
theorem not_joinField_of_calls {slot next : Slot}
    (hcalls : tree.Calls slot next) (hslot : ¬ tree.JoinField slot.node) :
    ¬ tree.JoinField next.node := by
  cases hcalls with
  | part h hexpr hpart hjoin =>
      exact wf.not_joinField_of_part h hpart fun left field hconstruct =>
        congrArg Slot.node (hjoin left field hconstruct)
  | selfCheck h hself => exact hslot
  | compare h hcompared => exact hslot
  | value h =>
      exact wf.not_joinField_of_part h (by simp [Construct.children, Slot.node])
        (by simp)
  | body h =>
      exact wf.not_joinField_of_part h (by simp [Construct.children, Slot.node])
        (by simp)
  | @jump node target construct h hexpr =>
      refine wf.not_joinField_of_construct h ?_
      cases construct with
      | reference text link => cases hexpr
      | _ => rfl

/-! ### No way back to a check -/

/-- Whoever asks about a guarded expression around `node` is such an expression
too, unless it is a function checking its body. -/
theorem covers_of_calls {busy : List NodeId} {node : NodeId} {slot next : Slot}
    (hfree : slot.Free busy) (hnextFree : next.Free busy)
    (hfunction : ∀ id, slot = .check id → ¬ tree.holds (·.isFunction) id = true)
    (hcalls : tree.Calls slot next) (hnext : tree.Covers busy node next) :
    tree.Covers busy node slot := by
  obtain ⟨hexpr, hbelow, hguard⟩ := hnext
  cases hcalls with
  | part h hslot hpart hjoin =>
      refine ⟨(holds_iff tree _ _).mpr ⟨_, h, hslot⟩, hbelow.tail ?_,
        wf.guarded_of_part h hpart hjoin hnextFree hguard⟩
      exact (isPart_iff_construct tree _ _).mpr ⟨_, h, hpart⟩
  | selfCheck h hself => exact ⟨hexpr, hbelow, hguard⟩
  | compare h hcompared => exact ⟨hexpr, hbelow, hguard⟩
  | value h => exact absurd (wf.mem_of_guarded_value h hguard) (hfree _ rfl)
  | body h =>
      exact absurd ((holds_iff tree _ _).mpr ⟨_, h, rfl⟩) (hfunction _ rfl)
  | jump h hother => exact absurd hexpr (not_holds h hother)

/-- Nobody asks to check a function. -/
theorem not_isFunction_of_calls {slot : Slot} {id : NodeId}
    (h : tree.Calls slot (.check id)) :
    ¬ tree.holds (·.isFunction) id = true := by
  have hexpr : tree.holds (·.isExpression) id = true →
      ¬ tree.holds (·.isFunction) id = true := by
    intro hholds
    obtain ⟨construct, hconstruct, htrue⟩ := (holds_iff tree _ _).mp hholds
    refine not_holds hconstruct ?_
    cases construct <;> first | rfl | cases htrue
  cases h with
  | part h hslot hpart _ => exact hexpr (wf.isExpression_of_part h hslot hpart)
  | selfCheck h hself =>
      exact not_holds h (Construct.isSelfChecked_spec hself).2
  | body h => exact hexpr (wf.isExpression_of_body h)

/-- All that leads to the check of a guarded expression is an expression around
it. -/
theorem covers_of_leads {busy : List NodeId} {node : NodeId} {slot : Slot}
    (hexpr : tree.holds (·.isExpression) node = true)
    (hguard : tree.Guarded busy node)
    (hleads : tree.Leads busy slot (.check node)) (hfree : slot.Free busy)
    (hfunction : ∀ id, slot = .check id →
      ¬ tree.holds (·.isFunction) id = true) :
    tree.Covers busy node slot := by
  induction hleads using Relation.ReflTransGen.head_induction_on with
  | refl => exact ⟨hexpr, .refl, hguard⟩
  | head hcalls _ ih =>
      refine wf.covers_of_calls hfree hcalls.2 hfunction hcalls.1
        (ih hcalls.2 fun id hid => ?_)
      subst hid
      exact wf.not_isFunction_of_calls hcalls.1

/-- The premises of a check do not lead back to it. -/
theorem not_leads_back {busy : List NodeId} {node : NodeId} {next : Slot}
    (hguard : tree.Guarded busy node) (hcalls : tree.Calls (.check node) next)
    (hfree : next.Free busy) : ¬ tree.Leads busy next (.check node) := by
  intro hleads
  have hfunction : ∀ {slot next}, tree.Calls slot next →
    ∀ id, next = .check id → ¬ tree.holds (·.isFunction) id = true := by
    rintro slot _ hcalls id rfl
    exact wf.not_isFunction_of_calls hcalls
  by_cases hexpr : tree.holds (·.isExpression) node = true
  · have hcovers :=
      wf.covers_of_leads hexpr hguard hleads hfree (hfunction hcalls)
    cases hcalls with
    | part h _ hpart _ =>
        exact absurd (wf.le_of_below hcovers.below)
          (Nat.not_le_of_lt (wf.part_lt h hpart))
    | compare h hcompared =>
        -- The first step from `synth node` leaves all expressions around the
        -- node.
        obtain heq | ⟨other, hstep, hrest⟩ :=
          Relation.ReflTransGen.cases_head hleads
        · cases heq
        · have hother :=
            wf.covers_of_leads hexpr hguard hrest hstep.2 (hfunction hstep.1)
          obtain ⟨hstep, -⟩ := hstep
          cases hstep with
          | part h' _ hpart _ =>
              exact absurd (wf.le_of_below hother.below)
                (Nat.not_le_of_lt (wf.part_lt h' hpart))
          | selfCheck h' hself =>
              obtain rfl := Except.ok.inj (h.symm.trans h')
              rw [(Construct.isSelfChecked_spec hself).1] at hcompared
              contradiction
          | value h' => exact not_holds h' rfl hexpr
          | jump h' hjump => exact not_holds h' hjump hother.expression
    | body h => exact not_holds h rfl hexpr
  · -- A check of something else is asked for only by a predicate, and has no
    -- premises there.
    obtain heq | ⟨slot, -, hlast, -⟩ := Relation.ReflTransGen.cases_tail hleads
    · subst heq
      cases hcalls with
      | part h _ hpart _ => exact Nat.lt_irrefl _ (wf.part_lt h hpart)
      | body h =>
          exact Nat.lt_irrefl _ (wf.part_lt h (by simp [Construct.children]))
    · cases hlast with
      | part h hslot hpart _ =>
          exact hexpr (wf.isExpression_of_part h hslot hpart)
      | body h => exact hexpr (wf.isExpression_of_body h)
      | selfCheck h hself =>
          obtain ⟨hcompared, hfunction⟩ := Construct.isSelfChecked_spec hself
          cases hcalls with
          | part h' hexpr' _ _ =>
              exact hexpr ((holds_iff tree _ _).mpr ⟨_, h', hexpr'⟩)
          | compare h' hcompared' =>
              obtain rfl := Except.ok.inj (h.symm.trans h')
              rw [hcompared] at hcompared'
              contradiction
          | body h' =>
              obtain rfl := Except.ok.inj (h.symm.trans h')
              cases hfunction

end Tree.WellFormed

namespace Tree

/-! ### Chains -/

/-- A chain of slots that wait for each other, with `slot` as the next one. -/
structure Chain (tree : Tree) (busy : List NodeId) (chain : List Slot)
    (slot : Slot) : Prop where
  nodup : chain.Nodup
  inside : ∀ other ∈ chain, other.node < tree.size
  busy_iff : ∀ node, node ∈ busy ↔ Slot.synth node ∈ chain
  noReturn : slot.Free busy → ∀ node, Slot.check node ∈ chain →
    ¬ tree.Leads busy slot (.check node)
  guarded : tree.Guarded (slot.enter busy) slot.node

namespace Chain

variable {tree : Tree} {busy : List NodeId} {chain : List Slot}
  {slot next : Slot}

/-- The start of a chain: a slot about a node that is not inside of a value. -/
theorem nil (hguard : ∀ var, ¬ tree.Within var slot.node) :
    tree.Chain [] [] slot :=
  ⟨.nil, by simp, by simp, by simp, .values fun var hvar =>
    absurd hvar (hguard var)⟩

/-- A chain may also start with the type of the left side of a join. -/
theorem left {left : NodeId} (hleft : tree.JoinLeft left) :
    tree.Chain [] [] (.synth left) :=
  ⟨.nil, by simp, by simp, by simp, .left List.mem_cons_self hleft .refl⟩

/-- A slot that is not settled already is not in the chain. -/
theorem not_mem (h : tree.Chain busy chain slot) (hfree : slot.Free busy) :
    slot ∉ chain := by
  intro hmem
  cases slot with
  | synth node => exact hfree node rfl ((h.busy_iff node).mpr hmem)
  | check node => exact h.noReturn hfree node hmem .refl

/-- A chain has room for two slots of each node, and for no more. -/
theorem length_lt (h : tree.Chain busy chain slot) (hfree : slot.Free busy)
    (hinside : slot.node < tree.size) : chain.length < 2 * tree.size := by
  have hnodup : (slot :: chain).Nodup :=
    List.nodup_cons.mpr ⟨h.not_mem hfree, h.nodup⟩
  have hsubset : slot :: chain ⊆
      (List.range tree.size).map .synth ++
        (List.range tree.size).map .check := by
    intro other hother
    have hlt : other.node < tree.size := by
      rcases List.mem_cons.mp hother with rfl | hmem
      · exact hinside
      · exact h.inside other hmem
    cases other <;> simpa [Slot.node] using hlt
  have hle := hnodup.length_le_of_subset hsubset
  simp only [List.length_cons, List.length_append, List.length_map,
    List.length_range] at hle
  omega

/-- What a guarded slot asks about is guarded. -/
theorem guarded_call (wf : tree.WellFormed)
    (hguard : tree.Guarded (slot.enter busy) slot.node)
    (hcalls : tree.Calls slot next) :
    tree.Guarded (next.enter (slot.enter busy)) next.node := by
  refine Guarded.mono ?_ fun id hid => next.mem_enter_of_mem hid
  cases hcalls with
  | part h hexpr hpart _ =>
      cases hguard with
      | values hvalues =>
          refine .values fun var hwithin =>
            hvalues var (wf.within_of_part h ?_ hpart hwithin)
          rename_i construct _
          cases construct <;> first | rfl | cases hexpr
      | left hbusy hleft hbelow =>
          refine .left hbusy hleft (hbelow.head ?_)
          exact (isPart_iff_construct tree _ _).mpr ⟨_, h, hpart⟩
  | selfCheck h hself => exact hguard
  | compare h hcompared => exact hguard
  | value h =>
      rename_i node value name
      refine .values fun var hwithin => ?_
      have hpart : tree.IsPart value node :=
        (isPart_iff_construct tree _ _).mpr ⟨_, h, by simp [Construct.children]⟩
      cases hwithin with
      | value h' =>
          have hpart' : tree.IsPart value var :=
            (isPart_iff_construct tree _ _).mpr
              ⟨_, h', by simp [Construct.children, Slot.node]⟩
          rw [wf.isPart_unique hpart' hpart]
          exact List.mem_cons_self
      | part hwithin hpart' =>
          obtain rfl := wf.isPart_unique hpart' hpart
          exact absurd (wf.isExpression_of_within hwithin) (not_holds h rfl)
  | body h =>
      cases hguard with
      | values hvalues =>
          exact .values fun var hwithin => hvalues var
            (wf.within_of_part h rfl (by simp [Construct.children, Slot.node])
              hwithin)
      | left hbusy hleft hbelow =>
          have hexpr :=
            wf.isExpression_of_below hbelow (wf.isExpression_of_joinLeft hleft)
          exact absurd hexpr (not_holds h rfl)
  | jump h hother =>
      exact .values fun var hwithin =>
        absurd (wf.isExpression_of_within hwithin) (not_holds h hother)

/-- A chain goes on with a premise of its last slot. -/
theorem call (h : tree.Chain busy chain slot) (wf : tree.WellFormed)
    (hfree : slot.Free busy) (hinside : slot.node < tree.size)
    (hcalls : tree.Calls slot next) :
    tree.Chain (slot.enter busy) (slot :: chain) next where
  nodup := List.nodup_cons.mpr ⟨h.not_mem hfree, h.nodup⟩
  inside := by simpa using ⟨hinside, h.inside⟩
  busy_iff node := by
    rw [Slot.mem_enter_iff, List.mem_cons, h.busy_iff, eq_comm]
  guarded := guarded_call wf h.guarded hcalls
  noReturn := by
    intro hnext node hmem hleads
    have hmono : ∀ {other : Slot}, other.Free (slot.enter busy) →
        other.Free busy :=
      fun hother id hid hbusy => hother id hid (slot.mem_enter_of_mem hbusy)
    have hleads' : tree.Leads busy next (.check node) :=
      Relation.ReflTransGen.mono (fun _ _ hstep => ⟨hstep.1, hmono hstep.2⟩) _ _
        hleads
    rcases List.mem_cons.mp hmem with rfl | hmem
    · exact wf.not_leads_back h.guarded hcalls (hmono hnext) hleads'
    · exact h.noReturn hfree node hmem (.head ⟨hcalls, hmono hnext⟩ hleads')

end Chain

end Tree

end ConceptLang
