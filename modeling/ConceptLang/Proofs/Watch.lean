import ConceptLang.Proofs.Discipline

/-!
# Passes that keep watch in their state

`Tree.settle` hands down to each judgement how much room is left and which types
are being worked out. A pass may as well keep both in its state. It then counts
the unfinished judgements, up where the rule of a judgement is entered and down
where it is left, and puts a node on a list while its type is being worked out.
`Tree.settleWatched` keeps watch in this way.

Both ways come to the same (`Tree.settleWatched_apply`). So however a judgement
is settled, the count never falls below zero, and the judgement leaves the count
and the list as it found them.
-/

namespace ConceptLang

/-- What a pass remembers, together with its watch over the recursion. -/
structure Watch where
  pass : Pass
  /-- The number of unfinished judgements. -/
  depth : Nat := 0
  /-- The nodes whose types are being worked out. -/
  inProgress : List NodeId := []

/-- A computation of a pass that keeps watch. It comes to nothing where it would
leave a judgement without having entered one, and where it would need more steps
than it has. -/
abbrev WatchM := StateT Watch (ExceptT TreeError Option)

/-- The nodes whose types are being worked out once a judgement is left. -/
def Judgement.leave (busy : List NodeId) : Judgement → List NodeId
  | .synth _ node => busy.erase node
  | .check _ _ _ => busy

namespace Watch

variable {α β : Type}

/-- Makes a computation of the pass. -/
def inPass (action : PassM α) : WatchM α := fun watch =>
  match action.run watch.pass with
  | .ok (a, pass) => some (.ok (a, { watch with pass }))
  | .error e => some (.error e)

/-- Enters the rule of a judgement. -/
def enter (judgement : Judgement) : WatchM Unit := fun watch =>
  some (.ok ((), { watch with
    depth := watch.depth + 1
    inProgress := judgement.enter watch.inProgress }))

/-- Leaves the rule of a judgement. -/
def leave (judgement : Judgement) : WatchM Unit := fun watch =>
  match watch.depth with
  | 0 => none
  | depth + 1 =>
    some (.ok ((),
      { watch with depth, inProgress := judgement.leave watch.inProgress }))

/-- Has no steps left. -/
def exhausted : WatchM α := fun _ => none

theorem enter_apply (judgement : Judgement) (watch : Watch) :
    enter judgement watch = some (.ok ((), { watch with
      depth := watch.depth + 1
      inProgress := judgement.enter watch.inProgress })) := rfl

theorem leave_apply (judgement : Judgement) (pass : Pass) (depth : Nat)
    (inProgress : List NodeId) :
    leave judgement ⟨pass, depth + 1, inProgress⟩ =
      some (.ok ((), ⟨pass, depth, judgement.leave inProgress⟩)) := rfl

theorem get_apply (watch : Watch) :
    (get : WatchM Watch) watch = some (.ok (watch, watch)) := rfl

theorem inPass_of_ok {action : PassM α} {watch : Watch} {a : α} {pass : Pass}
    (h : action.run watch.pass = .ok (a, pass)) :
    inPass action watch = some (.ok (a, { watch with pass })) := by
  rw [inPass, h]

theorem inPass_of_error {action : PassM α} {watch : Watch} {e : TreeError}
    (h : action.run watch.pass = .error e) :
    inPass action watch = some (.error e) := by
  rw [inPass, h]

theorem bind_of_ok {x : WatchM α} {watch watch' : Watch} {a : α}
    (h : x watch = some (.ok (a, watch'))) (f : α → WatchM β) :
    (x >>= f) watch = f a watch' := by
  change (x watch >>= _ : Option _) = _
  rw [h]
  rfl

theorem bind_of_error {x : WatchM α} {watch : Watch} {e : TreeError}
    (h : x watch = some (.error e)) (f : α → WatchM β) :
    (x >>= f) watch = some (.error e) := by
  change (x watch >>= _ : Option _) = _
  rw [h]
  rfl

end Watch

/-- A run of a rule does not touch the watch if settling its premises does
not. -/
theorem Rule.run_inPass {α : Type} {settle : Judgement → PassM Ty}
    {settle' : Judgement → WatchM Ty} {depth : Nat} {inProgress : List NodeId}
    (hsettle : ∀ judgement pass, settle' judgement ⟨pass, depth, inProgress⟩ =
      Watch.inPass (settle judgement) ⟨pass, depth, inProgress⟩)
    (rule : Rule α) (pass : Pass) :
    rule.run (fun _ => Watch.inPass Pass.mint) settle'
        ⟨pass, depth, inProgress⟩ =
      Watch.inPass (rule.run (fun _ => Pass.mint) settle)
        ⟨pass, depth, inProgress⟩ := by
  induction rule generalizing pass with
  | conclude result => rfl
  | defect error => rfl
  | premise judgement next ih =>
      change (settle' judgement >>= _ : WatchM α) _ = _
      cases hpremise : (settle judgement).run pass with
      | error e =>
          rw [Watch.bind_of_error
            ((hsettle judgement pass).trans (Watch.inPass_of_error hpremise)),
            Watch.inPass_of_error]
          rw [run_premise_apply, hpremise]
          rfl
      | ok out =>
          obtain ⟨ty, middle⟩ := out
          rw [Watch.bind_of_ok
            ((hsettle judgement pass).trans (Watch.inPass_of_ok hpremise)),
            ih ty middle, Watch.inPass, Watch.inPass, run_premise_apply,
            hpremise]
          rfl
  | stamp decl next ih =>
      exact ih pass.stamps { pass with stamps := pass.stamps + 1 }

namespace Tree

/-- Settles a judgement as `Tree.settle` does, with the watch in the state. At
most `steps` judgements are made in a row. -/
def settleWatched (tree : Tree) (limit steps : Nat) (judgement : Judgement) :
    WatchM Ty :=
  match steps with
  | 0 => Watch.exhausted
  | steps + 1 => do
    match ← Watch.inPass (tree.settled? (← get).inProgress judgement) with
    | some ty => return ty
    | none =>
      if limit ≤ (← get).depth then
        return .fault judgement.node (.tooDeep limit)
      else
        Watch.enter judgement
        let ty ← (tree.rule judgement).run (fun _ => Watch.inPass Pass.mint)
          (tree.settleWatched limit steps)
        Watch.leave judgement
        Watch.inPass (modify (·.record judgement ty))
        return ty

/-- To enter the rule of a judgement and to leave it again changes nothing. -/
theorem leave_enter (busy : List NodeId) (judgement : Judgement) :
    judgement.leave (judgement.enter busy) = busy := by
  cases judgement with
  | synth scope node => exact List.erase_cons_head node busy
  | check scope node expected => rfl

/-- To keep watch in the state and to hand it down come to the same. The
induction is on the steps, of which there are more than there is room. -/
theorem settleWatched_apply (tree : Tree) {limit steps depth : Nat}
    (hsteps : limit - depth < steps) (inProgress : List NodeId)
    (judgement : Judgement) (pass : Pass) :
    tree.settleWatched limit steps judgement ⟨pass, depth, inProgress⟩ =
      Watch.inPass (tree.settle limit (limit - depth) inProgress judgement)
        ⟨pass, depth, inProgress⟩ := by
  induction steps generalizing depth inProgress judgement pass with
  | zero => exact absurd hsteps (Nat.not_lt_zero _)
  | succ steps ih =>
      rw [settleWatched, Watch.bind_of_ok (Watch.get_apply _)]
      cases hsettled : (tree.settled? inProgress judgement).run pass with
      | error e =>
          rw [Watch.bind_of_error (Watch.inPass_of_error hsettled),
            Watch.inPass_of_error (tree.settle_of_settled_error hsettled)]
      | ok out =>
          obtain ⟨known, middle⟩ := out
          rw [Watch.bind_of_ok (Watch.inPass_of_ok hsettled)]
          cases known with
          | some ty =>
              rw [Watch.inPass_of_ok (tree.settle_of_settled hsettled)]
              rfl
          | none =>
              obtain rfl := (tree.settled?_eq_ok_iff.mp hsettled).eq_of_none
              dsimp only
              rw [Watch.bind_of_ok (Watch.get_apply _)]
              by_cases hlimit : limit ≤ depth
              · rw [if_pos hlimit, Nat.sub_eq_zero_of_le hlimit,
                  Watch.inPass_of_ok (tree.settle_zero hsettled)]
                rfl
              · obtain ⟨room, hroom⟩ : ∃ room, limit - depth = room + 1 :=
                  ⟨limit - depth - 1, by omega⟩
                have hrule := Rule.run_inPass
                  (ih (show limit - (depth + 1) < steps by omega)
                    (judgement.enter inProgress))
                  (tree.rule judgement) middle
                rw [show limit - (depth + 1) = room by omega] at hrule
                rw [if_neg hlimit, hroom,
                  Watch.bind_of_ok (Watch.enter_apply _ _)]
                cases hrun : ((tree.rule judgement).run (fun _ => Pass.mint)
                    (tree.settle limit room (judgement.enter inProgress))).run
                    middle with
                | error e =>
                    rw [Watch.bind_of_error
                      (hrule.trans (Watch.inPass_of_error hrun)),
                      Watch.inPass_of_error]
                    rw [tree.settle_succ hsettled, hrun]
                    rfl
                | ok out =>
                    obtain ⟨ty, last⟩ := out
                    rw [Watch.bind_of_ok
                      (hrule.trans (Watch.inPass_of_ok hrun)),
                      Watch.bind_of_ok (Watch.leave_apply _ _ _ _), leave_enter,
                      Watch.inPass,
                      tree.settle_succ hsettled, hrun]
                    rfl

end Tree

end ConceptLang
