import ConceptLang.Proofs.Discipline

/-!
# Transcripts

On the way to settle one judgement a pass settles many others. The transcript of
a judgement lists them all with their answers, those that were found in memory
too. It is written by `Tree.settleNoting`, which does what `Tree.settle` does
and takes notes (`Tree.mirrors_settleNoting`).

What a rule asks of its premises can be said without regard to their answers
(`Rule.Always`). If all rules of some kind of judgement ask only for judgements
of that kind, then a transcript has no other ones (`Tree.settleNoting_asks`).
-/

namespace ConceptLang

/-! ### Computations with more state -/

/-- The first computation does what the second one does to the part `view` of
its state. -/
def Mirrors {σ τ α : Type} (view : σ → τ) (x : StateT σ (Except TreeError) α)
    (y : StateT τ (Except TreeError) α) : Prop :=
  ∀ s, (x.run s).map (fun out => (out.1, view out.2)) = y.run (view s)

namespace Mirrors

variable {σ τ α β : Type} {view : σ → τ}

theorem pure (a : α) : Mirrors view (Pure.pure a) (Pure.pure a) :=
  fun _ => rfl

theorem look (x : Except TreeError α) : Mirrors view (liftM x) (liftM x) := by
  intro s
  cases x <;> rfl

theorem bind {x : StateT σ (Except TreeError) α}
    {y : StateT τ (Except TreeError) α} {f : α → StateT σ (Except TreeError) β}
    {g : α → StateT τ (Except TreeError) β} (h : Mirrors view x y)
    (hf : ∀ a, Mirrors view (f a) (g a)) :
    Mirrors view (x >>= f) (y >>= g) := by
  intro s
  rw [StateT.run_bind, StateT.run_bind, ← h s]
  cases x.run s with
  | error e => rfl
  | ok out => exact hf out.1 out.2

theorem forM {f : α → StateT σ (Except TreeError) Unit}
    {g : α → StateT τ (Except TreeError) Unit}
    (h : ∀ a, Mirrors view (f a) (g a)) (xs : List α) :
    Mirrors view (xs.forM f) (xs.forM g) := by
  induction xs with
  | nil => exact .pure ()
  | cons x xs ih => exact (h x).bind fun _ => ih

/-- A rule is mirrored if settling its premises and giving out stamps are. -/
theorem rule {mint : NodeId → StateT σ (Except TreeError) Nat}
    {mint' : NodeId → StateT τ (Except TreeError) Nat}
    {settle : Judgement → StateT σ (Except TreeError) Ty}
    {settle' : Judgement → StateT τ (Except TreeError) Ty}
    (hmint : ∀ decl, Mirrors view (mint decl) (mint' decl))
    (hsettle : ∀ judgement, Mirrors view (settle judgement) (settle' judgement))
    (rule : Rule α) :
    Mirrors view (rule.run mint settle) (rule.run mint' settle') := by
  induction rule with
  | conclude result => exact .pure result
  | defect error => exact fun _ => rfl
  | premise judgement next ih => exact (hsettle judgement).bind ih
  | stamp decl next ih => exact (hmint decl).bind ih

theorem run_eq {x : StateT σ (Except TreeError) α}
    {y : StateT τ (Except TreeError) α} (h : Mirrors view x y) {s s' : σ}
    {a : α} (hx : x.run s = .ok (a, s')) :
    y.run (view s) = .ok (a, view s') := by
  rw [← h s, hx]
  rfl

theorem exists_run {x : StateT σ (Except TreeError) α}
    {y : StateT τ (Except TreeError) α} (h : Mirrors view x y) {s : σ} {a : α}
    {t : τ} (hy : y.run (view s) = .ok (a, t)) :
    ∃ s', x.run s = .ok (a, s') ∧ view s' = t := by
  have hs := (h s).trans hy
  cases hx : x.run s with
  | error e =>
      rw [hx] at hs
      cases hs
  | ok out =>
      rw [hx] at hs
      cases hs
      exact ⟨out.2, rfl, rfl⟩

end Mirrors

/-! ### Diaries -/

/-- A judgement with its answer. -/
structure Call where
  judgement : Judgement
  answer : Ty
deriving Repr, Inhabited

/-- What a pass remembers, together with the calls it has answered, the latest
first. -/
structure Diary where
  pass : Pass
  calls : List Call := []

/-- A computation of a pass that takes notes. -/
abbrev DiaryM := StateT Diary (Except TreeError)

namespace Diary

variable {α : Type}

/-- Makes a computation of the pass. -/
def inPass (action : PassM α) : DiaryM α := fun diary => do
  let out ← action.run diary.pass
  return (out.1, { diary with pass := out.2 })

/-- Gives an answer, and notes it. -/
def answer (judgement : Judgement) (ty : Ty) : DiaryM Ty := do
  modify fun diary => { diary with calls := ⟨judgement, ty⟩ :: diary.calls }
  return ty

/-- The diary after a stamp was given out. -/
def stamped (diary : Diary) : Diary :=
  { diary with pass := { diary.pass with stamps := diary.pass.stamps + 1 } }

theorem mirrors_inPass (action : PassM α) :
    Mirrors Diary.pass (inPass action) action := by
  intro diary
  change Except.map _ (action.run diary.pass >>= _) = _
  cases action.run diary.pass <;> rfl

theorem mirrors_answer (judgement : Judgement) (ty : Ty) :
    Mirrors Diary.pass (answer judgement ty) (pure ty) :=
  fun _ => rfl

theorem inPass_eq_ok_iff {action : PassM α} {diary diary' : Diary} {a : α} :
    (inPass action).run diary = .ok (a, diary') ↔
      ∃ pass, action.run diary.pass = .ok (a, pass) ∧
        diary' = { diary with pass } := by
  change (action.run diary.pass >>= _) = _ ↔ _
  rw [bind_eq_ok_iff]
  constructor
  · rintro ⟨⟨b, pass⟩, h, ⟨⟩⟩
    exact ⟨pass, h, rfl⟩
  · rintro ⟨pass, h, rfl⟩
    exact ⟨(a, pass), h, rfl⟩

/-- The second diary has all calls of the first, and no fewer stamps were given
out. -/
structure Grows (diary diary' : Diary) : Prop where
  calls : diary.calls ⊆ diary'.calls
  stamps : diary.pass.stamps ≤ diary'.pass.stamps

namespace Grows

theorem refl (diary : Diary) :
    diary.Grows diary := ⟨fun _ h => h, Nat.le_refl _⟩

theorem trans {diary diary' diary'' : Diary} (h : diary.Grows diary')
    (h' : diary'.Grows diary'') :
    diary.Grows diary'' :=
  ⟨fun _ hcall => h'.calls (h.calls hcall), Nat.le_trans h.stamps h'.stamps⟩

theorem stamped (diary : Diary) :
    diary.Grows diary.stamped := ⟨fun _ h => h, Nat.le_succ _⟩

end Grows

end Diary

/-! ### Rules that take notes -/

namespace Rule

variable {α β : Type}

section Runs

variable {settle : Judgement → DiaryM Ty} {diary diary' : Diary} {a : α}

theorem run_premise_eq_ok_iff {mint : NodeId → DiaryM Nat}
    {judgement : Judgement} {next : Ty → Rule α} :
    ((Rule.premise judgement next).run mint settle).run diary =
      .ok (a, diary') ↔
        ∃ ty middle, (settle judgement).run diary = .ok (ty, middle) ∧
          ((next ty).run mint settle).run middle = .ok (a, diary') := by
  change ((settle judgement).run diary >>= _) = _ ↔ _
  rw [bind_eq_ok_iff]
  exact ⟨fun ⟨out, h, h'⟩ => ⟨out.1, out.2, h, h'⟩,
    fun ⟨ty, middle, h, h'⟩ => ⟨(ty, middle), h, h'⟩⟩

theorem run_stamp_noting (decl : NodeId) (next : Nat → Rule α) :
    ((Rule.stamp decl next).run (fun _ => Diary.inPass Pass.mint) settle).run
      diary = ((next diary.pass.stamps).run (fun _ => Diary.inPass Pass.mint)
        settle).run diary.stamped :=
  rfl

end Runs

/-- Whatever the answers are, all premises are ones to `ask`. -/
def Always (ask : Judgement → Prop) : Rule α → Prop
  | .conclude _ => True
  | .defect _ => True
  | .premise judgement next => ask judgement ∧ ∀ ty, (next ty).Always ask
  | .stamp _ next => ∀ n, (next n).Always ask

section Always

variable {ask ask' : Judgement → Prop}

theorem Always.mono {rule : Rule α} (h : rule.Always ask)
    (hask : ∀ judgement, ask judgement → ask' judgement) :
    rule.Always ask' := by
  induction rule with
  | conclude result => trivial
  | defect error => trivial
  | premise judgement next ih =>
      exact ⟨hask judgement h.1, fun ty => ih ty (h.2 ty)⟩
  | stamp decl next ih => exact fun n => ih n (h n)

theorem always_true (rule : Rule α) : rule.Always fun _ => True := by
  induction rule with
  | conclude result => trivial
  | defect error => trivial
  | premise judgement next ih => exact ⟨trivial, ih⟩
  | stamp decl next ih => exact ih

theorem Always.bind {rule : Rule α} {f : α → Rule β} (h : rule.Always ask)
    (hf : ∀ a, (f a).Always ask) : (rule.bind f).Always ask := by
  induction rule with
  | conclude result => exact hf result
  | defect error => trivial
  | premise judgement next ih => exact ⟨h.1, fun ty => ih ty (h.2 ty)⟩
  | stamp decl next ih => exact fun n => ih n (h n)

theorem Always.lift {x : Except TreeError α} {f : α → Rule β}
    (hf : ∀ a, x = .ok a → (f a).Always ask) :
    ((liftM x : Rule α) >>= f).Always ask := by
  cases x with
  | error e => trivial
  | ok a => exact hf a rfl

theorem always_synth {scope : Scope} {node : NodeId}
    (h : ask (.synth scope node)) :
    (synth scope node).Always ask :=
  ⟨h, fun _ => trivial⟩

theorem always_check {scope : Scope} {node : NodeId} {expected : Ty}
    (h : ask (.check scope node expected)) :
    (check scope node expected).Always ask :=
  ⟨h, fun _ => trivial⟩

theorem always_synthAll {scope : Scope} {nodes : List NodeId}
    (h : ∀ node ∈ nodes, ask (.synth scope node)) :
    (synthAll scope nodes).Always ask := by
  induction nodes with
  | nil => trivial
  | cons node nodes ih =>
      refine (always_synth (h node (by simp))).bind fun ty => ?_
      cases ty with
      | error e => trivial
      | _ =>
          refine Always.bind (ih fun other hother => h other (by simp [hother]))
            fun outcome => ?_
          cases outcome <;> trivial

/-- A run relates the diaries before and after it, if settling a premise and
giving out a stamp do. -/
theorem Always.run_relates {rel : Diary → Diary → Prop}
    (hrefl : ∀ diary, rel diary diary)
    (htrans : ∀ {diary diary' diary''}, rel diary diary' → rel diary' diary'' →
      rel diary diary'')
    (hmint : ∀ diary, rel diary diary.stamped) {settle : Judgement → DiaryM Ty}
    (hsettle : ∀ judgement diary ty diary', ask judgement →
      (settle judgement).run diary = .ok (ty, diary') → rel diary diary')
    {rule : Rule α} (h : rule.Always ask) {diary diary' : Diary} {a : α}
    (hrun : (rule.run (fun _ => Diary.inPass Pass.mint) settle).run diary =
      .ok (a, diary')) :
    rel diary diary' := by
  induction rule generalizing diary with
  | conclude result =>
      cases hrun
      exact hrefl _
  | defect error => cases hrun
  | premise judgement next ih =>
      obtain ⟨ty, middle, hfirst, hnext⟩ := run_premise_eq_ok_iff.mp hrun
      exact htrans (hsettle judgement diary ty middle h.1 hfirst)
        (ih ty (h.2 ty) hnext)
  | stamp decl next ih =>
      rw [run_stamp_noting] at hrun
      exact htrans (hmint diary) (ih _ (h _) hrun)

end Always

end Rule

namespace Tree

/-! ### Judgements that take notes -/

/-- Settles a judgement as `Tree.settle` does, and notes all calls. -/
def settleNoting (tree : Tree) (limit room : Nat) (busy : List NodeId)
    (judgement : Judgement) :
    DiaryM Ty := do
  match ← Diary.inPass (tree.settled? busy judgement) with
  | some ty => Diary.answer judgement ty
  | none =>
    match room with
    | 0 => Diary.answer judgement (.fault judgement.node (.tooDeep limit))
    | room + 1 =>
      let ty ← (tree.rule judgement).run (fun _ => Diary.inPass Pass.mint)
        (tree.settleNoting limit room (judgement.enter busy))
      Diary.inPass (modify (·.record judgement ty))
      Diary.answer judgement ty

/-- All the ways in which a judgement is settled and noted: it needs no rule,
there is no room left for one, or its rule is followed. -/
inductive Answered (tree : Tree) (limit : Nat) (busy : List NodeId)
    (judgement : Judgement) (diary : Diary) : Nat → Ty → Diary → Prop where
  | found {room : Nat} {ty : Ty} {pass : Pass}
      (h : tree.Found busy diary.pass judgement (some ty) pass) :
      Answered tree limit busy judgement diary room ty ⟨pass,
        ⟨judgement, ty⟩ :: diary.calls⟩
  | deep {ty : Ty} (h : tree.Found busy diary.pass judgement none diary.pass)
      (hty : ty = .fault judgement.node (.tooDeep limit)) :
      Answered tree limit busy judgement diary 0 ty ⟨diary.pass,
        ⟨judgement, ty⟩ :: diary.calls⟩
  | ruled {room : Nat} {ty : Ty} {last : Diary}
      (h : tree.Found busy diary.pass judgement none diary.pass)
      (hrule : ((tree.rule judgement).run (fun _ => Diary.inPass Pass.mint)
        (tree.settleNoting limit room (judgement.enter busy))).run diary =
          .ok (ty, last)) :
      Answered tree limit busy judgement diary (room + 1) ty
        ⟨last.pass.record judgement ty, ⟨judgement, ty⟩ :: last.calls⟩

theorem Found.eq_of_bound {tree : Tree} {busy : List NodeId}
    {judgement : Judgement} {pass pass' : Pass} {ty bound : Ty}
    (h : tree.Found busy pass judgement (some ty) pass')
    (hbound : judgement.bound? = some bound) : ty = bound := by
  cases h with
  | known hlookup =>
      rw [Pass.lookup, show Scope.find? _ _ = _ from hbound] at hlookup
      exact (Option.some.inj hlookup).symm
  | cyclic hlookup =>
      rw [Pass.lookup, show Scope.find? _ _ = _ from hbound] at hlookup
      cases hlookup
  | recalled => cases hbound

theorem Found.bound?_eq_none {tree : Tree} {busy : List NodeId}
    {judgement : Judgement} {pass pass' : Pass}
    (h : tree.Found busy pass judgement none pass') :
    judgement.bound? = none := by
  cases h with
  | free hlookup => exact (Option.or_eq_none_iff.mp hlookup).1
  | recalled => rfl

section Noting

variable (tree : Tree) {limit room : Nat} {busy : List NodeId}
  {judgement : Judgement}

theorem settleNoting_of_settled {diary : Diary} {ty : Ty} {pass : Pass}
    (h : (tree.settled? busy judgement).run diary.pass = .ok (some ty, pass)) :
    (tree.settleNoting limit room busy judgement).run diary =
      .ok (ty, ⟨pass, ⟨judgement, ty⟩ :: diary.calls⟩) := by
  rw [settleNoting.eq_def,
    run_bind_of_ok (Diary.inPass_eq_ok_iff.mpr ⟨pass, h, rfl⟩)]
  rfl

theorem settleNoting_succ {diary : Diary} {pass : Pass}
    (h : (tree.settled? busy judgement).run diary.pass = .ok (none, pass)) :
    (tree.settleNoting limit (room + 1) busy judgement).run diary =
      ((tree.rule judgement).run (fun _ => Diary.inPass Pass.mint)
          (tree.settleNoting limit room (judgement.enter busy))).run
          { diary with pass } >>=
        fun out => .ok (out.1,
          ⟨out.2.pass.record judgement out.1,
            ⟨judgement, out.1⟩ :: out.2.calls⟩) := by
  rw [settleNoting, run_bind_of_ok (Diary.inPass_eq_ok_iff.mpr ⟨pass, h, rfl⟩)]
  rfl

theorem answered_of_settleNoting {diary diary' : Diary} {ty : Ty}
    (h : (tree.settleNoting limit room busy judgement).run diary =
      .ok (ty, diary')) :
    tree.Answered limit busy judgement diary room ty diary' := by
  rw [settleNoting.eq_def, StateT.run_bind] at h
  obtain ⟨⟨known, middle⟩, hsettled, h⟩ := bind_eq_ok_iff.mp h
  obtain ⟨pass, hpass, rfl⟩ := Diary.inPass_eq_ok_iff.mp hsettled
  have hfound := tree.settled?_eq_ok_iff.mp hpass
  cases known with
  | some known =>
      cases h
      exact .found hfound
  | none =>
      obtain rfl := hfound.eq_of_none
      cases room with
      | zero =>
          cases h
          exact .deep hfound rfl
      | succ room =>
          dsimp only at h
          rw [StateT.run_bind] at h
          obtain ⟨⟨found, last⟩, hrule, h⟩ := bind_eq_ok_iff.mp h
          cases h
          exact .ruled hfound hrule

/-- To take notes changes nothing. The induction is on the room. -/
theorem mirrors_settleNoting (limit room : Nat) (busy : List NodeId)
    (judgement : Judgement) :
    Mirrors Diary.pass (tree.settleNoting limit room busy judgement)
      (tree.settle limit room busy judgement) := by
  induction room generalizing busy judgement with
  | zero =>
      rw [settleNoting, settle]
      refine (Diary.mirrors_inPass _).bind fun known => ?_
      cases known <;> exact Diary.mirrors_answer _ _
  | succ room ih =>
      rw [settleNoting, settle]
      refine (Diary.mirrors_inPass _).bind fun known => ?_
      cases known with
      | some ty => exact Diary.mirrors_answer judgement ty
      | none =>
          refine (Mirrors.rule (fun _ => Diary.mirrors_inPass _) (ih _) _).bind
            fun ty => ?_
          exact (Diary.mirrors_inPass _).bind fun _ =>
            Diary.mirrors_answer judgement ty

/-- A judgement is noted with its answer, and no note is lost. The induction is
on the room. -/
theorem settleNoting_grows {diary diary' : Diary} {ty : Ty}
    (hrun : (tree.settleNoting limit room busy judgement).run diary =
      .ok (ty, diary')) :
    diary.Grows diary' ∧ ⟨judgement, ty⟩ ∈ diary'.calls := by
  induction room using Nat.strongRecOn
    generalizing busy judgement diary ty diary' with
  | ind room ih =>
      cases tree.answered_of_settleNoting hrun with
      | found h =>
          refine ⟨⟨List.subset_cons_self _ _, ?_⟩, List.mem_cons_self⟩
          cases h <;> exact Nat.le_refl _
      | deep h hty =>
          exact ⟨⟨List.subset_cons_self _ _, Nat.le_refl _⟩, List.mem_cons_self⟩
      | @ruled less ty last h hrule =>
          have hgrows : diary.Grows last :=
            (Rule.always_true _).run_relates .refl .trans .stamped
            (fun premise before found after _ hpremise =>
              (ih less (Nat.lt_succ_self less) hpremise).1) hrule
          refine ⟨⟨fun _ hcall => List.mem_cons_of_mem _ (hgrows.calls hcall),
            ?_⟩, List.mem_cons_self⟩
          cases judgement <;> exact hgrows.stamps

/-- If the rules of judgements to `ask` have only such premises, then only such
judgements are noted, and a type that is bound is answered with what it is bound
to. The induction is on the room. -/
theorem settleNoting_asks {ask : Judgement → Prop}
    (hclosed : ∀ judgement, ask judgement → (tree.rule judgement).Always ask)
    (hask : ask judgement) {diary diary' : Diary} {ty : Ty}
    (hrun : (tree.settleNoting limit room busy judgement).run diary =
      .ok (ty, diary')) :
    ∀ call ∈ diary'.calls, call ∈ diary.calls ∨ ask call.judgement ∧
      ∀ bound, call.judgement.bound? = some bound → call.answer = bound := by
  induction room using Nat.strongRecOn
    generalizing busy judgement diary ty diary' with
  | ind room ih =>
      cases tree.answered_of_settleNoting hrun with
      | found h =>
          exact List.forall_mem_cons.mpr ⟨Or.inr ⟨hask, fun _ => h.eq_of_bound⟩,
            fun _ => Or.inl⟩
      | deep h hty =>
          refine List.forall_mem_cons.mpr
            ⟨Or.inr ⟨hask, fun bound hbound => ?_⟩, fun _ => Or.inl⟩
          rw [h.bound?_eq_none] at hbound
          cases hbound
      | @ruled less ty last h hrule =>
          refine List.forall_mem_cons.mpr
            ⟨Or.inr ⟨hask, fun bound hbound => ?_⟩, ?_⟩
          · rw [h.bound?_eq_none] at hbound
            cases hbound
          · refine (hclosed judgement hask).run_relates (fun _ _ => Or.inl)
              (fun h h' call hcall => ?_) (fun _ _ => Or.inl)
              (fun premise before found after hpremise hfirst =>
                ih less (Nat.lt_succ_self less) hpremise hfirst) hrule
            exact (h' call hcall).elim (h call) Or.inr

end Noting

/-- The calls that are answered when the judgement is settled, the latest
first. -/
def transcript (tree : Tree) (options : Options) (judgement : Judgement)
    (pass : Pass) :
    List Call :=
  match (tree.settleNoting options.maxDepth options.maxDepth [] judgement).run
    ⟨pass, []⟩ with
  | .ok (_, diary) => diary.calls
  | .error _ => []

theorem settleNoting_of_judge {tree : Tree} {options : Options}
    {judgement : Judgement} {pass pass' : Pass} {ty : Ty}
    (h : (tree.judge options judgement).run pass = .ok (ty, pass')) :
    (tree.settleNoting options.maxDepth options.maxDepth [] judgement).run
      ⟨pass, []⟩ =
      .ok (ty, ⟨pass', tree.transcript options judgement pass⟩) := by
  obtain ⟨diary, hrun, rfl⟩ :=
    (tree.mirrors_settleNoting options.maxDepth options.maxDepth []
      judgement).exists_run (s := ⟨pass, []⟩) h
  rw [transcript, hrun]

end Tree

end ConceptLang
