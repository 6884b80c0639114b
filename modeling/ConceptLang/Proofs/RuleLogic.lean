import ConceptLang.Typing.Pass
import ConceptLang.Proofs.Growth

/-!
# Reasoning about rules

A rule is a tree of questions, so what holds of its runs can be said by
recursion over that tree, without saying how premises are settled. Three such
statements are made here, each with what it means for a run in a pass.

* `Rule.Meets`: as long as the answers are good, the premises are good, no
  defect is met, and the conclusion is good.
* `Rule.Alike`: two rules that get alike and good answers ask for kindred
  premises and come to alike conclusions. Types are alike if they differ at most
  in the stamp of a relation.
* `Rule.Repeats`: a second rule asks the same premises as the first one as long
  as the first one can still succeed. A rule that has met a type error cannot
  (`Rule.Doomed`).
-/

namespace ConceptLang

theorem run_bind_of_ok {σ α β : Type} {x : StateT σ (Except TreeError) α}
    {s s' : σ} {a : α} (h : x.run s = .ok (a, s'))
    (f : α → StateT σ (Except TreeError) β) :
    (x >>= f).run s = (f a).run s' := by
  rw [StateT.run_bind, h]
  rfl

theorem run_get (pass : Pass) :
    (get : PassM Pass).run pass = .ok (pass, pass) := rfl

theorem run_look {α : Type} (x : Except TreeError α) (pass : Pass) :
    (liftM x : PassM α).run pass = x.map fun a => (a, pass) := by
  cases x <;> rfl

namespace Rule

variable {α β : Type}

theorem lift_ok (a : α) :
    (liftM (Except.ok a : Except TreeError α) : Rule α) = .conclude a := rfl

theorem bind_eq (rule : Rule α) (f : α → Rule β) :
    (rule >>= f) = rule.bind f := rfl

theorem pure_eq (a : α) : (pure a : Rule α) = .conclude a := rfl

section Runs

variable {σ : Type} (mint : NodeId → StateT σ (Except TreeError) Nat)
  (settle : Judgement → StateT σ (Except TreeError) Ty)

theorem run_premise_apply (judgement : Judgement) (next : Ty → Rule α) (s : σ) :
    ((Rule.premise judgement next).run mint settle).run s =
      (settle judgement).run s >>= fun out =>
        ((next out.1).run mint settle).run out.2 := rfl

theorem run_stamp_apply (decl : NodeId) (next : Nat → Rule α) (s : σ) :
    ((Rule.stamp decl next).run mint settle).run s =
      (mint decl).run s >>= fun out =>
        ((next out.1).run mint settle).run out.2 := rfl

end Runs

/-! ### Good premises and good conclusions -/

/-- If every premise gets an `answer`, then all premises are ones to `ask`, no
defect is met, and the conclusion is as `post` says. -/
def Meets (ask : Judgement → Prop) (answer : Judgement → Ty → Prop)
    (post : α → Prop) :
    Rule α → Prop
  | .conclude result => post result
  | .defect _ => False
  | .premise judgement next =>
    ask judgement ∧ ∀ ty, answer judgement ty → (next ty).Meets ask answer post
  | .stamp _ next => ∀ n, (next n).Meets ask answer post

section Meets

variable {ask ask' : Judgement → Prop} {answer : Judgement → Ty → Prop}
  {post post' : α → Prop}

theorem Meets.mono {rule : Rule α} (h : rule.Meets ask answer post)
    (hask : ∀ judgement, ask judgement → ask' judgement)
    (hpost : ∀ a, post a → post' a) :
    rule.Meets ask' answer post' := by
  induction rule with
  | conclude result => exact hpost result h
  | defect error => exact h
  | premise judgement next ih =>
      exact ⟨hask judgement h.1, fun ty hty => ih ty (h.2 ty hty)⟩
  | stamp decl next ih => exact fun n => ih n (h n)

theorem Meets.bind {rule : Rule α} {f : α → Rule β} {post' : β → Prop}
    (h : rule.Meets ask answer post)
    (hf : ∀ a, post a → (f a).Meets ask answer post') :
    (rule.bind f).Meets ask answer post' := by
  induction rule with
  | conclude result => exact hf result h
  | defect error => exact h
  | premise judgement next ih => exact ⟨h.1, fun ty hty => ih ty (h.2 ty hty)⟩
  | stamp decl next ih => exact fun n => ih n (h n)

theorem Meets.lift {x : Except TreeError β} {b : β} {f : β → Rule α}
    (hx : x = .ok b) (hf : (f b).Meets ask answer post) :
    ((liftM x : Rule β) >>= f).Meets ask answer post := by
  subst hx
  exact hf

theorem meets_synth (scope : Scope) (node : NodeId)
    (hask : ask (.synth scope node)) :
    (synth scope node).Meets ask answer (answer (.synth scope node)) :=
  ⟨hask, fun _ hty => hty⟩

theorem meets_check (scope : Scope) (node : NodeId) (expected : Ty)
    (hask : ask (.check scope node expected)) :
    (check scope node expected).Meets ask answer
      (answer (.check scope node expected)) :=
  ⟨hask, fun _ hty => hty⟩

/-- A run keeps what settling its premises and giving out stamps keep, and comes
to a good conclusion. -/
theorem Meets.run {σ : Type} {inv : σ → Prop}
    {mint : NodeId → StateT σ (Except TreeError) Nat}
    {settle : Judgement → StateT σ (Except TreeError) Ty}
    (hmint : ∀ decl s, inv s → ∃ n s', (mint decl).run s = .ok (n, s') ∧ inv s')
    (hsettle : ∀ judgement s, ask judgement → inv s →
      ∃ ty s', (settle judgement).run s = .ok (ty, s') ∧ inv s' ∧
      answer judgement ty)
    {rule : Rule α} (h : rule.Meets ask answer post) {s : σ} (hs : inv s) :
    ∃ a s', (rule.run mint settle).run s = .ok (a, s') ∧ inv s' ∧ post a := by
  induction rule generalizing s with
  | conclude result => exact ⟨result, s, rfl, hs, h⟩
  | defect error => exact h.elim
  | premise judgement next ih =>
      obtain ⟨ty, middle, hrun, hmiddle, hty⟩ := hsettle judgement s h.1 hs
      obtain ⟨a, s', hnext, hs', hpost⟩ := ih ty (h.2 ty hty) hmiddle
      exact ⟨a, s', by rw [run_premise_apply, hrun]; exact hnext, hs', hpost⟩
  | stamp decl next ih =>
      obtain ⟨n, middle, hrun, hmiddle⟩ := hmint decl s hs
      obtain ⟨a, s', hnext, hs', hpost⟩ := ih n (h n) hmiddle
      exact ⟨a, s', by rw [run_stamp_apply, hrun]; exact hnext, hs', hpost⟩

end Meets

end Rule

/-! ### Alike rules -/

/-- Types that differ at most in the stamp of a relation. -/
inductive Ty.Like : Ty → Ty → Prop where
  | refl (ty : Ty) : Ty.Like ty ty
  | relation (stamp stamp' : Nat) (decl : NodeId) (name : String)
      (owner : Concept) (relatum : Ty) :
      Ty.Like (.relation stamp decl name owner relatum)
        (.relation stamp' decl name owner relatum)

namespace Ty.Like

theorem text_eq {ty ty' : Ty} (h : ty.Like ty') : ty.text = ty'.text := by
  cases h <;> simp [Ty.text]

theorem isError_eq {ty ty' : Ty} (h : ty.Like ty') :
    ty.isError = ty'.isError := by
  cases h <;> rfl

theorem trans {ty ty' ty'' : Ty} (h : ty.Like ty') (h' : ty'.Like ty'') :
    ty.Like ty'' := by
  cases h with
  | refl => exact h'
  | relation stamp stamp' decl name owner relatum =>
      cases h' with
      | refl => exact .relation _ _ _ _ _ _
      | relation => exact .relation _ _ _ _ _ _

theorem symm {ty ty' : Ty} (h : ty.Like ty') : ty'.Like ty := by
  cases h with
  | refl => exact .refl _
  | relation => exact .relation _ _ _ _ _ _

end Ty.Like

/-- Judgements that differ at most in their scopes. -/
inductive Judgement.Kin : Judgement → Judgement → Prop where
  | synth (scope scope' : Scope) (node : NodeId) :
      Kin (.synth scope node) (.synth scope' node)
  | check (scope scope' : Scope) (node : NodeId) (expected : Ty) :
      Kin (.check scope node expected) (.check scope' node expected)

namespace Rule

variable {α β : Type}

/-- With alike and good answers, two rules ask for kindred premises and come to
alike conclusions. -/
def Alike (kin : Judgement → Judgement → Prop) (answer : Judgement → Ty → Prop)
    (like : α → α → Prop) : Rule α → Rule α → Prop
  | .conclude a, .conclude b => like a b
  | .defect e, .defect f => e = f
  | .premise judgement next, .premise judgement' next' =>
      kin judgement judgement' ∧
        ∀ ty ty', answer judgement ty → ty.Like ty' →
          (next ty).Alike kin answer like (next' ty')
  | .stamp decl next, .stamp decl' next' =>
    decl = decl' ∧ ∀ n n', (next n).Alike kin answer like (next' n')
  | _, _ => False

section Alike

variable {kin : Judgement → Judgement → Prop} {answer : Judgement → Ty → Prop}

theorem Alike.bind {like : α → α → Prop} {like' : β → β → Prop}
    {rule rule' : Rule α} {f f' : α → Rule β}
    (h : rule.Alike kin answer like rule')
    (hf : ∀ a b, like a b → (f a).Alike kin answer like' (f' b)) :
    (rule.bind f).Alike kin answer like' (rule'.bind f') := by
  induction rule generalizing rule' with
  | conclude a =>
      cases rule' with
      | conclude b => exact hf a b h
      | _ => exact h.elim
  | defect e =>
      cases rule' with
      | defect e' => exact h
      | _ => exact h.elim
  | premise judgement next ih =>
      cases rule' with
      | premise judgement' next' =>
          exact ⟨h.1, fun ty ty' hty hlike => ih ty (h.2 ty ty' hty hlike)⟩
      | _ => exact h.elim
  | stamp decl next ih =>
      cases rule' with
      | stamp decl' next' => exact ⟨h.1, fun n n' => ih n (h.2 n n')⟩
      | _ => exact h.elim

theorem Alike.lift {like : β → β → Prop} {x : Except TreeError α}
    {f f' : α → Rule β}
    (hf : ∀ a, x = .ok a → (f a).Alike kin answer like (f' a)) :
    ((liftM x : Rule α) >>= f).Alike kin answer like (liftM x >>= f') := by
  cases x with
  | error e => exact rfl
  | ok a => exact hf a rfl

end Alike

/-! ### Rules that can only fail, and rules that repeat others -/

/-- Every conclusion of the rule fails, whatever the answers are. -/
def Doomed (fails : α → Prop) : Rule α → Prop
  | .conclude result => fails result
  | .defect _ => True
  | .premise _ next => ∀ ty, (next ty).Doomed fails
  | .stamp _ next => ∀ n, (next n).Doomed fails

/-- The second rule does what the first one does as long as the first one can
still succeed, which it cannot after a type error. -/
def Repeats (fails : α → Prop) : Rule α → Rule α → Prop
  | .conclude result, rule' => fails result ∨ rule' = .conclude result
  | .defect _, _ => True
  | .premise judgement next, rule' =>
    (∀ ty, (next ty).Doomed fails) ∨ ∃ next', rule' = .premise judgement next' ∧
      ∀ ty, (ty.isError = true → (next ty).Doomed fails) ∧
        (ty.isError = false → (next ty).Repeats fails (next' ty))
  | .stamp decl next, rule' =>
    (∀ n, (next n).Doomed fails) ∨ ∃ next', rule' = .stamp decl next' ∧
      ∀ n, (next n).Repeats fails (next' n)

section Repeats

variable {fails : α → Prop} {fails' : β → Prop}

theorem Doomed.repeats {rule : Rule α} (h : rule.Doomed fails)
    (rule' : Rule α) :
    rule.Repeats fails rule' := by
  cases rule with
  | conclude result => exact Or.inl h
  | defect error => trivial
  | premise judgement next => exact Or.inl h
  | stamp decl next => exact Or.inl h

theorem Doomed.mono {fails' : α → Prop} {rule : Rule α} (h : rule.Doomed fails)
    (hfails : ∀ a, fails a → fails' a) : rule.Doomed fails' := by
  induction rule with
  | conclude result => exact hfails result h
  | defect error => trivial
  | premise judgement next ih => exact fun ty => ih ty (h ty)
  | stamp decl next ih => exact fun n => ih n (h n)

theorem Doomed.bind {rule : Rule α} {f : α → Rule β} (h : rule.Doomed fails)
    (hf : ∀ a, fails a → (f a).Doomed fails') :
    (rule.bind f).Doomed fails' := by
  induction rule with
  | conclude result => exact hf result h
  | defect error => trivial
  | premise judgement next ih => exact fun ty => ih ty (h ty)
  | stamp decl next ih => exact fun n => ih n (h n)

theorem Repeats.bind {rule rule' : Rule α} {f f' : α → Rule β}
    (h : rule.Repeats fails rule') (hfail : ∀ a, fails a → (f a).Doomed fails')
    (hgo : ∀ a, ¬ fails a → (f a).Repeats fails' (f' a)) :
    (rule.bind f).Repeats fails' (rule'.bind f') := by
  induction rule generalizing rule' with
  | conclude result =>
      by_cases hresult : fails result
      · exact (hfail result hresult).repeats _
      · obtain rfl := h.resolve_left hresult
        exact hgo result hresult
  | defect error => trivial
  | premise judgement next ih =>
      rcases h with h | ⟨next', rfl, h⟩
      · exact Or.inl fun ty => (h ty).bind hfail
      · refine Or.inr ⟨_, rfl,
          fun ty => ⟨fun hty => ((h ty).1 hty).bind hfail, fun hty => ?_⟩⟩
        exact ih ty ((h ty).2 hty)
  | stamp decl next ih =>
      rcases h with h | ⟨next', rfl, h⟩
      · exact Or.inl fun n => (h n).bind hfail
      · exact Or.inr ⟨_, rfl, fun n => ih n (h n)⟩

theorem Doomed.run {mint : NodeId → PassM Nat} {settle : Judgement → PassM Ty}
    {rule : Rule α} (h : rule.Doomed fails) {pass pass' : Pass} {a : α}
    (hrun : (rule.run mint settle).run pass = .ok (a, pass')) : fails a := by
  induction rule generalizing pass with
  | conclude result =>
      cases hrun
      exact h
  | defect error => cases hrun
  | premise judgement next ih =>
      rw [run_premise_apply] at hrun
      obtain ⟨⟨ty, middle⟩, -, hnext⟩ := bind_eq_ok_iff.mp hrun
      exact ih ty (h ty) hnext
  | stamp decl next ih =>
      rw [run_stamp_apply] at hrun
      obtain ⟨⟨n, middle⟩, -, hnext⟩ := bind_eq_ok_iff.mp hrun
      exact ih n (h n) hnext

/-- A successful run is repeated, pass by pass, if the answers that it gets are.
What is left of the rule and the pass stay `good` along the run. -/
theorem Repeats.run_along (good : Rule α → Pass → Prop)
    {mint : NodeId → PassM Nat} {settle settle' : Judgement → PassM Ty}
    (hpremise : ∀ judgement next pass ty pass',
      good (.premise judgement next) pass →
      (settle judgement).run pass = .ok (ty, pass') → good (next ty) pass' ∧
      (ty.isError = false → (settle' judgement).run pass = .ok (ty, pass')))
    (hstamp : ∀ decl next pass n pass', good (.stamp decl next) pass →
      (mint decl).run pass = .ok (n, pass') → good (next n) pass')
    {rule rule' : Rule α} (h : rule.Repeats fails rule') {pass pass' : Pass}
    (hgood : good rule pass) {a : α}
    (hrun : (rule.run mint settle).run pass = .ok (a, pass'))
    (ha : ¬ fails a) :
    (rule'.run mint settle').run pass = .ok (a, pass') := by
  induction rule generalizing rule' pass with
  | conclude result =>
      cases hrun
      obtain rfl := h.resolve_left ha
      rfl
  | defect error => cases hrun
  | premise judgement next ih =>
      rw [run_premise_apply] at hrun
      obtain ⟨⟨ty, middle⟩, hfirst, hnext⟩ := bind_eq_ok_iff.mp hrun
      obtain ⟨hmiddle, hrepeat⟩ := hpremise _ _ _ _ _ hgood hfirst
      rcases h with h | ⟨next', rfl, h⟩
      · exact absurd ((h ty).run hnext) ha
      · cases hty : ty.isError with
        | true => exact absurd (((h ty).1 hty).run hnext) ha
        | false =>
            rw [run_premise_apply, hrepeat hty]
            exact ih ty ((h ty).2 hty) hmiddle hnext
  | stamp decl next ih =>
      rw [run_stamp_apply] at hrun
      obtain ⟨⟨n, middle⟩, hfirst, hnext⟩ := bind_eq_ok_iff.mp hrun
      rcases h with h | ⟨next', rfl, h⟩
      · exact absurd ((h n).run hnext) ha
      · rw [run_stamp_apply, hfirst]
        exact ih n (h n) (hstamp _ _ _ _ _ hgood hfirst) hnext

/-- A successful run is repeated if successful answers are. -/
theorem Repeats.run {mint : NodeId → PassM Nat}
    {settle settle' : Judgement → PassM Ty}
    (hsettle : ∀ judgement pass ty pass',
      (settle judgement).run pass = .ok (ty, pass') → ty.isError = false →
      (settle' judgement).run pass = .ok (ty, pass'))
    {rule rule' : Rule α} (h : rule.Repeats fails rule') {pass pass' : Pass}
    {a : α} (hrun : (rule.run mint settle).run pass = .ok (a, pass'))
    (ha : ¬ fails a) :
    (rule'.run mint settle').run pass = .ok (a, pass') :=
  h.run_along (fun _ _ => True)
    (fun judgement _ pass ty pass' _ hfirst =>
      ⟨trivial, hsettle judgement pass ty pass' hfirst⟩)
    (fun _ _ _ _ _ _ _ => trivial) trivial hrun ha

/-- A successful run is also repeated if successful answers are to good premises
only, as long as all premises are good. -/
theorem Repeats.run_of_meets {ask : Judgement → Prop}
    {answer : Judgement → Ty → Prop} {post : α → Prop} {inv : Pass → Prop}
    {mint : NodeId → PassM Nat} {settle settle' : Judgement → PassM Ty}
    (hmint : ∀ decl pass, inv pass →
      ∃ n pass', (mint decl).run pass = .ok (n, pass') ∧ inv pass')
    (hsettle : ∀ judgement pass, ask judgement → inv pass →
      ∃ ty pass', (settle judgement).run pass = .ok (ty, pass') ∧ inv pass' ∧
      answer judgement ty ∧
      (ty.isError = false → (settle' judgement).run pass = .ok (ty, pass')))
    {rule rule' : Rule α} (h : rule.Repeats fails rule')
    (hmeets : rule.Meets ask answer post) {pass pass' : Pass} (hpass : inv pass)
    {a : α} (hrun : (rule.run mint settle).run pass = .ok (a, pass'))
    (ha : ¬ fails a) :
    (rule'.run mint settle').run pass = .ok (a, pass') := by
  refine h.run_along (fun rule pass => rule.Meets ask answer post ∧ inv pass)
    ?_ ?_ ⟨hmeets, hpass⟩ hrun ha
  · rintro judgement next pass ty pass' ⟨hmeets, hpass⟩ hfirst
    obtain ⟨ty', middle, hrun, hmiddle, hanswer, hrepeat⟩ :=
      hsettle judgement pass hmeets.1 hpass
    obtain ⟨⟩ := hfirst.symm.trans hrun
    exact ⟨⟨hmeets.2 ty hanswer, hmiddle⟩, hrepeat⟩
  · rintro decl next pass n pass' ⟨hmeets, hpass⟩ hfirst
    obtain ⟨n', middle, hrun, hmiddle⟩ := hmint decl pass hpass
    obtain ⟨⟩ := hfirst.symm.trans hrun
    exact ⟨hmeets n, hmiddle⟩

end Repeats

end Rule

end ConceptLang
