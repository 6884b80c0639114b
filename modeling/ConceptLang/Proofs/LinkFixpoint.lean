import ConceptLang.Proofs.LinkRuns
import ConceptLang.Proofs.Reachability
import ConceptLang.Proofs.Repetition

/-!
# Linking reaches a fixpoint

When the linker stops, none of the references that are left can be linked, and
this remains so after it has left its notes on them. The notes are part of type
errors, but a type error never makes the left side of a join a concept, so the
notes do not bring new candidates. Linking once more therefore changes nothing.

For the field of a join that could not be linked, this agrees with what the
typing rules say about the join. They look at the left side one level deeper
than the linker does and while the type of the join is being worked out; what
they find there the linker finds too (`Tree.Extends.settle`).
-/

namespace ConceptLang

namespace Tree

/-! ### What a name means in two trees -/

/-- A reference that means something means the same in every tree that extends
the tree. -/
theorem Extends.means {tree tree' : Tree} (h : tree.Extends tree')
    {options : Options} {ref target : NodeId}
    (hmeans : tree.Means options ref target) :
    tree'.Means options ref target := by
  cases hmeans with
  | lexical href hcontext hjoin hentries hlookup =>
      obtain ⟨link', href'⟩ := h.shape.reference href
      rw [h.shape.contextOf] at hcontext
      rw [h.shape.lexicalScope] at hentries
      exact .lexical href' hcontext hjoin hentries hlookup
  | @field _ _ join left _ _ _ href hcontext hjoin hleft hfound =>
      obtain ⟨link', href'⟩ := h.shape.reference href
      have hjoin' : tree'.construct join = .ok (.join left ref) :=
        h.shape.construct_eq hjoin rfl
      rw [h.shape.contextOf] at hcontext
      rw [findRelation_congr h.shape h.parents] at hfound
      exact .field href' hcontext hjoin' (h.synth _ options hleft rfl) hfound

/-! ### Joins whose field names nothing -/

section Join

variable {tree : Tree} {scope : Scope} {node left field : NodeId}
  {mint : NodeId → PassM Nat} {settle : Judgement → PassM Ty}
  {pass pass' : Pass}

theorem run_synthJoin_of_not_concept {ty : Ty}
    (hleft : (settle (.synth scope left)).run pass = .ok (ty, pass'))
    (hty : ∀ concept, ty ≠ .concept concept) :
    ((tree.synthJoin scope node left field).run mint settle).run pass =
      .ok (.fault node (.joinOperand ty), pass') := by
  refine (Rule.run_premise_apply mint settle _ _ pass).trans ?_
  rw [hleft]
  cases ty with
  | concept concept => exact absurd rfl (hty concept)
  | _ => rfl

theorem run_synthJoin_of_not_found {concept : Concept} {text : String}
    {link : Link}
    (hleft : (settle (.synth scope left)).run pass =
      .ok (.concept concept, pass'))
    (hfield : tree.construct field = .ok (.reference text link))
    (hfound : tree.findRelation concept.decl text = .ok none) :
    ((tree.synthJoin scope node left field).run mint settle).run pass =
      .ok (.fault node (.joinTarget text concept.name), pass') := by
  refine (Rule.run_premise_apply mint settle _ _ pass).trans ?_
  rw [hleft, hfield]
  change StateT.run
    (Rule.run mint settle (liftM (tree.findRelation concept.decl text) >>= _))
    _ = _
  rw [hfound]
  rfl

theorem run_synth_join {options : Options} {room : Nat} {ty : Ty}
    (hroom : options.maxDepth = room + 1)
    (hjoin : tree.construct node = .ok (.join left field))
    (hrun : ((tree.synthJoin Scope.empty node left field).run
      (fun _ => Pass.mint) (tree.settle options.maxDepth room [node])).run {} =
        .ok (ty, pass)) :
    (tree.synth options Scope.empty node).run {} =
      .ok (ty, pass.record (.synth Scope.empty node) ty) := by
  have hsettled : (tree.settled? [] (.synth Scope.empty node)).run {} =
      .ok (none, {}) :=
    tree.settled?_synth_of_free (by simp [Pass.lookup]) List.not_mem_nil
  refine tree.judge_of_rule hroom hsettled ?_
  rw [rule, synthRule, hjoin]
  exact hrun

end Join

/-- If the field of a join names nothing, then the join has no type, and its
type error says why. -/
theorem Closed.synth_join_of_unresolved {tree : Tree} (closed : tree.Closed)
    {options : Options} {ref join : NodeId} {text : String} {link : Link}
    (href : tree.construct ref = .ok (.reference text link))
    (hcontext : tree.contextOf ref = .ok (.joinField join))
    (hnone : tree.resolveAfresh options ref = .ok none)
    (hdepth : 1 ≤ options.maxDepth) :
    ∃ e pass, (tree.synth options Scope.empty join).run {} =
      .ok (.error e, pass) ∧
      (e.kind = .joinTarget ∨ e.kind = .joinOperand) := by
  obtain ⟨left, hjoin⟩ := construct_of_joinField hcontext
  obtain ⟨room, hroom⟩ : ∃ room, options.maxDepth = room + 1 :=
    ⟨options.maxDepth - 1, by omega⟩
  have hleft : Judgement.Inside tree.size (.synth Scope.empty left) :=
    .synth (fun _ hbinding => absurd hbinding List.not_mem_nil)
      (closed.complete.part_lt_size hjoin (by simp [Construct.children]))
  obtain ⟨ty, pass, hrun, -, hty⟩ :=
    closed.typing.settle options.maxDepth room [join]
    (.synth Scope.empty left) hleft closed.typing.keeps_empty
  by_cases hconcept : ∃ concept, ty = .concept concept
  · obtain ⟨concept, rfl⟩ := hconcept
    obtain ⟨found, hfound, -⟩ :=
      closed.complete.yields_findRelation hty.decl_lt text
    -- The linker finds the same type for the left side, with more room and
    -- nothing under way.
    have hleft' : (tree.synth options Scope.empty left).run {} =
        .ok (.concept concept, pass) :=
      (Extends.refl tree).settle (by omega) (List.nil_subset _) hrun rfl
    rw [closed.resolveAfresh_of_join href hcontext hjoin hleft' hfound] at hnone
    obtain rfl : found = none := by simpa using hnone
    exact ⟨_, _,
      run_synth_join hroom hjoin (run_synthJoin_of_not_found hrun href hfound),
      Or.inl rfl⟩
  · have hty : ∀ concept, ty ≠ .concept concept :=
      fun concept heq => hconcept ⟨concept, heq⟩
    exact ⟨_, _,
      run_synth_join hroom hjoin (run_synthJoin_of_not_concept hrun hty),
      Or.inr rfl⟩

/-! ### The linker as a whole -/

section Link

variable {tree : Tree} {options : Options}

/-- A tree where no open reference can be linked and all of them have their
notes is not changed. -/
theorem link_of_settled {refs opened : List NodeId}
    (hrefs : tree.references = .ok refs)
    (hopened : tree.select (·.isOpen) refs = .ok opened)
    (hnone : ∀ ref ∈ opened, tree.resolveAfresh options ref = .ok none)
    (hnoted : ∀ ref ∈ opened, tree.Noted ref) :
    ∃ rounds ≤ 1, tree.link options = .ok (tree, ⟨0, opened, rounds⟩) := by
  have hround : linkRound options tree opened = .ok (tree, opened) :=
    linkRound_eq_ok_iff.mpr (.of_none hnone)
  have hrounds : ∃ rounds ≤ 1,
      linkRounds options tree opened 0 = .ok (tree, opened, rounds) := by
    rw [linkRounds]
    split
    · exact ⟨0, Nat.zero_le 1, rfl⟩
    · rw [hround]
      simp
  obtain ⟨rounds, hle, hrounds⟩ := hrounds
  refine ⟨rounds, hle, ?_⟩
  rw [link, hrefs]
  simp only [bind, Except.bind, hopened, hrounds, noteUnresolved_self hnoted,
    Nat.sub_self]
  rfl

/-- The notes that the linker leaves do not bring new candidates. -/
theorem Annotated.resolveAfresh_eq_none {linked : Tree} {refs : List NodeId}
    (h : tree.Annotated refs linked) (closed : tree.Closed)
    (closed' : linked.Closed)
    (hroots : ∀ root ∈ linked.roots, root < linked.size)
    (hnone : ∀ ref ∈ refs, tree.resolveAfresh options ref = .ok none) :
    ∀ ref ∈ refs, linked.resolveAfresh options ref = .ok none := by
  intro ref href
  obtain ⟨text, hconstruct⟩ := h.noted ref (Or.inl href)
  have hlt := lt_size_of_construct hconstruct
  obtain ⟨found, hfound, -⟩ := closed'.yields_resolveAfresh hroots options hlt
  cases found with
  | none => exact hfound
  | some target =>
      -- What it means now it would have meant before the notes were left.
      have hmeans :=
        h.extends.means
          ((closed'.resolveAfresh_eq_some_iff hroots hlt).mp hfound)
      rw [← h.shape.size] at hlt
      rw [← h.shape.roots, ← h.shape.size] at hroots
      have hfound' := (closed.resolveAfresh_eq_some_iff hroots hlt).mpr hmeans
      rw [hnone ref href] at hfound'
      cases hfound'

end Link

/-- Linking stops at a fixpoint. In a closed tree where no reference is met
twice, no reference that stayed open has a candidate of its name, a join with
such a field has a type error that says so, and linking once more links nothing,
reports the same references and leaves the tree as it is. -/
theorem link_fixpoint {tree : Tree} (closed : tree.Closed)
    (once : ∀ refs, tree.references = .ok refs → refs.Nodup)
    (options : Options) :
    ((∀ root ∈ tree.roots, root < tree.size) →
      ∃ linked report, tree.link options = .ok (linked, report)) ∧
    ∀ linked report, tree.link options = .ok (linked, report) →
      (∀ ref ∈ report.unresolved, ∃ text link entries pass,
        linked.construct ref = .ok (.reference text link) ∧
        (linked.candidates options Scope.empty ref).run {} =
          .ok (entries, pass) ∧
        ∀ entry ∈ entries, entry.1 ≠ text) ∧
      (∀ ref ∈ report.unresolved, ∀ join,
        linked.contextOf ref = .ok (.joinField join) → 1 ≤ options.maxDepth →
        ∃ e pass, (linked.synth options Scope.empty join).run {} =
          .ok (.error e, pass) ∧
          (e.kind = .joinTarget ∨ e.kind = .joinOperand)) ∧
      ∃ rounds ≤ 1,
        linked.link options = .ok (linked, ⟨0, report.unresolved, rounds⟩) := by
  refine ⟨fun hroots => closed.exists_link hroots options,
    fun linked report h => ?_⟩
  obtain ⟨refs, last, hrefs, hrounds, hran, -, hnotes⟩ := link_spec once h
  have hsame : tree.SameShape linked := hran.steps.sameShape.trans hnotes.shape
  have hlast : last.Closed := hran.steps.closed closed
  have hlinked : linked.Closed := hnotes.closed hlast
  have hroots : ∀ root ∈ linked.roots, root < linked.size := by
    rw [← hsame.roots, ← hsame.size]
    exact lt_size_of_references hrefs
  have hnone :=
    hnotes.resolveAfresh_eq_none hlast hlinked hroots
      hrounds.resolveAfresh_eq_none
  refine ⟨fun ref href => ?_, fun ref href join hcontext hdepth => ?_, ?_⟩
  · obtain ⟨text, hconstruct⟩ := hnotes.noted ref (Or.inl href)
    obtain ⟨entries, pass, hrun, -⟩ :=
      hlinked.exists_candidates hroots options (lt_size_of_construct hconstruct)
    refine ⟨text, _, entries, pass, hconstruct, hrun,
      fun entry hentry heq => ?_⟩
    have hlookup := hnone ref href
    rw [resolveAfresh_eq hconstruct hrun, Except.ok.injEq,
      List.lookup_eq_none_iff] at hlookup
    simpa [heq] using hlookup entry hentry
  · obtain ⟨text, hconstruct⟩ := hnotes.noted ref (Or.inl href)
    exact hlinked.synth_join_of_unresolved hconstruct hcontext (hnone ref href)
      hdepth
  · obtain ⟨refs', hrefs', hreference⟩ := hlinked.yields_references hroots
    obtain rfl : refs = refs' := by simpa [← hsame.references, hrefs]
      using hrefs'
    obtain ⟨opened, hopened, -⟩ := Complete.yields_select (·.isOpen) refs
      fun ref href =>
      lt_size_of_holds (hreference ref href)
    have heq : opened = report.unresolved := by
      rw [Complete.select_eq_ok hopened, hran.eq_filter, hnotes.isOpen_eq]
    subst heq
    exact link_of_settled hrefs' hopened hnone fun ref href =>
      hnotes.noted ref (Or.inl href)

/-- A model with a join whose field is declared nowhere. -/
def openModel : Tree :=
  let named (name : String) : Ident := ⟨name, Span.unknown⟩
  ofConstructs [
    .concept (named "Box") [] [], .reference "Box" .pending,
    .reference "size" .pending, .join 1 2,
    .var (named "n") none (some 3)]
    [0, 4]

theorem openModel_wellFormed : openModel.WellFormed where
  grown := grown_ofConstructs _ _
  before := by decide +kernel
  links := by decide +kernel
  once := by decide +kernel
  roles := by decide +kernel
  roots := by decide +kernel
  targets := by decide +kernel

theorem link_fixpoint_openModel :
    openModel.references = .ok [1, 2] ∧
    ∃ linked, openModel.link {} = .ok (linked, ⟨1, [2], 2⟩) ∧
      (∃ e pass, (linked.synth {} Scope.empty 3).run {} = .ok (.error e, pass) ∧
        (e.kind = .joinTarget ∨ e.kind = .joinOperand)) ∧
      ∃ rounds ≤ 1, linked.link {} = .ok (linked, ⟨0, [2], rounds⟩) := by
  have hrefs : openModel.references = .ok [1, 2] := by decide +kernel
  have hreport : (openModel.link {}).map (·.2) = .ok ⟨1, [2], 2⟩ := by
    decide +kernel
  have hcontext : (openModel.link {}).bind (·.1.contextOf 2) =
      .ok (.joinField 3) := by
    decide +kernel
  obtain ⟨hlink, hfixpoint⟩ := link_fixpoint openModel_wellFormed.toClosed
    (fun _ => openModel_wellFormed.nodup_references (by decide)) {}
  obtain ⟨linked, report, h⟩ := hlink (by decide +kernel)
  rw [h] at hreport hcontext
  obtain rfl : report = ⟨1, [2], 2⟩ := Except.ok.inj hreport
  obtain ⟨-, hjoin, hagain⟩ := hfixpoint linked _ h
  exact ⟨hrefs, linked, h, hjoin 2 (by simp) 3 hcontext (by decide), hagain⟩

end Tree

end ConceptLang
