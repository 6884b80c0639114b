import Mathlib.Tactic.MkIffOfInductiveProp
import ConceptLang.Proofs.JsonText
import ConceptLang.Report.Reader
import ConceptLang.Report.Writer

/-!
# Reading results back

A record is read from the values of its fields, each of which its object has
once (`Json.objectFields?_ofFields`). So every part of a result is read back
from its text as it was, as long as its numbers are below the bounds of their
kinds; a log forgets its limit. It follows that results with different
declarations or diagnostics are told apart by the texts of their fingerprints.
-/

namespace ConceptLang

namespace Json

/-! ### Objects and arrays -/

theorem plain_ofFields {fields : List (String × Json)}
    (h : ∀ field ∈ fields, field.2.Plain) :
    (ofFields fields).Plain :=
  .object (List.forall_mem_map.mpr fun _ _ => rfl) (List.forall_mem_map.mpr h)

theorem plain_map {α : Type} {toJson : α → Json} (h : ∀ a, (toJson a).Plain)
    (items : List α) :
    (array (items.map toJson)).Plain :=
  .array (List.forall_mem_map.mpr fun a _ => h a)

theorem mapM_eq_some_map {α β : Type} {f : α → Option β} {g : α → β}
    {items : List α} (h : ∀ a ∈ items, f a = some (g a)) :
    items.mapM f = some (items.map g) := by
  induction items with
  | nil => rfl
  | cons a items ih =>
      rw [List.mapM_cons, h a (by simp), ih fun b hb => h b (by simp [hb])]
      rfl

theorem mapM_map_eq_some {α : Type} {toJson : α → Json}
    {ofJson? : Json → Option α} {items : List α}
    (h : ∀ a ∈ items, ofJson? (toJson a) = some a) :
    (items.map toJson).mapM ofJson? = some items := by
  rw [List.mapM_map, mapM_eq_some_map (f := ofJson? ∘ toJson) h, List.map_id']

theorem filter_key {fields : List (String × Json)}
    (hkeys : (fields.map (·.1)).Nodup) {field : String × Json}
    (hfield : field ∈ fields) :
    fields.filter (·.1 == field.1) = [field] := by
  induction fields with
  | nil => cases hfield
  | cons first fields ih =>
      rw [List.map_cons, List.nodup_cons] at hkeys
      rcases List.mem_cons.mp hfield with rfl | hmem
      · rw [List.filter_cons_of_pos (by simp), List.filter_eq_nil_iff.mpr]
        intro other hother
        have hne : other.1 ≠ field.1 := fun heq =>
          hkeys.1 (List.mem_map.mpr ⟨other, hother, heq⟩)
        simpa using hne
      · have hne : first.1 ≠ field.1 := fun heq =>
          hkeys.1 (List.mem_map.mpr ⟨field, hmem, heq.symm⟩)
        rw [List.filter_cons_of_neg (by simpa using hne), ih hkeys.2 hmem]

theorem field?_ofFields {fields : List (String × Json)}
    (hkeys : (fields.map (·.1)).Nodup) {field : String × Json}
    (hfield : field ∈ fields) :
    field? (fields.map fun field => (some field.1, field.2)) field.1 =
      some field.2 := by
  have hkey : ((·.1 == some field.1) ∘ fun field : String × Json =>
    (some field.1, field.2)) = (·.1 == field.1) := by
    funext other
    exact Option.some_beq_some
  rw [field?, List.filter_map, hkey, filter_key hkeys hfield,
    List.map_singleton]

/-- The chosen fields of an object are found by their keys. -/
theorem objectFields?_ofFields {fields chosen : List (String × Json)}
    (hkeys : (fields.map (·.1)).Nodup)
    (hchosen : ∀ field ∈ chosen, field ∈ fields) :
    (ofFields fields).objectFields? (chosen.map (·.1)) =
      some (chosen.map (·.2)) := by
  simp only [ofFields, objectFields?]
  rw [if_pos (by simp), List.mapM_map]
  exact mapM_eq_some_map fun field hfield =>
    field?_ofFields hkeys (hchosen field hfield)

theorem record?_ofFields {fields : List (String × Json)}
    (hkeys : (fields.map (·.1)).Nodup) :
    (ofFields fields).record? (fields.map (·.1)) = some (fields.map (·.2)) :=
  objectFields?_ofFields hkeys fun _ h => h

theorem natBelow?_natural {n bound : Nat} (h : n < bound) :
    (natural n).natBelow? bound = some n :=
  if_pos h

@[simp] theorem string?_ofString (s : String) :
    (ofString s).string? = some s := rfl

@[simp] theorem bool?_bool (b : Bool) : (bool b).bool? = some b := rfl

theorem extrasAllowed_ofFields {fields : List (String × Json)}
    {keys : List String} (h : ∀ field ∈ fields, field.1 ∈ keys) (outer : Nat) :
    (ofFields fields).extrasAllowed keys outer = true := by
  simp only [ofFields, extrasAllowed, List.all_map, List.all_eq_true]
  intro field hfield
  simp [h field hfield]

end Json

/-! ### The parts of a result -/

/-- The numbers of a span are below their bound. -/
@[mk_iff] structure Span.InRange (span : Span) : Prop where
  line : span.line < UInt32.size
  column : span.column < UInt32.size
  endLine : span.endLine < UInt32.size
  endColumn : span.endColumn < UInt32.size

instance (span : Span) : Decidable span.InRange :=
  decidable_of_iff' _ (Span.inRange_iff span)

/-- The numbers of a diagnostic are below their bounds. -/
@[mk_iff] structure Diagnostic.InRange (diagnostic : Diagnostic) : Prop where
  code : diagnostic.code.number < UInt16.size
  node : diagnostic.node < UInt32.size
  span : diagnostic.span.InRange

instance (diagnostic : Diagnostic) : Decidable diagnostic.InRange :=
  decidable_of_iff' _ (Diagnostic.inRange_iff diagnostic)

/-- The numbers of a log are below their bounds. -/
@[mk_iff] structure Log.InRange (log : Log) : Prop where
  errors : ∀ diagnostic ∈ log.errors, diagnostic.InRange
  warnings : ∀ diagnostic ∈ log.warnings, diagnostic.InRange
  totalErrors : log.totalErrors < UInt64.size
  totalWarnings : log.totalWarnings < UInt64.size

instance (log : Log) : Decidable log.InRange :=
  decidable_of_iff' _ (Log.inRange_iff log)

/-- The number of a declaration is below its bound. -/
@[mk_iff] structure DeclSummary.InRange (summary : DeclSummary) : Prop where
  node : summary.node < UInt32.size

instance (summary : DeclSummary) : Decidable summary.InRange :=
  decidable_of_iff' _ (DeclSummary.inRange_iff summary)

/-- The numbers of a result are below their bounds. -/
@[mk_iff] structure CheckResult.InRange (result : CheckResult) : Prop where
  diagnostics : result.diagnostics.InRange
  declarations : ∀ summary ∈ result.declarations, summary.InRange

instance (result : CheckResult) : Decidable result.InRange :=
  decidable_of_iff' _ (CheckResult.inRange_iff result)

theorem Span.plain_toJson (span : Span) : span.toJson.Plain :=
  Json.plain_ofFields (by simp [fields, Json.Plain.natural])

theorem Span.ofValues?_fields {span : Span} (h : span.InRange) :
    ofValues? (span.fields.map (·.2)) = some span := by
  simp [fields, ofValues?, Json.natBelow?_natural, h.line, h.column, h.endLine,
    h.endColumn]

theorem Span.ofJson?_toJson {span : Span} (h : span.InRange) :
    ofJson? span.toJson = some span := by
  have hrecord : span.toJson.record? Span.keys = some (span.fields.map (·.2)) :=
    Json.record?_ofFields (show Span.keys.Nodup by decide)
  rw [ofJson?, hrecord]
  exact ofValues?_fields h

theorem Severity.ofJson?_word (severity : Severity) :
    ofJson? (.ofString severity.word) = some severity := by
  cases severity <;> decide

theorem Category.ofJson?_word (category : Category) :
    ofJson? (.ofString category.word) = some category := by
  cases category <;> decide

theorem Diagnostic.plain_toJson (diagnostic : Diagnostic) :
    diagnostic.toJson.Plain :=
  Json.plain_ofFields (by
    simp [Span.fields, Json.Plain.natural, Json.ofString, Json.Plain.string])

/-- The fields of a diagnostic apart from those of its span. -/
def Diagnostic.ownFields (diagnostic : Diagnostic) : List (String × Json) :=
  [("code", .natural diagnostic.code.number),
    ("severity", .ofString diagnostic.severity.word),
    ("category", .ofString diagnostic.category.word),
    ("message", .ofString diagnostic.message),
    ("node", .natural diagnostic.node)]

/-- The fields of a diagnostic and those of its span are found side by side in
one object. -/
theorem Diagnostic.ofJson?_toJson {diagnostic : Diagnostic}
    (h : diagnostic.InRange) (outer : Nat) :
    ofJson? outer diagnostic.toJson = some diagnostic := by
  have hkeys :
      ((diagnostic.ownFields ++ diagnostic.span.fields).map (·.1)).Nodup :=
    show (Diagnostic.keys ++ Span.keys).Nodup by decide
  have hown : diagnostic.toJson.objectFields? Diagnostic.keys =
      some (diagnostic.ownFields.map (·.2)) :=
    Json.objectFields?_ofFields hkeys fun _ hfield =>
      List.mem_append_left _ hfield
  have hspan :
      diagnostic.toJson.objectFields? Span.keys =
        some (diagnostic.span.fields.map (·.2)) :=
    Json.objectFields?_ofFields hkeys fun _ hfield =>
      List.mem_append_right _ hfield
  have hextras : diagnostic.toJson.extrasAllowed (Diagnostic.keys ++ Span.keys)
      (outer + 1) = true :=
    Json.extrasAllowed_ofFields
      (by simp [Diagnostic.keys, Span.keys, Span.fields]) _
  rw [ofJson?, if_pos hextras, hown, hspan]
  simp [ownFields, Code.ofJson?, NodeId.ofJson?, Json.natBelow?_natural, h.code,
    h.node, Severity.ofJson?_word, Category.ofJson?_word,
    Span.ofValues?_fields h.span]

theorem Log.plain_toJson (log : Log) : log.toJson.Plain :=
  Json.plain_ofFields (by
    simp [Json.plain_map Diagnostic.plain_toJson, Json.Plain.natural])

theorem Log.ofJson?_toJson {log : Log} (h : log.InRange) (outer : Nat) :
    ofJson? outer log.toJson = some { log with limit := usualLimit } := by
  have hrecord : log.toJson.record? Log.keys =
      some [.array (log.errors.map (·.toJson)),
        .array (log.warnings.map (·.toJson)),
        .natural log.totalErrors, .natural log.totalWarnings] :=
    Json.record?_ofFields (show Log.keys.Nodup by decide)
  have herrors := Json.mapM_map_eq_some fun diagnostic hmem =>
    Diagnostic.ofJson?_toJson (h.errors diagnostic hmem) (outer + 2)
  have hwarnings := Json.mapM_map_eq_some fun diagnostic hmem =>
    Diagnostic.ofJson?_toJson (h.warnings diagnostic hmem) (outer + 2)
  rw [ofJson?, hrecord]
  simp [Json.items?, herrors, hwarnings, Json.natBelow?_natural, h.totalErrors,
    h.totalWarnings]

theorem DeclSummary.plain_toJson (summary : DeclSummary) :
    summary.toJson.Plain :=
  Json.plain_ofFields (by
    simp [Json.Plain.natural, Json.Plain.bool, Json.ofString,
      Json.Plain.string])

theorem DeclSummary.ofJson?_toJson {summary : DeclSummary}
    (h : summary.InRange) :
    ofJson? summary.toJson = some summary := by
  have hrecord : summary.toJson.record? DeclSummary.keys =
      some [.natural summary.node, .ofString summary.name,
        .ofString summary.label, .ofString summary.type, .bool summary.ok] :=
    Json.record?_ofFields (show DeclSummary.keys.Nodup by decide)
  rw [ofJson?, hrecord]
  simp [NodeId.ofJson?, Json.natBelow?_natural, h.node]

theorem CheckResult.plain_toJson (result : CheckResult) : result.toJson.Plain :=
  Json.plain_ofFields (by
    simp [Json.plain_map DeclSummary.plain_toJson, Log.plain_toJson,
      Json.Plain.bool, Json.ofString, Json.Plain.string])

theorem CheckResult.ofJson?_toJson {result : CheckResult} (h : result.InRange) :
    ofJson? result.toJson =
      some { result with diagnostics.limit := usualLimit } := by
  have hrecord : result.toJson.record? CheckResult.keys =
      some [.bool result.success, result.diagnostics.toJson,
        .array (result.declarations.map (·.toJson)),
        .ofString result.fingerprint] :=
    Json.record?_ofFields (show CheckResult.keys.Nodup by decide)
  have hdecls := Json.mapM_map_eq_some fun summary hmem =>
    DeclSummary.ofJson?_toJson (h.declarations summary hmem)
  rw [ofJson?, hrecord]
  simp [Json.items?, hdecls, Log.ofJson?_toJson h.diagnostics]

/-! ### Texts -/

theorem Json.parse?_render_bind {α : Type} {json : Json}
    {ofJson? : Json → Option α} {a : α} (hplain : json.Plain)
    (h : ofJson? json = some a) :
    (parse? json.render).bind ofJson? = some a := by
  rw [parse?_render hplain]
  exact h

theorem Json.render_injective {json json' : Json} (h : json.Plain)
    (h' : json'.Plain) (heq : json.render = json'.render) : json = json' := by
  have hparse := parse?_render h
  rw [heq, parse?_render h'] at hparse
  exact (Option.some.inj hparse).symm

/-- The text that a fingerprint is taken of tells apart all that it is made
of. -/
theorem fingerprintText_injective
    {declarations declarations' : List DeclSummary} {log log' : Log}
    (hdecls : ∀ summary ∈ declarations, summary.InRange)
    (hdecls' : ∀ summary ∈ declarations', summary.InRange) (hlog : log.InRange)
    (hlog' : log'.InRange)
    (heq : fingerprintText declarations log =
      fingerprintText declarations' log') :
    declarations = declarations' ∧
      ({ log with limit := usualLimit } : Log) =
      { log' with limit := usualLimit } := by
  have hplain (declarations : List DeclSummary) (log : Log) :
      (Json.array [.array (declarations.map (·.toJson)), log.toJson]).Plain :=
    .array (by simp [Json.plain_map DeclSummary.plain_toJson, Log.plain_toJson])
  have hjson :=
    Json.render_injective (hplain declarations log) (hplain declarations' log')
      heq
  simp only [Json.array.injEq, List.cons.injEq, and_true] at hjson
  constructor
  · have hread := Json.mapM_map_eq_some fun summary hmem =>
      DeclSummary.ofJson?_toJson (hdecls summary hmem)
    have hread' := Json.mapM_map_eq_some fun summary hmem =>
      DeclSummary.ofJson?_toJson (hdecls' summary hmem)
    rw [hjson.1] at hread
    exact Option.some.inj (hread.symm.trans hread')
  · have hread := Log.ofJson?_toJson hlog 0
    rw [hjson.2] at hread
    exact Option.some.inj (hread.symm.trans (Log.ofJson?_toJson hlog' 0))

/-- Every part of a result is read back from its text as it was, but for the
limit of a log, which becomes the usual one. So texts tell results apart, and
the texts that fingerprints are taken of tell apart declarations and
diagnostics. -/
theorem results_read_back :
    (∀ span : Span, span.InRange →
      (Json.parse? span.toJson.render).bind Span.ofJson? = some span) ∧
    (∀ diagnostic : Diagnostic, diagnostic.InRange →
      (Json.parse? diagnostic.toJson.render).bind (Diagnostic.ofJson? 0) =
        some diagnostic) ∧
    (∀ log : Log, log.InRange →
      (Json.parse? log.toJson.render).bind (Log.ofJson? 0) =
        some { log with limit := usualLimit }) ∧
    (∀ summary : DeclSummary, summary.InRange →
      (Json.parse? summary.toJson.render).bind DeclSummary.ofJson? =
        some summary) ∧
    (∀ result : CheckResult, result.InRange →
      (Json.parse? result.toJson.render).bind CheckResult.ofJson? =
        some { result with diagnostics.limit := usualLimit }) ∧
    ∀ result result' : CheckResult, result.InRange → result'.InRange →
      (result.toJson.render = result'.toJson.render →
        ({ result with diagnostics.limit := usualLimit } : CheckResult) =
          { result' with diagnostics.limit := usualLimit }) ∧
      (fingerprintText result.declarations result.diagnostics =
          fingerprintText result'.declarations result'.diagnostics →
        result.declarations = result'.declarations ∧
          ({ result.diagnostics with limit := usualLimit } : Log) =
            { result'.diagnostics with limit := usualLimit }) := by
  refine ⟨fun span h =>
    Json.parse?_render_bind span.plain_toJson (Span.ofJson?_toJson h),
    fun diagnostic h => Json.parse?_render_bind diagnostic.plain_toJson
      (Diagnostic.ofJson?_toJson h 0),
    fun log h =>
      Json.parse?_render_bind log.plain_toJson (Log.ofJson?_toJson h 0),
    fun summary h =>
      Json.parse?_render_bind summary.plain_toJson
        (DeclSummary.ofJson?_toJson h),
    fun result h =>
      Json.parse?_render_bind result.plain_toJson
        (CheckResult.ofJson?_toJson h),
    fun result result' h h' => ⟨fun heq => ?_, fun heq => ?_⟩⟩
  · have hjson :=
      Json.render_injective result.plain_toJson result'.plain_toJson heq
    have hread := CheckResult.ofJson?_toJson h
    rw [hjson] at hread
    exact Option.some.inj (hread.symm.trans (CheckResult.ofJson?_toJson h'))
  · exact fingerprintText_injective h.declarations h'.declarations h.diagnostics
      h'.diagnostics heq

/-- A result with the largest numbers, a limit that is not the usual one, and
texts that hold every sort of character: quotation marks, a backslash, control
characters with and without a short escape, and characters outside of the first
plane. -/
def oddResult : CheckResult :=
  let top := UInt32.size - 1
  let text := "\"\\\n\t\x00\x1f\x7f é𝄞\u2028"
  { success := false
    diagnostics :=
      { errors := [⟨⟨UInt16.size - 1⟩, .error, .structural, text, top,
          ⟨top, 0, top, 7⟩⟩]
        warnings := [⟨⟨900⟩, .warning, .internal, "", 0, Span.unknown⟩]
        totalErrors := UInt64.size - 1
        totalWarnings := 1
        limit := 3 }
    declarations := [⟨top, text, "concept", "\\u0041", true⟩]
    fingerprint := text }

theorem results_read_back_oddResult :
    oddResult.InRange ∧
    (Json.parse? oddResult.toJson.render).bind CheckResult.ofJson? =
      some { oddResult with diagnostics.limit := usualLimit } ∧
    (Json.parse? oddResult.diagnostics.toJson.render).bind (Log.ofJson? 0) =
      some { oddResult.diagnostics with limit := usualLimit } ∧
    (∀ diagnostic ∈ oddResult.diagnostics.errors,
      (Json.parse? diagnostic.toJson.render).bind (Diagnostic.ofJson? 0) =
        some diagnostic ∧
      (Json.parse? diagnostic.span.toJson.render).bind Span.ofJson? =
        some diagnostic.span) ∧
    (∀ summary ∈ oddResult.declarations,
      (Json.parse? summary.toJson.render).bind DeclSummary.ofJson? =
        some summary) ∧
    oddResult.declarations ≠ [] ∧ oddResult.diagnostics.errors ≠ [] ∧
    fingerprintText [] oddResult.diagnostics ≠
      fingerprintText oddResult.declarations oddResult.diagnostics := by
  obtain ⟨hspan, hdiagnostic, hlog, hsummary, hresult, htexts⟩ :=
    results_read_back
  have hrange : oddResult.InRange := by decide
  have hrange' :
      ({ oddResult with declarations := [] } : CheckResult).InRange := by decide
  refine ⟨hrange, hresult oddResult hrange, hlog _ hrange.diagnostics,
    fun diagnostic hmem => ?_, fun summary hmem =>
      hsummary summary (hrange.declarations summary hmem), by decide, by decide,
    fun heq => ?_⟩
  · have hmember := hrange.diagnostics.errors diagnostic hmem
    exact ⟨hdiagnostic diagnostic hmember, hspan diagnostic.span hmember.span⟩
  · have hnil : [] = oddResult.declarations :=
      ((htexts _ _ hrange' hrange).2 heq).1
    cases hnil

end ConceptLang
