import ConceptLang.Digest.Sha256
import ConceptLang.Json.Printer
import ConceptLang.Report.Basic

/-!
# Results as JSON

Each part of a result is an object with a fixed order of fields. A diagnostic
holds the fields of its span among its own. The limit of a log is not written.

The fingerprint of a result is the digest of the text of the pair of its
declarations and its diagnostics.
-/

namespace ConceptLang

/-- The fields of a span. -/
def Span.fields (span : Span) : List (String × Json) :=
  [("line", .natural span.line), ("column", .natural span.column),
    ("end_line", .natural span.endLine),
    ("end_column", .natural span.endColumn)]

/-- A span as JSON. -/
def Span.toJson (span : Span) : Json :=
  .ofFields span.fields

/-- A diagnostic as JSON. -/
def Diagnostic.toJson (diagnostic : Diagnostic) : Json :=
  .ofFields ([("code", .natural diagnostic.code.number),
    ("severity", .ofString diagnostic.severity.word),
    ("category", .ofString diagnostic.category.word),
    ("message", .ofString diagnostic.message),
    ("node", .natural diagnostic.node)] ++ diagnostic.span.fields)

/-- A log as JSON. -/
def Log.toJson (log : Log) : Json :=
  .ofFields [("errors", .array (log.errors.map (·.toJson))),
    ("warnings", .array (log.warnings.map (·.toJson))),
    ("total_errors", .natural log.totalErrors),
    ("total_warnings", .natural log.totalWarnings)]

/-- The summary of a declaration as JSON. -/
def DeclSummary.toJson (summary : DeclSummary) : Json :=
  .ofFields [("node", .natural summary.node), ("name", .ofString summary.name),
    ("kind", .ofString summary.label), ("type", .ofString summary.type),
    ("ok", .bool summary.ok)]

/-- A result as JSON. -/
def CheckResult.toJson (result : CheckResult) : Json :=
  .ofFields [("success", .bool result.success),
    ("diagnostics", result.diagnostics.toJson),
    ("declarations", .array (result.declarations.map (·.toJson))),
    ("fingerprint", .ofString result.fingerprint)]

/-- The text that a fingerprint is taken of. -/
def fingerprintText (declarations : List DeclSummary) (diagnostics : Log) :
    String :=
  Json.render (.array [.array (declarations.map (·.toJson)),
    diagnostics.toJson])

/-- The fingerprint of declarations and diagnostics. -/
def fingerprintOf (declarations : List DeclSummary) (diagnostics : Log) :
    String :=
  Sha256.hexDigest (fingerprintText declarations diagnostics)

/-- The result with the given declarations and diagnostics. -/
def CheckResult.of (declarations : List DeclSummary) (diagnostics : Log) :
    CheckResult :=
  ⟨!diagnostics.hasErrors, diagnostics, declarations,
    fingerprintOf declarations diagnostics⟩

end ConceptLang
