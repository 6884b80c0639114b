import ConceptLang.Json.Magnitude
import ConceptLang.Json.Reader
import ConceptLang.Options
import ConceptLang.Report.Basic

/-!
# Results from JSON

A record is read from an object that has each of its fields once, whatever else
it has, or from an array of just its fields in order. Counts and identities are
numbers written with digits alone, below a bound. Nothing is compared with each
other: a result is read as it stands, except that a log gets the usual limit.

A diagnostic is read from an object only, since the fields of its span are among
its own. The values of further fields are looked into as well: their texts must
be strings, their numbers must not be too large, and they must not be nested too
deeply.

Options are read from an object with any of their fields and no other ones, or
from an array with the first of them in order. Fields that are left out have
their usual values.
-/

namespace ConceptLang

namespace Json

/-- A natural number below `bound`. -/
def natBelow? (bound : Nat) : Json → Option Nat
  | .natural n => if n < bound then some n else none
  | _ => none

/-- A text. -/
def string? : Json → Option String
  | .string text => text
  | _ => none

/-- A truth value. -/
def bool? : Json → Option Bool
  | .bool b => some b
  | _ => none

/-- The items of an array. -/
def items? : Json → Option (List Json)
  | .array items => some items
  | _ => none

/-- A word: a text, or an object with the word as its only key and no value. -/
def word? : Json → Option String
  | .string text => text
  | .object [(key, .null)] => key
  | _ => none

/-- The value of the one field with the key `key`. -/
def field? (fields : List (Option String × Json)) (key : String) :
    Option Json :=
  match fields.filter (·.1 == some key) with
  | [(_, value)] => some value
  | _ => none

/-- The values of the fields of an object that have to be there, each once. All
keys must be strings. -/
def objectFields? (keys : List String) : Json → Option (List Json)
  | .object fields =>
      if fields.all (·.1.isSome) then keys.mapM (field? fields) else none
  | _ => none

/-- The values of the fields of a record, from an object or an array. -/
def record? (keys : List String) : Json → Option (List Json)
  | .array items => if items.length = keys.length then some items else none
  | json => json.objectFields? keys

mutual

/-- Whether all texts in a value are strings, and none of its numbers is too
large. -/
def isSound : Json → Bool
  | .null | .bool _ => true
  | .natural n => !(Decimal.ofNat n).isTooLarge
  | .decimal d => !d.isTooLarge
  | .string text => text.isSome
  | .array items => areSoundItems items
  | .object fields => areSoundFields fields

/-- Whether the items of an array are sound. -/
def areSoundItems : List Json → Bool
  | [] => true
  | item :: items => isSound item && areSoundItems items

/-- Whether the fields of an object are sound. -/
def areSoundFields : List (Option String × Json) → Bool
  | [] => true
  | (key, value) :: fields =>
      key.isSome && isSound value && areSoundFields fields

end

/-- The most containers that may be open at once. -/
def maxNesting : Nat := 127

/-- Whether the fields of an object other than `keys` may be there, inside
`outer` containers. -/
def extrasAllowed (keys : List String) (outer : Nat) : Json → Bool
  | .object fields => fields.all fun (key, value) =>
    key.any keys.contains || (value.isSound && outer + value.depth ≤ maxNesting)
  | _ => false

end Json

/-- A node identity from JSON. -/
def NodeId.ofJson? : Json → Option NodeId :=
  Json.natBelow? UInt32.size

/-- The number of a problem from JSON. -/
def Code.ofJson? (json : Json) : Option Code :=
  (json.natBelow? UInt16.size).map Code.mk

/-- A severity from JSON. -/
def Severity.ofJson? (json : Json) : Option Severity := do
  let word ← json.word?
  Severity.all.find? (·.word == word)

/-- A category from JSON. -/
def Category.ofJson? (json : Json) : Option Category := do
  let word ← json.word?
  Category.all.find? (·.word == word)

/-- The keys of a span. -/
def Span.keys : List String := ["line", "column", "end_line", "end_column"]

/-- A span from the values of its fields. -/
def Span.ofValues? : List Json → Option Span
  | [line, column, endLine, endColumn] => do
    return ⟨← line.natBelow? UInt32.size, ← column.natBelow? UInt32.size,
      ← endLine.natBelow? UInt32.size, ← endColumn.natBelow? UInt32.size⟩
  | _ => none

/-- A span from JSON. -/
def Span.ofJson? (json : Json) : Option Span := do
  Span.ofValues? (← json.record? Span.keys)

/-- The keys of a diagnostic apart from those of its span. -/
def Diagnostic.keys : List String :=
  ["code", "severity", "category", "message", "node"]

/-- A diagnostic from JSON inside `outer` containers. -/
def Diagnostic.ofJson? (outer : Nat) (json : Json) : Option Diagnostic := do
  if json.extrasAllowed (Diagnostic.keys ++ Span.keys) (outer + 1) then
    match ← json.objectFields? Diagnostic.keys with
    | [code, severity, category, message, node] =>
      return ⟨← Code.ofJson? code, ← Severity.ofJson? severity,
        ← Category.ofJson? category, ← message.string?, ← NodeId.ofJson? node,
        ← Span.ofValues? (← json.objectFields? Span.keys)⟩
    | _ => none
  else none

/-- The keys of a log. -/
def Log.keys : List String :=
  ["errors", "warnings", "total_errors", "total_warnings"]

/-- A log from JSON inside `outer` containers. -/
def Log.ofJson? (outer : Nat) (json : Json) : Option Log := do
  match ← json.record? Log.keys with
  | [errors, warnings, totalErrors, totalWarnings] =>
    return {
      errors := ← (← errors.items?).mapM (Diagnostic.ofJson? (outer + 2))
      warnings := ← (← warnings.items?).mapM (Diagnostic.ofJson? (outer + 2))
      totalErrors := ← totalErrors.natBelow? UInt64.size
      totalWarnings := ← totalWarnings.natBelow? UInt64.size }
  | _ => none

/-- The keys of the summary of a declaration. -/
def DeclSummary.keys : List String := ["node", "name", "kind", "type", "ok"]

/-- The summary of a declaration from JSON. -/
def DeclSummary.ofJson? (json : Json) : Option DeclSummary := do
  match ← json.record? DeclSummary.keys with
  | [node, name, label, type, ok] =>
    return ⟨← NodeId.ofJson? node, ← name.string?, ← label.string?,
      ← type.string?, ← ok.bool?⟩
  | _ => none

/-- The keys of a result. -/
def CheckResult.keys : List String :=
  ["success", "diagnostics", "declarations", "fingerprint"]

/-- A result from JSON. -/
def CheckResult.ofJson? (json : Json) : Option CheckResult := do
  match ← json.record? CheckResult.keys with
  | [success, diagnostics, declarations, fingerprint] =>
    return ⟨← success.bool?, ← Log.ofJson? 1 diagnostics,
      ← (← declarations.items?).mapM DeclSummary.ofJson?, ← fingerprint.string?⟩
  | _ => none

/-- The keys of options. -/
def Options.keys : List String := ["max_depth", "max_diagnostics"]

/-- A value that may be left out. -/
def Json.natOr (default : Nat) : Option Json → Option Nat
  | none => some default
  | some json => json.natBelow? UInt64.size

/-- The value of a field that an object may have once or not at all. -/
def Json.optionalField? (fields : List (Option String × Json)) (key : String) :
    Option (Option Json) :=
  match fields.filter (·.1 == some key) with
  | [] => some none
  | [(_, value)] => some (some value)
  | _ => none

/-- The values of the options that JSON mentions. -/
def Options.values? : Json → Option (Option Json × Option Json)
  | .array [] => some (none, none)
  | .array [maxDepth] => some (some maxDepth, none)
  | .array [maxDepth, maxDiagnostics] =>
      some (some maxDepth, some maxDiagnostics)
  | .object fields =>
    if fields.all (·.1.any Options.keys.contains) then do
      return (← Json.optionalField? fields "max_depth",
        ← Json.optionalField? fields "max_diagnostics")
    else none
  | _ => none

/-- Options from JSON. -/
def Options.ofJson? (json : Json) : Option Options := do
  let (maxDepth, maxDiagnostics) ← Options.values? json
  let usual : Options := {}
  return ⟨← Json.natOr usual.maxDepth maxDepth,
    ← Json.natOr usual.maxDiagnostics maxDiagnostics⟩

/-- Options from a text. They have to be well written before they can be found
unusable. -/
def Options.parse (text : String) : Except OptionsError Options :=
  match (Json.parse? text).bind Options.ofJson? with
  | some options => options.validate
  | none => .error .malformed

end ConceptLang
