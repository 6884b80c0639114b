import ConceptLang.Diagnostic.Basic

/-!
# Logs of diagnostics

A log collects diagnostics in the order in which they arise, errors and warnings
apart. It stores only so many errors as its limit allows, but counts them all.
-/

namespace ConceptLang

/-- How many errors a log stores if it is not told otherwise. -/
def usualLimit : Nat := 20

/-- Collected diagnostics. -/
structure Log where
  errors : List Diagnostic := []
  warnings : List Diagnostic := []
  totalErrors : Nat := 0
  totalWarnings : Nat := 0
  /-- The most errors that are stored. -/
  limit : Nat := usualLimit
deriving DecidableEq, Repr, Inhabited

namespace Log

/-- The empty log that stores at most `limit` errors. -/
def withLimit (limit : Nat) : Log := { limit }

/-- Whether there was an error, stored or not. -/
def hasErrors (log : Log) : Bool :=
  0 < log.totalErrors

/-- What is stored: the errors, then the warnings. -/
def stored (log : Log) : List Diagnostic :=
  log.errors ++ log.warnings

/-- Whether a stored diagnostic has the number `code`. -/
def hasCode (log : Log) (code : Code) : Bool :=
  log.stored.any (·.code == code)

/-- Adds a diagnostic. An error beyond the limit is only counted. -/
def push (log : Log) (diagnostic : Diagnostic) : Log :=
  match diagnostic.severity with
  | .error =>
    { log with
      errors := if log.errors.length < log.limit then log.errors ++ [diagnostic]
        else log.errors
      totalErrors := log.totalErrors + 1 }
  | .warning =>
    { log with
      warnings := log.warnings ++ [diagnostic]
      totalWarnings := log.totalWarnings + 1 }

end Log

end ConceptLang
