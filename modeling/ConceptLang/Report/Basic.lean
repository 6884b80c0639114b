import ConceptLang.Diagnostic.Log

/-!
# Results of a check

The result of checking a model says for each top-level declaration which type it
was given, and holds the diagnostics. A fingerprint of both tells results apart.
-/

namespace ConceptLang

/-- The type given to one top-level declaration. -/
structure DeclSummary where
  node : NodeId
  name : String
  /-- What sort of declaration it is. -/
  label : String
  /-- How its type is shown. -/
  type : String
  /-- Whether its type is free of problems. -/
  ok : Bool
deriving DecidableEq, Repr, Inhabited

/-- The result of checking one model. -/
structure CheckResult where
  /-- Whether no error was found. -/
  success : Bool
  diagnostics : Log
  declarations : List DeclSummary
  fingerprint : String
deriving DecidableEq, Repr, Inhabited

end ConceptLang
