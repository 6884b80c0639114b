import ConceptLang.Diagnostic.Log

/-!
# Options of a check

`maxDepth` bounds how many judgements may depend on each other in a row, and
`maxDiagnostics` how many errors a result stores; further errors are only
counted.
-/

namespace ConceptLang

/-- What a check can be told. -/
structure Options where
  maxDepth : Nat := 512
  maxDiagnostics : Nat := usualLimit
deriving DecidableEq, Repr, Inhabited

/-- Why options cannot be used. -/
inductive OptionsError where
  /-- The text does not say options. -/
  | malformed
  /-- No judgement at all would be allowed. -/
  | zeroDepth
deriving DecidableEq, Repr, Inhabited

/-- The wording of an options error. -/
def OptionsError.message : OptionsError → String
  | .malformed => "invalid checker options"
  | .zeroDepth => "max_depth must be at least 1"

/-- Options are usable if they allow at least one judgement. -/
def Options.validate (options : Options) : Except OptionsError Options :=
  if options.maxDepth = 0 then .error .zeroDepth else .ok options

end ConceptLang
