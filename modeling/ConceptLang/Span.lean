/-!
# Source spans

A span is the stretch of source text that a node or a name covers. Lines and
columns count from one; the all-zero span stands for a place that is not known.
-/

namespace ConceptLang

/-- A stretch of source text, from a first to a last position. -/
structure Span where
  line : Nat
  column : Nat
  endLine : Nat
  endColumn : Nat
deriving DecidableEq, Repr, Inhabited

namespace Span

/-- The span of something without a place in the source. -/
def unknown : Span := ⟨0, 0, 0, 0⟩

/-- A span is shown by its first position, as `line:column`. -/
def text (span : Span) : String :=
  toString span.line ++ ":" ++ toString span.column

end Span

end ConceptLang
