import ConceptLang.Tree.Construct
import ConceptLang.Ty.Basic

/-!
# Diagnostics

A diagnostic tells a user about one problem: its number, how severe it is, which
part of the language it belongs to, a message, and where it is. The number
decides the category.
-/

namespace ConceptLang

/-- How severe a problem is. -/
inductive Severity where
  | error
  | warning
deriving DecidableEq, Repr, Inhabited

/-- Which part of the language a problem belongs to. -/
inductive Category where
  | link
  | type
  | structural
  | internal
deriving DecidableEq, Repr, Inhabited

namespace Severity

/-- All severities. -/
def all : List Severity := [.error, .warning]

/-- The word for a severity. -/
def word : Severity → String
  | .error => "error"
  | .warning => "warning"

end Severity

namespace Category

/-- All categories. -/
def all : List Category := [.link, .type, .structural, .internal]

/-- The word for a category. -/
def word : Category → String
  | .link => "link"
  | .type => "type"
  | .structural => "structure"
  | .internal => "internal"

end Category

/-- The number of a problem. -/
structure Code where
  number : Nat
deriving DecidableEq, Repr, Inhabited

namespace Code

/-- The category of a number: each of the first three has a hundred numbers, and
all other numbers are internal. -/
def category (code : Code) : Category :=
  match code.number / 100 with
  | 1 => .link
  | 2 => .type
  | 3 => .structural
  | _ => .internal

/-- A number is shown after the letter E. -/
def text (code : Code) : String :=
  "E" ++ toString code.number

end Code

/-- The number of each sort of type problem. -/
def ErrorKind.code : ErrorKind → Code
  | .unresolved => ⟨100⟩
  | .unknownType => ⟨200⟩
  | .mismatch => ⟨201⟩
  | .arity => ⟨202⟩
  | .notInferable => ⟨203⟩
  | .notCallable => ⟨204⟩
  | .joinOperand => ⟨300⟩
  | .joinTarget => ⟨301⟩
  | .relationContainer => ⟨302⟩
  | .notImplemented => ⟨900⟩
  | .recursion => ⟨901⟩
  | .internal => ⟨999⟩

/-- What is said about one problem. -/
structure Diagnostic where
  code : Code
  severity : Severity
  category : Category
  message : String
  node : NodeId
  span : Span
deriving DecidableEq, Repr, Inhabited

namespace Diagnostic

/-- A problem of the given severity, in the category of its number. -/
def ofCode (severity : Severity) (code : Code) (message : String)
    (node : NodeId) (span : Span) :
    Diagnostic :=
  ⟨code, severity, code.category, message, node, span⟩

/-- How a problem is shown to a user. -/
def text (diagnostic : Diagnostic) : String :=
  diagnostic.span.text ++ ": " ++ diagnostic.code.text ++ " [" ++
    diagnostic.category.word ++ "] " ++ diagnostic.message

end Diagnostic

end ConceptLang
