import ApiModel.Error

/-!
Reports for the person who wrote the input: a message with its severity, and where known the place,
a code and advice.
-/

namespace ApiModel

/-- A line of an input file; lines count from one. -/
structure SourceLocation where
  file : String
  line : Nat
  deriving DecidableEq, Repr

namespace SourceLocation

/-- A line of an input that came from no file. -/
def inputLine (line : Nat) : SourceLocation := ⟨"<input>", line⟩

def render (location : SourceLocation) : String := s!"{location.file}:{location.line}"

end SourceLocation

inductive Severity where
  | error
  | warning
  | info
  deriving DecidableEq, Repr

structure Diagnostic where
  severity : Severity
  message : String
  code : Option String := none
  location : Option SourceLocation := none
  help : Option String := none
  deriving DecidableEq, Repr

namespace Diagnostic

def isError (report : Diagnostic) : Bool := report.severity = .error

def render (report : Diagnostic) : String :=
  match report.location with
  | some location =>
    let place := location.render
    let text := report.message
    s!"{place}: {text}"
  | none => report.message

end Diagnostic

def ModelError.toDiagnostic (failure : ModelError) (location : Option SourceLocation) :
    Diagnostic where
  severity := .error
  message := failure.message
  code := some failure.code
  location := location
  help := failure.help?

end ApiModel
