/-
Diagnostics: what is reported about a configuration.

* `hasErrors_iff` — a collection has an error when one of its members is of error
  severity.
-/
import Interpolation.Config.Pos
import Interpolation.Value

namespace Interpolation.Config

/-- How serious a problem is.  Warnings never invalidate a result. -/
inductive Severity where
  | error
  | warning
  deriving DecidableEq, Repr

/-- A single report. -/
structure Diagnostic where
  severity : Severity
  summary : String
  detail : String
  subject : Option Range
  deriving DecidableEq, Repr

namespace Diagnostic

/-- A report of error severity. -/
def error (summary detail : String) (subject : Option Range) : Diagnostic :=
  ⟨.error, summary, detail, subject⟩

/-- Whether a report is an error. -/
def isError (d : Diagnostic) : Bool :=
  d.severity = .error

/-- The report in one line: its subject, severity, summary and detail. -/
def text (d : Diagnostic) : String :=
  let place := match d.subject with
    | some range => range.text ++ ": "
    | none => ""
  let severity := match d.severity with
    | .error => "Error"
    | .warning => "Warning"
  let detail := if d.detail = "" then "" else "; " ++ d.detail
  place ++ severity ++ ": " ++ d.summary ++ detail

end Diagnostic

/-- Reports in the order in which they were made. -/
abbrev Diagnostics := List Diagnostic

/-- Whether some report is an error. -/
def hasErrors (ds : Diagnostics) : Bool :=
  ds.any Diagnostic.isError

/-- The reports that are errors. -/
def errors (ds : Diagnostics) : Diagnostics :=
  ds.filter Diagnostic.isError

/-- The reports, one after the other on lines of their own. -/
def textOf (ds : Diagnostics) : String :=
  "\n".intercalate (ds.map Diagnostic.text)

/-- A value together with what is reported about it. -/
structure Result where
  value : Value
  diagnostics : Diagnostics

namespace Result

/-- A value nothing is reported about. -/
def ofValue (v : Value) : Result := ⟨v, []⟩

/-- No value, for a single reason. -/
def ofError (summary detail : String) (subject : Option Range) : Result :=
  ⟨.dynamic, [.error summary detail subject]⟩

end Result

@[simp] theorem hasErrors_nil : hasErrors [] = false := rfl

theorem hasErrors_iff {ds : Diagnostics} :
    hasErrors ds = true ↔ ∃ d ∈ ds, d.severity = .error := by
  simp [hasErrors, Diagnostic.isError]

end Interpolation.Config
