import ActionBundles.Json.Printer
import ActionBundles.Model.Json

/-!
# Validation reports

A report lists the checks that were made and what they found. It is written as text for people and
as JSON for programs.
-/

namespace ActionBundles

/-- The outcome of a check. -/
structure CheckResult where
  name : Text
  passed : Bool
  message : Text
  deriving DecidableEq

/-- What a validation found. -/
structure Report where
  valid : Bool := true
  checks : List CheckResult := []
  errors : List Text := []
  warnings : List Text := []
  deriving DecidableEq

namespace Report

/-- The report with the outcome of a further check. It stays valid if the check was passed. -/
def record (r : Report) (check : CheckResult) (errors warnings : List Text) : Report where
  valid := r.valid && check.passed
  checks := r.checks ++ [check]
  errors := r.errors ++ errors
  warnings := r.warnings ++ warnings

/-- The number of checks that were passed. -/
def passedCount (r : Report) : Nat := r.checks.countP (·.passed)

/-! ### As text -/

/-- The title of a report. -/
def title : Text := "FCM Bridge Validation Report"

/-- The line of a check. -/
def checkLine (c : CheckResult) : Text :=
  "  " ++ (if c.passed then "✓" else "✗") ++ ' ' :: (c.name ++ ": " ++ c.message)

/-- The lines of a list of findings under a heading; none if there are no findings. -/
def findingLines (heading : Text) (findings : List Text) : List Text :=
  if findings = [] then [] else [] :: heading :: findings.map (("  - " : Text) ++ ·)

/-- The line with the counts. -/
def summaryLine (r : Report) : Text :=
  "Summary: " ++ Text.ofNat r.passedCount ++ '/' :: (Text.ofNat r.checks.length ++
    " checks passed, " ++ Text.ofNat r.errors.length ++ " errors, " ++
    Text.ofNat r.warnings.length ++ " warnings")

/-- The lines of a report. -/
def textLines (r : Report) : List Text :=
  [title, List.replicate title.length '=',
    "Status: " ++ (if r.valid then "PASSED" else "FAILED"), [], "Checks:"] ++
  r.checks.map checkLine ++ findingLines "Errors:" r.errors ++
  findingLines "Warnings:" r.warnings ++ [[], r.summaryLine]

/-- The report as text. -/
def render (r : Report) : Text := r.textLines.flatMap (· ++ ['\n'])

/-! ### As JSON -/

/-- A check as JSON. -/
def checkJson (c : CheckResult) : Json :=
  .object [("name", .string c.name), ("passed", .bool c.passed), ("message", .string c.message)]

/-- The report as JSON. -/
def toJson (r : Report) : Json :=
  .object
    [("valid", .bool r.valid), ("checks", .array (r.checks.map checkJson)),
      ("errors", Json.texts r.errors), ("warnings", Json.texts r.warnings)]

end Report

end ActionBundles
