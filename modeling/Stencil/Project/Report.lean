import Stencil.Project.Run

/-! # Reports of a run

With the JSON format there is a line for every file and one for the run. Otherwise only code is
printed, if it was asked for; diagnostics and the summary are for people and do not belong to the
output.
-/

namespace Stencil.Project

def diagnosticJson (path : Path) (index : LineIndex) (d : Diagnostic) : Json :=
  let (line, column) := (index.position d.span.start).display
  .object [
    ("file", .string path.toString),
    ("severity", .string d.severity.name),
    ("code", .string d.cause.code),
    ("message", .string d.message),
    ("line", .ofNat line),
    ("column", .ofNat column),
    ("span", .object [("start", .ofNat d.span.start), ("end", .ofNat d.span.stop)])]

namespace FileReport

def diagnostics (r : FileReport) : List Diagnostic :=
  r.compiled.errors ++ r.compiled.warnings

def json (r : FileReport) (withCode : Bool) : Json :=
  let index := LineIndex.ofText r.source
  .object <| [
    ("type", .string "file"),
    ("file", .string r.path.toString),
    ("output", .ofString? (r.written.map (·.toString))),
    ("helpers", .ofStrings (r.compiled.printed.helpers.map (·.name))),
    ("hoists", .ofNat r.compiled.printed.hoists.length),
    ("diagnostics", .array (r.diagnostics.map (diagnosticJson r.path index)))] ++
    if withCode then [("code", .string r.compiled.printed.code)] else []

def stdout (r : FileReport) (a : Arguments) : String :=
  match a.format with
  | .json => String.ofList (r.json a.printsCode).write ++ "\n"
  | .human =>
    if a.printsCode then
      "// " ++ r.path.toString ++ "\n" ++ r.compiled.printed.code ++ "\n"
    else ""

def notes (r : FileReport) : List String :=
  let index := LineIndex.ofText r.source
  r.diagnostics.map fun d =>
    let (line, column) := (index.position d.span.start).display
    s!"{r.path.toString}:{line}:{column}: " ++
      d.severity.name ++ "[" ++ d.cause.code ++ "]: " ++ d.message

end FileReport

def counted (n : Nat) (noun : String) : String :=
  s!"{n} " ++ noun ++ if n == 1 then "" else "s"

namespace Outcome

def summaryJson (o : Outcome) (elapsed : Nat) : Json :=
  .object [
    ("type", .string "summary"),
    ("files", .ofNat o.found.length),
    ("errors", .ofNat o.errorCount),
    ("warnings", .ofNat o.warningCount),
    ("duration_ms", .ofNat elapsed)]

/-- The output of a run that took some milliseconds. A run that fails has no summary. -/
def stdout (o : Outcome) (a : Arguments) (elapsed : Nat) : String :=
  let files := String.join (o.reports.map (·.stdout a))
  match a.format, o.failure with
  | .json, none => files ++ String.ofList (o.summaryJson elapsed).write ++ "\n"
  | _, _ => files

def summary (o : Outcome) (elapsed : Nat) : List String :=
  let files := counted o.found.length "file"
  if o.errorCount == 0 && o.warningCount == 0 then
    ["", "\x1b[32m✓\x1b[0m Compiled " ++ files ++ s!" ({elapsed}ms)"]
  else
    [""] ++
      (if o.errorCount == 0 then []
        else ["\x1b[31m✗\x1b[0m Found " ++ counted o.errorCount "error" ++ " in " ++ files]) ++
      (if o.warningCount == 0 then []
        else ["\x1b[33m⚠\x1b[0m Found " ++ counted o.warningCount "warning"]) ++
      [s!"Time: {elapsed}ms"]

end Outcome

end Stencil.Project
