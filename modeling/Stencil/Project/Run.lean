import Stencil.Compile
import Stencil.Project.Discovery

/-! # Compiling a project

A run compiles every template it finds, also after one that fails, and reports the files before the
first failure.
-/

namespace Stencil.Project

structure FileReport where
  path : Path
  source : String
  compiled : Compiled
  written : Option Path

structure Setup where
  cwd : Path
  arguments : Arguments
  settings : Settings

/-- Compile one template and write its code, unless the code is printed or the template has
    errors: what an earlier run wrote is kept then. Gives the files as they are afterwards. -/
def compileFile (setup : Setup) (root : Entry) (file : SourceFile) :
    Entry × Except ProjectError FileReport :=
  match root.readText? file.path with
  | none => (root, .error (.read file.path))
  | some source =>
    let compiled := compile setup.settings.options.orDom source
    let report : FileReport := { path := file.path, source, compiled, written := none }
    if setup.arguments.printsCode || compiled.hasErrors then (root, .ok report)
    else
      let target := outputPath setup.cwd setup.settings file
      match root.write? target compiled.printed.code.toUTF8 with
      | none => (root, .error (.write target))
      | some root => (root, .ok { report with written := some target })

def compileFiles (setup : Setup) (root : Entry) :
    List SourceFile → Entry × List (Except ProjectError FileReport)
  | [] => (root, [])
  | file :: files =>
    let (root, result) := compileFile setup root file
    let (root, results) := compileFiles setup root files
    (root, result :: results)

def untilFailure {ε α : Type} : List (Except ε α) → List α × Option ε
  | [] => ([], none)
  | .error e :: _ => ([], some e)
  | .ok a :: results =>
    let (done, failure) := untilFailure results
    (a :: done, failure)

structure Outcome where
  root : Entry
  found : List SourceFile
  /-- The files that were compiled before a failure. -/
  reports : List FileReport
  failure : Option ProjectError

namespace Outcome

def errorCount (o : Outcome) : Nat :=
  (o.reports.flatMap (·.compiled.errors)).length

def warningCount (o : Outcome) : Nat :=
  (o.reports.flatMap (·.compiled.warnings)).length

/-- The exit code: zero if nothing failed and no template has errors. -/
def exitCode (o : Outcome) : Nat :=
  if o.failure.isSome || 0 < o.errorCount then 1 else 0

def changes (o : Outcome) (before : Entry) : List (List Name × ByteArray) :=
  (o.root.files []).filter fun (place, content) =>
    match before.get? place with
    | some (.file old) => old != content
    | _ => true

end Outcome

def run (root : Entry) (cwd : Path) (a : Arguments) : Except ProjectError Outcome := do
  let settings ← Settings.load root cwd a
  let found ← findTemplates root cwd settings a
  let (root, results) := compileFiles ⟨cwd, a, settings⟩ root found
  let (reports, failure) := untilFailure results
  return { root, found, reports, failure }

end Stencil.Project
