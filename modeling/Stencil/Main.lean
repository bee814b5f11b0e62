import Stencil.Project.Report

/-! # The command line

Reads what a run needs into a tree of files, runs, and carries out what the run has decided.
-/

namespace Stencil.Project

def usage : String :=
  "Compile HTML templates into render functions

Usage: tcc [OPTIONS] [PATHS]...

Arguments:
  [PATHS]...                 Files or folders to compile, the current one by default

Options:
  -o, --out-dir <DIR>        Write compiled files here instead of next to the input
      --stdout               Print compiled code instead of writing files
      --mode <MODE>          Shape of the generated script: function or module
      --no-prefix            Resolve identifiers through the context instead of prefixing them
      --no-hoist             Do not hoist static subtrees
      --whitespace <SPACE>   Whitespace handling between elements: condense or preserve
      --no-comments          Drop template comments from the output
  -c, --config <PATH>        Path to tcc.config.json
      --output <FORMAT>      Output format for diagnostics: human (the default) or json
      --ignore <PATTERN>     Ignore pattern, repeat for more
  -v, --verbose              Verbose output, repeat for more
  -h, --help                 Print help
  -V, --version              Print version"

def ArgumentError.message : ArgumentError → String
  | .unknownArgument => "error: unexpected argument"
  | .invalidValue => "error: missing or invalid value"
  | .tooManyValues => "error: unexpected value for a flag"
  | .conflict => "error: an argument cannot be used multiple times"
  | .help => usage
  | .version => "tcc 0.1.0"

/-- Put something at the end of an absolute path, with the folders above it. -/
def plant (root : Entry) (p : Path) (e : Entry) : Entry :=
  ((root.enter? [] p.parts).bind fun (root, place) => root.put? place.reverse e).getD root

/-- The names below a path. Files are left empty, and folders that enclose themselves through a
    link are left out. -/
partial def survey (above : List String) (path : String) : IO (Option Entry) := do
  let place := (← IO.currentDir) / path
  if !(← place.pathExists) then return none
  if !(← place.isDir) then return some (.file .empty)
  let real := (← IO.FS.realPath place).toString
  if above.contains real then return none
  let mut entries : List (Name × Entry) := []
  for child in ← place.readDir do
    match ← survey (real :: above) child.path.toString with
    | some e => entries := putEntry child.fileName.toList e entries
    | none => pure ()
  return some (.folder entries)

def loadFile (root : Entry) (p : Path) : IO Entry := do
  try
    return plant root p (.file (← IO.FS.readBinFile p.toString))
  catch _ =>
    return root

/-- The files that a run reads: its inputs by name, config files and templates with their
    content. -/
def gather (cwd : Path) (a : Arguments) : IO Entry := do
  let mut root : Entry := plant (.folder []) cwd (.folder [])
  for input in inputs cwd a do
    match ← survey [] input.toString with
    | some e => root := plant root input e
    | none => pure ()
  let configs : List Path := match a.config with
    | some path => [cwd.join path]
    | none => cwd.ancestors.map (·.join configName)
  for config in configs do
    root ← loadFile root config
  let found := do findTemplates root cwd (← Settings.load root cwd a) a
  match found with
  | .ok files =>
    for file in files do
      root ← loadFile root file.path
  | .error _ => pure ()
  return root

/-- Write the files of a run to the disk. Gives what could not be written. -/
def commit (changes : List (List Name × ByteArray)) : IO (List Path) := do
  let mut failed : List Path := []
  for (place, content) in changes do
    let path : Path := ⟨place.flatMap fun name => '/' :: name⟩
    try
      match path.parent? with
      | some above => IO.FS.createDirAll above.toString
      | none => pure ()
      IO.FS.writeBinFile path.toString content
    catch _ =>
      failed := failed ++ [path]
  return failed

def perform (a : Arguments) : IO UInt32 := do
  let start ← IO.monoMsNow
  let cwd := Path.ofString (← IO.currentDir).toString
  let root ← gather cwd a
  match run root cwd a with
  | .error e =>
    IO.eprintln ("Error: " ++ e.message)
    return 1
  | .ok outcome =>
    let failed ← commit (outcome.changes root)
    let elapsed := (← IO.monoMsNow) - start
    IO.print (outcome.stdout a elapsed)
    if a.format == .human then
      for report in outcome.reports do
        for note in report.notes do
          IO.eprintln note
      if outcome.failure.isNone then
        for line in outcome.summary elapsed do
          IO.eprintln line
    for problem in outcome.failure.toList ++ failed.map .write do
      IO.eprintln ("Error: " ++ problem.message)
    return if failed.isEmpty then outcome.exitCode.toUInt32 else 1

end Stencil.Project

def main (args : List String) : IO UInt32 := do
  match Stencil.Project.Arguments.read args with
  | .ok a => Stencil.Project.perform a
  | .error e =>
    if e == .help || e == .version then
      IO.println e.message
      return 0
    else
      IO.eprintln e.message
      return 2
