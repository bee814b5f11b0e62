import Stencil.Options
import Stencil.Project.Path

/-! # Command-line arguments

Arguments that begin with a dash are flags and settings; all others, and all that follow `--`, are
paths. The value of a setting follows it, or is attached to it: `--mode module`, `--mode=module`,
`-o dist`, `-o=dist`, `-odist`. Flags of one letter can be written together.

A value is looked at only when the argument after it has been recognised, so that an unknown flag is
reported before a bad value in front of it.
-/

namespace Stencil.Project

inductive Format where
  | human
  | json
  deriving Repr, DecidableEq

structure Arguments where
  /-- Files and folders to compile; the working folder if there are none. -/
  paths : List Path := []
  outDir : Option Path := none
  printsCode : Bool := false
  mode : Option CodeMode := none
  noPrefix : Bool := false
  noHoist : Bool := false
  whitespace : Option Whitespace := none
  noComments : Bool := false
  config : Option Path := none
  output : Option Format := none
  ignore : List String := []
  verbosity : Nat := 0

/-- The format of the report, `human` unless one is asked for. -/
def Arguments.format (a : Arguments) : Format :=
  a.output.getD .human

inductive ArgumentError where
  | unknownArgument
  | invalidValue
  | tooManyValues
  | conflict
  | help
  | version
  deriving Repr, DecidableEq

inductive Flag where
  | stdout
  | noPrefix
  | noHoist
  | noComments
  | verbose
  | help
  | version
  deriving Repr, DecidableEq

inductive Setting where
  | outDir
  | mode
  | whitespace
  | config
  | output
  | ignore
  deriving Repr, DecidableEq

inductive Switch where
  | flag (flag : Flag)
  | setting (setting : Setting)
  deriving Repr, DecidableEq

def longSwitches : List (String × Switch) := [
  ("out-dir", .setting .outDir),
  ("stdout", .flag .stdout),
  ("mode", .setting .mode),
  ("no-prefix", .flag .noPrefix),
  ("no-hoist", .flag .noHoist),
  ("whitespace", .setting .whitespace),
  ("no-comments", .flag .noComments),
  ("config", .setting .config),
  ("output", .setting .output),
  ("ignore", .setting .ignore),
  ("verbose", .flag .verbose),
  ("help", .flag .help),
  ("version", .flag .version)]

def shortSwitches : List (Char × Switch) := [
  ('o', .setting .outDir),
  ('c', .setting .config),
  ('v', .flag .verbose),
  ('h', .flag .help),
  ('V', .flag .version)]

def codeMode? : String → Option CodeMode
  | "function" => some .function
  | "module" => some .module
  | _ => none

def whitespace? : String → Option Whitespace
  | "condense" => some .condense
  | "preserve" => some .preserve
  | _ => none

def format? : String → Option Format
  | "human" => some .human
  | "json" => some .json
  | _ => none

def pathValue? (text : List Char) : Option Path :=
  if text.isEmpty then none else some ⟨text⟩

/-- The value for a setting that may be there once. -/
def once {α : Type} (old new : Option α) : Except ArgumentError (Option α) :=
  if old.isSome then .error .conflict
  else if new.isSome then .ok new
  else .error .invalidValue

def raiseOnce (old : Bool) : Except ArgumentError Bool :=
  if old then .error .conflict else .ok true

namespace Arguments

def raise (a : Arguments) : Flag → Except ArgumentError Arguments
  | .stdout => return { a with printsCode := ← raiseOnce a.printsCode }
  | .noPrefix => return { a with noPrefix := ← raiseOnce a.noPrefix }
  | .noHoist => return { a with noHoist := ← raiseOnce a.noHoist }
  | .noComments => return { a with noComments := ← raiseOnce a.noComments }
  | .verbose => return { a with verbosity := a.verbosity + 1 }
  | .help => throw .help
  | .version => throw .version

def set (a : Arguments) (value : List Char) : Setting → Except ArgumentError Arguments
  | .outDir => return { a with outDir := ← once a.outDir (pathValue? value) }
  | .mode => return { a with mode := ← once a.mode (codeMode? (String.ofList value)) }
  | .whitespace =>
    return { a with whitespace := ← once a.whitespace (whitespace? (String.ofList value)) }
  | .config => return { a with config := ← once a.config (pathValue? value) }
  | .output => return { a with output := ← once a.output (format? (String.ofList value)) }
  | .ignore => return { a with ignore := a.ignore ++ [String.ofList value] }

end Arguments

inductive Pending where
  | nothing
  | setting (setting : Setting) (value : Option (List Char))
  | paths (paths : List (List Char))

structure ArgumentReading where
  arguments : Arguments := {}
  pending : Pending := .nothing

namespace ArgumentReading

def settle (r : ArgumentReading) : Except ArgumentError Arguments :=
  match r.pending with
  | .nothing => return r.arguments
  | .setting _ none => throw .invalidValue
  | .setting setting (some value) => r.arguments.set value setting
  | .paths paths => do
    match paths.mapM pathValue? with
    | none => throw .invalidValue
    | some paths => return { r.arguments with paths := r.arguments.paths ++ paths }

def flag (r : ArgumentReading) (flag : Flag) : Except ArgumentError ArgumentReading := do
  return { arguments := ← (← r.settle).raise flag }

/-- A setting with the value that is attached to it, or one that waits for its value. -/
def setting (r : ArgumentReading) (setting : Setting) (value : Option (List Char)) :
    Except ArgumentError ArgumentReading := do
  let arguments ← r.settle
  match value with
  | none => return { arguments, pending := .setting setting none }
  | some value => return { arguments := ← arguments.set value setting }

def path (r : ArgumentReading) (text : List Char) : Except ArgumentError ArgumentReading :=
  match r.pending with
  | .paths paths => return { r with pending := .paths (paths ++ [text]) }
  | _ => do return { arguments := ← r.settle, pending := .paths [text] }

def long (r : ArgumentReading) (text : List Char) : Except ArgumentError ArgumentReading :=
  let (name, value) := match Text.cut? ['='] text with
    | none => (text, none)
    | some (name, value) => (name, some value)
  match longSwitches.lookup (String.ofList name), value with
  | none, _ => throw .unknownArgument
  | some (.flag flag), none => r.flag flag
  | some (.flag _), some _ => throw .tooManyValues
  | some (.setting setting), value => r.setting setting value

/-- The letters of an argument from after its dash. What follows the letter of a setting is its
    value. -/
def short (r : ArgumentReading) : List Char → Except ArgumentError ArgumentReading
  | [] => return r
  | c :: cs =>
    match shortSwitches.lookup c with
    | none => throw .unknownArgument
    | some (.flag flag) => do (← r.flag flag).short cs
    | some (.setting setting) =>
      match cs with
      | [] => r.setting setting none
      | '=' :: value => r.setting setting (some value)
      | value => r.setting setting (some value)

/-- One argument before `--`. A dash alone is a path. -/
def take (r : ArgumentReading) (text : List Char) : Except ArgumentError ArgumentReading :=
  match text with
  | '-' :: '-' :: name => r.long name
  | '-' :: c :: cs => r.short (c :: cs)
  | text =>
    match r.pending with
    | .setting setting none => return { r with pending := .setting setting (some text) }
    | _ => r.path text

def run (r : ArgumentReading) : List String → Except ArgumentError Arguments
  | [] => r.settle
  | "--" :: rest => do
    (← rest.foldlM (fun r text => r.path text.toList) r).settle
  | text :: rest => do (← r.take text.toList).run rest

end ArgumentReading

def Arguments.read (texts : List String) : Except ArgumentError Arguments :=
  ({} : ArgumentReading).run texts

end Stencil.Project
