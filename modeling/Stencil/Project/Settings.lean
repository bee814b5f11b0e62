import Stencil.Dom.Options
import Stencil.Project.Arguments
import Stencil.Project.Glob
import Stencil.Project.Json
import Stencil.Project.Tree

/-! # Settings of a run

A config file and the arguments decide together how templates are compiled, which files are
templates, and where the code goes. Arguments win.
-/

namespace Stencil.Project

inductive ProjectError where
  | read (path : Path)
  | write (path : Path)
  | config (path : Path)
  | ignorePattern (pattern : String)
  | missingInput (path : Path)
  deriving Repr, DecidableEq

def ProjectError.message : ProjectError → String
  | .read path => "failed to read " ++ path.toString
  | .write path => "failed to write " ++ path.toString
  | .config path => "invalid config file " ++ path.toString
  | .ignorePattern pattern => "invalid ignore pattern \x60" ++ pattern ++ "\x60"
  | .missingInput path => path.toString ++ " does not exist"

structure FileSettings where
  mode : Option CodeMode := none
  prefixIdentifiers : Option Bool := none
  hoistStatic : Option Bool := none
  whitespace : Option Whitespace := none
  comments : Option Bool := none
  delimiters : Option (String × String) := none
  outDir : Option Path := none
  extensions : Option (List String) := none
  ignore : List String := []

namespace FileSettings

def keys : List String :=
  ["mode", "prefixIdentifiers", "hoistStatic", "whitespace", "comments", "delimiters", "outDir",
    "extensions", "ignore"]

def optional {α : Type} (members : List (String × Json)) (key : String) (view : Json → Option α) :
    Option (Option α) :=
  match members.lookup key with
  | none => some none
  | some .null => some none
  | some value => (view value).map some

def textList (members : List (String × Json)) (key : String) : Option (List String) :=
  match members.lookup key with
  | none => some []
  | some value => value.texts?

def ofMembers? (members : List (String × Json)) : Option FileSettings := do
  return {
    mode := ← optional members "mode" fun v => v.choice?.bind codeMode?
    prefixIdentifiers := ← optional members "prefixIdentifiers" Json.bool?
    hoistStatic := ← optional members "hoistStatic" Json.bool?
    whitespace := ← optional members "whitespace" fun v => v.choice?.bind whitespace?
    comments := ← optional members "comments" Json.bool?
    delimiters := ← optional members "delimiters" Json.textPair?
    outDir := ← optional members "outDir" fun v => v.text?.map .ofString
    extensions := ← optional members "extensions" Json.texts?
    ignore := ← textList members "ignore" }

def allDistinct : List String → Bool
  | [] => true
  | s :: rest => !rest.contains s && allDistinct rest

/-- What a value says: an object with some of the keys, each once, or the values of all keys in
    order, of which the last may be left out. -/
def ofJson? : Json → Option FileSettings
  | .object members =>
    let given := members.map (·.1)
    if allDistinct given && given.all keys.contains then ofMembers? members else none
  | .array values =>
    if values.length + 1 == keys.length || values.length == keys.length then
      ofMembers? (keys.zip values)
    else none
  | _ => none

end FileSettings

def configName : Path := .ofString "tcc.config.json"

def findConfig (root : Entry) (folder : Path) : Option Path :=
  (folder.ancestors.map (·.join configName)).find? fun p => (root.find? p).any (·.isFile)

def loadConfig (root : Entry) (cwd path : Path) : Except ProjectError FileSettings :=
  match root.readText? (cwd.join path) with
  | none => throw (.read path)
  | some text =>
    match (Json.read? text).bind FileSettings.ofJson? with
    | none => throw (.config path)
    | some file => return file

structure Settings where
  configPath : Option Path
  options : Options
  outDir : Option Path
  extensions : List Name
  ignore : List Glob

def defaultIgnore : List String :=
  ["**/node_modules/**", "**/.git/**"]

/-- Read patterns, up to the first that is malformed. -/
def readGlobs : List String → Except ProjectError (List Glob)
  | [] => return []
  | pattern :: patterns =>
    match Glob.read? pattern with
    | none => throw (.ignorePattern pattern)
    | some glob => return glob :: (← readGlobs patterns)

/-- Patterns that can be used together. If one is nested too deeply none is named, because they are
    refused together. -/
def usableGlobs (globs : List Glob) : Except ProjectError (List Glob) :=
  if globs.any (·.isTooDeep) then throw (.ignorePattern "") else return globs

namespace Settings

/-- Options that a config file and arguments give together, with the browser's. -/
def optionsOf (file : FileSettings) (a : Arguments) : Options :=
  let plain : Options := {}
  { plain with
    mode := (a.mode <|> file.mode).getD plain.mode
    whitespace := (a.whitespace <|> file.whitespace).getD plain.whitespace
    qualify := !a.noPrefix && file.prefixIdentifiers.getD true
    hoists := !a.noHoist && file.hoistStatic.getD true
    comments := !a.noComments && file.comments.getD true
    delimiters := file.delimiters.getD plain.delimiters }.withDom

/-- Join what a config file says with the arguments. Folders in the file are relative to
    `base`. -/
def resolve (file : FileSettings) (configPath : Option Path) (base : Path) (a : Arguments) :
    Except ProjectError Settings := do
  return {
    configPath
    options := optionsOf file a
    outDir := a.outDir <|> file.outDir.map base.join
    extensions := (file.extensions.getD ["html", "tpl"]).map fun e => e.toList.dropWhile (· == '.')
    ignore := ← usableGlobs (← readGlobs (defaultIgnore ++ file.ignore ++ a.ignore)) }

def load (root : Entry) (cwd : Path) (a : Arguments) : Except ProjectError Settings :=
  match a.config <|> findConfig root cwd with
  | none => resolve {} none cwd a
  | some path => do
    let file ← loadConfig root cwd path
    resolve file (some path) (path.parent?.getD cwd) a

def isIgnored (s : Settings) (p : Path) : Bool :=
  s.ignore.any (·.isMatch p)

def isTemplate (s : Settings) (p : Path) : Bool :=
  p.ending?.any s.extensions.contains && !s.isIgnored p

end Settings

end Stencil.Project
