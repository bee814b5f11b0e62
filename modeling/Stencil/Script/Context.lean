import Stencil.Expression
import Stencil.Script.Parser
import Stencil.Script.Scope

/-! # Scripts against the render context

A name that a script neither binds nor takes from the template's scope or the allowed globals is a
property of the render context. Qualifying a script puts `_ctx.` before each such name and changes
nothing else of the text.
-/

namespace Stencil.Script

def isAllowedGlobal (name : String) : Bool :=
  ["Infinity", "undefined", "NaN", "isFinite", "isNaN", "parseFloat", "parseInt", "decodeURI",
    "decodeURIComponent", "encodeURI", "encodeURIComponent", "Math", "Number", "Date", "Array",
    "Object", "Boolean", "String", "RegExp", "Map", "Set", "JSON", "Intl", "BigInt", "console",
    "Error", "Symbol"].contains name

inductive Mode where
  | expression
  | statements
  /-- Parameters, of which only the default values are qualified. -/
  | params
  deriving Repr, DecidableEq

def uses (mode : Mode) (script : String) : Except SyntaxError Uses :=
  match mode with
  | .expression => return (← parseExpression script).uses []
  | .statements => return programUses (← parseStatements script)
  | .params => return paramsUses (← parseParams script)

/-- Whether a reference is taken from the script or the template's scope. -/
def Ref.isLocal (known : String → Bool) (r : Ref) : Bool :=
  r.bound || known r.ident.name

/-- Whether a reference is a property of the render context. -/
def Ref.isContext (known : String → Bool) (r : Ref) : Bool :=
  !r.isLocal known && !isAllowedGlobal r.ident.name

/-- How constant a script is. Calls and accesses may give a new value on every render. -/
def Uses.level (known : String → Bool) (u : Uses) : Constancy :=
  if u.computes || u.refs.any (fun r => r.isLocal known || r.isContext known) then .dynamic
  else if u.refs.isEmpty then .stringifiable
  else .hoistable

/-- Put a reference before the first one that starts later. -/
def insertByStart (r : Ref) : List Ref → List Ref
  | [] => [r]
  | s :: rest => if r.ident.start ≤ s.ident.start then r :: s :: rest else s :: insertByStart r rest

def firstAtEach : List Ref → List Ref
  | [] => []
  | r :: rest =>
    match firstAtEach rest with
    | s :: more => if r.ident.start = s.ident.start then r :: more else r :: s :: more
    | [] => [r]

def Uses.sites (known : String → Bool) (u : Uses) : List Ref :=
  firstAtEach ((u.refs.filter (·.isContext known)).foldr insertByStart [])

def inContext (name : String) : String :=
  "_ctx." ++ name

def sitePart (base : Nat) (r : Ref) : Part :=
  .expr (.simple
    { Snippet.new (inContext r.ident.name) false
        ⟨base + r.ident.start, base + r.ident.stop⟩ with source := r.ident.name })

/-- The parts of a script from byte offset `pos` on, given the sites that follow. -/
def splice (base pos : Nat) (cs : List Char) : List Ref → List Part
  | [] => if cs.isEmpty then [] else [.raw (String.ofList cs)]
  | r :: rest =>
    let front := (Text.takeBytes? (r.ident.start - pos) cs).getD []
    let back := (Text.dropBytes? (r.ident.stop - pos) cs).getD []
    let raw := if front.isEmpty then [] else [Part.raw (String.ofList front)]
    let key := if r.shorthand then [Part.raw (r.ident.name ++ ": ")] else []
    raw ++ key ++ sitePart base r :: splice base r.ident.stop back rest

/-- Whether one site covers a script but for the blanks around it. -/
def coversAll (script : List Char) (r : Ref) : Bool :=
  !r.shorthand &&
    r.ident.start == Text.bytes script - Text.bytes (Text.trimStart script) &&
    r.ident.stop == Text.bytes (Text.trimEnd script)

def soleSite? (script : List Char) : List Ref → Option Ref
  | [r] => if coversAll script r then some r else none
  | _ => none

/-- Analyse a snippet, and qualify it if `qualify`. `known` says which names the
    template's scope has. -/
def process (e : Snippet) (known : String → Bool) (qualify : Bool) (mode : Mode) :
    Except SyntaxError Expression :=
  if e.isStatic || isBlankString e.content then return .simple e
  else do
    let u ← uses mode e.content
    let level := u.level known
    let script := e.content.toList
    match qualify, u.sites known with
    | false, _ | _, [] => return .simple (e.withLevel level)
    | true, sites =>
      match soleSite? script sites with
      | some r =>
        return .simple { e with content := inContext r.ident.name, isStatic := false, level }
      | none =>
        return .compound ⟨splice e.span.start 0 script sites, level, e.source, e.span⟩

/-- Whether a script is a name or an access, perhaps in parentheses. -/
def Expr.isMember : Expr → Bool
  | .ident _ | .member _ | .index _ _ => true
  | .paren e => e.isMember
  | _ => false

def isMemberScript (script : String) : Bool :=
  match parseExpression script with
  | .ok e => e.isMember
  | .error _ => false

def isFunctionScript (script : String) : Bool :=
  match parseExpression script with
  | .ok (.function _) => true
  | _ => false

def hasManyStatements (script : String) : Bool :=
  match parseStatements script with
  | .ok stmts => 1 < stmts.length
  | .error _ => false

def bindingNames (script : String) : Except SyntaxError (List String) :=
  if isBlankString script then return []
  else return Pattern.namesAll (← parseParams script)

end Stencil.Script
