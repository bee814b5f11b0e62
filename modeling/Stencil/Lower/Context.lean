import Stencil.Diagnostic
import Stencil.Options
import Stencil.Render.Node
import Stencil.Script.Context

/-! # The context of lowering

Lowering carries the names that the template has in scope, what it has used so far, and what it has
found wrong.
-/

namespace Stencil

inductive VarSource where
  | loop
  | slot
  | handler
  deriving Repr, DecidableEq

structure ScopeVar where
  name : String
  source : VarSource
  deriving Repr, DecidableEq

structure Context where
  /-- Names in scope, innermost first. -/
  scope : List ScopeVar := []
  components : List String := []
  /-- Directives looked up at run time, in order of first use. -/
  directives : List String := []
  diagnostics : List Diagnostic := []
  nextId : NodeId := 0
  loopDepth : Nat := 0
  slotDepth : Nat := 0

namespace Context

/-- A mark to leave the scope by that is entered now. -/
def enter (c : Context) : Nat :=
  c.scope.length

def leave (mark : Nat) (c : Context) : Context :=
  { c with scope := c.scope.drop (c.scope.length - mark) }

def bind (name : String) (source : VarSource) (c : Context) : Context :=
  { c with scope := ⟨name, source⟩ :: c.scope }

def has (c : Context) (name : String) : Bool :=
  c.scope.any (·.name == name)

/-- What binds a name; inner bindings hide outer ones. -/
def source? (c : Context) (name : String) : Option VarSource :=
  (c.scope.find? (·.name == name)).map (·.source)

def use (name : String) (names : List String) : List String :=
  if names.contains name then names else names ++ [name]

def useComponent (name : String) (c : Context) : Context :=
  { c with components := use name c.components }

def useDirective (name : String) (c : Context) : Context :=
  { c with directives := use name c.directives }

def report (d : Diagnostic) (c : Context) : Context :=
  { c with diagnostics := c.diagnostics ++ [d] }

end Context

abbrev Lower := ReaderT Options (StateM Context)

namespace Lower

def fresh : Lower NodeId :=
  modifyGet fun c => (c.nextId, { c with nextId := c.nextId + 1 })

def report (d : Diagnostic) : Lower Unit :=
  modify (Context.report d)

def error (cause : Cause) (span : Span) : Lower Unit :=
  report (.error cause span)

def bindName (name : String) (source : VarSource) : Lower Unit :=
  modify (Context.bind name source)

def bindNames (source : VarSource) : List String → Lower Unit
  | [] => return ()
  | name :: names => do
    bindName name source
    bindNames source names

def inScope {α : Type} (act : Lower α) : Lower α := do
  let mark := (← get).enter
  let result ← act
  modify (Context.leave mark)
  return result

def inLoop {α : Type} (act : Lower α) : Lower α := do
  modify fun c => { c with loopDepth := c.loopDepth + 1 }
  let result ← act
  modify fun c => { c with loopDepth := c.loopDepth - 1 }
  return result

def inSlot {α : Type} (act : Lower α) : Lower α := do
  modify fun c => { c with slotDepth := c.slotDepth + 1 }
  let result ← act
  modify fun c => { c with slotDepth := c.slotDepth - 1 }
  return result

def scriptFault (e : Script.SyntaxError) (span : Span) : Diagnostic :=
  { cause := .invalidExpression
    message := "Error parsing JavaScript expression: " ++ e.message
    span
    severity := .error }

/-- Analyse and qualify an expression in the current scope. One that cannot be read is reported and
    left as it is. -/
def process (e : Expression) (mode : Script.Mode) : Lower Expression :=
  match e with
  | .compound _ => return e
  | .simple s => do
    match Script.process s (← get).has (← read).qualify mode with
    | .ok processed => return processed
    | .error fault =>
      let start := min (s.span.start + fault.offset) s.span.stop
      report (scriptFault fault ⟨start, s.span.stop⟩)
      return .simple (s.withLevel .dynamic)

/-- Qualify the default values of parameters. What cannot be read is left as it is; `bindingNames`
    reports it. -/
def processParams (e : Expression) : Lower Expression :=
  match e with
  | .compound _ => return e
  | .simple s => do
    match Script.process s (← get).has (← read).qualify .params with
    | .ok processed => return processed
    | .error _ => return e

/-- The names that parameters bind. What cannot be read is reported and binds nothing. -/
def bindingNames (e : Expression) : Lower (List String) :=
  match Script.bindingNames e.source with
  | .ok names => return names
  | .error fault => do
    report (scriptFault fault e.span)
    return []

def rule? (name : String) : Lower (Option DirectiveRule) := do
  match (← read).rule? name with
  | some rule => return some rule
  | none =>
    match name with
    | "bind" => return some .bind
    | "on" => return some .on
    | "model" => return some .model
    | _ => return none

end Lower

end Stencil
