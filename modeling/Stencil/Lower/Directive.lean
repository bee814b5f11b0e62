import Stencil.Lower.Context
import Stencil.Naming
import Stencil.Template.Node

/-! # Directives that become properties

Bindings, handlers and models of an element turn into properties of its render node.
-/

namespace Stencil

inductive RuntimeSource where
  | resolve
  | helper (h : Helper)
  deriving Repr, DecidableEq

structure DirectiveResult where
  props : List Property := []
  runtime : Option RuntimeSource := none

namespace Lower

def markKey (mark : String) (key : Expression) : Expression :=
  match key with
  | .simple s =>
    if s.isStatic then .snippet (mark ++ s.content) true s.span
    else .around [.raw ("\"" ++ mark ++ "\" + ("), .expr key, .raw ")"] key
  | .compound _ => .around [.raw ("\"" ++ mark ++ "\" + ("), .expr key, .raw ")"] key

def camelKey (key : Expression) : Expression :=
  match key with
  | .simple s =>
    if s.isStatic then .snippet (camelize s.content) true s.span
    else .around [.helper .camelize, .raw "(", .expr key, .raw ")"] key
  | .compound _ => .around [.helper .camelize, .raw "(", .expr key, .raw ")"] key

def bindKey (d : Directive) (arg : Expression) : Expression :=
  let key := if arg.isStatic then arg else .around [.raw "(", .expr arg, .raw ") || \"\""] arg
  let key := if d.hasModifier "camel" then camelKey key else key
  if d.hasModifier "prop" then markKey "." key
  else if d.hasModifier "attr" then markKey "^" key
  else key

/-- The value of a directive, or an empty string if it has none, which is reported. -/
def requireScript (d : Directive) (cause : Cause) : Lower RenderNode :=
  match d.script? with
  | some e => return .expr e
  | none => do
    error cause d.span
    return .string ""

def bindDirective (d : Directive) : Lower DirectiveResult :=
  match d.arg with
  | none => return {}
  | some arg => do
    let value ← requireScript d .bindNoExpression
    return { props := [⟨bindKey d arg, value⟩] }

/-- The key of the handler for a static event name. Plain elements keep names with capitals, which
    are events of their own. -/
def eventKey (kind : ElementKind) (event : String) : String :=
  let event := match Text.after? "vue:".toList event.toList with
    | some hook => "vnode-" ++ String.ofList hook
    | none => event
  let hasUpper := event.toList.any Text.isAsciiUpper
  if kind != .plain || Text.beginsWith "vnode".toList event.toList || !hasUpper then
    handlerKey (camelize event)
  else "on:" ++ event

def onKey (kind : ElementKind) (arg : Expression) : Expression :=
  match arg with
  | .simple s =>
    if s.isStatic then
      .simple { Snippet.new (eventKey kind s.content) true s.span with source := s.source }
    else .around [.helper .toHandlerKey, .raw "(", .expr arg, .raw ")"] arg
  | .compound _ => .around [.helper .toHandlerKey, .raw "(", .expr arg, .raw ")"] arg

/-- The code of a handler. Names, accesses and functions stand as they are; other scripts become
    the body of a function of `$event`. -/
def handler (e : Expression) : Lower Expression := do
  if Script.isMemberScript e.source || Script.isFunctionScript e.source then
    process e .expression
  else
    let body ← inScope do
      bindName "$event" .handler
      process e .statements
    let parts := if Script.hasManyStatements e.source
      then [.raw "$event => \x7b", .expr body, .raw "\x7d"]
      else [.raw "$event => (", .expr body, .raw ")"]
    return .around parts e

def onDirective (d : Directive) (el : Element) : Lower DirectiveResult :=
  match d.arg with
  | none => return {}
  | some arg => do
    let value ← match d.script? with
      | some e => RenderNode.expr <$> handler e
      | none => pure (.script "() => \x7b\x7d")
    return { props := [⟨onKey el.kind arg, value⟩] }

structure ModelKeys where
  value : Expression
  event : Expression
  modifiers : Expression

def modelKeys (d : Directive) : ModelKeys :=
  let dynamic (arg : Expression) : ModelKeys :=
    { value := arg
      event := .around [.raw "\"onUpdate:\" + ", .expr arg] arg
      modifiers := .around [.expr arg, .raw " + \"Modifiers\""] arg }
  match d.arg with
  | some (.simple s) =>
    if s.isStatic then
      { value := .snippet s.content true s.span
        event := .snippet ("onUpdate:" ++ s.content) true s.span
        modifiers := .snippet (s.content ++ "Modifiers") true s.span }
    else dynamic (.simple s)
  | some (.compound c) => dynamic (.compound c)
  | none =>
    { value := .snippet "modelValue" true d.span
      event := .snippet "onUpdate:modelValue" true d.span
      modifiers := .snippet "modelModifiers" true d.span }

def modelModifiers (modifiers : List String) : String :=
  let key (m : String) : String := if Script.isSimpleName m then m else Text.quote m
  "\x7b " ++ ", ".intercalate (modifiers.map fun m => key m ++ ": true") ++ " \x7d"

/-- The expression that a model assigns to. Names bound by a loop or a slot, and scripts that are
    neither names nor accesses, are refused. -/
def modelTarget? (d : Directive) : Lower (Option Expression) :=
  match d.script? with
  | none => do
    error .modelNoExpression d.span
    return none
  | some e => do
    let raw := trimmed e.source
    let source := (← get).source? raw
    if (← read).qualify && Script.isSimpleName raw &&
        (source == some .loop || source == some .slot) then
      error .modelOnScopeVariable e.span
      return none
    else if Script.isMemberScript raw then return some e
    else
      error .modelMalformedExpression e.span
      return none

/-- Lower `v-model`: the value, a handler that updates it, and for a component its modifiers. -/
def modelDirective (d : Directive) (el : Element) : Lower DirectiveResult := do
  match ← modelTarget? d with
  | none => return {}
  | some e =>
    let keys := modelKeys d
    let update := Expression.around [.raw "$event => ((", .expr e, .raw ") = $event)"] e
    let modifiers :=
      if d.modifiers.isEmpty || el.kind != .component then []
      else
        let code := (Snippet.new (modelModifiers d.modifiers) false d.span).withLevel .hoistable
        [⟨keys.modifiers, .expr (.simple code)⟩]
    return { props := ⟨keys.value, .expr e⟩ :: ⟨keys.event, .expr update⟩ :: modifiers }

end Lower

end Stencil
