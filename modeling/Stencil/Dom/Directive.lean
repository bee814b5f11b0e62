import Stencil.Lower.Directive

/-! # Directives of the browser

Content, visibility, modifiers of events, and models of form elements.
-/

namespace Stencil.Dom

def showDirective : Helper := ⟨"vShow"⟩
def modelText : Helper := ⟨"vModelText"⟩
def modelCheckbox : Helper := ⟨"vModelCheckbox"⟩
def modelRadio : Helper := ⟨"vModelRadio"⟩
def modelSelect : Helper := ⟨"vModelSelect"⟩
def modelDynamic : Helper := ⟨"vModelDynamic"⟩
def withModifiers : Helper := ⟨"withModifiers"⟩
def withKeys : Helper := ⟨"withKeys"⟩

def html (d : Directive) : Lower DirectiveResult := do
  let value ← Lower.requireScript d .htmlNoExpression
  return { props := [.named "innerHTML" value] }

/-- Lower `v-text`. A value that may change is shown as interpolations are. -/
def text (d : Directive) : Lower DirectiveResult := do
  let value ← match d.script? with
    | some e =>
      if e.level.isConstant then pure (.expr e)
      else pure (.call .toDisplayString [.expr e])
    | none => Lower.requireScript d .textNoExpression
  return { props := [.named "textContent" value] }

/-- Lower `v-show`. -/
def visibility (d : Directive) : Lower DirectiveResult := do
  if d.script?.isNone then Lower.error .showNoExpression d.span
  return { runtime := some (.helper showDirective) }

/-! ## Events -/

structure EventModifiers where
  keys : List String := []
  /-- Conditions and effects of other events. -/
  guards : List String := []
  options : List String := []

def isKeyboardKey (key : String) : Bool :=
  ["onkeyup", "onkeydown", "onkeypress"].any (Text.sameIgnoringCase key)

def isListenerOption (m : String) : Bool :=
  ["passive", "once", "capture"].contains m

def isGuard (m : String) : Bool :=
  ["stop", "prevent", "self", "ctrl", "shift", "alt", "meta", "exact", "middle"].contains m

/-- Sort one modifier. `left` and `right` are arrow keys or mouse buttons, which only the event
    tells apart. -/
def EventModifiers.add (key : Option String) (ms : EventModifiers) (m : String) :
    EventModifiers :=
  if isListenerOption m then { ms with options := ms.options ++ [m] }
  else if m == "left" || m == "right" then
    match key with
    | some k =>
      if isKeyboardKey k then { ms with keys := ms.keys ++ [m] }
      else { ms with guards := ms.guards ++ [m] }
    | none => { ms with keys := ms.keys ++ [m], guards := ms.guards ++ [m] }
  else if isGuard m then { ms with guards := ms.guards ++ [m] }
  else { ms with keys := ms.keys ++ [m] }

def sortModifiers (key : Expression) (modifiers : List String) : EventModifiers :=
  modifiers.foldl (EventModifiers.add key.static?) {}

def renameClick (key : Expression) (event : String) : Expression :=
  match key.static? with
  | some name =>
    if Text.sameIgnoringCase name "onclick" then .snippet event true key.span else key
  | none =>
    .around [.raw "(", .expr key, .raw (") === \"onClick\" ? " ++ Text.quote event ++ " : ("),
      .expr key, .raw ")"] key

def addOptions (key : Expression) (options : List String) : Expression :=
  let suffix := String.join (options.map capitalize)
  if options.isEmpty then key
  else
    match key.static? with
    | some name => .snippet (name ++ suffix) true key.span
    | none => .around [.expr key, .raw (" + \"" ++ suffix ++ "\"")] key

def modifierList (modifiers : List String) : RenderNode :=
  .script ("[" ++ ",".intercalate (modifiers.map Text.quote) ++ "]")

def modifiedKey (key : Expression) (ms : EventModifiers) : Expression :=
  let key := if ms.guards.contains "right" then renameClick key "onContextmenu" else key
  if ms.guards.contains "middle" then renameClick key "onMouseup" else key

/-- A handler that looks at its modifiers first. Keys mean nothing to events that are known not to
    come from the keyboard. -/
def modifiedHandler (key : Expression) (ms : EventModifiers) (value : RenderNode) : RenderNode :=
  let value :=
    if ms.guards.isEmpty then value else .call withModifiers [value, modifierList ms.guards]
  if !ms.keys.isEmpty && key.static?.all isKeyboardKey then
    .call withKeys [value, modifierList ms.keys]
  else value

def modifyHandler (modifiers : List String) (p : Property) : Property :=
  let ms := sortModifiers p.key modifiers
  let key := modifiedKey p.key ms
  ⟨addOptions key ms.options, modifiedHandler key ms p.value⟩

def handler (d : Directive) (el : Element) : Lower DirectiveResult := do
  let result ← Lower.onDirective d el
  if d.modifiers.isEmpty then return result
  else
    match result.props with
    | p :: rest => return { result with props := modifyHandler d.modifiers p :: rest }
    | [] => return result

/-! ## Models -/

/-- Report a binding of `value` beside a model, which sets it too. -/
def checkValueBinding (el : Element) : Lower Unit :=
  match el.props.find? (·.binds "value") with
  | some p => Lower.error .modelUnnecessaryValue p.span
  | none => return ()

/-- Whether a binding may set any property, so perhaps the type. -/
def bindsAnyKey (el : Element) : Bool :=
  el.props.any fun
    | .directive d => d.name == "bind" && d.arg.all (!·.isStatic)
    | .attribute _ => false

/-- The directive that runs the model of an `<input>`, by its type. -/
def inputModel (d : Directive) (el : Element) : Lower (Option Helper) := do
  match el.findProp? "type" true with
  | some (.directive _) => return some modelDynamic
  | some (.attribute a) =>
    match a.value.map (·.content) with
    | some "radio" => return some modelRadio
    | some "checkbox" => return some modelCheckbox
    | some "file" =>
      Lower.error .modelOnFileInput d.span
      return none
    | _ =>
      checkValueBinding el
      return some modelText
  | none =>
    if bindsAnyKey el then return some modelDynamic
    else
      checkValueBinding el
      return some modelText

def modelRuntime (d : Directive) (el : Element) : Lower (Option Helper) := do
  match el.tag with
  | "input" => inputModel d el
  | "select" => return some modelSelect
  | "textarea" =>
    checkValueBinding el
    return some modelText
  | _ =>
    Lower.error .modelOnInvalidElement d.span
    return none

/-- Lower `v-model` on a form element: a directive sets its value at run time. -/
def model (d : Directive) (el : Element) : Lower DirectiveResult := do
  let result ← Lower.modelDirective d el
  if result.props.isEmpty || el.kind == .component then return result
  else
    if let some arg := d.arg then Lower.error .modelArgOnElement arg.span
    let runtime ← modelRuntime d el
    return { props := result.props.filter (·.name? != some "modelValue")
             runtime := runtime.map .helper }

end Stencil.Dom
