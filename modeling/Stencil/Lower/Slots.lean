import Stencil.Lower.Loop

/-! # Slots of a component

The content of a component is passed to it as functions, one for each slot. Slots that come and go
are built at run time.
-/

namespace Stencil

/-- Whether a node is content that a reader would see. -/
def TemplateNode.isVisible : TemplateNode → Bool
  | .comment _ => false
  | .text t => !t.isSpace
  | .textCall t =>
    match t.content with
    | none => false
    | some (.text t) => !t.isSpace
    | some _ => true
  | _ => true

structure SlotTemplate where
  element : Element
  directive : Directive
  children : List TemplateNode

def SlotTemplate.of? : TemplateNode → Option SlotTemplate
  | .element el children =>
    if el.kind == .template then (el.find? "slot").map fun d => ⟨el, d, children⟩ else none
  | _ => none

def Directive.slotName (d : Directive) : Expression :=
  d.arg.getD (.snippet "default" true d.span)

/-- The condition of a slot; an absent one counts as true. -/
def Directive.slotCondition (d : Directive) : RenderNode :=
  match d.exp with
  | some e => .expr e
  | none => .script "true"

def dynamicSlot (name : Expression) (function : RenderNode) (key : Option Nat) : RenderNode :=
  let keyed := match key with
    | some k => [.named "key" (.string (toString k))]
    | none => []
  .object (.named "name" (.expr name) :: .named "fn" function :: keyed)

def followsConditionalSlot (before : List TemplateNode) : Bool :=
  match (before.find? (·.isVisible)).bind TemplateNode.element? with
  | some el => el.kind == .template && (el.has "if" || el.has "else-if")
  | none => false

structure SlotsBuild where
  properties : List Property := []
  dynamic : List RenderNode := []
  isDynamic : Bool := false
  hasTemplates : Bool := false
  hasNamedDefault : Bool := false
  implicit : List TemplateNode := []
  /-- Static names that are taken. -/
  names : List String := []
  branches : Nat := 0

structure SlotsResult where
  slots : RenderNode
  isDynamic : Bool

namespace SlotsBuild

def addProperty (p : Property) (b : SlotsBuild) : SlotsBuild :=
  { b with properties := b.properties ++ [p] }

def addConditional (test slot : RenderNode) (b : SlotsBuild) : SlotsBuild :=
  { b with
    isDynamic := true
    dynamic := b.dynamic ++ [.conditional test slot (.script "undefined") true]
    branches := b.branches + 1 }

/-- Add a further slot to the chain that ends the slots so far, if there is one. -/
def extendConditional? (alternate : RenderNode) (b : SlotsBuild) : Option SlotsBuild :=
  match b.dynamic.getLast? with
  | some (.conditional test consequent rest newline) =>
    let chain := (RenderNode.conditional test consequent rest newline).attachAlternate alternate
    some { b with dynamic := b.dynamic.dropLast ++ [chain], branches := b.branches + 1 }
  | _ => none

def finish (b : SlotsBuild) : SlotsResult :=
  let stability := if b.isDynamic then SlotStability.dynamic else .stable
  let object := RenderNode.object
    (b.properties ++ [.named "_" (.constant stability.code .hoistable)])
  ⟨if b.dynamic.isEmpty then object else .call .createSlots [object, .array b.dynamic],
    b.isDynamic⟩

end SlotsBuild

namespace Lower

def slotFunction (props : Option Expression) (children : List TemplateNode) : Lower RenderNode := do
  let params ← match props with
    | some e =>
      let code := trimmed (← processParams e).code
      pure (if code.isEmpty then [] else [code])
    | none => pure []
  let nodes ← codes children
  return .function params (some (.array nodes)) false true

/-- Add the template of a `v-else-if` or `v-else` slot, after the siblings `before`. -/
def addElseSlot (b : SlotsBuild) (before : List TemplateNode) (dir : Directive)
    (name : Expression) (function : RenderNode) : Lower SlotsBuild := do
  let slot := dynamicSlot name function (some b.branches)
  let alternate := if dir.name == "else-if"
    then .conditional dir.slotCondition slot (.script "undefined") true else slot
  match if followsConditionalSlot before then b.extendConditional? alternate else none with
  | some extended => return extended
  | none =>
    error .elseNoAdjacentIf dir.span
    return b

/-- Add a slot that is always there. A static name is taken once. -/
def addPlainSlot (b : SlotsBuild) (t : SlotTemplate) (name : Expression) (function : RenderNode) :
    Lower SlotsBuild :=
  match name.static? with
  | some text =>
    if b.names.contains text then do
      error .slotDuplicateNames t.directive.span
      return b
    else
      return { b with
        names := text :: b.names
        hasNamedDefault := b.hasNamedDefault || text == "default"
        properties := b.properties ++ [⟨name, function⟩] }
  | none => return { b.addProperty ⟨name, function⟩ with isDynamic := true }

def addSlotTemplate (b : SlotsBuild) (before : List TemplateNode) (t : SlotTemplate) :
    Lower SlotsBuild := do
  let b := { b with hasTemplates := true }
  let name := t.directive.slotName
  let function ← slotFunction t.directive.exp t.children
  match t.element.find? "if", (t.element.find? "else-if").or (t.element.find? "else"),
    t.element.find? "for" with
  | some d, _, _ =>
    return b.addConditional d.slotCondition (dynamicSlot name function (some b.branches))
  | none, some d, _ => addElseSlot b before d name function
  | none, none, some d =>
    let b := { b with isDynamic := true }
    match d.loop with
    | some head =>
      let slot := dynamicSlot name function none
      let render := RenderNode.function head.params (some slot) true false
      return { b with dynamic := b.dynamic ++ [.call .renderList [.expr head.source, render]] }
    | none => return b
  | none, none, none => addPlainSlot b t name function

/-- Add the children of a component. Templates of slots have no place in a component that has the
    directive itself: the first one is reported and ends the search. -/
def addSlots (onComponent : Bool) (b : SlotsBuild) (before : List TemplateNode) :
    List TemplateNode → Lower SlotsBuild
  | [] => return b
  | node :: nodes =>
    match SlotTemplate.of? node with
    | none =>
      let b := if node.isComment then b else { b with implicit := b.implicit ++ [node] }
      addSlots onComponent b (node :: before) nodes
    | some t =>
      if onComponent then do
        error .slotMixedUsage t.directive.span
        return b
      else do
        addSlots onComponent (← addSlotTemplate b before t) (node :: before) nodes

def addDefaultSlot (b : SlotsBuild) (children : List TemplateNode) : Lower SlotsBuild := do
  if !b.hasTemplates then
    return b.addProperty (.named "default" (← slotFunction none children))
  else
    match b.implicit.find? (·.isVisible) with
    | none => return b
    | some node =>
      if b.hasNamedDefault then
        error .slotExtraneousChildren node.span
        return b
      else return b.addProperty (.named "default" (← slotFunction none b.implicit))

/-- Build the slots of a component. Inside a loop or another slot they may use its names, so they
    change with it. -/
def buildSlots (el : Element) (children : List TemplateNode) : Lower SlotsResult := do
  let c ← get
  let start : SlotsBuild := { isDynamic := 0 < c.loopDepth || 0 < c.slotDepth }
  match el.find? "slot" with
  | some d =>
    let name := d.slotName
    let function ← slotFunction d.exp children
    let b := { start with isDynamic := start.isDynamic || !name.isStatic }
    return (← addSlots true (b.addProperty ⟨name, function⟩) [] children).finish
  | none =>
    let b ← addSlots false start [] children
    return (← addDefaultSlot b children).finish

end Lower

end Stencil
