import Stencil.Lower.Props
import Stencil.Lower.Slots

/-! # Elements, components and outlets -/

namespace Stencil

/-- Whether a single child can be the content of an element as it stands. -/
def TemplateNode.isDirectText (node : TemplateNode) : Bool :=
  match node with
  | .compound _ => true
  | _ => node.isText

def TemplateNode.isDynamicText : TemplateNode → Bool
  | .interpolation _ _ => true
  | .compound c => c.level == .dynamic
  | _ => false

namespace Lower

def dynamicTag? (el : Element) : Option RenderNode :=
  if el.tag == "component" then
    match el.findProp? "is" true with
    | some (.attribute a) => some (.string a.text)
    | some (.directive d) => d.exp.map .expr
    | none => none
  else none

def resolveTag (el : Element) : Lower Tag := do
  if el.kind != .component then return .literal el.tag
  else
    match dynamicTag? el with
    | some node => return .dynamic (.call .resolveDynamicComponent [node])
    | none =>
      modify (Context.useComponent el.tag)
      return .component (assetVariable el.tag "component")

def runtimeArgumentList : List RuntimeDirective → Lower (List RenderNode)
  | [] => return []
  | d :: ds => do
    let first ← runtimeArguments d
    let rest ← runtimeArgumentList ds
    return first :: rest

def lowerChildren (el : Element) (children : List TemplateNode) :
    Lower (Option Children × PatchFlag) := do
  match children with
  | [] => return (none, .empty)
  | first :: rest =>
    if el.kind == .component then
      let built ← buildSlots el children
      return (some (.slots built.slots), if built.isDynamic then .dynamicSlots else .empty)
    else if rest.isEmpty then
      let node ← code first
      let flag := if first.isDynamicText then PatchFlag.text else .empty
      return (some (if first.isDirectText then .single node else .nodes [node]), flag)
    else return (some (.nodes (← codes children)), .empty)

def lowerProps (el : Element) : Lower PropsResult :=
  if el.props.isEmpty then return ⟨none, .empty, [], []⟩ else buildProps el el.props

def lowerElement (el : Element) (children : List TemplateNode) : Lower RenderNode := do
  let isComponent := el.kind == .component
  let tag ← resolveTag el
  let id ← fresh
  let props ← lowerProps el
  let directives ← runtimeArgumentList props.directives
  let (content, flag) ← lowerChildren el children
  let resolves := props.directives.any (·.source == .resolve) && !children.isEmpty
  return .vnode { VNode.new id tag with
    props := props.props
    children := content
    flag := props.flag.insert flag
    dynamicProps := props.dynamicProps
    directives := if directives.isEmpty then none else some directives
    isBlock := isComponent || ["svg", "foreignObject", "math"].contains el.tag || resolves
    isComponent
    span := el.span }

/-- The name of an outlet and the props that it passes on, which are in camel case. -/
structure OutletProps where
  name : RenderNode := .string "default"
  props : List ElementProp := []

def camelBinding (d : Directive) : Directive :=
  match d.name, d.arg with
  | "bind", some (.simple s) =>
    if s.isStatic then { d with arg := some (.simple { s with content := camelize s.content }) }
    else d
  | _, _ => d

def OutletProps.add (o : OutletProps) : ElementProp → OutletProps
  | .attribute a =>
    if a.name == "name" && a.value.isSome then { o with name := .string a.text }
    else { o with props := o.props ++ [.attribute { a with name := camelize a.name }] }
  | .directive d =>
    if d.binds "name" then
      match d.exp with
      | some e => { o with name := .expr e }
      | none => o
    else { o with props := o.props ++ [.directive (camelBinding d)] }

/-- The props that an outlet passes on. Directives that run at run time have no place there. -/
def outletProps (el : Element) (props : List ElementProp) : Lower (Option RenderNode) := do
  if props.isEmpty then return none
  else
    let result ← buildProps el props
    match result.directives with
    | d :: _ => error .slotDirectiveOnOutlet d.directive.span
    | [] => pure ()
    return result.props

def outletFallback (children : List TemplateNode) : Lower (Option RenderNode) := do
  if children.isEmpty then return none
  else return some (.function [] (some (.array (← codes children))) false false)

def lowerOutlet (el : Element) (children : List TemplateNode) : Lower RenderNode := do
  let outlet := el.props.foldl OutletProps.add {}
  let slots := RenderNode.script (if (← read).qualify then "_ctx.$slots" else "$slots")
  let props ← outletProps el outlet.props
  let fallback ← outletFallback children
  let rest := match props, fallback with
    | some p, some f => [p, f]
    | some p, none => [p]
    | none, some f => [.script "\x7b\x7d", f]
    | none, none => []
  return .call .renderSlot (slots :: outlet.name :: rest)

end Lower

end Stencil
