import Stencil.Render.Node

/-! # The template tree

What a template text is read as. Lowering turns structural directives into conditionals and loops,
merges text, and hangs a render node on every node that it has lowered.
-/

namespace Stencil

inductive ElementKind where
  | plain
  | component
  /-- A `<slot>` outlet. -/
  | slot
  /-- A `<template>` with a structural or slot directive. -/
  | template
  deriving Repr, DecidableEq

structure Attribute where
  name : String
  value : Option TextNode
  span : Span

def Attribute.text (a : Attribute) : String :=
  match a.value with
  | some v => v.content
  | none => ""

structure LoopHead where
  source : Expression
  value : Option Expression
  key : Option Expression
  index : Option Expression

/-- A directive `v-name:arg.modifiers="exp"` or one of its shorthands. -/
structure Directive where
  /-- The name without `v-`; shorthands have their full name. -/
  name : String
  /-- The attribute name as written. -/
  rawName : String
  arg : Option Expression
  modifiers : List String
  exp : Option Expression
  span : Span
  /-- The loop of a slot template, filled in by lowering. -/
  loop : Option LoopHead

namespace Directive

def staticArg? (d : Directive) : Option String :=
  d.arg.bind Expression.static?

def hasModifier (d : Directive) (name : String) : Bool :=
  d.modifiers.contains name

def script? (d : Directive) : Option Expression :=
  d.exp.filter Expression.hasSource

def binds (d : Directive) (name : String) : Bool :=
  d.name == "bind" && d.staticArg? == some name

end Directive

inductive ElementProp where
  | attribute (a : Attribute)
  | directive (d : Directive)

namespace ElementProp

def span : ElementProp → Span
  | .attribute a => a.span
  | .directive d => d.span

def named? (name : String) : ElementProp → Option Directive
  | .directive d => if d.name == name then some d else none
  | .attribute _ => none

def binds (name : String) : ElementProp → Bool
  | .attribute _ => false
  | .directive d => d.binds name

/-- Whether the prop is the attribute `name`, or with `dynamic` a binding of it. -/
def gives (name : String) (dynamic : Bool) : ElementProp → Bool
  | .attribute a => a.name == name
  | .directive d => dynamic && d.binds name

end ElementProp

structure Element where
  tag : String
  kind : ElementKind
  props : List ElementProp
  selfClosing : Bool
  lowered : Option RenderNode
  span : Span

namespace Element

def find? (el : Element) (name : String) : Option Directive :=
  el.props.findSome? (·.named? name)

def has (el : Element) (name : String) : Bool :=
  (el.find? name).isSome

def erase (el : Element) (name : String) : Element :=
  { el with props := el.props.eraseP fun p => (p.named? name).isSome }

def findProp? (el : Element) (name : String) (dynamic : Bool) : Option ElementProp :=
  el.props.find? (·.gives name dynamic)

def isSlotTemplate (el : Element) : Bool :=
  el.kind == .template && el.has "slot"

end Element

mutual
inductive TemplateNode where
  | element (el : Element) (children : List TemplateNode)
  | text (t : TextNode)
  | interpolation (content : Expression) (span : Span)
  | comment (c : Comment)
  | conditional (branches : List Branch) (lowered : Option RenderNode) (span : Span)
  | loop (head : LoopHead) (children : List TemplateNode) (lowered : Option RenderNode)
    (span : Span)
  | textCall (t : TextCall)
  /-- Adjacent texts and interpolations joined into one expression. -/
  | compound (c : Compound)
/-- A branch of a conditional; the last one may have no condition. -/
structure Branch where
  condition : Option Expression
  children : List TemplateNode
  /-- The branch was a `<template>`, of which only the children are kept. -/
  isTemplate : Bool
  span : Span
end

namespace TemplateNode

def span : TemplateNode → Span
  | .element el _ => el.span
  | .text t => t.span
  | .interpolation _ span => span
  | .comment c => c.span
  | .conditional _ _ span => span
  | .loop _ _ _ span => span
  | .textCall t => t.span
  | .compound c => c.span

def isText : TemplateNode → Bool
  | .text _ | .interpolation _ _ => true
  | _ => false

def isSpace : TemplateNode → Bool
  | .text t => t.isSpace
  | _ => false

def isElement : TemplateNode → Bool
  | .element _ _ => true
  | _ => false

def isComment : TemplateNode → Bool
  | .comment _ => true
  | _ => false

def element? : TemplateNode → Option Element
  | .element el _ => some el
  | _ => none

end TemplateNode

structure Root where
  children : List TemplateNode
  components : List String
  directives : List String
  hoists : List RenderNode
  code : Option RenderNode
  span : Span

def Root.ofChildren (children : List TemplateNode) (span : Span) : Root :=
  ⟨children, [], [], [], none, span⟩

end Stencil
