import Stencil.Lower.Context
import Stencil.Template.Node

/-! # The code of lowered nodes

Every lowered node carries its render node. Properties can still be added to it from outside, as
the branches of a conditional and the items of a loop do with their keys.
-/

namespace Stencil

namespace RenderNode

def placeholder : RenderNode :=
  .call .createComment [.string "v-if", .script "true"]

/-- A chain of conditionals with another node in the place of its last alternate. -/
def attachAlternate : RenderNode → RenderNode → RenderNode
  | .conditional test consequent (.conditional test' consequent' alternate' newline') newline,
    alternate =>
    .conditional test consequent
      (attachAlternate (.conditional test' consequent' alternate' newline') alternate) newline
  | .conditional test consequent _ newline, alternate =>
    .conditional test consequent alternate newline
  | node, _ => node

end RenderNode

/-- Put a property before others, unless its name is among them. -/
def addFirst (p : Property) (ps : List Property) : List Property :=
  match p.name? with
  | some name => if ps.any (·.name? == some name) then ps else p :: ps
  | none => p :: ps

/-- Add a property to properties of any shape, so that it does not override one that is given. -/
def injectInto (p : Property) : RenderNode → RenderNode
  | .object ps => .object (addFirst p ps)
  | .call callee args =>
    if callee = .normalizeProps then
      match args with
      | .call guard inner :: rest =>
        if guard = .guardReactiveProps then
          match inner with
          | first :: _ => .call callee (injectInto p first :: rest)
          | [] => .call callee (.object [p] :: rest)
        else .call callee (injectInto p (.call guard inner) :: rest)
      | first :: rest => .call callee (injectInto p first :: rest)
      | [] => .call .mergeProps [.object [p], .call callee args]
    else if callee = .mergeProps then
      match args with
      | .object ps :: rest => .call callee (.object (addFirst p ps) :: rest)
      | _ => .call callee (.object [p] :: args)
    else .call .mergeProps [.object [p], .call callee args]
  | other => .call .mergeProps [.object [p], other]

def injectProps (p : Property) : Option RenderNode → RenderNode
  | some props => injectInto p props
  | none => .object [p]

def RenderNode.isEmptyObject : RenderNode → Bool
  | .expr (.simple s) => s.content == "\x7b\x7d"
  | _ => false

def RenderNode.inject (p : Property) : RenderNode → RenderNode
  | .vnode v => .vnode { v with props := some (injectProps p v.props) }
  | .call callee args =>
    if callee = .renderSlot then
      let blank := RenderNode.script "\x7b\x7d"
      match args with
      | slots :: name :: props :: rest =>
        .call callee (slots :: name ::
          injectProps p (if props.isEmptyObject then none else some props) :: rest)
      | [slots, name] => .call callee [slots, name, .object [p]]
      | [slots] => .call callee [slots, blank, .object [p]]
      | [] => .call callee [blank, blank, .object [p]]
    else .call callee args
  | node => node

def keyProperty (key : Nat) : Property :=
  .named "key" (.constant (toString key) .hoistable)

namespace Lower

def fragment (id : NodeId) (nodes : List RenderNode) : VNode :=
  { VNode.new id (.helper .fragment) with
    children := some (.nodes nodes)
    flag := .stableFragment }

mutual
/-- The render node of a lowered node. An element that has none of its own, such as a misplaced
    slot template, is a fragment of its children. -/
def code : TemplateNode → Lower RenderNode
  | .element el children =>
    match el.lowered with
    | some node => return node
    | none => do
      let id ← fresh
      let nodes ← codes children
      return .vnode { fragment id nodes with span := el.span }
  | .text t => return .text t
  | .interpolation content span => return .interpolation content span
  | .comment c => return .comment c
  | .conditional _ lowered _ => return lowered.getD .placeholder
  | .loop _ _ lowered _ => return lowered.getD (.script "null")
  | .textCall t => return .textCall t
  | .compound c => return .expr (.compound c)

def codes : List TemplateNode → Lower (List RenderNode)
  | [] => return []
  | node :: nodes => do
    let first ← code node
    let rest ← codes nodes
    return first :: rest
end

end Lower

end Stencil
