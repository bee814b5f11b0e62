import Stencil.Dom.Style
import Stencil.Lower.Context
import Stencil.Template.Node

/-! # Rules for nodes

The options may name rules that change or drop a node before its children are lowered.
-/

namespace Stencil

def bindStyle : ElementProp → ElementProp
  | .attribute a =>
    match a.name, a.value with
    | "style", some value =>
      let object := (Snippet.new (Dom.styleObject value.content) false a.span).withLevel
        .stringifiable
      .directive
        { name := "bind", rawName := ":style", arg := some (.snippet "style" true a.span),
          modifiers := [], exp := some (.simple object), span := a.span, loop := none }
    | _, _ => .attribute a
  | .directive d => .directive d

def Element.hasAttribute (el : Element) (name : String) : Bool :=
  (el.findProp? name false).isSome

structure Ruled where
  element : Element
  stripped : Bool := false
  removed : Bool := false
  /-- How many siblings after the element are dropped. -/
  skip : Nat := 0

def contentOverride? (el : Element) : Option (Cause × Directive) :=
  match el.find? "html", el.find? "text" with
  | some d, _ => some (.htmlWithChildren, d)
  | none, some d => some (.textWithChildren, d)
  | none, none => none

/-- Whether an element runs or loads something when it is inserted. -/
def Element.hasSideEffects (el : Element) : Bool :=
  el.kind == .plain && (el.tag == "script" || el.tag == "style")

namespace Lower

/-- Apply a rule to an element; `hasChildren` says whether it has any. -/
def applyNodeRule (hasChildren : Bool) (r : Ruled) (rule : NodeRule) : Lower Ruled := do
  let el := r.element
  match rule with
  | .style => return { r with element := { el with props := el.props.map bindStyle } }
  | .stripChildren =>
    match if hasChildren && !r.stripped then contentOverride? el else none with
    | some (cause, d) =>
      error cause d.span
      return { r with stripped := true }
    | none => return r
  | .sideEffects =>
    if el.hasSideEffects then
      error .ignoredSideEffectTag el.span
      return { r with removed := true }
    else return r
  | .dropComments => return r
  | .dropNext attr => return if el.hasAttribute attr then { r with skip := r.skip + 1 } else r

def applyNodeRules (hasChildren : Bool) (r : Ruled) : List NodeRule → Lower Ruled
  | [] => return r
  | rule :: rules => do
    let r ← applyNodeRule hasChildren r rule
    if r.removed then return r else applyNodeRules hasChildren r rules

def dropsComments : Lower Bool := do
  return (← read).nodeRules.contains .dropComments

end Lower

end Stencil
