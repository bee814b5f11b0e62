import Stencil.Template.Node

/-! # Blocks

A block lists the dynamic nodes below it, so that an update need not walk the whole subtree. A
nested block is one entry; what is inside it belongs to its own list.
-/

namespace Stencil

structure Block where
  id : NodeId
  tag : String
  dynamicChildren : List NodeId
  deriving Repr, DecidableEq

structure Flattened (α : Type) where
  value : α
  tracked : List NodeId
  /-- The blocks, each before those inside it. -/
  blocks : List Block

namespace Flattened

variable {α β γ : Type}

def leaf (value : α) : Flattened α :=
  ⟨value, [], []⟩

def map (f : α → β) (a : Flattened α) : Flattened β :=
  ⟨f a.value, a.tracked, a.blocks⟩

/-- A part whose dynamic nodes no block around lists. -/
def hide (a : Flattened α) : Flattened α :=
  { a with tracked := [] }

def both (f : α → β → γ) (a : Flattened α) (b : Flattened β) : Flattened γ :=
  ⟨f a.value b.value, a.tracked ++ b.tracked, a.blocks ++ b.blocks⟩

end Flattened

def VNode.flatten (v : VNode) (children : Flattened (Option Children)) : Flattened VNode :=
  let v := { v with children := children.value }
  if v.isBlock then
    { value := { v with dynamicChildren := children.tracked }
      tracked := [v.id]
      blocks := ⟨v.id, v.tag.display, children.tracked⟩ :: children.blocks }
  else
    { value := v
      tracked := if v.flag.isDynamic then v.id :: children.tracked else children.tracked
      blocks := children.blocks }

mutual
/-- Fill in the blocks of a subtree. The content of slots is listed by the component that renders
    it, and an outlet renders a block of its own. -/
def RenderNode.flatten : RenderNode → Flattened RenderNode
  | .vnode v => (flattenVNode v).map .vnode
  | .textCall t => ⟨.textCall t, if t.flag.isDynamic then [t.id] else [], []⟩
  | .conditional test consequent alternate newline =>
    (test.flatten.both Prod.mk (consequent.flatten.both Prod.mk alternate.flatten)).map
      fun (test, consequent, alternate) => .conditional test consequent alternate newline
  | .function params returns newline isSlot =>
    match returns with
    | some node =>
      let inner := node.flatten.map fun node => .function params (some node) newline isSlot
      if isSlot then inner.hide else inner
    | none => .leaf (.function params none newline isSlot)
  | .call callee args =>
    let inner := (flattenAll args).map (.call callee)
    if callee = .renderSlot then inner.hide else inner
  | .object properties => (flattenProperties properties).map .object
  | .array elements => (flattenAll elements).map .array
  | node => .leaf node

def flattenVNode : VNode → Flattened VNode
  | ⟨id, tag, props, children, flag, dynamicProps, directives, isBlock, disableTracking,
      isComponent, dynamicChildren, span⟩ =>
    VNode.flatten ⟨id, tag, props, none, flag, dynamicProps, directives, isBlock, disableTracking,
      isComponent, dynamicChildren, span⟩
      (match children with
        | some c => (flattenChildren c).map some
        | none => .leaf none)

def flattenChildren : Children → Flattened Children
  | .nodes nodes => (flattenAll nodes).map .nodes
  | .single node => node.flatten.map .single
  | .slots node => node.flatten.map .slots
  | .list node => node.flatten.map .list
  | .hoisted index => .leaf (.hoisted index)

def flattenAll : List RenderNode → Flattened (List RenderNode)
  | [] => .leaf []
  | node :: nodes => node.flatten.both List.cons (flattenAll nodes)

def flattenProperties : List Property → Flattened (List Property)
  | [] => .leaf []
  | ⟨key, value⟩ :: properties =>
    (value.flatten.map (Property.mk key)).both List.cons (flattenProperties properties)
end

def RenderNode.asRoot : RenderNode → RenderNode
  | .vnode v => .vnode { v with isBlock := true }
  | node => node

def Root.flattenBlocks (root : Root) : Root × List Block :=
  match root.code with
  | some node =>
    let flat := node.asRoot.flatten
    ({ root with code := some flat.value }, flat.blocks)
  | none => (root, [])

end Stencil
