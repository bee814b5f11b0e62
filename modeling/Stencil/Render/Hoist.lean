import Stencil.Template.Node

/-! # Hoisting

Constant subtrees are made once, outside the render function, and referred to by number. How
constant a subtree is is computed once per node number.
-/

namespace Stencil

abbrev Levels := List (NodeId × Constancy)

/-- Whether a call gives a constant for a constant argument. -/
def Helper.isNormalizer (h : Helper) : Bool :=
  h == .normalizeClass || h == .normalizeStyle || h == .normalizeProps || h == .guardReactiveProps

/-- Tags that are blocks by nature, and still can be constant. -/
def Tag.isForeign : Tag → Bool
  | .literal name => name == "svg" || name == "foreignObject" || name == "math"
  | _ => false

/-- Whether a node creation could be constant, its properties and children apart. -/
def VNode.isPassive (v : VNode) : Bool :=
  v.tag.isLiteral && !v.isComponent && (!v.isBlock || v.tag.isForeign) && v.flag.isEmpty &&
    v.directives.isNone

def Part.isInterpolation : Part → Bool
  | .interpolation _ _ => true
  | _ => false

/-- The level of an expression in a render tree; interpolations are shown anew. -/
def Expression.renderLevel : Expression → Constancy
  | .simple s => s.level
  | .compound c => if c.parts.any Part.isInterpolation then .dynamic else c.level

/-- The level of a node creation, by its number if that was looked at before. -/
def rememberLevel (id : NodeId) (compute : StateM Levels Constancy) :
    StateM Levels Constancy := do
  match (← get).lookup id with
  | some level => return level
  | none =>
    let level ← compute
    modify ((id, level) :: ·)
    return level

mutual
def RenderNode.constancy : RenderNode → StateM Levels Constancy
  | .vnode v => v.constancy
  | .textCall t => t.constancy
  | .text _ | .comment _ => return .stringifiable
  | .interpolation _ _ => return .dynamic
  | .expr e => return e.renderLevel
  | .hoisted _ => return .hoistable
  | .object properties => Property.constancies .stringifiable properties
  | .array elements => RenderNode.constancies .stringifiable elements
  | .call callee args =>
    match args with
    | arg :: _ => if callee.isNormalizer then arg.constancy else return .dynamic
    | [] => return .dynamic
  | .function _ _ _ _ | .conditional _ _ _ _ | .helper _ => return .dynamic

def VNode.constancy : VNode → StateM Levels Constancy
  | ⟨id, tag, props, children, flag, dynamicProps, directives, isBlock, disableTracking,
      isComponent, dynamicChildren, span⟩ =>
    rememberLevel id do
      if !VNode.isPassive ⟨id, tag, props, children, flag, dynamicProps, directives, isBlock,
          disableTracking, isComponent, dynamicChildren, span⟩ then return .dynamic
      else
        let level ← match props with
          | some p => p.constancy
          | none => pure .stringifiable
        match children with
        | some c => c.constancy level
        | none => return level

def Children.constancy (level : Constancy) : Children → StateM Levels Constancy
  | .nodes nodes => RenderNode.constancyUntil level nodes
  | .single node => return level.min (← node.constancy)
  | .hoisted _ => return level.min .hoistable
  | .slots _ | .list _ => return .dynamic

def TextCall.constancy : TextCall → StateM Levels Constancy
  | ⟨_, content, _, _⟩ =>
    match content with
    | some node => node.constancy
    | none => return .stringifiable

def RenderNode.constancies (level : Constancy) : List RenderNode → StateM Levels Constancy
  | [] => return level
  | node :: nodes => do
    let l ← node.constancy
    RenderNode.constancies (level.min l) nodes

/-- Like `constancies`, up to the first node that makes it dynamic. -/
def RenderNode.constancyUntil (level : Constancy) : List RenderNode → StateM Levels Constancy
  | [] => return level
  | node :: nodes => do
    let l ← node.constancy
    let level := level.min l
    if level = .dynamic then return level else RenderNode.constancyUntil level nodes

/-- The least level of properties, and at most `level`. A key that is only known at run time makes
    it dynamic. -/
def Property.constancies (level : Constancy) : List Property → StateM Levels Constancy
  | [] => return level
  | ⟨key, value⟩ :: properties =>
    if key.static?.isNone then return .dynamic
    else do
      let l ← value.constancy
      Property.constancies (level.min l) properties
end

structure Hoisting where
  hoists : List RenderNode
  levels : Levels := []

abbrev Hoist := StateM Hoisting

namespace Hoist

def push (node : RenderNode) : Hoist Nat :=
  modifyGet fun s => (s.hoists.length, { s with hoists := s.hoists ++ [node] })

def canHoist (node : RenderNode) : Hoist Bool :=
  modifyGet fun s =>
    let (level, levels) := node.constancy.run s.levels
    (level.canHoist, { s with levels })

/-- Whether a node can be moved as a whole: elements and text nodes. -/
def isCandidate : RenderNode → Bool
  | .vnode v => !v.tag.isFragment && !v.isComponent
  | .textCall _ => true
  | _ => false

def constant : RenderNode → RenderNode
  | .vnode v => .vnode { v with flag := .hoisted, isBlock := false }
  | node => node

def hoist (node : RenderNode) : Hoist RenderNode := do
  return .hoisted (← push (constant node))

def isHoisted : RenderNode → Bool
  | .hoisted _ => true
  | _ => false

def mayHoistProps (v : VNode) : Bool :=
  !v.isComponent && v.tag.isLiteral &&
    (v.flag.isEmpty || v.flag == .needPatch || v.flag == .text)

/-- The children of an element; if all are hoisted, so is their array. -/
def hoistChildren (isPlain : Bool) (nodes : List RenderNode) : Hoist Children := do
  if isPlain && !nodes.isEmpty && nodes.all isHoisted then return .hoisted (← push (.array nodes))
  else return .nodes nodes

/-! Which nodes are constant enough is asked of a test, which may remember levels. -/

section Walk

variable (test : RenderNode → Hoist Bool)

def isHoistable (node : RenderNode) : Hoist Bool :=
  if isCandidate node then test node else return false

def hoistProps (v : VNode) : Hoist (Option RenderNode) := do
  match v.props with
  | some (.object properties) =>
    if mayHoistProps v then
      if ← test (.object properties) then return some (.hoisted (← push (.object properties)))
      else return v.props
    else return v.props
  | props => return props

mutual
def walk : RenderNode → Hoist RenderNode
  | .vnode v => do return .vnode (← walkVNode v)
  | .conditional test consequent alternate newline => do
    let consequent ← walk consequent
    let alternate ← walk alternate
    return .conditional test consequent alternate newline
  | .call callee args => do return .call callee (← walkAll args)
  | .function params returns newline isSlot =>
    match returns with
    | some (.array elements) => do
      return .function params (some (.array (← walkList elements))) newline isSlot
    | some node => do return .function params (some (← walk node)) newline isSlot
    | none => return .function params none newline isSlot
  | .object properties => do return .object (← walkProperties properties)
  | .array elements => do return .array (← walkAll elements)
  | node => return node

/-- Hoist inside an element that stays. -/
def walkVNode : VNode → Hoist VNode
  | ⟨id, tag, props, children, flag, dynamicProps, directives, isBlock, disableTracking,
      isComponent, dynamicChildren, span⟩ => do
    let children ← match children with
      | some c => some <$> walkChildren (tag.isLiteral && !isComponent) c
      | none => pure none
    return ⟨id, tag, props, children, flag, dynamicProps, directives, isBlock, disableTracking,
      isComponent, dynamicChildren, span⟩

def walkChildren (isPlain : Bool) : Children → Hoist Children
  | .nodes nodes => do hoistChildren isPlain (← walkList nodes)
  | .slots node => do return .slots (← walk node)
  | .list node => do return .list (← walk node)
  | .single node => return .single node
  | .hoisted index => return .hoisted index

/-- Hoist among the children of an element or a slot: constant ones as a whole, and otherwise their
    properties and what is inside them. -/
def walkList : List RenderNode → Hoist (List RenderNode)
  | [] => return []
  | node :: nodes => do
    let node ←
      if ← isHoistable test node then hoist node
      else
        match node with
        | .vnode v =>
          let props ← hoistProps test v
          pure (.vnode { (← walkVNode v) with props })
        | other => walk other
    return node :: (← walkList nodes)

def walkAll : List RenderNode → Hoist (List RenderNode)
  | [] => return []
  | node :: nodes => do
    let node ← walk node
    return node :: (← walkAll nodes)

def walkProperties : List Property → Hoist (List Property)
  | [] => return []
  | ⟨key, value⟩ :: properties => do
    let value ← walk value
    return ⟨key, value⟩ :: (← walkProperties properties)
end

def hoistTree (node : RenderNode) : Hoist RenderNode := do
  if ← isHoistable test node then hoist node else walk test node

end Walk

end Hoist

/-- Move constants out of the code, by a test that says which nodes are constant enough. -/
def Root.hoistBy (test : RenderNode → Hoist Bool) (root : Root) : Root :=
  match root.code with
  | some node =>
    let (code, s) := (Hoist.hoistTree test node).run { hoists := root.hoists }
    { root with code := some code, hoists := s.hoists }
  | none => root

def Root.hoist (root : Root) : Root :=
  root.hoistBy Hoist.canHoist

end Stencil
