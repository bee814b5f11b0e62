import Stencil.Lower.Code

/-! # Conditionals

`v-if`, `v-else-if` and `v-else` on neighbours are the branches of one conditional.
-/

namespace Stencil

namespace TemplateNode

/-- Whether the node may stand between the branches of a conditional. -/
def isIgnorable : TemplateNode → Bool
  | .comment _ => true
  | .text t => isBlankString t.content
  | _ => false

def branchCount : TemplateNode → Nat
  | .conditional branches _ _ => branches.length
  | _ => 0

end TemplateNode

def branchCount : List TemplateNode → Nat
  | [] => 0
  | node :: nodes => node.branchCount + branchCount nodes

/-- A conditional that a further branch can join, and the siblings before it, nearest first. -/
structure OpenConditional where
  branches : List Branch
  lowered : Option RenderNode
  span : Span
  before : List TemplateNode

/-- The conditional right before a place, given the siblings before it, nearest first. One that has
    ended with `v-else` takes no more branches. -/
def openConditional? : List TemplateNode → Option OpenConditional
  | [] => none
  | .conditional branches lowered span :: before =>
    if branches.getLast?.any (·.condition.isSome) then some ⟨branches, lowered, span, before⟩
    else none
  | node :: before => if node.isIgnorable then openConditional? before else none

namespace Lower

/-- The condition of a branch; an absent one is reported and counts as true. -/
def branchCondition (d : Directive) : Lower Expression :=
  match d.script? with
  | some e => process e .expression
  | none => do
    error .ifNoExpression d.span
    return .snippet "true" false d.span

/-- What a branch renders. Its key tells it from the other branches of its siblings. -/
def branchContent (b : Branch) (key : Nat) : Lower RenderNode := do
  match b.children with
  | [.element el children] =>
    match ← code (.element el children) with
    | .vnode v => return (RenderNode.vnode { v with isBlock := true }).inject (keyProperty key)
    | node => return node.inject (keyProperty key)
  | [.loop head children lowered span] =>
    return (← code (.loop head children lowered span)).inject (keyProperty key)
  | children =>
    let id ← fresh
    let nodes ← codes children
    return .vnode { fragment id nodes with
      props := some (.object [keyProperty key])
      isBlock := true
      span := b.span }

def branchCode (b : Branch) (key : Nat) : Lower RenderNode := do
  let content ← branchContent b key
  match b.condition with
  | some condition => return .conditional (.expr condition) content .placeholder true
  | none => return content

/-- The conditional of a first branch, after the siblings `done`. -/
def startConditional (b : Branch) (done : List TemplateNode) : Lower TemplateNode := do
  let code ← branchCode b (branchCount done)
  return .conditional [b] (some code) b.span

def extendConditional (c : OpenConditional) (b : Branch) : Lower TemplateNode := do
  let code ← branchCode b (branchCount c.before + c.branches.length)
  return .conditional (c.branches ++ [b]) (c.lowered.map (·.attachAlternate code)) c.span

end Lower

end Stencil
