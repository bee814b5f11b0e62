import Stencil.Expression
import Stencil.Render.PatchFlag

/-! # The render tree

What a template is lowered to, and what the code of a render function is printed from.
-/

namespace Stencil

abbrev NodeId := Nat

mutual
structure VNode where
  id : NodeId
  tag : Tag
  props : Option RenderNode
  children : Option Children
  flag : PatchFlag
  dynamicProps : List String
  directives : Option (List RenderNode)
  isBlock : Bool
  disableTracking : Bool
  isComponent : Bool
  /-- The dynamic nodes below a block, filled in by `flattenBlocks`. -/
  dynamicChildren : List NodeId
  span : Span
inductive Tag where
  | literal (name : String)
  | component (name : String)
  | helper (h : Helper)
  | dynamic (node : RenderNode)
inductive Children where
  | nodes (nodes : List RenderNode)
  /-- A text-like child that needs no array. -/
  | single (node : RenderNode)
  | slots (node : RenderNode)
  | list (node : RenderNode)
  | hoisted (index : Nat)
structure Property where
  key : Expression
  value : RenderNode
/-- The creation of a text node. Without content it is a single space. -/
structure TextCall where
  id : NodeId
  content : Option RenderNode
  flag : PatchFlag
  span : Span
inductive RenderNode where
  | vnode (v : VNode)
  | call (callee : Helper) (args : List RenderNode)
  | object (properties : List Property)
  | array (elements : List RenderNode)
  /-- An arrow function; `newline` gives it a body in braces. -/
  | function (params : List String) (returns : Option RenderNode) (newline isSlot : Bool)
  | conditional (test consequent alternate : RenderNode) (newline : Bool)
  | expr (e : Expression)
  | text (t : TextNode)
  | interpolation (content : Expression) (span : Span)
  | comment (c : Comment)
  | textCall (t : TextCall)
  | hoisted (index : Nat)
  | helper (h : Helper)
end

def VNode.new (id : NodeId) (tag : Tag) : VNode :=
  { id, tag, props := none, children := none, flag := .empty, dynamicProps := [],
    directives := none, isBlock := false, disableTracking := false, isComponent := false,
    dynamicChildren := [], span := .empty }

def Tag.isFragment : Tag → Bool
  | .helper h => h == .fragment
  | _ => false

def Tag.isLiteral : Tag → Bool
  | .literal _ => true
  | _ => false

def Tag.display : Tag → String
  | .literal name => name
  | .component name => name
  | .helper h => h.name
  | .dynamic _ => "component"

def Property.name? (p : Property) : Option String :=
  p.key.static?

def Property.named (name : String) (value : RenderNode) : Property :=
  ⟨.snippet name true .empty, value⟩

namespace RenderNode

def script (code : String) : RenderNode :=
  .expr (.snippet code false .empty)

def string (content : String) : RenderNode :=
  .expr (.snippet content true .empty)

/-- Script that was not written in the template, of a known level. -/
def constant (code : String) (level : Constancy) : RenderNode :=
  .expr (.simple ((Snippet.new code false .empty).withLevel level))

/-- Whether the node is code or text that fits on one line with others. -/
def isTextLike : RenderNode → Bool
  | .expr _ | .text _ | .interpolation _ _ | .helper _ => true
  | _ => false

end RenderNode

end Stencil
