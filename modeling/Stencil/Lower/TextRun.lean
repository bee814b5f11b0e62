import Stencil.Lower.Context
import Stencil.Template.Node

/-! # Runs of text

Adjacent texts and interpolations become one expression. Unless it is passed on as the content of
its container, a run becomes the creation of a text node.
-/

namespace Stencil

namespace TemplateNode

def isCompound : TemplateNode → Bool
  | .compound _ => true
  | _ => false

/-- A text, an interpolation or a run as a run. Interpolations are shown anew on every render. -/
def run : TemplateNode → Compound
  | .compound c => c
  | .text t => ⟨[.text t], .stringifiable, t.content, t.span⟩
  | .interpolation content span => ⟨[.interpolation content span], .dynamic, content.source, span⟩
  | node => ⟨[], .stringifiable, "", node.span⟩

end TemplateNode

def Compound.join (a b : Compound) : Compound :=
  ⟨a.parts ++ .raw " + " :: b.parts, a.level.min b.level, a.source ++ b.source, a.span.merge b.span⟩

/-- Add a node to siblings, newest first. A text joins a run right before it. -/
def addToRuns (done : List TemplateNode) (node : TemplateNode) : List TemplateNode :=
  if node.isText then
    match done with
    | last :: rest =>
      if last.isText || last.isCompound then .compound (last.run.join node.run) :: rest
      else node :: done
    | [] => [node]
  else node :: done

def joinRuns (nodes : List TemplateNode) : List TemplateNode :=
  (nodes.foldl addToRuns []).reverse

namespace Lower

def textCall (content : Option RenderNode) (level : Constancy) (span : Span) :
    Lower TemplateNode := do
  let id ← fresh
  return .textCall ⟨id, content, if level == .dynamic then .text else .empty, span⟩

/-- A run as the creation of a text node; other nodes are kept. -/
def toTextCall : TemplateNode → Lower TemplateNode
  | .text t => textCall (if t.content == " " then none else some (.text t)) .stringifiable t.span
  | .interpolation content span => textCall (some (.interpolation content span)) .dynamic span
  | .compound c => textCall (some (.expr (.compound c))) c.level c.span
  | node => return node

def toTextCalls : List TemplateNode → Lower (List TemplateNode)
  | [] => return []
  | node :: nodes => do
    let first ← toTextCall node
    let rest ← toTextCalls nodes
    return first :: rest

/-- Join the runs of text among siblings. `direct` says that a lone run is content of its container
    as it stands. -/
def mergeText (direct : Bool) (nodes : List TemplateNode) : Lower (List TemplateNode) :=
  let joined := joinRuns nodes
  if !nodes.any (·.isText) || (direct && joined.length == 1) then return joined
  else toTextCalls joined

end Lower

end Stencil
