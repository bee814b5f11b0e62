import Stencil.Options
import Stencil.Template.Node

/-! # Space between the nodes of a template

Condensing keeps the space that a reader of the page would see: runs of space become one, and space
that only lays out the template is dropped.
-/

namespace Stencil

namespace Text

/-- Every run of text space as one space. `inRun` says that a run has begun before. -/
def squeezeFrom (inRun : Bool) : List Char → List Char
  | [] => []
  | c :: cs =>
    if isTextSpace c then
      if inRun then squeezeFrom true cs else ' ' :: squeezeFrom true cs
    else c :: squeezeFrom false cs

def squeeze (cs : List Char) : List Char :=
  squeezeFrom false cs

end Text

def breaksLine (s : String) : Bool :=
  s.toList.any fun c => c == '\n' || c == '\r'

/-- Whether space between two nodes only lays out the template: next to a comment, or with a line
    break between elements. -/
def isLayout (previous next : TemplateNode) (space : String) : Bool :=
  (previous.isComment && (next.isComment || next.isElement)) ||
    (previous.isElement && (next.isComment || (next.isElement && breaksLine space)))

def condenseNode (keepComments : Bool) (previous : Option TemplateNode) (node : TemplateNode)
    (next : Option TemplateNode) : Option TemplateNode :=
  match node with
  | .comment _ => if keepComments then some node else none
  | .text t =>
    if t.isSpace then
      match previous, next with
      | some p, some n =>
        if isLayout p n t.content then none else some (.text { t with content := " " })
      | _, _ => none
    else some (.text { t with content := String.ofList (Text.squeeze t.content.toList) })
  | _ => some node

def condenseAfter (keepComments : Bool) (previous : Option TemplateNode) :
    List TemplateNode → List TemplateNode
  | [] => []
  | node :: rest =>
    match condenseNode keepComments previous node rest.head? with
    | some kept => kept :: condenseAfter keepComments (some kept) rest
    | none => condenseAfter keepComments none rest

def condense (keepComments : Bool) (nodes : List TemplateNode) : List TemplateNode :=
  condenseAfter keepComments none nodes

def Options.arrange (o : Options) (keepSpace : Bool) (nodes : List TemplateNode) :
    List TemplateNode :=
  if !keepSpace && o.whitespace == .condense then condense o.comments nodes
  else if o.comments then nodes
  else nodes.filter (!·.isComment)

def dropLeadingNewline (nodes : List TemplateNode) : List TemplateNode :=
  match nodes with
  | .text t :: rest =>
    match t.content.toList with
    | ['\n'] => rest
    | '\n' :: cs => .text { t with content := String.ofList cs } :: rest
    | _ => nodes
  | _ => nodes

end Stencil
