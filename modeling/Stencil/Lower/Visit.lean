import Stencil.Lower.Condition
import Stencil.Lower.Element
import Stencil.Lower.Rules
import Stencil.Lower.TextRun

/-! # Lowering a template

Siblings are lowered from the first to the last. A node may join the conditional before it, be
dropped, or drop siblings after it. Children are lowered before their element, inside the scope
that it opens for them.
-/

namespace Stencil

structure Visited where
  done : List TemplateNode
  skip : Nat := 0

/-- Whether a directive decides if and how often its element is rendered. -/
def isStructural (name : String) : Bool :=
  name == "if" || name == "else-if" || name == "else" || name == "for"

def Element.structuralCount (el : Element) : Nat :=
  el.props.countP fun
    | .directive d => isStructural d.name
    | .attribute _ => false

def Element.elseIfToIf (el : Element) : Element :=
  { el with props := el.props.map fun
      | .directive d => .directive (if d.name == "else-if" then { d with name := "if" } else d)
      | .attribute a => .attribute a }

namespace Lower

def processArg (d : Directive) : Lower Directive :=
  match d.arg with
  | some arg =>
    if arg.isStatic then return d
    else return { d with arg := some (← process arg .expression) }
  | none => return d

/-- Qualify the expressions of a directive, except those that are read in another way: loops,
    parameters of slots and handlers. The name of a looped slot waits for the loop's names. -/
def processDirective (hasFor : Bool) (d : Directive) : Lower Directive := do
  if d.name == "for" then return d
  else if d.name == "slot" then if hasFor then return d else processArg d
  else if d.name == "on" && d.arg.isSome then processArg d
  else
    match d.exp with
    | some e => processArg { d with exp := some (← process e .expression) }
    | none => processArg d

def processProps (hasFor : Bool) : List ElementProp → Lower (List ElementProp)
  | [] => return []
  | .attribute a :: props => return .attribute a :: (← processProps hasFor props)
  | .directive d :: props => do
    let d ← processDirective hasFor d
    return .directive d :: (← processProps hasFor props)

/-- The loop of a slot template: the last of its `v-for`, if all can be read. -/
def slotLoop? (found : Option LoopHead) : List ElementProp → Lower (Option LoopHead)
  | [] => return found
  | .attribute _ :: props => slotLoop? found props
  | .directive d :: props =>
    if d.name == "for" then do
      match ← loopHead? d with
      | some head => slotLoop? (some head) props
      | none => return none
    else slotLoop? found props

/-- Keep the loop of a slot template on its directive, and qualify its name in the loop's scope. -/
def keepSlotLoop (head : LoopHead) : List ElementProp → Lower (List ElementProp)
  | [] => return []
  | .attribute a :: props => return .attribute a :: (← keepSlotLoop head props)
  | .directive d :: props => do
    let d ← if d.name == "for" then pure { d with loop := some head }
      else if d.name == "slot" then processArg d
      else pure d
    return .directive d :: (← keepSlotLoop head props)

/-- Run `act` on an element inside the names of its slot, if it has any. -/
def inSlotScope {α : Type} (el : Element) (act : Lower α) : Lower α :=
  match if el.kind == .component || el.kind == .template then el.find? "slot" else none with
  | some d => inScope do
    match d.exp with
    | some e => bindNames .slot (← bindingNames e)
    | none => pure ()
    inSlot act
  | none => act

/-- Run `act` on an element inside the names of its loop, if it is the template of a looped slot. -/
def inSlotLoop {α : Type} (el : Element) (act : Element → Lower α) : Lower α := do
  if el.isSlotTemplate then
    match ← slotLoop? none el.props with
    | some head => inScope do
      let head ← enterLoop head
      let props ← keepSlotLoop head el.props
      act { el with props }
    | none => act el
  else act el

/-- Whether an element can take a lone text as its content: directives that run at run time see
    text nodes. -/
def takesText (el : Element) : Lower Bool := do
  let o ← read
  let runs : ElementProp → Bool
    | .directive d =>
      !isBuiltinDirective d.name && (o.rule? d.name).isNone
    | .attribute _ => false
  return el.kind == .plain && !el.props.any runs

/-- An element with its children lowered; none if a rule drops it. -/
structure Content where
  element : Element
  children : Option (List TemplateNode)
  skip : Nat

/-- Apply the rules for nodes to an element, and lower its children with `kids`. -/
def lowerContent (hasChildren : Bool) (kids : Lower (List TemplateNode)) (el : Element) :
    Lower Content := do
  let ruled ← applyNodeRules hasChildren { element := el } (← read).nodeRules
  if ruled.removed then return ⟨ruled.element, none, ruled.skip⟩
  else
    let children ← if ruled.stripped then pure [] else kids
    let merged ← mergeText (← takesText ruled.element) children
    return ⟨ruled.element, some merged, ruled.skip⟩

/-- Lower an element that has its own code. Templates have none. -/
def lowerKind (el : Element) (children : List TemplateNode) : Lower Element := do
  match el.kind with
  | .plain | .component => return { el with lowered := some (← lowerElement el children) }
  | .slot => return { el with lowered := some (← lowerOutlet el children) }
  | .template => return el

def visitPlain (el : Element) (hasChildren : Bool) (kids : Lower (List TemplateNode))
    (done : List TemplateNode) : Lower Visited := do
  let el := { el with props := ← processProps (el.has "for") el.props }
  let content ← inSlotScope el (inSlotLoop el (lowerContent hasChildren kids))
  match content.children with
  | none => return ⟨done, content.skip⟩
  | some children =>
    let el ← lowerKind content.element children
    return ⟨.element el children :: done, content.skip⟩

/-- Lower an element whose conditions are dealt with: as a loop if it has one. `inner` lowers what
    the loop repeats. -/
def visitLoop (el : Element) (children : List TemplateNode) (kids : Lower (List TemplateNode))
    (inner : Element → Lower (List TemplateNode)) (done : List TemplateNode) : Lower Visited := do
  match el.find? "for" with
  | none => visitPlain el (!children.isEmpty) kids done
  | some d =>
    let el := el.erase "for"
    match ← loopHead? d with
    | none => visitPlain el (!children.isEmpty) kids done
    | some head => inScope do
      let head ← enterLoop head
      inLoop do
        let isStable := isStableSource head.source
        let key ← itemKey? el children
        let items ← if el.kind == .template then kids else inner el
        let items ← mergeText false items
        let item ← itemCode items key isStable
        let flag := loopFlag isStable (el.findProp? "key" true).isSome
        let code ← loopCode head.source head.params item flag isStable el.span
        return ⟨.loop head items (some code) el.span :: done, 0⟩

/-- Lower the branch of a conditional. `inner` lowers its element; a template stands for its
    children. -/
def visitBranch (el : Element) (condition : Option Expression) (kids : Lower (List TemplateNode))
    (inner : Element → Lower (List TemplateNode)) : Lower Branch := do
  let isTemplate := el.kind == .template && !el.has "for"
  let children ← if isTemplate then kids else inner el
  let children ← mergeText false children
  return { condition, children, isTemplate, span := el.span }

def visitIf (d : Directive) (el : Element) (kids : Lower (List TemplateNode))
    (inner : Element → Lower (List TemplateNode)) (done : List TemplateNode) : Lower Visited := do
  let condition ← branchCondition d
  let branch ← visitBranch (el.erase "if") (some condition) kids inner
  let node ← startConditional branch done
  return ⟨node :: done, 0⟩

def visitElse (c : OpenConditional) (d : Directive) (el : Element)
    (kids : Lower (List TemplateNode)) (inner : Element → Lower (List TemplateNode)) :
    Lower Visited := do
  let condition ← if d.name == "else-if" then some <$> branchCondition d else pure none
  let branch ← visitBranch (el.erase d.name) condition kids inner
  let node ← extendConditional c branch
  return ⟨node :: c.before, 0⟩

/-- Lower an element after the siblings `done`. `kids` lowers its children; `fuel` bounds the
    number of its structural directives, which are dealt with one after another. An else without a
    conditional before it is reported: `v-else-if` then starts a conditional, and `v-else` is
    dropped. -/
def visitElement (fuel : Nat) (el : Element) (children : List TemplateNode)
    (kids : Lower (List TemplateNode)) (done : List TemplateNode) : Lower Visited :=
  match fuel with
  | 0 => visitPlain el (!children.isEmpty) kids done
  | fuel + 1 =>
    let inner (el : Element) : Lower (List TemplateNode) := do
      return (← visitElement fuel el children kids []).done.reverse
    if el.isSlotTemplate then visitPlain el (!children.isEmpty) kids done
    else
      match el.find? "if", el.find? "else-if", el.find? "else" with
      | some d, _, _ => visitIf d el kids inner done
      | none, some d, _ =>
        match openConditional? done with
        | some c => visitElse c d el kids inner
        | none => do
          error .elseNoAdjacentIf d.span
          visitIf { d with name := "if" } el.elseIfToIf kids inner done
      | none, none, some d =>
        match openConditional? done with
        | some c => visitElse c d el kids inner
        | none => do
          error .elseNoAdjacentIf d.span
          visitLoop (el.erase "else") children kids inner done
      | none, none, none => visitLoop el children kids inner done

mutual
def visitNode (done : List TemplateNode) : TemplateNode → Lower Visited
  | .element el children =>
    visitElement el.structuralCount el children (visitNodes 0 [] children) done
  | .interpolation content span => do
    return ⟨.interpolation (← process content .expression) span :: done, 0⟩
  | .comment c => do
    if ← dropsComments then return ⟨done, 0⟩ else return ⟨.comment c :: done, 0⟩
  | .conditional branches lowered span => do
    return ⟨.conditional (← visitBranches branches) lowered span :: done, 0⟩
  | .loop head children lowered span => do
    let children ← mergeText false (← visitNodes 0 [] children)
    return ⟨.loop head children lowered span :: done, 0⟩
  | .text t => return ⟨.text t :: done, 0⟩
  | .textCall t => return ⟨.textCall t :: done, 0⟩
  | .compound c => return ⟨.compound c :: done, 0⟩

def visitNodes (skip : Nat) (done : List TemplateNode) :
    List TemplateNode → Lower (List TemplateNode)
  | [] => return done.reverse
  | node :: nodes =>
    match skip with
    | skip + 1 => visitNodes skip done nodes
    | 0 => do
      let visited ← visitNode done node
      visitNodes visited.skip visited.done nodes

def visitBranches : List Branch → Lower (List Branch)
  | [] => return []
  | ⟨condition, children, isTemplate, span⟩ :: branches => do
    let children ← mergeText false (← visitNodes 0 [] children)
    return ⟨condition, children, isTemplate, span⟩ :: (← visitBranches branches)
end

/-- What the render function returns. Several nodes are a fragment. -/
def rootCode : List TemplateNode → Lower (Option RenderNode)
  | [] => return none
  | [node] => some <$> code node
  | nodes => do
    let id ← fresh
    let nodes ← codes nodes
    return some (.vnode { fragment id nodes with isBlock := true })

def lowerRoot (children : List TemplateNode) :
    Lower (List TemplateNode × Option RenderNode) := do
  let children ← mergeText true (← visitNodes 0 [] children)
  return (children, ← rootCode children)

end Lower

def Root.lower (root : Root) (o : Options) : Root × List Diagnostic :=
  let ((children, code), c) := (Lower.lowerRoot root.children).run o |>.run {}
  ({ root with children, code, components := c.components, directives := c.directives },
    c.diagnostics)

end Stencil
