import Stencil.Dom.Directive

/-! # Properties of a render node

The attributes and directives of an element become an object of properties, a call that merges
several, or nothing; flags tell which of them may change.
-/

namespace Stencil

structure RuntimeDirective where
  directive : Directive
  source : RuntimeSource

structure PropsResult where
  props : Option RenderNode
  flag : PatchFlag
  dynamicProps : List String
  directives : List RuntimeDirective

structure PropsSurvey where
  hasRef : Bool := false
  bindsClass : Bool := false
  bindsStyle : Bool := false
  hasDynamicKeys : Bool := false
  /-- Names of other properties that may change, in order of first mention. -/
  names : List String := []

namespace PropsSurvey

def addName (name : String) (s : PropsSurvey) : PropsSurvey :=
  if s.names.contains name then s else { s with names := s.names ++ [name] }

/-- Take a property that may change into account. Components take class and style as they take any
    other property. -/
def addDynamic (isComponent : Bool) (name : String) (s : PropsSurvey) : PropsSurvey :=
  match name with
  | "ref" => { s with hasRef := true }
  | "class" =>
    let s := { s with bindsClass := true }
    if isComponent then s.addName name else s
  | "style" =>
    let s := { s with bindsStyle := true }
    if isComponent then s.addName name else s
  | "key" => s
  | _ => s.addName name

def add (isComponent : Bool) (s : PropsSurvey) (p : Property) : PropsSurvey :=
  match p.name? with
  | none => { s with hasDynamicKeys := true }
  | some name =>
    match p.value with
    | .expr e => if e.level.isConstant then s else s.addDynamic isComponent name
    | _ => s.addDynamic isComponent name

def flag (s : PropsSurvey) (isComponent hasDirectives : Bool) : PatchFlag :=
  let insertIf (b : Bool) (g f : PatchFlag) : PatchFlag := if b then f.insert g else f
  let f :=
    if s.hasDynamicKeys then PatchFlag.fullProps
    else
      insertIf (!s.names.isEmpty) .props
        (insertIf (s.bindsStyle && !isComponent) .style
          (insertIf (s.bindsClass && !isComponent) .classes .empty))
  insertIf (f.isEmpty && (s.hasRef || hasDirectives)) .needPatch f

end PropsSurvey

/-- Whether several values of one key are all kept. -/
def keepsAllValues (name : String) : Bool :=
  name == "class" || name == "style" || isHandlerKey name

def Property.addValue (value : RenderNode) (p : Property) : Property :=
  match p.value with
  | .array values => { p with value := .array (values ++ [value]) }
  | first => { p with value := .array [first, value] }

def modifyNamed (name : String) (f : Property → Property) : List Property → List Property
  | [] => []
  | p :: ps => if p.name? = some name then f p :: ps else p :: modifyNamed name f ps

/-- Add a property to an object. A name that is there already takes a further value or keeps its
    first one. -/
def insertProperty (ps : List Property) (p : Property) : List Property :=
  match p.name? with
  | none => ps ++ [p]
  | some name =>
    if ps.any (·.name? == some name) then
      if keepsAllValues name then modifyNamed name (·.addValue p.value) ps else ps
    else ps ++ [p]

def mergeProperties (ps : List Property) : List Property :=
  ps.foldl insertProperty []

def RenderNode.isStaticString : RenderNode → Bool
  | .expr e => e.isStatic
  | _ => false

def RenderNode.isArray : RenderNode → Bool
  | .array _ => true
  | _ => false

/-- A property with its value normalised, if it is a class or style that is computed. -/
def normalizeProperty (bindsStyle : Bool) (p : Property) : Property :=
  match p.name? with
  | some "class" =>
    if p.value.isStaticString then p else { p with value := .call .normalizeClass [p.value] }
  | some "style" =>
    if bindsStyle || p.value.isArray then { p with value := .call .normalizeStyle [p.value] }
    else p
  | _ => p

/-- Properties as the run time wants them: normalised here if their keys are known, and otherwise
    at run time. -/
def normalizeProps (bindsStyle : Bool) (props : RenderNode) : RenderNode :=
  match props with
  | .object ps =>
    if ps.any (·.name?.isNone) then .call .normalizeProps [.object ps]
    else .object (ps.map (normalizeProperty bindsStyle))
  | .call _ _ => props
  | other => .call .normalizeProps [.call .guardReactiveProps [other]]

structure PropsBuild where
  pending : List Property := []
  merged : List RenderNode := []
  directives : List RuntimeDirective := []
  survey : PropsSurvey := {}

namespace PropsBuild

def flush (b : PropsBuild) : PropsBuild :=
  if b.pending.isEmpty then b
  else { b with pending := [], merged := b.merged ++ [.object (mergeProperties b.pending)] }

def addPart (node : RenderNode) (b : PropsBuild) : PropsBuild :=
  let b := b.flush
  { b with merged := b.merged ++ [node] }

def addPending (p : Property) (b : PropsBuild) : PropsBuild :=
  { b with pending := b.pending ++ [p] }

def expression? (b : PropsBuild) : Option RenderNode :=
  if b.merged.isEmpty then
    if b.pending.isEmpty then none else some (.object (mergeProperties b.pending))
  else
    match b.flush.merged with
    | [one] => some one
    | several => some (.call .mergeProps several)

end PropsBuild

namespace Lower

def applyRule (rule : DirectiveRule) (d : Directive) (el : Element) : Lower DirectiveResult := do
  match rule with
  | .bind => bindDirective d
  | .on => onDirective d el
  | .model => modelDirective d el
  | .domOn => Dom.handler d el
  | .domModel => Dom.model d el
  | .html => Dom.html d
  | .text => Dom.text d
  | .show => Dom.visibility d
  | .cloak | .ignore => return {}
  | .resolve => return { runtime := some .resolve }
  | .warn message =>
    report { cause := .invalidExpression, message, span := d.span, severity := .warning }
    return {}

def addAttribute (el : Element) (b : PropsBuild) (a : Attribute) : Lower PropsBuild := do
  let isRef := a.name == "ref"
  let b := if isRef then { b with survey := { b.survey with hasRef := true } } else b
  let b := if isRef && 0 < (← get).loopDepth then
    b.addPending (.named "ref_for" (.script "true")) else b
  if a.name == "is" && el.tag == "component" then return b
  else return b.addPending (.named a.name (.string a.text))

def addSpread (isComponent : Bool) (b : PropsBuild) (d : Directive) : Lower PropsBuild := do
  let b := { b with survey := { b.survey with hasDynamicKeys := true } }
  match d.script? with
  | some e =>
    if d.name == "bind" then return b.addPart (.expr e)
    else
      let args := if isComponent then [.expr e] else [.expr e, .script "true"]
      return b.addPart (.call .toHandlers args)
  | none =>
    error (if d.name == "bind" then .bindNoExpression else .onNoExpression) d.span
    return b

/-- Take what a directive was lowered to into the properties. A handler whose event is only known
    at run time is merged on its own. -/
def addResult (isComponent : Bool) (b : PropsBuild) (d : Directive) (result : DirectiveResult) :
    PropsBuild :=
  let b := { b with survey := result.props.foldl (PropsSurvey.add isComponent) b.survey }
  let dynamicEvent := d.name == "on" && d.arg.any (!·.isStatic)
  let b := if dynamicEvent then b.addPart (.object result.props)
    else { b with pending := b.pending ++ result.props }
  match result.runtime with
  | some source => { b with directives := b.directives ++ [⟨d, source⟩] }
  | none => b

def addDirective (el : Element) (b : PropsBuild) (d : Directive) : Lower PropsBuild := do
  let isComponent := el.kind == .component
  if d.name == "slot" then
    if !isComponent then error .slotMisplaced d.span
    return b
  else if d.name == "once" || d.name == "memo" then return b
  else if d.binds "is" && el.tag == "component" then return b
  else if (d.name == "bind" || d.name == "on") && d.arg.isNone then addSpread isComponent b d
  else
    match ← rule? d.name with
    | some rule => return addResult isComponent b d (← applyRule rule d el)
    | none =>
      if isBuiltinDirective d.name then return b
      else return { b with directives := b.directives ++ [⟨d, .resolve⟩] }

def addProp (el : Element) (b : PropsBuild) : ElementProp → Lower PropsBuild
  | .attribute a => addAttribute el b a
  | .directive d => addDirective el b d

def addProps (el : Element) (b : PropsBuild) : List ElementProp → Lower PropsBuild
  | [] => return b
  | p :: ps => do addProps el (← addProp el b p) ps

def buildProps (el : Element) (props : List ElementProp) : Lower PropsResult := do
  let b ← addProps el {} props
  return {
    props := b.expression?.map (normalizeProps b.survey.bindsStyle)
    flag := b.survey.flag (el.kind == .component) (!b.directives.isEmpty)
    dynamicProps := b.survey.names
    directives := b.directives }

def modifierFlag (span : Span) (name : String) : Property :=
  .named name (.expr (.simple ((Snippet.new "true" false span).withLevel .stringifiable)))

/-- The arguments of a directive at run time: the directive, its value, argument and modifiers,
    without what is absent at the end. -/
def runtimeArguments (d : RuntimeDirective) : Lower RenderNode := do
  let absent := RenderNode.script "void 0"
  let { directive := dir, source } := d
  let first ← match source with
    | .helper h => pure (.helper h)
    | .resolve =>
      modify (Context.useDirective dir.name)
      pure (.script (assetVariable dir.name "directive"))
  let needsArg := dir.arg.isSome || !dir.modifiers.isEmpty
  let value := match dir.exp with
    | some e => [.expr e]
    | none => if needsArg then [absent] else []
  let arg := match dir.arg with
    | some a => [.expr a]
    | none => if dir.modifiers.isEmpty then [] else [absent]
  let modifiers := if dir.modifiers.isEmpty then []
    else [.object (dir.modifiers.map (modifierFlag dir.span))]
  return .array (first :: value ++ arg ++ modifiers)

end Lower

end Stencil
