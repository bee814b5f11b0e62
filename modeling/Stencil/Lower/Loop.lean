import Stencil.Lower.Code

/-! # Loops

`v-for="value, key, index in source"` renders its element for every item of the source.
-/

namespace Stencil

/-- What follows blanks, `in` or `of`, and blanks, if all are there and something follows. -/
def loopSource? (cs : List Char) : Option (List Char) :=
  let afterWord := match cs.dropWhile Text.isBlank with
    | 'i' :: 'n' :: rest | 'o' :: 'f' :: rest => rest
    | _ => []
  match afterWord with
  | c :: _ =>
    let source := afterWord.dropWhile Text.isBlank
    if Text.isBlank c && !source.isEmpty then some source else none
  | [] => none

/-- The texts before and after the first `in` or `of` that stands between blanks. -/
def splitLoop? : List Char → Option (List Char × List Char)
  | [] => none
  | c :: cs =>
    match if Text.isBlank c then loopSource? (c :: cs) else none with
    | some source => some ([], source)
    | none => (splitLoop? cs).map fun (front, source) => (c :: front, source)

/-- Key and index after a comma: at most one more comma, and no closing brace or bracket. -/
def keyAndIndex? (cs : List Char) : Option (List Char × Option (List Char)) :=
  if cs.contains '\x7d' || cs.contains ']' then none
  else
    match Text.pieces ',' cs with
    | [key] => some (key, none)
    | [key, index] => some (key, some index)
    | _ => none

/-- The value, and key and index if a comma can begin them. -/
def splitAliases : List Char → List Char × Option (List Char × Option (List Char))
  | [] => ([], none)
  | c :: cs =>
    match if c = ',' then keyAndIndex? cs else none with
    | some rest => ([], some rest)
    | none =>
      let (value, rest) := splitAliases cs
      (c :: value, rest)

/-- A part of a loop without the blanks around it, if anything is left. -/
def loopPart? (offset : Nat) (cs : List Char) : Option Expression :=
  let text := Text.trim cs
  let start := offset + (Text.bytes cs - Text.bytes (Text.trimStart cs))
  if text.isEmpty then none
  else some (.snippet (String.ofList text) false ⟨start, start + Text.bytes text⟩)

/-- Read `value, key, index in source`; the aliases may stand in parentheses. -/
def LoopHead.read? (e : Expression) : Option LoopHead :=
  let cs := e.source.toList
  match splitLoop? cs with
  | none => none
  | some (front, back) =>
    let sourceStart := e.span.start + (Text.bytes cs - Text.bytes back)
    let sourceText := Text.trimEnd back
    let source := Expression.snippet (String.ofList sourceText) false
      ⟨sourceStart, sourceStart + Text.bytes sourceText⟩
    let open_ := Text.trim front
    let start := e.span.start + (Text.bytes front - Text.bytes (Text.trimStart front))
    let (aliases, start) := match open_ with
      | '(' :: rest => (rest, start + 1)
      | _ => (open_, start)
    let aliases := (Text.before? [')'] aliases).getD aliases
    let (value, rest) := splitAliases aliases
    let keyStart := start + Text.bytes value + 1
    match rest with
    | none => some ⟨source, loopPart? start value, none, none⟩
    | some (key, index) =>
      some ⟨source, loopPart? start value, loopPart? keyStart key,
        index.bind (loopPart? (keyStart + Text.bytes key + 1))⟩

/-- The parameters of the function that renders an item. A part that is absent before one that is
    there is filled in. -/
def LoopHead.params (h : LoopHead) : List String :=
  let value := (h.value.map Expression.code).getD "_"
  let key := (h.key.map Expression.code).getD "__"
  match h.index with
  | some index => [value, key, index.code]
  | none =>
    if h.key.isSome then [value, key]
    else if h.value.isSome then [value]
    else []

namespace Lower

def bindAlias : Option Expression → Lower Unit
  | some e => do bindNames .loop (← bindingNames e)
  | none => return ()

def processAlias : Option Expression → Lower (Option Expression)
  | some e => some <$> processParams e
  | none => return none

/-- Bind the names of a loop, and qualify the default values in its aliases. -/
def enterLoop (h : LoopHead) : Lower LoopHead := do
  bindAlias h.value
  bindAlias h.key
  bindAlias h.index
  let value ← processAlias h.value
  let key ← processAlias h.key
  let index ← processAlias h.index
  return { h with value, key, index }

/-- The loop of a directive, with its source qualified. What is wrong with it is reported. -/
def loopHead? (d : Directive) : Lower (Option LoopHead) :=
  match d.script? with
  | none => do
    error .forNoExpression d.span
    return none
  | some e =>
    match LoopHead.read? e with
    | none => do
      error .forMalformedExpression e.span
      return none
    | some head => do
      let source ← process head.source .expression
      return some { head with source }

def templateKey? (el : Element) : Lower (Option Property) := do
  match el.findProp? "key" true with
  | some (.attribute a) => return some (.named "key" (.string a.text))
  | some (.directive d) =>
    match d.exp with
    | some e => return some (.named "key" (.expr (← process e .expression)))
    | none => return none
  | none => return none

/-- Report keys that stand on the children of a `<template v-for>`. -/
def checkKeyPlacement : List TemplateNode → Lower Unit
  | [] => return ()
  | node :: nodes => do
    match (node.element?).bind (·.findProp? "key" true) with
    | some p => error .forTemplateKeyPlacement p.span
    | none => pure ()
    checkKeyPlacement nodes

def itemKey? (el : Element) (children : List TemplateNode) : Lower (Option Property) :=
  if el.kind == .template then do
    let key ← templateKey? el
    checkKeyPlacement children
    return key
  else return none

/-- The node that is rendered for an item. Items of a list that may change are blocks. -/
def itemCode (children : List TemplateNode) (key : Option Property) (isStable : Bool) :
    Lower RenderNode := do
  match children with
  | [.element el inner] =>
    let node ← code (.element el inner)
    let node := match key with
      | some p => node.inject p
      | none => node
    match node with
    | .vnode v =>
      if el.kind == .slot then return node
      else return .vnode { v with isBlock := v.isComponent || !isStable }
    | _ => return node
  | _ =>
    let id ← fresh
    let nodes ← codes children
    return .vnode { fragment id nodes with
      props := key.map fun p => .object [p]
      isBlock := true }

def loopCode (source : Expression) (params : List String) (item : RenderNode) (flag : PatchFlag)
    (isStable : Bool) (span : Span) : Lower RenderNode := do
  let list := RenderNode.call .renderList [.expr source, .function params (some item) true false]
  let id ← fresh
  return .vnode { VNode.new id (.helper .fragment) with
    children := some (.list list)
    flag
    isBlock := true
    disableTracking := !isStable
    span }

def isStableSource : Expression → Bool
  | .simple s => s.level.isConstant
  | .compound _ => false

def loopFlag (isStable hasKey : Bool) : PatchFlag :=
  if isStable then .stableFragment else if hasKey then .keyedFragment else .unkeyedFragment

end Lower

end Stencil
