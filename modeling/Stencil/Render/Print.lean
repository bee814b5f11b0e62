import Stencil.Naming
import Stencil.Options
import Stencil.Template.Node

/-! # Printing a render function

The render tree is laid out as pieces of code, uses of helpers and line breaks. The text and the
list of helpers are both read off the pieces.
-/

namespace Stencil

inductive Piece where
  | code (text : String)
  | helper (h : Helper)
  /-- A line break and the depth of the next line. -/
  | newline (depth : Nat)

namespace Piece

/-- Write a piece after a text, which is held last character first. A line does not end in
    spaces. -/
def write (text : List Char) : Piece → List Char
  | .code s => s.toList.reverse ++ text
  | .helper h => h.localName.toList.reverse ++ text
  | .newline depth => List.replicate (2 * depth) ' ' ++ '\n' :: text.dropWhile (· == ' ')

def text (pieces : List Piece) : String :=
  String.ofList (pieces.foldl write []).reverse

def helper? : Piece → Option Helper
  | .helper h => some h
  | _ => none

/-- The helpers that pieces use, in order of first use. -/
def helpers (pieces : List Piece) : List Helper :=
  (pieces.filterMap helper?).eraseDups

def join (separator : List Piece) : List (List Piece) → List Piece
  | [] => []
  | [one] => one
  | first :: second :: rest => first ++ separator ++ join separator (second :: rest)

def call (h : Helper) (args : List Piece) : List Piece :=
  .helper h :: .code "(" :: args ++ [.code ")"]

/-- Items between brackets, each on a line of its own if `multiline`. -/
def enclose (depth : Nat) (multiline : Bool) (left right : String) (items : List (List Piece)) :
    List Piece :=
  if multiline then
    .code left :: .newline (depth + 1) ::
      join [.code ",", .newline (depth + 1)] items ++ [.newline depth, .code right]
  else .code left :: join [.code ", "] items ++ [.code right]

end Piece

mutual
def Expression.layout : Expression → List Piece
  | .simple s => [.code s.code]
  | .compound c => c.layout

def Compound.layout : Compound → List Piece
  | ⟨parts, _, _, _⟩ => Part.layouts parts

def Part.layout : Part → List Piece
  | .raw code => [.code code]
  | .expr e => e.layout
  | .text t => [.code (Text.quote t.content)]
  | .interpolation content _ => Piece.call .toDisplayString content.layout
  | .helper h => [.helper h]

def Part.layouts : List Part → List Piece
  | [] => []
  | p :: ps => p.layout ++ Part.layouts ps
end

def layoutKey (key : Expression) : List Piece :=
  match key.static? with
  | some name => [.code (if isPlainKey name then name else Text.quote name)]
  | none => .code "[" :: key.layout ++ [.code "]"]

/-- Lay out the test of a conditional, given its layout as a node. Plain names stand bare. -/
def layoutTest (test : RenderNode) (layout : List Piece) : List Piece :=
  let bare := match test with
    | .expr (.simple s) => isPlainKey s.content
    | _ => false
  if bare then layout else .code "(" :: layout ++ [.code ")"]

def hoistedName (index : Nat) : String :=
  "_hoisted_" ++ toString (index + 1)

/-- Arguments without what is absent at the end; other absent ones are `null`. -/
def layoutArguments (args : List (Option (List Piece))) : List Piece :=
  let given := (args.reverse.dropWhile (·.isNone)).reverse
  Piece.join [.code ", "] (given.map fun arg => arg.getD [.code "null"])

def RenderNode.isConditional : RenderNode → Bool
  | .conditional _ _ _ _ => true
  | _ => false

def RenderNode.isSimple : RenderNode → Bool
  | .expr (.simple _) => true
  | _ => false

def isLongArray (nodes : List RenderNode) : Bool :=
  3 < nodes.length || nodes.any (!·.isTextLike)

def isLongObject (properties : List Property) : Bool :=
  1 < properties.length && properties.any (!·.value.isSimple)

def VNode.layout (v : VNode) (tag : List Piece) (props children directives : Option (List Piece)) :
    List Piece :=
  let flag := if v.flag.isEmpty then none else some [Piece.code v.flag.code]
  let names := v.dynamicProps.map Text.quote
  let dynamicProps :=
    if names.isEmpty then none else some [Piece.code ("[" ++ ", ".intercalate names ++ "]")]
  let creation := Piece.call (.forVNode v.isBlock v.isComponent)
    (layoutArguments [some tag, props, children, flag, dynamicProps])
  let block :=
    if v.isBlock then
      .code "(" :: .helper .openBlock ::
        .code (if v.disableTracking then "(true), " else "(), ") :: creation ++ [.code ")"]
    else creation
  match directives with
  | some list => Piece.call .withDirectives (block ++ .code ", " :: list)
  | none => block

mutual
def RenderNode.layout (depth : Nat) : RenderNode → List Piece
  | .vnode v => layoutVNode depth v
  | .call callee args => Piece.call callee (Piece.join [.code ", "] (RenderNode.layouts depth args))
  | .object properties =>
    if properties.isEmpty then [.code "\x7b\x7d"]
    else if isLongObject properties then
      Piece.enclose depth true "\x7b" "\x7d" (layoutProperties (depth + 1) properties)
    else Piece.enclose depth false "\x7b " " \x7d" (layoutProperties depth properties)
  | .array elements =>
    let long := isLongArray elements
    Piece.enclose depth long "[" "]"
      (RenderNode.layouts (if long then depth + 1 else depth) elements)
  | .function params returns newline isSlot =>
    let head := Piece.code ("(" ++ ", ".intercalate params ++ ") => ")
    let body :=
      if newline then
        .code "\x7b" :: .newline (depth + 1) ::
          (match returns with
            | some node => .code "return " :: node.layout (depth + 1)
            | none => []) ++ [.newline depth, .code "\x7d"]
      else
        match returns with
        | some node => node.layout depth
        | none => [.code "\x7b\x7d"]
    if isSlot then Piece.call .withCtx (head :: body) else head :: body
  | .conditional test consequent alternate newline =>
    let test := layoutTest test (test.layout depth)
    let nested := alternate.isConditional
    if newline then
      test ++ .newline (depth + 1) :: .code "? " :: consequent.layout (depth + 2) ++
        .newline (depth + 1) :: .code ": " ::
          alternate.layout (if nested then depth + 1 else depth + 2)
    else
      test ++ .code " ? " :: consequent.layout (depth + 1) ++
        .code " : " :: alternate.layout (if nested then depth else depth + 1)
  | .expr e => e.layout
  | .text t => [.code (Text.quote t.content)]
  | .interpolation content _ => Piece.call .toDisplayString content.layout
  | .comment c => Piece.call .createComment [.code (Text.quote c.content)]
  | .textCall t => layoutTextCall depth t
  | .hoisted index => [.code (hoistedName index)]
  | .helper h => [.helper h]

def layoutVNode (depth : Nat) : VNode → List Piece
  | ⟨id, tag, props, children, flag, dynamicProps, directives, isBlock, disableTracking,
      isComponent, dynamicChildren, span⟩ =>
    VNode.layout ⟨id, tag, props, children, flag, dynamicProps, directives, isBlock,
        disableTracking, isComponent, dynamicChildren, span⟩
      (layoutTag depth tag)
      (match props with
        | some p => some (p.layout depth)
        | none => none)
      (match children with
        | some c => some (layoutChildren depth c)
        | none => none)
      (match directives with
        | some elements =>
          let long := isLongArray elements
          some (Piece.enclose depth long "[" "]"
            (RenderNode.layouts (if long then depth + 1 else depth) elements))
        | none => none)

def layoutTag (depth : Nat) : Tag → List Piece
  | .literal name => [.code (Text.quote name)]
  | .component name => [.code name]
  | .helper h => [.helper h]
  | .dynamic node => node.layout depth

def layoutChildren (depth : Nat) : Children → List Piece
  | .nodes nodes =>
    let long := isLongArray nodes
    Piece.enclose depth long "[" "]" (RenderNode.layouts (if long then depth + 1 else depth) nodes)
  | .single node | .slots node | .list node => node.layout depth
  | .hoisted index => [.code (hoistedName index)]

def layoutTextCall (depth : Nat) : TextCall → List Piece
  | ⟨_, content, flag, _⟩ =>
    Piece.call .createText
      (match content with
        | some node =>
          node.layout depth ++ if flag.isDynamic then [.code (", " ++ flag.code)] else []
        | none => [])

def RenderNode.layouts (depth : Nat) : List RenderNode → List (List Piece)
  | [] => []
  | node :: nodes => node.layout depth :: RenderNode.layouts depth nodes

def layoutProperties (depth : Nat) : List Property → List (List Piece)
  | [] => []
  | ⟨key, value⟩ :: properties =>
    (layoutKey key ++ .code ": " :: value.layout depth) :: layoutProperties depth properties
end

/-! ## The whole script -/

structure Printed where
  /-- The whole script, preamble included. -/
  code : String
  preamble : String
  helpers : List Helper
  hoists : List String

/-- Whether the render function runs inside its context instead of naming it. -/
def Options.runsInContext (o : Options) : Bool :=
  !o.qualify && o.mode == .function

/-- Lay out a hoisted constant. Calls are marked as free of side effects. -/
def layoutHoist (node : RenderNode) : List Piece :=
  let mark := match node with
    | .vnode _ | .textCall _ | .call _ _ => [Piece.code "/*#__PURE__*/"]
    | _ => []
  mark ++ node.layout 0

def layoutAsset (depth : Nat) (kind : String) (resolver : Helper) (name : String) : List Piece :=
  .code ("const " ++ assetVariable name kind ++ " = ") ::
    Piece.call resolver [.code (Text.quote name)] ++ [.newline depth]

/-- Lay out the look-ups of a template, and an empty line after them. -/
def Root.layoutAssets (root : Root) (depth : Nat) : List Piece :=
  let assets :=
    root.components.flatMap (layoutAsset depth "component" .resolveComponent) ++
      root.directives.flatMap (layoutAsset depth "directive" .resolveDirective)
  if assets.isEmpty then [] else assets ++ [.newline depth]

def Root.layoutBody (root : Root) (depth : Nat) : List Piece :=
  root.layoutAssets depth ++ .code "return " ::
    match root.code with
    | some node => node.layout depth
    | none => [.code "null"]

def destructure (helpers : List Helper) : String :=
  "\x7b " ++ ", ".intercalate (helpers.map fun h => h.name ++ ": " ++ h.localName) ++ " \x7d"

def importList (helpers : List Helper) : String :=
  "\x7b " ++ ", ".intercalate (helpers.map fun h => h.name ++ " as " ++ h.localName) ++ " \x7d"

/-- What makes the helpers available before the constants, of which `forHoists` are used there. -/
def Options.printImports (o : Options) (helpers forHoists : List Helper) : String :=
  match o.mode with
  | .module =>
    if helpers.isEmpty then ""
    else "import " ++ importList helpers ++ " from " ++ Text.quote o.runtimeModule ++ "\n\n"
  | .function =>
    if o.runsInContext then
      "const _Vue = " ++ o.runtimeGlobal ++ "\n" ++
        (if forHoists.isEmpty then "" else "const " ++ destructure forHoists ++ " = _Vue\n") ++ "\n"
    else if helpers.isEmpty then ""
    else "const " ++ destructure helpers ++ " = " ++ o.runtimeGlobal ++ "\n\n"

def printHoists (index : Nat) : List String → String
  | [] => ""
  | hoist :: hoists =>
    "const " ++ hoistedName index ++ " = " ++ hoist ++ "\n" ++ printHoists (index + 1) hoists

def Options.printFunction (o : Options) (helpers : List Helper) (body : String) : String :=
  let head := match o.mode with
    | .module => "export function render(_ctx, _cache) \x7b\n"
    | .function => "return function render(_ctx, _cache) \x7b\n"
  if o.runsInContext then
    head ++ "  with (_ctx) \x7b\n" ++
      (if helpers.isEmpty then "" else "    const " ++ destructure helpers ++ " = _Vue\n\n") ++
      "    " ++ body ++ "\n  \x7d\n\x7d"
  else head ++ "  " ++ body ++ "\n\x7d"

def Root.print (root : Root) (o : Options) : Printed :=
  let hoists := root.hoists.map layoutHoist
  let body := root.layoutBody (if o.runsInContext then 2 else 1)
  let forHoists := Piece.helpers hoists.flatten
  let helpers := Piece.helpers (hoists.flatten ++ body)
  let hoistTexts := hoists.map Piece.text
  let preamble := o.printImports helpers forHoists ++ printHoists 0 hoistTexts ++
    if hoists.isEmpty then "" else "\n"
  { code := preamble ++ o.printFunction helpers (Piece.text body)
    preamble, helpers, hoists := hoistTexts }

end Stencil
