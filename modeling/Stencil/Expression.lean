import Stencil.Span
import Stencil.Text.Quoted
import Stencil.Render.Helper

/-! # Script expressions in a template

An expression is one snippet of script, or a sequence of parts: script as written, qualified names,
and the texts and interpolations of a text run.
-/

namespace Stencil

/-- How constant an expression or a subtree is, weakest first. -/
inductive Constancy where
  | dynamic
  /-- Never changes once made, but is made on every render. -/
  | unpatched
  /-- Can be made once and used again. -/
  | hoistable
  /-- Can be written as a static string. -/
  | stringifiable
  deriving Repr, DecidableEq

namespace Constancy

def rank : Constancy → Nat
  | dynamic => 0
  | unpatched => 1
  | hoistable => 2
  | stringifiable => 3

def ofRank : Nat → Constancy
  | 0 => dynamic
  | 1 => unpatched
  | 2 => hoistable
  | _ => stringifiable

def min (a b : Constancy) : Constancy :=
  if a.rank ≤ b.rank then a else b

def canHoist (a : Constancy) : Bool :=
  2 ≤ a.rank

def isConstant (a : Constancy) : Bool :=
  a != dynamic

end Constancy

structure TextNode where
  content : String
  span : Span
  deriving Repr, DecidableEq

def TextNode.isSpace (t : TextNode) : Bool :=
  t.content.toList.all Text.isTextSpace

structure Comment where
  content : String
  span : Span
  deriving Repr, DecidableEq

/-- One piece of script, or a static string. -/
structure Snippet where
  /-- The code to write. Qualified names carry their context here. -/
  content : String
  isStatic : Bool
  level : Constancy
  /-- The code as the template has it. -/
  source : String
  span : Span
  deriving Repr, DecidableEq

namespace Snippet

def new (content : String) (isStatic : Bool) (span : Span) : Snippet :=
  { content, isStatic, level := if isStatic then .stringifiable else .dynamic, source := content,
    span }

def withLevel (s : Snippet) (level : Constancy) : Snippet :=
  { s with level }

def code (s : Snippet) : String :=
  if s.isStatic then Text.quote s.content else s.content

end Snippet

mutual
structure Compound where
  parts : List Part
  level : Constancy
  source : String
  span : Span
inductive Part where
  | raw (code : String)
  | expr (e : Expression)
  | text (t : TextNode)
  | interpolation (content : Expression) (span : Span)
  | helper (h : Helper)
inductive Expression where
  | simple (s : Snippet)
  | compound (c : Compound)
end

/-- A dynamic compound without source. -/
def Compound.new (parts : List Part) (span : Span) : Compound :=
  ⟨parts, .dynamic, "", span⟩

namespace Expression

def snippet (content : String) (isStatic : Bool) (span : Span) : Expression :=
  .simple (Snippet.new content isStatic span)

def span : Expression → Span
  | .simple s => s.span
  | .compound c => c.span

def source : Expression → String
  | .simple s => s.source
  | .compound c => c.source

def level : Expression → Constancy
  | .simple s => s.level
  | .compound c => c.level

def isStatic : Expression → Bool
  | .simple s => s.isStatic
  | .compound _ => false

def static? : Expression → Option String
  | .simple s => if s.isStatic then some s.content else none
  | .compound _ => none

def hasSource (e : Expression) : Bool :=
  !isBlankString e.source

def around (parts : List Part) (e : Expression) : Expression :=
  .compound ⟨parts, .dynamic, e.source, e.span⟩

end Expression

mutual
def Expression.code : Expression → String
  | .simple s => s.code
  | .compound c => c.code
def Compound.code : Compound → String
  | ⟨parts, _, _, _⟩ => Part.codes parts
def Part.code : Part → String
  | .raw code => code
  | .expr e => e.code
  | .text t => Text.quote t.content
  | .interpolation content _ => Helper.toDisplayString.localName ++ "(" ++ content.code ++ ")"
  | .helper h => h.localName
def Part.codes : List Part → String
  | [] => ""
  | p :: ps => p.code ++ Part.codes ps
end

end Stencil
