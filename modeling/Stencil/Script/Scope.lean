import Stencil.Script.Tree

/-! # Names in a script

Which names a script refers to, and which of these it binds itself. A function binds its parameters
and its own name; a block binds what its declarations declare, from its beginning on; a parameter
list binds all its names in the default values of all its parameters.
-/

namespace Stencil.Script

structure Ref where
  ident : Ident
  /-- Written as a shorthand property, so that the name is a key as well. -/
  shorthand : Bool
  bound : Bool
  deriving Repr, DecidableEq

structure Uses where
  refs : List Ref
  /-- The script calls or accesses something, or mentions `this`. -/
  computes : Bool
  deriving Repr, DecidableEq

namespace Uses

def none : Uses := ⟨[], false⟩

def and (a b : Uses) : Uses :=
  ⟨a.refs ++ b.refs, a.computes || b.computes⟩

def computing (a : Uses) : Uses :=
  { a with computes := true }

def ref (bound : List String) (id : Ident) (shorthand : Bool) : Uses :=
  ⟨[⟨id, shorthand, bound.contains id.name⟩], false⟩

end Uses

mutual
def Pattern.names : Pattern → List String
  | .ident id => [id.name]
  | .object properties => PatternProp.namesAll properties
  | .array items => Pattern.namesAll items
  | .hole => []
  | .default target _ => target.names
  | .rest target => target.names
def Pattern.namesAll : List Pattern → List String
  | [] => []
  | p :: ps => p.names ++ Pattern.namesAll ps
def PatternProp.names : PatternProp → List String
  | .keyValue _ value => value.names
  | .shorthand id _ => [id.name]
  | .rest target => target.names
def PatternProp.namesAll : List PatternProp → List String
  | [] => []
  | p :: ps => p.names ++ PatternProp.namesAll ps
end

def Stmt.declared : Stmt → List String
  | .declare declarators => declarators.flatMap (·.target.names)
  | _ => []

mutual
def Expr.uses (bound : List String) : Expr → Uses
  | .ident id => .ref bound id false
  | .literal => .none
  | .this => Uses.none.computing
  | .template tag parts =>
    match tag with
    | some tag => (tag.uses bound).computing.and (Expr.usesAll bound parts)
    | none => Expr.usesAll bound parts
  | .array items => Expr.usesAll bound items
  | .object properties => ObjectProp.usesAll bound properties
  | .function f => f.uses bound
  | .unary operand => operand.uses bound
  | .binary left right => (left.uses bound).and (right.uses bound)
  | .assign target value => (target.uses bound).and (value.uses bound)
  | .conditional test consequent alternate =>
    ((test.uses bound).and (consequent.uses bound)).and (alternate.uses bound)
  | .sequence items => Expr.usesAll bound items
  | .member object => (object.uses bound).computing
  | .index object property => ((object.uses bound).and (property.uses bound)).computing
  | .call callee args => ((callee.uses bound).and (Expr.usesAll bound args)).computing
  | .new callee args => ((callee.uses bound).and (Expr.usesAll bound args)).computing
  | .spread e => e.uses bound
  | .paren e => e.uses bound
def Expr.usesAll (bound : List String) : List Expr → Uses
  | [] => .none
  | e :: es => (e.uses bound).and (Expr.usesAll bound es)
def ObjectProp.uses (bound : List String) : ObjectProp → Uses
  | .keyValue key value => (key.uses bound).and (value.uses bound)
  | .shorthand id => .ref bound id true
  | .method key f => (key.uses bound).and (f.uses bound)
  | .spread e => e.uses bound
def ObjectProp.usesAll (bound : List String) : List ObjectProp → Uses
  | [] => .none
  | p :: ps => (p.uses bound).and (ObjectProp.usesAll bound ps)
def PropKey.uses (bound : List String) : PropKey → Uses
  | .named => .none
  | .computed e => e.uses bound
def Pattern.uses (bound : List String) : Pattern → Uses
  | .ident _ => .none
  | .object properties => PatternProp.usesAll bound properties
  | .array items => Pattern.usesAll bound items
  | .hole => .none
  | .default target value => (target.uses bound).and (value.uses bound)
  | .rest target => target.uses bound
def Pattern.usesAll (bound : List String) : List Pattern → Uses
  | [] => .none
  | p :: ps => (p.uses bound).and (Pattern.usesAll bound ps)
def PatternProp.uses (bound : List String) : PatternProp → Uses
  | .keyValue key value => (key.uses bound).and (value.uses bound)
  | .shorthand _ value =>
    match value with
    | some e => e.uses bound
    | none => .none
  | .rest target => target.uses bound
def PatternProp.usesAll (bound : List String) : List PatternProp → Uses
  | [] => .none
  | p :: ps => (p.uses bound).and (PatternProp.usesAll bound ps)
def Func.uses (bound : List String) : Func → Uses
  | ⟨name, params, body⟩ =>
    let bound := Pattern.namesAll params ++ name.toList ++ bound
    (Pattern.usesAll bound params).and (body.uses bound)
def FuncBody.uses (bound : List String) : FuncBody → Uses
  | .expr e => e.uses bound
  | .block stmts => Stmt.usesAll (stmts.flatMap Stmt.declared ++ bound) stmts
def Stmt.uses (bound : List String) : Stmt → Uses
  | .expr e => e.uses bound
  | .ret value =>
    match value with
    | some e => e.uses bound
    | none => .none
  | .declare declarators => Declarator.usesAll bound declarators
  | .branch test consequent alternate =>
    let before := (test.uses bound).and (consequent.uses bound)
    match alternate with
    | some s => before.and (s.uses bound)
    | none => before
  | .block stmts => Stmt.usesAll (stmts.flatMap Stmt.declared ++ bound) stmts
  | .empty => .none
def Stmt.usesAll (bound : List String) : List Stmt → Uses
  | [] => .none
  | s :: ss => (s.uses bound).and (Stmt.usesAll bound ss)
def Declarator.uses (bound : List String) : Declarator → Uses
  | ⟨target, value⟩ =>
    match value with
    | some e => (target.uses bound).and (e.uses bound)
    | none => target.uses bound
def Declarator.usesAll (bound : List String) : List Declarator → Uses
  | [] => .none
  | d :: ds => (d.uses bound).and (Declarator.usesAll bound ds)
end

def programUses (stmts : List Stmt) : Uses :=
  Stmt.usesAll (stmts.flatMap Stmt.declared) stmts

def paramsUses (params : List Pattern) : Uses :=
  Pattern.usesAll (Pattern.namesAll params) params

end Stencil.Script
